import VelocityMcp.JsonText
import VelocityMcp.Lib.Lines
import VelocityMcp.Lib.Marks

/-!
# Plugins.Templates — the arguments of a plugin's command line (`plugins/mod.rs`)

`simultaneous_iff`: one after the other comes to the same as all at once if the placeholder of the argument that is
replaced next stands only where the template has it; for keys without braces only then.
-/

namespace VelocityMcp.Plugins

open Lib Template

/-! ## The code -/

def placeholder (key : String) : Bytes := utf8 ("\x7b\x7b" ++ key ++ "\x7d\x7d")

/-- What an argument is replaced by.  How an `f64` is printed is a parameter. -/
def replacement (f64Text : F64Text) : Value → Bytes
  | .string s => utf8 s
  | .number n => numberText f64Text n
  | .bool b => utf8 (if b then "true" else "false")
  | value => jsonText f64Text value

/-- Each argument is replaced in the whole text, in the order of the map. -/
def substituteTemplateVariables (f64Text : F64Text) (template : String) (arguments : Value) : Bytes :=
  match arguments with
  | .object args => args.foldl (fun result (key, value) =>
      Search.replaceAll (placeholder key) (replacement f64Text value) result) (utf8 template)
  | _ => utf8 template

/-! ## One pass over the template -/

def renderings (f64Text : F64Text) (arguments : Value) : List (String × Bytes) :=
  match arguments with
  | .object args => args.map fun (key, value) => (key, replacement f64Text value)
  | _ => []

/-- **Each placeholder of a present argument replaced by its rendering, in one pass from left to right over the
template**; where two begin at one place, the first key of the map counts. -/
def simultaneous (f64Text : F64Text) (template : String) (arguments : Value) : Bytes :=
  onePass id placeholder (renderings f64Text arguments) (utf8 template)

/-- The result is that of the one pass, and also when each byte carries the mark of where it comes from. -/
def Simultaneous (f64Text : F64Text) (template : String) (arguments : Value) : Prop :=
  substituteTemplateVariables f64Text template arguments = simultaneous f64Text template arguments ∧
    Literal placeholder (renderings f64Text arguments) (renderings f64Text arguments) (utf8 template)

/-- **The placeholder of the argument that is replaced next stands only where the template has it.** -/
def OwnPlaceholders (f64Text : F64Text) (template : String) (arguments : Value) : Prop :=
  Own id placeholder (parse id placeholder ((renderings f64Text arguments).map Prod.fst) 0 (utf8 template))
    (fun _ => none) (renderings f64Text arguments)

instance (f64Text : F64Text) (template : String) (arguments : Value) :
    Decidable (OwnPlaceholders f64Text template arguments) := inferInstanceAs (Decidable (Own ..))

/-- The names that the template may refer to. -/
def keysOf (arguments : Value) : List String := (arguments.asObject.getD []).map Prod.fst

/-- A name without braces. -/
def PlainKey (key : String) : Prop := '\x7b' ∉ key.toList ∧ '\x7d' ∉ key.toList

instance (key : String) : Decidable (PlainKey key) := inferInstanceAs (Decidable (_ ∧ _))

section Substitution

variable {f64Text : F64Text} {template : String} {arguments : Value}

theorem keys_renderings : (renderings f64Text arguments).map Prod.fst = keysOf arguments := by
  cases arguments with
  | object args =>
    rw [renderings, List.map_map]
    rfl
  | _ => rfl

theorem nodup_keysOf (hwf : arguments.WF) : (keysOf arguments).Nodup := by
  cases arguments with
  | object args =>
    have hsorted : SortedKeys args := hwf.self
    exact List.pairwise_map.mpr (hsorted.imp fun h => ne_of_lt h)
  | _ => exact List.nodup_nil

theorem placeholder_eq_around : placeholder = fun key => around 2 0x7b 0x7d (utf8 key) := by
  funext key
  rw [placeholder, utf8_append, utf8_append, List.append_assoc]
  rfl

theorem placeholder_ne_nil (key : String) : placeholder key ≠ [] := by
  rw [placeholder_eq_around]
  exact List.cons_ne_nil _ _

theorem substituteTemplateVariables_eq : substituteTemplateVariables f64Text template arguments =
    loop id placeholder (renderings f64Text arguments) (utf8 template) := by
  cases arguments with
  | object args =>
    rw [substituteTemplateVariables, renderings, loop, List.foldl_map]
    congr 1
    funext result a
    exact (replaceBy_id (placeholder_ne_nil a.1) result).symm
  | _ => rfl

theorem brace_not_mem {key : String} {a : Char} {x : UInt8} (hx : x.toNat < 0x80) (ha : a.toNat = x.toNat)
    (h : a ∉ key.toList) : x ∉ utf8 key := by
  rw [← String.ofList_toList (s := key), utf8_ofList]
  exact fun hmem => h (mem_of_mem_encode hx ha hmem)

theorem apart_placeholder {k b : String} (hk : PlainKey k) (hb : PlainKey b) : Apart placeholder k b := by
  rw [placeholder_eq_around]
  apply apart_around Nat.two_pos (by decide) utf8_injective
  · exact brace_not_mem (by decide) rfl hk.2
  · exact brace_not_mem (by decide) rfl hb.1
  · exact brace_not_mem (by decide) rfl hb.2

/-- **If each placeholder stands only where the template has it, all are replaced at once.** -/
theorem simultaneous_of_ownPlaceholders (hwf : arguments.WF) (h : OwnPlaceholders f64Text template arguments) :
    Simultaneous f64Text template arguments := by
  have hnodup : ((renderings f64Text arguments).map Prod.fst).Nodup := keys_renderings ▸ nodup_keysOf hwf
  have hliteral := literal_of_own placeholder_ne_nil hnodup (.refl _) h
  exact ⟨substituteTemplateVariables_eq.trans (loop_eq_of_literal hliteral), hliteral⟩

/-- **The arguments are substituted simultaneously exactly when** the placeholder of the argument that is replaced next
stands only where the template has it; for keys with braces that is enough. -/
theorem simultaneous_iff (f64Text : F64Text) (template : String) (arguments : Value) (hwf : arguments.WF) :
    (OwnPlaceholders f64Text template arguments → Simultaneous f64Text template arguments) ∧
      ((∀ key ∈ keysOf arguments, PlainKey key) →
        (Simultaneous f64Text template arguments ↔ OwnPlaceholders f64Text template arguments)) := by
  refine ⟨simultaneous_of_ownPlaceholders hwf, fun hplain => ⟨fun h => ?_, simultaneous_of_ownPlaceholders hwf⟩⟩
  have hkeys : ∀ a ∈ renderings f64Text arguments, PlainKey a.1 := by
    intro a ha
    apply hplain
    have hmem : a.1 ∈ (renderings f64Text arguments).map Prod.fst := List.mem_map_of_mem ha
    rwa [keys_renderings] at hmem
  apply own_of_literal placeholder_ne_nil (keys_renderings ▸ nodup_keysOf hwf) (.refl _)
  · intro a ha b hb
    exact apart_placeholder (hkeys a ha) (hkeys b hb)
  · exact h.2

/-- Two arguments, one of which the template names. -/
theorem simultaneous_iff_greeting : Simultaneous (fun _ => []) "--name=\x7b\x7bname\x7d\x7d"
    (.object [("greeting", .string "hello"), ("name", .string "world")]) := by
  have hkeys : ["greeting", "name"].Pairwise (· < ·) := by decide
  have hwf : (Value.object [("greeting", .string "hello"), ("name", .string "world")]).WF :=
    Value.all_object.mpr ⟨List.pairwise_map.mp hkeys, by simp [Value.All, Value.KeysSorted]⟩
  exact (simultaneous_iff _ _ _ hwf).1 (by decide +kernel)

/-- A value that looks like the placeholder of a later argument is replaced by that argument. -/
theorem smuggled : ¬∀ f64Text template arguments, arguments.WF →
    substituteTemplateVariables f64Text template arguments = simultaneous f64Text template arguments := by
  intro h
  have hkeys : ["a", "b"].Pairwise (· < ·) := by decide
  have hwf : (Value.object [("a", .string "\x7b\x7bb\x7d\x7d"), ("b", .string "x")]).WF :=
    Value.all_object.mpr ⟨List.pairwise_map.mp hkeys, by simp [Value.All, Value.KeysSorted]⟩
  have hsame := h (fun _ => []) "\x7b\x7ba\x7d\x7d" _ hwf
  revert hsame
  decide +kernel

end Substitution

end VelocityMcp.Plugins
