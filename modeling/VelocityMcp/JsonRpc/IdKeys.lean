import VelocityMcp.Json
import VelocityMcp.Lib.Decimal
import VelocityMcp.Lib.Delimited

/-!
# JsonRpc.IdKeys — the keys under which cancellations are kept (`json_rpc.rs`)

`cancellationKey_eq_iff`: which callers share a key.
-/

namespace VelocityMcp.JsonRpc

open Lib

/-! ## Texts of numbers -/

/-- How a finite `f64` is printed (in its shortest form, which is read back as the same number, and never as an
integer), and which characters `{:?}` shows as they are. -/
structure Display where
  f64 : UInt64 → String
  printable : Char → Bool
  f64_inj : ∀ a b, f64Finite a → f64Finite b → f64 a = f64 b → a = b
  f64_chars : ∀ a, f64Finite a → ∀ c ∈ (f64 a).toList, c.isDigit ∨ c ∈ ['-', '+', '.', 'e']
  f64_real : ∀ a, f64Finite a → ∃ c ∈ (f64 a).toList, c ∈ ['.', 'e']

variable {d : Display}

/-- `Number`'s `to_string`. -/
@[grind =] def numberDisplay (d : Display) : Number → String
  | .posInt n => toString n.toNat
  | .negInt i _ => toString i.toInt
  | .float bits _ => d.f64 bits

theorem isDigit_of_mem {n : ℕ} {c : Char} (h : c ∈ Nat.toDigits 10 n) : c.isDigit :=
  Nat.isDigit_of_mem_toDigits (by decide) (by decide) h

theorem toInt_neg {i : Int64} (h : i < 0) : i.toInt < 0 := by
  rwa [Int64.lt_iff_toInt_lt, Int64.toInt_zero] at h

theorem mem_numberDisplay {n : Number} {c : Char} (h : c ∈ (numberDisplay d n).toList) :
    c.isDigit ∨ c ∈ ['-', '+', '.', 'e'] := by
  cases n with
  | posInt n =>
    rw [numberDisplay, toList_toString_nat] at h
    exact Or.inl (isDigit_of_mem h)
  | negInt i neg =>
    rw [numberDisplay, toList_toString_neg (toInt_neg neg)] at h
    rcases List.mem_cons.mp h with rfl | h
    · exact Or.inr (by decide)
    · exact Or.inl (isDigit_of_mem h)
  | float bits finite => exact d.f64_chars bits finite c h

theorem not_mem_of_isDigit {bits : UInt64} (finite : f64Finite bits) {text : List Char}
    (h : ∀ c ∈ text, c.isDigit ∨ c = '-') : text ≠ (d.f64 bits).toList := by
  rintro rfl
  obtain ⟨c, hc, hreal⟩ := d.f64_real bits finite
  rcases List.mem_cons.mp hreal with rfl | hreal
  · exact absurd (h _ hc) (by decide)
  · obtain rfl := List.mem_singleton.mp hreal
    exact absurd (h _ hc) (by decide)

theorem digits_of_int (n : Number) (h : ∀ bits finite, n ≠ .float bits finite) :
    ∀ c ∈ (numberDisplay d n).toList, c.isDigit ∨ c = '-' := by
  intro c hc
  cases n with
  | posInt n =>
    rw [numberDisplay, toList_toString_nat] at hc
    exact Or.inl (isDigit_of_mem hc)
  | negInt i neg =>
    rw [numberDisplay, toList_toString_neg (toInt_neg neg)] at hc
    rcases List.mem_cons.mp hc with rfl | hc
    · exact Or.inr rfl
    · exact Or.inl (isDigit_of_mem hc)
  | float bits finite => exact absurd rfl (h bits finite)

theorem numberDisplay_injective : Function.Injective (numberDisplay d) := by
  intro a b h
  have hlist := congrArg String.toList h
  cases a with
  | posInt n =>
    cases b with
    | posInt m =>
      rw [numberDisplay, numberDisplay, toList_toString_nat, toList_toString_nat] at hlist
      rw [UInt64.toNat_inj.mp (toDigits_injective (by decide) (by decide) hlist)]
    | negInt j neg =>
      rw [numberDisplay, numberDisplay, toList_toString_nat, toList_toString_neg (toInt_neg neg)] at hlist
      have hmem : '-' ∈ Nat.toDigits 10 n.toNat := hlist ▸ List.mem_cons_self
      exact absurd (isDigit_of_mem hmem) (by decide)
    | float bits finite => exact absurd hlist (not_mem_of_isDigit finite (digits_of_int _ (by simp)))
  | negInt i neg =>
    cases b with
    | posInt m =>
      rw [numberDisplay, numberDisplay, toList_toString_nat, toList_toString_neg (toInt_neg neg)] at hlist
      have hmem : '-' ∈ Nat.toDigits 10 m.toNat := hlist ▸ List.mem_cons_self
      exact absurd (isDigit_of_mem hmem) (by decide)
    | negInt j neg' =>
      rw [numberDisplay, numberDisplay, toList_toString_neg (toInt_neg neg),
        toList_toString_neg (toInt_neg neg')] at hlist
      have habs := toDigits_injective (by decide) (by decide) (List.cons.inj hlist).2
      have hi := toInt_neg neg
      have hj := toInt_neg neg'
      obtain rfl : i = j := Int64.toInt_inj.mp (by omega)
      rfl
    | float bits finite => exact absurd hlist (not_mem_of_isDigit finite (digits_of_int _ (by simp)))
  | float bits finite =>
    cases b with
    | posInt m => exact absurd hlist.symm (not_mem_of_isDigit finite (digits_of_int _ (by simp)))
    | negInt j neg => exact absurd hlist.symm (not_mem_of_isDigit finite (digits_of_int _ (by simp)))
    | float bits' finite' =>
      obtain rfl := d.f64_inj bits bits' finite finite' h
      rfl

/-! ## The `{:?}` of strings -/

def shortEscapes : List (Char × Char) :=
  [('\x00', '0'), ('\t', 't'), ('\n', 'n'), ('\r', 'r'), ('\x22', '\x22'), ('\\', '\\')]

def shortEscape (c : Char) : Option Char := getKey c shortEscapes

/-- `char::escape_debug`, as strings use it. -/
@[grind =] def escapeDebug (d : Display) (c : Char) : List Char :=
  match shortEscape c with
  | some x => ['\\', x]
  | none =>
    if d.printable c then [c] else '\\' :: 'u' :: '\x7b' :: (Nat.toDigits 16 c.toNat ++ ['\x7d'])

/-- The `{:?}` of a string. -/
def debugString (d : Display) (s : String) : List Char := '\x22' :: (s.toList.flatMap (escapeDebug d) ++ ['\x22'])

theorem shortEscape_inj {c c' x : Char} (h : shortEscape c = some x) (h' : shortEscape c' = some x) : c = c' := by
  have hall : ∀ p ∈ shortEscapes, ∀ q ∈ shortEscapes, p.2 = q.2 → p.1 = q.1 := by decide
  exact hall _ (mem_of_getKey h) _ (mem_of_getKey h') rfl

theorem shortEscape_ne_u {c x : Char} (h : shortEscape c = some x) : x ≠ 'u' := by
  have hall : ∀ p ∈ shortEscapes, p.2 ≠ 'u' := by decide
  exact hall _ (mem_of_getKey h)

theorem ne_of_shortEscape {c : Char} (h : shortEscape c = none) : c ≠ '\\' ∧ c ≠ '\x22' := by
  constructor
  · rintro rfl
    exact absurd h (by decide)
  · rintro rfl
    exact absurd h (by decide)

theorem escapeDebug_cases (d : Display) (c : Char) :
    (∃ x, shortEscape c = some x ∧ escapeDebug d c = ['\\', x]) ∨
    (shortEscape c = none ∧ escapeDebug d c = [c]) ∨
    escapeDebug d c = '\\' :: 'u' :: '\x7b' :: (Nat.toDigits 16 c.toNat ++ ['\x7d']) := by
  cases h : shortEscape c with
  | some x => exact Or.inl ⟨x, rfl, by rw [escapeDebug, h]⟩
  | none =>
    by_cases hp : d.printable c
    · exact Or.inr (Or.inl ⟨rfl, by simp [escapeDebug, h, hp]⟩)
    · exact Or.inr (Or.inr (by simp [escapeDebug, h, hp]))

theorem head_escapeDebug (d : Display) (c : Char) : ∃ x text, escapeDebug d c = x :: text ∧ x ≠ '\x22' := by
  rcases escapeDebug_cases d c with ⟨x, -, h⟩ | ⟨hno, h⟩ | h
  · exact ⟨_, _, h, by decide⟩
  · exact ⟨_, _, h, (ne_of_shortEscape hno).2⟩
  · exact ⟨_, _, h, by decide⟩

theorem hex_injective : Function.Injective fun c : Char => Nat.toDigits 16 c.toNat := by
  intro c c' h
  exact Char.toNat_inj.mp (toDigits_injective (by decide) (by decide) h)

theorem brace_not_mem_hex (c : Char) : '\x7d' ∉ Nat.toDigits 16 c.toNat := by
  intro h
  obtain ⟨n, hn, heq⟩ := mem_toDigits (by decide) (by decide) h
  have hall : ∀ i : Fin 16, '\x7d' ≠ Nat.digitChar i := by decide
  exact hall ⟨n, hn⟩ heq

theorem delimitedAt_escapeDebug (c : Char) : DelimitedAt (escapeDebug d) c := by
  intro c' r s heq
  rcases escapeDebug_cases d c with ⟨x, hx, h⟩ | ⟨hno, h⟩ | h <;>
    rcases escapeDebug_cases d c' with ⟨x', hx', h'⟩ | ⟨hno', h'⟩ | h' <;> rw [h, h'] at heq
  · obtain ⟨rfl, hrest⟩ := List.cons.inj (List.cons.inj heq).2
    exact ⟨shortEscape_inj hx hx', hrest⟩
  · exact absurd (List.cons.inj heq).1.symm (ne_of_shortEscape hno').1
  · exact absurd (List.cons.inj (List.cons.inj heq).2).1 (shortEscape_ne_u hx)
  · exact absurd (List.cons.inj heq).1 (ne_of_shortEscape hno).1
  · exact List.cons.inj heq
  · exact absurd (List.cons.inj heq).1 (ne_of_shortEscape hno).1
  · exact absurd (List.cons.inj (List.cons.inj heq).2).1.symm (shortEscape_ne_u hx')
  · exact absurd (List.cons.inj heq).1.symm (ne_of_shortEscape hno').1
  · have hdigits := (List.cons.inj (List.cons.inj (List.cons.inj heq).2).2).2
    exact delimited_terminated hex_injective brace_not_mem_hex c c' r s hdigits

theorem delimitedAt_debugString (s : String) : DelimitedAt (debugString d) s := by
  intro s' r t heq
  have hlists := delimitedAt_flatMap (head_escapeDebug d) (fun c _ => delimitedAt_escapeDebug (d := d) c)
    (l := s.toList) s'.toList r t (List.cons.inj heq).2
  exact ⟨String.toList_inj.mp hlists.1, hlists.2⟩

/-! ## The `{:?}` of values -/

mutual

/-- The `{:?}` of a value. -/
@[grind =] def debugText (d : Display) : Value → List Char
  | .null => ['N', 'u', 'l', 'l']
  | .bool b => ['B', 'o', 'o', 'l', '('] ++ ((if b then ['t', 'r', 'u', 'e'] else ['f', 'a', 'l', 's', 'e']) ++ [')'])
  | .number n => ['N', 'u', 'm', 'b', 'e', 'r', '('] ++ ((numberDisplay d n).toList ++ [')'])
  | .string s => ['S', 't', 'r', 'i', 'n', 'g', '('] ++ (debugString d s ++ [')'])
  | .array [] => ['A', 'r', 'r', 'a', 'y', ' ', '[', ']']
  | .array (v :: vs) => ['A', 'r', 'r', 'a', 'y', ' ', '['] ++ (debugText d v ++ (moreItemsDebug d vs ++ [']']))
  | .object [] => ['O', 'b', 'j', 'e', 'c', 't', ' ', '\x7b', '\x7d']
  | .object ((k, v) :: fs) => ['O', 'b', 'j', 'e', 'c', 't', ' ', '\x7b'] ++
      (debugString d k ++ ([':', ' '] ++ (debugText d v ++ (moreFieldsDebug d fs ++ ['\x7d']))))

def moreItemsDebug (d : Display) : List Value → List Char
  | [] => []
  | v :: vs => [',', ' '] ++ (debugText d v ++ moreItemsDebug d vs)

def moreFieldsDebug (d : Display) : List (String × Value) → List Char
  | [] => []
  | (k, v) :: fs =>
    [',', ' '] ++ (debugString d k ++ ([':', ' '] ++ (debugText d v ++ moreFieldsDebug d fs)))

end

def debugField (d : Display) (p : String × Value) : List Char :=
  debugString d p.1 ++ ([':', ' '] ++ debugText d p.2)

theorem moreItemsDebug_eq (vs : List Value) :
    moreItemsDebug d vs = vs.flatMap fun v => [',', ' '] ++ debugText d v := by
  induction vs with
  | nil => rfl
  | cons v vs ih => rw [moreItemsDebug, ih, List.flatMap_cons, List.append_assoc]

theorem moreFieldsDebug_eq (fs : List (String × Value)) :
    moreFieldsDebug d fs = fs.flatMap fun p => [',', ' '] ++ debugField d p := by
  induction fs with
  | nil => rfl
  | cons p fs ih =>
    obtain ⟨k, v⟩ := p
    rw [moreFieldsDebug, ih, List.flatMap_cons, debugField]
    simp only [List.append_assoc]

theorem head_debugText (v : Value) : ∃ c text, debugText d v = c :: text ∧ c ∈ ['N', 'B', 'S', 'A', 'O'] := by
  cases v with
  | null => exact ⟨_, _, rfl, by decide⟩
  | bool b => exact ⟨_, _, rfl, by decide⟩
  | number n => exact ⟨_, _, rfl, by decide⟩
  | string s => exact ⟨_, _, rfl, by decide⟩
  | array items => cases items <;> exact ⟨_, _, rfl, by decide⟩
  | object fields => rcases fields with _ | ⟨⟨k, v⟩, fs⟩ <;> exact ⟨_, _, rfl, by decide⟩

theorem paren_not_mem_display (n : Number) : ')' ∉ (numberDisplay d n).toList := by
  intro h
  rcases mem_numberDisplay h with h | h
  · exact absurd h (by decide)
  · exact absurd h (by decide)

theorem delimitedAt_more {α : Type} {f : α → List Char} {stop : Char} (hstop : stop ≠ ',') {a : α} {l : List α}
    (hf : ∀ b ∈ a :: l, DelimitedAt f b) :
    DelimitedAt (fun p : α × List α => f p.1 ++ (p.2.flatMap (fun b => [',', ' '] ++ f b) ++ [stop])) (a, l) := by
  have hhead : ∀ b, ∃ c text, [',', ' '] ++ f b = c :: text ∧ c ≠ stop := fun b => ⟨',', _, rfl, hstop.symm⟩
  refine .append (hf a List.mem_cons_self) (delimitedAt_flatMap hhead fun b hb => ?_)
  exact (hf b (List.mem_cons_of_mem _ hb)).prepend [',', ' ']

/-- The first three characters tell what kind of value it is. -/
@[grind =] def kindWord : Value → List Char
  | .null => ['N', 'u', 'l']
  | .bool _ => ['B', 'o', 'o']
  | .number _ => ['N', 'u', 'm']
  | .string _ => ['S', 't', 'r']
  | .array _ => ['A', 'r', 'r']
  | .object _ => ['O', 'b', 'j']

theorem take_debugText (v : Value) (r : List Char) : (debugText d v ++ r).take 3 = kindWord v := by
  cases v with
  | array items => cases items <;> rfl
  | object fields => rcases fields with _ | ⟨⟨k, v⟩, fs⟩ <;> rfl
  | _ => rfl

theorem kindWord_eq {v w : Value} {r s : List Char} (h : debugText d v ++ r = debugText d w ++ s) :
    kindWord v = kindWord w := by
  rw [← take_debugText (d := d) v r, h, take_debugText]

section Items

/-- The items and the closing bracket, behind the opening one. -/
@[grind =] def itemsDebug (d : Display) : List Value → List Char
  | [] => [']']
  | v :: vs => debugText d v ++ (vs.flatMap (fun v => [',', ' '] ++ debugText d v) ++ [']'])

/-- The fields and the closing brace, behind the opening one. -/
def fieldsDebug (d : Display) : List (String × Value) → List Char
  | [] => ['\x7d']
  | p :: fs => debugField d p ++ (fs.flatMap (fun p => [',', ' '] ++ debugField d p) ++ ['\x7d'])

theorem debugText_array (items : List Value) :
    debugText d (.array items) = ['A', 'r', 'r', 'a', 'y', ' ', '['] ++ itemsDebug d items := by
  cases items with
  | nil => rfl
  | cons v vs => rw [debugText, moreItemsDebug_eq, itemsDebug]

theorem debugText_object (fields : List (String × Value)) :
    debugText d (.object fields) = ['O', 'b', 'j', 'e', 'c', 't', ' ', '\x7b'] ++ fieldsDebug d fields := by
  rcases fields with _ | ⟨⟨k, v⟩, fs⟩
  · rfl
  · rw [debugText, moreFieldsDebug_eq, fieldsDebug, debugField]
    simp only [List.append_assoc]

theorem delimitedAt_itemsDebug {items : List Value} (h : ∀ v ∈ items, DelimitedAt (debugText d) v) :
    DelimitedAt (itemsDebug d) items := by
  intro items' r s heq
  rcases items with _ | ⟨v, vs⟩ <;> rcases items' with _ | ⟨w, ws⟩
  · exact ⟨rfl, (List.cons.inj heq).2⟩
  · obtain ⟨c, text, hw, hc⟩ := head_debugText (d := d) w
    rw [itemsDebug, itemsDebug, hw] at heq
    rw [← (List.cons.inj heq).1] at hc
    exact absurd hc (by decide)
  · obtain ⟨c, text, hv, hc⟩ := head_debugText (d := d) v
    rw [itemsDebug, itemsDebug, hv] at heq
    rw [(List.cons.inj heq).1] at hc
    exact absurd hc (by decide)
  · obtain ⟨hitems, hrs⟩ := delimitedAt_more (by decide) h (w, ws) r s heq
    obtain ⟨rfl, rfl⟩ := Prod.mk.inj hitems
    exact ⟨rfl, hrs⟩

theorem delimitedAt_debugField {p : String × Value} (h : DelimitedAt (debugText d) p.2) :
    DelimitedAt (debugField d) p :=
  .append (delimitedAt_debugString p.1) (h.prepend _)

theorem delimitedAt_fieldsDebug {fields : List (String × Value)}
    (h : ∀ p ∈ fields, DelimitedAt (debugText d) p.2) : DelimitedAt (fieldsDebug d) fields := by
  intro fields' r s heq
  rcases fields with _ | ⟨p, ps⟩ <;> rcases fields' with _ | ⟨q, qs⟩
  · exact ⟨rfl, (List.cons.inj heq).2⟩
  · exact absurd (List.cons.inj heq).1 (by decide)
  · exact absurd (List.cons.inj heq).1 (by decide)
  · obtain ⟨hfields, hrs⟩ :=
      delimitedAt_more (by decide) (fun p hp => delimitedAt_debugField (h p hp)) (q, qs) r s heq
    obtain ⟨rfl, rfl⟩ := Prod.mk.inj hfields
    exact ⟨rfl, hrs⟩

end Items

/-- **The `{:?}` of a value tells the value.** -/
theorem delimitedAt_debugText (v : Value) : DelimitedAt (debugText d) v := by
  induction v with
  | null =>
    intro w r s heq
    have hkind := kindWord_eq heq
    cases w with
    | null => exact ⟨rfl, List.append_cancel_left heq⟩
    | _ => exact absurd hkind (by simp [kindWord])
  | bool b =>
    intro w r s heq
    have hkind := kindWord_eq heq
    cases w with
    | bool b' =>
      cases b <;> cases b'
      · exact ⟨rfl, List.append_cancel_left heq⟩
      · simp [debugText] at heq
      · simp [debugText] at heq
      · exact ⟨rfl, List.append_cancel_left heq⟩
    | _ => exact absurd hkind (by simp [kindWord])
  | number n =>
    intro w r s heq
    have hkind := kindWord_eq heq
    cases w with
    | number m =>
      have hinj : Function.Injective fun n => (numberDisplay d n).toList :=
        fun a b h => numberDisplay_injective (String.toList_inj.mp h)
      obtain ⟨rfl, hrs⟩ := (delimited_terminated hinj paren_not_mem_display n).prepend _ m r s heq
      exact ⟨rfl, hrs⟩
    | _ => exact absurd hkind (by simp [kindWord])
  | string t =>
    intro w r s heq
    have hkind := kindWord_eq heq
    cases w with
    | string t' =>
      rw [debugText, debugText, List.append_assoc, List.append_assoc, List.append_assoc, List.append_assoc] at heq
      obtain ⟨rfl, hrest⟩ := delimitedAt_debugString t t' _ _ (List.append_cancel_left heq)
      exact ⟨rfl, (List.cons.inj hrest).2⟩
    | _ => exact absurd hkind (by simp [kindWord])
  | array items ih =>
    intro w r s heq
    have hkind := kindWord_eq heq
    cases w with
    | array items' =>
      rw [debugText_array, debugText_array] at heq
      obtain ⟨rfl, hrs⟩ := (delimitedAt_itemsDebug ih).prepend _ items' r s heq
      exact ⟨rfl, hrs⟩
    | _ => exact absurd hkind (by simp [kindWord])
  | object fields ih =>
    intro w r s heq
    have hkind := kindWord_eq heq
    cases w with
    | object fields' =>
      rw [debugText_object, debugText_object] at heq
      obtain ⟨rfl, hrs⟩ := (delimitedAt_fieldsDebug ih).prepend _ fields' r s heq
      exact ⟨rfl, hrs⟩
    | _ => exact absurd hkind (by simp [kindWord])

/-! ## Keys -/

def isSessionChar (c : Char) : Bool := c.isAlphanum || c = '-' || c = '_'

def sanitizeSessionId (raw : String) : Except String String :=
  if raw.utf8ByteSize > 128 ∨ raw.isEmpty then .error "Session ID must be 1-128 characters"
  else if ¬ raw.toList.all isSessionChar then
    .error "Session ID must contain only alphanumeric characters, hyphens, or underscores"
  else .ok raw

/-- The id of a session: one a client sent, a fresh UUID, or the name and process id of a local transport. -/
@[ext] structure SessionId where
  text : String
  sanitized : sanitizeSessionId text = .ok text

/-- The key of an id. -/
@[grind =] def idToKey (d : Display) : Value → String
  | .string s => s
  | .number n => numberDisplay d n
  | v => String.ofList (debugText d v)

/-- `cancellation_key`, on a thread with this session. -/
def cancellationKey (d : Display) (session : Option SessionId) (id : Value) : String :=
  match session with
  | some sid => sid.text ++ ":" ++ idToKey d id
  | none => idToKey d id

def printed (d : Display) : Value → Option String
  | .string _ => none
  | .number n => some (numberDisplay d n)
  | v => some (String.ofList (debugText d v))

/-- One of two ids is a string, and the other is printed as it. -/
def SpelledAlike (d : Display) (i j : Value) : Prop :=
  (∃ t, i = .string t ∧ printed d j = some t) ∨ (∃ t, j = .string t ∧ printed d i = some t)

/-- A string that is made of a session and an id in it. -/
def SpellsBoth (d : Display) (i : Value) (sid : SessionId) (j : Value) : Prop :=
  ∃ t, i = .string (sid.text ++ ":" ++ t) ∧ (j = .string t ∨ printed d j = some t)

/-- Two ids in two sessions, or without one, that are not told apart. -/
def Clash (d : Display) : Option SessionId → Value → Option SessionId → Value → Prop
  | some sid, i, some sid', j => sid = sid' ∧ SpelledAlike d i j
  | none, i, none, j => SpelledAlike d i j
  | none, i, some sid, j => SpellsBoth d i sid j
  | some sid, i, none, j => SpellsBoth d j sid i

theorem isSessionChar_of_mem (sid : SessionId) {c : Char} (h : c ∈ sid.text.toList) : isSessionChar c := by
  have hok := sid.sanitized
  unfold sanitizeSessionId at hok
  split_ifs at hok with hlen hall
  exact List.all_eq_true.mp hall c h

theorem colon_not_mem (sid : SessionId) : ':' ∉ sid.text.toList := by
  intro h
  exact absurd (isSessionChar_of_mem sid h) (by decide)

theorem idToKey_eq_iff_printed {v : Value} {t : String} :
    idToKey d v = t ↔ v = .string t ∨ printed d v = some t := by
  cases v with
  | string s => simp [idToKey, printed]
  | _ => simp [idToKey, printed]

theorem printed_cases {v : Value} {t : String} (h : printed d v = some t) :
    (∃ n, v = .number n ∧ t = numberDisplay d n) ∨ t.toList = debugText d v := by
  cases v with
  | string s => cases h
  | number n => exact Or.inl ⟨n, rfl, (Option.some.inj h).symm⟩
  | _ => exact Or.inr (by rw [← Option.some.inj h, String.toList_ofList])

theorem numberDisplay_ne_debugText (n : Number) (v : Value) : (numberDisplay d n).toList ≠ debugText d v := by
  intro h
  obtain ⟨c, text, hv, hc⟩ := head_debugText (d := d) v
  have hall : (['N', 'B', 'S', 'A', 'O'].all fun c => ¬ (c.isDigit ∨ c ∈ ['-', '+', '.', 'e'])) := by decide
  have hnot : ¬ (c.isDigit ∨ c ∈ ['-', '+', '.', 'e']) := by simpa using List.all_eq_true.mp hall c hc
  exact hnot (mem_numberDisplay (d := d) (n := n) (by rw [h, hv]; exact List.mem_cons_self))

theorem printed_injective {v w : Value} {t : String} (hv : printed d v = some t) (hw : printed d w = some t) :
    v = w := by
  rcases printed_cases hv with ⟨n, rfl, ht⟩ | ht <;> rcases printed_cases hw with ⟨m, rfl, ht'⟩ | ht'
  · rw [numberDisplay_injective (ht.symm.trans ht')]
  · exact absurd (ht ▸ ht') (numberDisplay_ne_debugText n w)
  · exact absurd (ht' ▸ ht) (numberDisplay_ne_debugText m v)
  · exact (delimitedAt_debugText v).eq (ht.symm.trans ht')

theorem idToKey_eq_iff {i j : Value} : idToKey d i = idToKey d j ↔ i = j ∨ SpelledAlike d i j := by
  constructor
  · intro h
    rcases idToKey_eq_iff_printed.mp h with hi | hi <;>
      rcases idToKey_eq_iff_printed.mp (Eq.refl (idToKey d j)) with hj | hj
    · exact Or.inl (hi.trans hj.symm)
    · exact Or.inr (Or.inl ⟨_, hi, hj⟩)
    · exact Or.inr (Or.inr ⟨_, hj, hi⟩)
    · exact Or.inl (printed_injective hi hj)
  · rintro (rfl | ⟨t, rfl, hj⟩ | ⟨t, rfl, hi⟩)
    · rfl
    · exact (idToKey_eq_iff_printed.mpr (Or.inr hj)).symm
    · exact idToKey_eq_iff_printed.mpr (Or.inr hi)

theorem debugText_opens (v : Value) : ':' ∉ debugText d v ∨
    ∃ word c rest, debugText d v = word ++ c :: rest ∧ ':' ∉ word ∧ c ≠ ':' ∧ ¬ isSessionChar c := by
  cases v with
  | null =>
    left
    show ':' ∉ ['N', 'u', 'l', 'l']
    decide
  | bool b => exact Or.inr ⟨['B', 'o', 'o', 'l'], '(', _, rfl, by decide⟩
  | number n => exact Or.inr ⟨['N', 'u', 'm', 'b', 'e', 'r'], '(', _, rfl, by decide⟩
  | string s => exact Or.inr ⟨['S', 't', 'r', 'i', 'n', 'g'], '(', _, rfl, by decide⟩
  | array items =>
    rw [debugText_array]
    exact Or.inr ⟨['A', 'r', 'r', 'a', 'y'], ' ', _, rfl, by decide⟩
  | object fields =>
    rw [debugText_object]
    exact Or.inr ⟨['O', 'b', 'j', 'e', 'c', 't'], ' ', _, rfl, by decide⟩

theorem printed_ne_in_session {v : Value} {t u : String} (h : printed d v = some t) (sid : SessionId) :
    t ≠ sid.text ++ ":" ++ u := by
  rintro rfl
  rcases printed_cases h with ⟨n, rfl, ht⟩ | ht
  · have hmem : ':' ∈ (numberDisplay d n).toList := by
      rw [← ht]
      simp
    exact absurd (mem_numberDisplay hmem) (by decide)
  · have hsplit : sid.text.toList ++ ':' :: u.toList = debugText d v := by
      rw [← ht]
      simp
    rcases debugText_opens (d := d) v with hno | ⟨word, c, rest, hv, hword, hc, hnot⟩
    · rw [← hsplit] at hno
      exact hno (by simp)
    · rw [hv] at hsplit
      rcases List.append_eq_append_iff.mp hsplit with ⟨more, hmore, hrest⟩ | ⟨more, hmore, hrest⟩
      · -- the colon stands in the word, or right behind it
        cases more with
        | nil => exact hc (List.cons.inj hrest).1.symm
        | cons x more =>
          obtain ⟨rfl, -⟩ := List.cons.inj hrest
          exact hword (by rw [hmore]; simp)
      · cases more with
        | nil => exact hc (List.cons.inj hrest).1
        | cons x more =>
          obtain ⟨rfl, -⟩ := List.cons.inj hrest
          exact hnot (isSessionChar_of_mem sid (by rw [hmore]; simp))

theorem in_session_inj {sid sid' : SessionId} {t u : String}
    (h : sid.text ++ ":" ++ t = sid'.text ++ ":" ++ u) : sid = sid' ∧ t = u := by
  have hlist := congrArg String.toList h
  simp only [String.toList_append, List.append_assoc] at hlist
  obtain ⟨htext, hrest⟩ := eq_of_append_cons (colon_not_mem sid) (colon_not_mem sid') hlist
  exact ⟨SessionId.ext (String.toList_inj.mp htext), String.toList_inj.mp hrest⟩

theorem spellsBoth_iff {i j : Value} {sid : SessionId} :
    SpellsBoth d i sid j ↔ idToKey d i = sid.text ++ ":" ++ idToKey d j := by
  constructor
  · rintro ⟨t, rfl, hj⟩
    rw [idToKey_eq_iff_printed.mpr hj]
    rfl
  · intro h
    rcases idToKey_eq_iff_printed.mp h with hi | hi
    · exact ⟨_, hi, idToKey_eq_iff_printed.mp rfl⟩
    · exact absurd rfl (printed_ne_in_session hi sid)

/-- **Which ids have one key**: an id has its own, but for those that clash. -/
theorem cancellationKey_eq_iff {s s' : Option SessionId} {i j : Value} :
    cancellationKey d s i = cancellationKey d s' j ↔ (s = s' ∧ i = j) ∨ Clash d s i s' j := by
  cases s with
  | none =>
    cases s' with
    | none => simpa [cancellationKey, Clash] using idToKey_eq_iff
    | some sid => simpa [cancellationKey, Clash] using spellsBoth_iff.symm
  | some sid =>
    cases s' with
    | none => simpa [cancellationKey, Clash, eq_comm] using (spellsBoth_iff (d := d) (i := j) (j := i)).symm
    | some sid' =>
      constructor
      · intro h
        obtain ⟨rfl, hkey⟩ := in_session_inj h
        rcases idToKey_eq_iff.mp hkey with rfl | halike
        · exact Or.inl ⟨rfl, rfl⟩
        · exact Or.inr ⟨rfl, halike⟩
      · rintro (⟨hs, rfl⟩ | ⟨rfl, halike⟩)
        · rw [hs]
        · show sid.text ++ ":" ++ idToKey d i = sid.text ++ ":" ++ idToKey d j
          rw [idToKey_eq_iff.mpr (Or.inr halike)]

end VelocityMcp.JsonRpc
