import Mathlib.Data.List.Forall2
import VelocityMcp.JsonText
import VelocityMcp.Lib.JsonLayout
import VelocityMcp.Lib.JsonWeights

/-!
# JsonReader — the value of a JSON text (`serde_json::from_str`)

`price_le_of_fromStr`: no text of a value is lighter than its spelling.
-/

namespace VelocityMcp

open Lib Lib.JsonSyntax

/-! ## From texts to values -/

mutual

/-- How many arrays and objects lie inside each other. -/
def levels : Tree → ℕ
  | .array items => itemsLevels items + 1
  | .object members => membersLevels members + 1
  | _ => 0

def itemsLevels : List Tree → ℕ
  | [] => 0
  | t :: ts => max (levels t) (itemsLevels ts)

def membersLevels : List (Bytes × Tree) → ℕ
  | [] => 0
  | (_, t) :: ms => max (levels t) (membersLevels ms)

end

section FromStr

variable (number : Bytes → Option Number)

mutual

/-- The value of a tree: the last of several members of one key counts. -/
def valueOf : Tree → Option Value
  | .null => some .null
  | .bool b => some (.bool b)
  | .number text => (number text).map .number
  | .string chars => (fromUtf8 chars).map .string
  | .array items => (itemsOf items).map .array
  | .object members => (fieldsOf members).map fun fields => .object (insertAll [] fields)

def itemsOf : List Tree → Option (List Value)
  | [] => some []
  | t :: ts => do
    let v ← valueOf t
    let vs ← itemsOf ts
    some (v :: vs)

def fieldsOf : List (Bytes × Tree) → Option (List (String × Value))
  | [] => some []
  | (key, t) :: ms => do
    let k ← fromUtf8 key
    let v ← valueOf t
    let fs ← fieldsOf ms
    some ((k, v) :: fs)

end

/-- The depth that `serde_json` does not reach. -/
def recursionLimit : ℕ := 128

/-- The value, if the text is accepted.  Which number the text of a number stands for is a parameter. -/
def fromStr (s : Bytes) : Option Value :=
  (JsonSyntax.read s).bind fun t => if levels t < recursionLimit then valueOf number t else none

variable {number}

theorem itemsOf_eq_some {ts : List Tree} {vs : List Value} :
    itemsOf number ts = some vs ↔ List.Forall₂ (fun t v => valueOf number t = some v) ts vs := by
  induction ts generalizing vs with
  | nil => simp [itemsOf, @eq_comm _ [] vs]
  | cons t ts ih =>
    rw [itemsOf, List.forall₂_cons_left_iff]
    simp only [Option.bind_eq_bind, Option.bind_eq_some_iff, Option.some.injEq]
    constructor
    · rintro ⟨v, hv, vs', hvs, rfl⟩
      exact ⟨v, vs', hv, ih.mp hvs, rfl⟩
    · rintro ⟨v, vs', hv, hvs, rfl⟩
      exact ⟨v, hv, vs', ih.mpr hvs, rfl⟩

theorem fieldsOf_eq_some {ms : List (Bytes × Tree)} {fs : List (String × Value)} :
    fieldsOf number ms = some fs ↔
      List.Forall₂ (fun m f => fromUtf8 m.1 = some f.1 ∧ valueOf number m.2 = some f.2) ms fs := by
  induction ms generalizing fs with
  | nil => simp [fieldsOf, @eq_comm _ [] fs]
  | cons m ms ih =>
    obtain ⟨key, t⟩ := m
    rw [fieldsOf, List.forall₂_cons_left_iff]
    simp only [Option.bind_eq_bind, Option.bind_eq_some_iff, Option.some.injEq]
    constructor
    · rintro ⟨k, hk, v, hv, fs', hfs, rfl⟩
      exact ⟨(k, v), fs', ⟨hk, hv⟩, ih.mp hfs, rfl⟩
    · rintro ⟨⟨k, v⟩, fs', ⟨hk, hv⟩, hfs, rfl⟩
      exact ⟨k, hk, v, hv, fs', ih.mpr hfs, rfl⟩

theorem fromStr_eq_some {s : Bytes} {v : Value} : fromStr number s = some v ↔
    ∃ t, JsonSyntax.read s = some t ∧ levels t < recursionLimit ∧ valueOf number t = some v := by
  rw [fromStr, Option.bind_eq_some_iff]
  refine exists_congr fun t => and_congr_right fun _ => ?_
  split_ifs with h <;> simp [h]

end FromStr

/-! ## A value as it is spelled -/

section TreeOf

variable (f64Text : F64Text)

mutual

/-- A value as it is spelled. -/
def treeOf : Value → Tree
  | .null => .null
  | .bool b => .bool b
  | .number n => .number (numberText f64Text n)
  | .string s => .string (utf8 s)
  | .array items => .array (itemTrees items)
  | .object fields => .object (fieldTrees fields)

def itemTrees : List Value → List Tree
  | [] => []
  | v :: vs => treeOf v :: itemTrees vs

def fieldTrees : List (String × Value) → List (Bytes × Tree)
  | [] => []
  | (k, v) :: fs => (utf8 k, treeOf v) :: fieldTrees fs

end

variable {f64Text}

theorem itemTrees_eq_map (vs : List Value) : itemTrees f64Text vs = vs.map (treeOf f64Text) := by
  induction vs with
  | nil => rfl
  | cons v vs ih => rw [itemTrees, ih, List.map_cons]

theorem fieldTrees_eq_map (fs : List (String × Value)) :
    fieldTrees f64Text fs = fs.map fun p => (utf8 p.1, treeOf f64Text p.2) := by
  induction fs with
  | nil => rfl
  | cons p fs ih =>
    obtain ⟨k, v⟩ := p
    rw [fieldTrees, ih, List.map_cons]

theorem itemsLevels_le {ts : List Tree} {n : ℕ} : itemsLevels ts ≤ n ↔ ∀ t ∈ ts, levels t ≤ n := by
  induction ts with
  | nil => simp [itemsLevels]
  | cons t ts ih => rw [itemsLevels, max_le_iff, ih, List.forall_mem_cons]

theorem membersLevels_le {ms : List (Bytes × Tree)} {n : ℕ} : membersLevels ms ≤ n ↔ ∀ m ∈ ms, levels m.2 ≤ n := by
  induction ms with
  | nil => simp [membersLevels]
  | cons m ms ih =>
    obtain ⟨key, t⟩ := m
    rw [membersLevels, max_le_iff, ih, List.forall_mem_cons]

theorem depth_le_levels (v : Value) : v.depth ≤ levels (treeOf f64Text v) := by
  induction v with
  | array items ih =>
    rw [Value.depth_array_le, treeOf, levels, itemTrees_eq_map]
    intro v hv
    have hle := itemsLevels_le.mp le_rfl _ (List.mem_map_of_mem (f := treeOf f64Text) hv)
    exact Nat.lt_succ_of_le ((ih v hv).trans hle)
  | object fields ih =>
    rw [Value.depth_object_le, treeOf, levels, fieldTrees_eq_map]
    intro p hp
    have hle := membersLevels_le.mp le_rfl _ (List.mem_map_of_mem (f := fun p => (utf8 p.1, treeOf f64Text p.2)) hp)
    exact Nat.lt_succ_of_le ((ih p hp).trans hle)
  | _ => exact Nat.zero_le _

end TreeOf

/-! ## What has been read -/

section Read

variable {number : Bytes → Option Number} {f64Text : F64Text} {w price : UInt8 → ℕ}

theorem membersPrice_insertKey (k : String) (v : Value) (fs : List (String × Value)) :
    membersPrice w price (fieldTrees f64Text (insertKey k v fs)) ≤
      weight price (utf8 k) + (treeOf f64Text v).price w price + membersPrice w price (fieldTrees f64Text fs) := by
  induction fs with
  | nil => exact le_rfl
  | cons p fs ih =>
    obtain ⟨l, u⟩ := p
    rw [insertKey]
    split_ifs with hlt heq
    · exact le_rfl
    · rw [heq]
      simp only [fieldTrees, membersPrice]
      omega
    · simp only [fieldTrees, membersPrice]
      omega

theorem membersPrice_insertAll (m fs : List (String × Value)) :
    membersPrice w price (fieldTrees f64Text (insertAll m fs)) ≤
      membersPrice w price (fieldTrees f64Text m) + membersPrice w price (fieldTrees f64Text fs) := by
  induction fs generalizing m with
  | nil => exact le_rfl
  | cons p fs ih =>
    obtain ⟨k, v⟩ := p
    have hall := ih (insertKey k v m)
    have hone := @membersPrice_insertKey f64Text w price k v m
    rw [insertAll_cons, fieldTrees, membersPrice]
    dsimp only
    omega

/-- **What a value owes to its text**: the invariant of its maps, and no more levels and no higher a price. -/
structure Owed (f64Text : F64Text) (w price : UInt8 → ℕ) (t : Tree) (v : Value) : Prop where
  wf : v.WF
  levels : VelocityMcp.levels (treeOf f64Text v) ≤ VelocityMcp.levels t
  price : (treeOf f64Text v).price w price ≤ t.price w price

theorem owed_array {ts : List Tree} {vs : List Value} (h : List.Forall₂ (Owed f64Text w price) ts vs) :
    Owed f64Text w price (.array ts) (.array vs) := by
  refine ⟨?_, ?_, ?_⟩
  · rw [Value.WF, Value.all_array]
    refine ⟨trivial, fun v hv => ?_⟩
    induction h with
    | nil => exact nomatch hv
    | cons hd _ ih =>
      rcases List.mem_cons.mp hv with rfl | hv
      · exact hd.wf
      · exact ih hv
  · rw [treeOf, levels, levels]
    refine Nat.succ_le_succ ?_
    induction h with
    | nil => exact le_rfl
    | cons hd _ ih => exact max_le_max hd.levels ih
  · rw [treeOf, Tree.price, Tree.price]
    induction h with
    | nil => exact le_rfl
    | cons hd _ ih => exact Nat.add_le_add hd.price ih

theorem owed_object {ms : List (Bytes × Tree)} {fs : List (String × Value)}
    (h : List.Forall₂ (fun m f => fromUtf8 m.1 = some f.1 ∧ Owed f64Text w price m.2 f.2) ms fs) :
    Owed f64Text w price (.object ms) (.object (insertAll [] fs)) := by
  have hmem : ∀ p ∈ insertAll [] fs, p ∈ fs := fun p hp => (mem_insertAll hp).resolve_left List.not_mem_nil
  have hfields : ∀ p ∈ fs, p.2.WF ∧ levels (treeOf f64Text p.2) ≤ membersLevels ms := by
    induction h with
    | nil => exact fun p hp => nomatch hp
    | @cons m f ms fs hd _ ih =>
      intro p hp
      have hms : membersLevels (m :: ms) = max (levels m.2) (membersLevels ms) := rfl
      rw [hms]
      rcases List.mem_cons.mp hp with rfl | hp
      · exact ⟨hd.2.wf, hd.2.levels.trans (le_max_left _ _)⟩
      · obtain ⟨hwf, hle⟩ := ih (fun p hp => (mem_insertAll hp).resolve_left List.not_mem_nil) p hp
        exact ⟨hwf, hle.trans (le_max_right _ _)⟩
  refine ⟨?_, ?_, ?_⟩
  · rw [Value.WF, Value.all_object]
    exact ⟨SortedKeys.insertAll List.Pairwise.nil fs, fun p hp => (hfields p (hmem p hp)).1⟩
  · rw [treeOf, levels, levels]
    refine Nat.succ_le_succ (membersLevels_le.mpr fun m hm => ?_)
    rw [fieldTrees_eq_map] at hm
    obtain ⟨p, hp, rfl⟩ := List.mem_map.mp hm
    exact (hfields p (hmem p hp)).2
  · rw [treeOf, Tree.price, Tree.price]
    refine (membersPrice_insertAll [] fs).trans ?_
    show 0 + _ ≤ _
    rw [Nat.zero_add]
    clear hmem hfields
    induction h with
    | nil => exact le_rfl
    | @cons m f ms fs hd _ ih =>
      have hkey : utf8 f.1 = m.1 := utf8_of_fromUtf8 hd.1
      show weight price (utf8 f.1) + _ + _ ≤ weight price m.1 + _ + _
      rw [hkey]
      exact Nat.add_le_add (Nat.add_le_add_left hd.2.price _) ih

theorem owed_of_valueOf {t : Tree} {v : Value} (h : valueOf number t = some v) : Owed f64Text w price t v := by
  induction t using Tree.ind generalizing v with
  | null =>
    obtain rfl := Option.some.inj h
    exact ⟨trivial, le_rfl, le_rfl⟩
  | bool b =>
    obtain rfl := Option.some.inj h
    exact ⟨trivial, le_rfl, le_rfl⟩
  | number text =>
    obtain ⟨n, -, rfl⟩ := Option.map_eq_some_iff.mp h
    exact ⟨trivial, le_rfl, le_rfl⟩
  | string chars =>
    obtain ⟨s, hs, rfl⟩ := Option.map_eq_some_iff.mp h
    refine ⟨trivial, le_rfl, ?_⟩
    rw [treeOf, Tree.price, Tree.price, utf8_of_fromUtf8 hs]
  | array items ih =>
    obtain ⟨vs, hvs, rfl⟩ := Option.map_eq_some_iff.mp h
    have hitems := (List.forall₂_and_left items vs).mpr ⟨fun t ht v => @ih t ht v, itemsOf_eq_some.mp hvs⟩
    exact owed_array (hitems.imp fun t v htv => htv.1 v htv.2)
  | object members ih =>
    obtain ⟨fs, hfs, rfl⟩ := Option.map_eq_some_iff.mp h
    have hmembers := (List.forall₂_and_left members fs).mpr ⟨fun m hm v => @ih m hm v, fieldsOf_eq_some.mp hfs⟩
    exact owed_object (hmembers.imp fun m f hmf => ⟨hmf.2.1, hmf.1 f.2 hmf.2.2⟩)

theorem wf_of_fromStr {s : Bytes} {v : Value} (h : fromStr number s = some v) :
    v.WF ∧ levels (treeOf f64Text v) < recursionLimit := by
  obtain ⟨t, -, hlevels, hv⟩ := fromStr_eq_some.mp h
  have howed := @owed_of_valueOf number f64Text (fun _ => 0) (fun _ => 0) t v hv
  exact ⟨howed.wf, lt_of_le_of_lt howed.levels hlevels⟩

/-- **No text of a value is lighter than its spelling.** -/
theorem price_le_of_fromStr (hprices : Prices w price) {s : Bytes} {v : Value} (h : fromStr number s = some v) :
    (treeOf f64Text v).price w price ≤ weight w s := by
  obtain ⟨t, hread, -, hv⟩ := fromStr_eq_some.mp h
  exact (owed_of_valueOf hv).price.trans (price_le_of_read hprices hread)

end Read

/-! ## Reading a spelled value -/

section Spelled

variable {number : Bytes → Option Number} {f64Text : F64Text}

variable (number f64Text) in
/-- The text of a number is a JSON number, and is read back as that number. -/
def NumberReads : Value → Prop
  | .number n => number (numberText f64Text n) = some n ∧
    ∃ sign whole fraction exponent, IsNumber sign whole fraction exponent ∧
      numberText f64Text n = sign ++ whole ++ fraction ++ exponent
  | _ => True

theorem valueOf_treeOf {v : Value} (hv : v.WF) (hnumbers : v.All (NumberReads number f64Text)) :
    valueOf number (treeOf f64Text v) = some v := by
  induction v with
  | null => rfl
  | bool b => rfl
  | number n => rw [treeOf, valueOf, hnumbers.self.1, Option.map_some]
  | string s => rw [treeOf, valueOf, fromUtf8_utf8, Option.map_some]
  | array items ih =>
    rw [Value.WF, Value.all_array] at hv
    rw [Value.all_array] at hnumbers
    have hitems : itemsOf number (itemTrees f64Text items) = some items := by
      rw [itemsOf_eq_some, itemTrees_eq_map, List.forall₂_map_left_iff, List.forall₂_same]
      exact fun v hmem => ih v hmem (hv.2 v hmem) (hnumbers.2 v hmem)
    rw [treeOf, valueOf, hitems, Option.map_some]
  | object fields ih =>
    rw [Value.WF, Value.all_object] at hv
    rw [Value.all_object] at hnumbers
    have hfields : fieldsOf number (fieldTrees f64Text fields) = some fields := by
      rw [fieldsOf_eq_some, fieldTrees_eq_map, List.forall₂_map_left_iff, List.forall₂_same]
      exact fun p hmem => ⟨fromUtf8_utf8 p.1, ih p hmem (hv.2 p hmem) (hnumbers.2 p hmem)⟩
    have hsorted : insertAll [] fields = fields := insertAll_of_sortedKeys hv.1
    rw [treeOf, valueOf, hfields, Option.map_some, hsorted]

/-- **Whatever the layout, a spelled value is read as the value.** -/
theorem fromStr_of_denotes {v : Value} (hv : v.WF) (hlevels : levels (treeOf f64Text v) < recursionLimit)
    (hnumbers : v.All (NumberReads number f64Text)) {s : Bytes} (h : Denotes s (treeOf f64Text v)) :
    fromStr number s = some v :=
  fromStr_eq_some.mpr ⟨_, h.read, hlevels, valueOf_treeOf hv hnumbers⟩

end Spelled

end VelocityMcp
