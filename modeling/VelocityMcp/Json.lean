import VelocityMcp.Lib.Bytes
import VelocityMcp.Lib.SortedAssoc

/-!
# Json — JSON values as `serde_json` keeps them

`Value.All`, `depth`: what holds at every level of a value, and how many levels it has.
-/

namespace VelocityMcp

open Lib

/-! ## Numbers -/

/-- The exponent field of an `f64` bit pattern is not all ones. -/
def f64Finite (bits : UInt64) : Prop := bits.toNat / 2 ^ 52 % 2048 ≠ 2047

instance (bits : UInt64) : Decidable (f64Finite bits) := inferInstanceAs (Decidable (_ ≠ _))

/-- A `u64`, a negative `i64`, or a finite `f64` (kept as its bit pattern). -/
inductive Number where
  | posInt (n : UInt64)
  | negInt (i : Int64) (neg : i < 0)
  | float (bits : UInt64) (finite : f64Finite bits)
deriving DecidableEq

/-- The bit pattern of `n as f64` for a natural number below `2 ^ 64`: round to nearest, ties to even. -/
def f64OfNat (n : ℕ) : UInt64 :=
  if n = 0 then 0
  else
    let e := Nat.log2 n
    if e ≤ 52 then UInt64.ofNat ((1023 + e) * 2 ^ 52 + (n * 2 ^ (52 - e) - 2 ^ 52))
    else
      let q := n / 2 ^ (e - 52)
      let r := n % 2 ^ (e - 52)
      let half := 2 ^ (e - 53)
      let q := if r > half ∨ (r = half ∧ q % 2 = 1) then q + 1 else q
      UInt64.ofNat ((1023 + e) * 2 ^ 52 + (q - 2 ^ 52))

namespace Number

/-- `i64::MAX`. -/
def i64Max : UInt64 := 0x7fffffffffffffff

def asI64 : Number → Option Int64
  | posInt n => if n ≤ i64Max then some n.toInt64 else none
  | negInt i _ => some i
  | float _ _ => none

def asU64 : Number → Option UInt64
  | posInt n => some n
  | negInt _ _ => none
  | float _ _ => none

/-- `as_f64`, as a bit pattern. -/
def asF64 : Number → Option UInt64
  | posInt n => some (f64OfNat n.toNat)
  | negInt i _ => some (UInt64.ofNat (2 ^ 63) ||| f64OfNat i.toInt.natAbs)
  | float bits _ => some bits

/-- The number `json!` makes of an `i64`. -/
def ofI64 (i : Int64) : Number := if h : i < 0 then negInt i h else posInt i.toUInt64

theorem ofI64_toInt64 {n : UInt64} (h : n ≤ i64Max) : ofI64 n.toInt64 = posInt n := by
  have hn : n.toNat < 2 ^ 63 := by
    have h' := UInt64.le_iff_toNat_le.mp h
    have hm : i64Max.toNat = 2 ^ 63 - 1 := rfl
    omega
  have hpos : ¬ n.toInt64 < 0 := by
    rw [Int64.lt_iff_toInt_lt]
    have hi : n.toInt64.toInt = n.toBitVec.toInt := rfl
    rw [hi, BitVec.toInt_eq_toNat_of_lt (by rw [UInt64.toNat_toBitVec]; omega), Int64.toInt_zero]
    omega
  rw [ofI64, dif_neg hpos, UInt64.toUInt64_toInt64]

end Number

/-! ## Values -/

/-- JSON trees; an object is the list of its entries. -/
inductive Value where
  | null
  | bool (b : Bool)
  | number (n : Number)
  | string (s : String)
  | array (items : List Value)
  | object (fields : List (String × Value))

namespace Value

/-- Induction with a hypothesis for every item and every field. -/
@[elab_as_elim, induction_eliminator]
theorem ind {P : Value → Prop} (null : P null) (bool : ∀ b, P (bool b)) (number : ∀ n, P (number n))
    (string : ∀ s, P (string s)) (array : ∀ items, (∀ v ∈ items, P v) → P (array items))
    (object : ∀ fields, (∀ p ∈ fields, P p.2) → P (object fields)) : ∀ v, P v
  | .null => null
  | .bool b => bool b
  | .number n => number n
  | .string s => string s
  | .array items => array items fun v _hv => ind null bool number string array object v
  | .object fields => object fields fun p _hp => ind null bool number string array object p.2
termination_by v => v
decreasing_by
  · have := List.sizeOf_lt_of_mem _hv
    simp
    omega
  · obtain ⟨k, v⟩ := p
    have := List.sizeOf_lt_of_mem _hp
    simp at *
    omega

mutual

def decEq : (v w : Value) → Decidable (v = w)
  | null, null => isTrue rfl
  | bool a, bool b => decidable_of_iff (a = b) (by simp)
  | number a, number b => decidable_of_iff (a = b) (by simp)
  | string a, string b => decidable_of_iff (a = b) (by simp)
  | array a, array b => match decEqItems a b with
    | isTrue h => isTrue (by rw [h])
    | isFalse h => isFalse fun e => h (Value.array.inj e)
  | object a, object b => match decEqFields a b with
    | isTrue h => isTrue (by rw [h])
    | isFalse h => isFalse fun e => h (Value.object.inj e)
  | null, bool _ | null, number _ | null, string _ | null, array _ | null, object _
  | bool _, null | bool _, number _ | bool _, string _ | bool _, array _ | bool _, object _
  | number _, null | number _, bool _ | number _, string _ | number _, array _ | number _, object _
  | string _, null | string _, bool _ | string _, number _ | string _, array _ | string _, object _
  | array _, null | array _, bool _ | array _, number _ | array _, string _ | array _, object _
  | object _, null | object _, bool _ | object _, number _ | object _, string _ | object _, array _ =>
    isFalse (by simp)

def decEqItems : (v w : List Value) → Decidable (v = w)
  | [], [] => isTrue rfl
  | [], _ :: _ => isFalse (by simp)
  | _ :: _, [] => isFalse (by simp)
  | v :: vs, w :: ws => match decEq v w, decEqItems vs ws with
    | isTrue h, isTrue h' => isTrue (by rw [h, h'])
    | isFalse h, _ => isFalse (by simp [h])
    | _, isFalse h => isFalse (by simp [h])

def decEqFields : (v w : List (String × Value)) → Decidable (v = w)
  | [], [] => isTrue rfl
  | [], _ :: _ => isFalse (by simp)
  | _ :: _, [] => isFalse (by simp)
  | (k, v) :: vs, (l, w) :: ws => match decEq v w, decEqFields vs ws with
    | isTrue h, isTrue h' => decidable_of_iff (k = l) (by simp [h, h'])
    | isFalse h, _ => isFalse (by simp [h])
    | _, isFalse h => isFalse (by simp [h])

end

instance : DecidableEq Value := decEq

/-! ### The accessors the program uses -/

/-- The value `json!` makes of an `f64`: a number if it is finite, `null` otherwise. -/
def ofF64 (bits : UInt64) : Value :=
  if h : f64Finite bits then number (.float bits h) else null

/-- `as_str`. -/
def asStr : Value → Option String
  | string s => some s
  | _ => none

/-- `as_u64`. -/
def asU64 : Value → Option UInt64
  | number n => n.asU64
  | _ => none

def asObject : Value → Option (List (String × Value))
  | object fields => some fields
  | _ => none

/-- `get` with a string key: nothing for a missing key or a value that is no object. -/
def get (v : Value) (key : String) : Option Value :=
  match v with
  | object fields => getKey key fields
  | _ => none

/-- Indexing with a string key: `null` for a missing key or a value that is no object. -/
def index (v : Value) (key : String) : Value := (v.get key).getD null

/-! ### Well-formedness and size -/

mutual

/-- `P` holds of the value and of every value inside it. -/
def All (P : Value → Prop) : Value → Prop
  | array items => P (array items) ∧ AllItems P items
  | object fields => P (object fields) ∧ AllFields P fields
  | v => P v

def AllItems (P : Value → Prop) : List Value → Prop
  | [] => True
  | v :: vs => All P v ∧ AllItems P vs

def AllFields (P : Value → Prop) : List (String × Value) → Prop
  | [] => True
  | (_, v) :: fs => All P v ∧ AllFields P fs

end

theorem allItems_iff {P : Value → Prop} {items : List Value} :
    AllItems P items ↔ ∀ v ∈ items, All P v := by
  induction items with
  | nil => simp [AllItems]
  | cons v vs ih => simp [AllItems, ih]

theorem allFields_iff {P : Value → Prop} {fields : List (String × Value)} :
    AllFields P fields ↔ ∀ p ∈ fields, All P p.2 := by
  induction fields with
  | nil => simp [AllFields]
  | cons p fs ih =>
    obtain ⟨l, w⟩ := p
    simp [AllFields, ih]

theorem all_array {P : Value → Prop} {items : List Value} :
    All P (array items) ↔ P (array items) ∧ ∀ v ∈ items, All P v := by
  rw [All, allItems_iff]

theorem all_object {P : Value → Prop} {fields : List (String × Value)} :
    All P (object fields) ↔ P (object fields) ∧ ∀ p ∈ fields, All P p.2 := by
  rw [All, allFields_iff]

theorem All.self {P : Value → Prop} {v : Value} (h : v.All P) : P v := by
  cases v with
  | array items => exact (all_array.mp h).1
  | object fields => exact (all_object.mp h).1
  | _ => exact h

theorem All.get {P : Value → Prop} {v w : Value} {key : String} (h : v.All P) (hw : v.get key = some w) :
    w.All P := by
  cases v with
  | object fields => exact (all_object.mp h).2 (key, w) (mem_of_getKey hw)
  | _ => cases hw

/-- The entries of an object have strictly increasing keys. -/
def KeysSorted : Value → Prop
  | object fields => SortedKeys fields
  | _ => True

/-- The invariant of `serde_json`'s map, at every level. -/
def WF (v : Value) : Prop := v.All KeysSorted

theorem WF.index {v : Value} (h : v.WF) (key : String) : (v.index key).WF := by
  rw [Value.index]
  cases hv : v.get key with
  | none => exact trivial
  | some w => exact h.get hv

/-- A string has at most `n` bytes. -/
def StringLe (n : ℕ) : Value → Prop
  | string s => (utf8 s).length ≤ n
  | _ => True

/-- A container has at most `n` entries. -/
def EntriesLe (n : ℕ) : Value → Prop
  | array items => items.length ≤ n
  | object fields => fields.length ≤ n
  | _ => True

/-- The keys of an object have at most `n` bytes. -/
def KeysLe (n : ℕ) : Value → Prop
  | object fields => ∀ p ∈ fields, (utf8 p.1).length ≤ n
  | _ => True

/-- No length or count wraps in its four bytes. -/
def Sized (v : Value) : Prop := v.All fun w => w.StringLe (256 ^ 4 - 1) ∧ w.EntriesLe (256 ^ 4 - 1)

/-- A number is no integer above `i64::MAX`. -/
def IntFits : Value → Prop
  | number (.posInt n) => n ≤ Number.i64Max
  | _ => True

theorem intFits_ofI64 (i : Int64) : (number (.ofI64 i)).IntFits := by
  unfold Number.ofI64
  split_ifs with hi
  · exact trivial
  · show i.toUInt64 ≤ Number.i64Max
    have h₀ : (0 : Int64) ≤ i := Int64.not_lt.mp hi
    have hlt := i.toNatClampNeg_lt
    have hm : Number.i64Max.toNat = 2 ^ 63 - 1 := rfl
    rw [UInt64.le_iff_toNat_le, Int64.toNat_toUInt64_of_le h₀]
    omega

theorem All.imp {P Q : Value → Prop} (hPQ : ∀ w, P w → Q w) {v : Value} (h : v.All P) : v.All Q := by
  induction v with
  | null => exact hPQ _ h
  | bool b => exact hPQ _ h
  | number n => exact hPQ _ h
  | string s => exact hPQ _ h
  | array items ih =>
    rw [all_array] at h ⊢
    exact ⟨hPQ _ h.1, fun w hw => ih w hw (h.2 w hw)⟩
  | object fields ih =>
    rw [all_object] at h ⊢
    exact ⟨hPQ _ h.1, fun p hp => ih p hp (h.2 p hp)⟩

theorem all_and {P Q : Value → Prop} {v : Value} :
    v.All (fun w => P w ∧ Q w) ↔ v.All P ∧ v.All Q := by
  refine ⟨fun h => ⟨h.imp fun _ hw => hw.1, h.imp fun _ hw => hw.2⟩, ?_⟩
  rintro ⟨hP, hQ⟩
  induction v with
  | null => exact ⟨hP, hQ⟩
  | bool b => exact ⟨hP, hQ⟩
  | number n => exact ⟨hP, hQ⟩
  | string s => exact ⟨hP, hQ⟩
  | array items ih =>
    rw [all_array] at hP hQ ⊢
    exact ⟨⟨hP.1, hQ.1⟩, fun w hw => ih w hw (hP.2 w hw) (hQ.2 w hw)⟩
  | object fields ih =>
    rw [all_object] at hP hQ ⊢
    exact ⟨⟨hP.1, hQ.1⟩, fun p hp => ih p hp (hP.2 p hp) (hQ.2 p hp)⟩

mutual

/-- How many levels below the root the deepest value lies. -/
def depth : Value → ℕ
  | array items => itemsDepth items
  | object fields => fieldsDepth fields
  | _ => 0

def itemsDepth : List Value → ℕ
  | [] => 0
  | v :: vs => max (depth v + 1) (itemsDepth vs)

def fieldsDepth : List (String × Value) → ℕ
  | [] => 0
  | (_, v) :: fs => max (depth v + 1) (fieldsDepth fs)

end

theorem depth_array_le {items : List Value} {n : ℕ} :
    (array items).depth ≤ n ↔ ∀ v ∈ items, v.depth < n := by
  rw [depth]
  induction items with
  | nil => simp [itemsDepth]
  | cons v vs ih =>
    rw [itemsDepth, max_le_iff, ih, List.forall_mem_cons]
    exact Iff.rfl

theorem depth_object_le {fields : List (String × Value)} {n : ℕ} :
    (object fields).depth ≤ n ↔ ∀ p ∈ fields, p.2.depth < n := by
  rw [depth]
  induction fields with
  | nil => simp [fieldsDepth]
  | cons p fs ih =>
    obtain ⟨l, w⟩ := p
    rw [fieldsDepth, max_le_iff, ih, List.forall_mem_cons]
    exact Iff.rfl

end Value

end VelocityMcp
