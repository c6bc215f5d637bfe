import VelocityMcp.Lib.Bytes
import VelocityMcp.Lib.Chained

/-!
# Interp.Value — the values of the shared interpreter core (`interp_core/interp.c`)

`mapHash`, `mapSet`, `mapGet`: the hash tables of maps and of scopes.  A key is a C string (`cString`).
-/

namespace VelocityMcp.Interp

open Lib

/-- The characters of a C string: those before the first NUL. -/
def cString (s : Bytes) : Bytes := s.takeWhile (· ≠ 0)

theorem cString_eq_self {s : Bytes} : cString s = s ↔ 0 ∉ s := by
  rw [cString, List.takeWhile_eq_self_iff]
  constructor
  · intro h hmem
    simpa using h 0 hmem
  · intro h x hx
    have hne : x ≠ 0 := fun heq => h (heq ▸ hx)
    simpa using hne

theorem zero_notMem_cString (s : Bytes) : 0 ∉ cString s := fun h => by
  simpa using List.mem_takeWhile_imp h

@[simp] theorem cString_cString (s : Bytes) : cString (cString s) = cString s :=
  cString_eq_self.mpr (zero_notMem_cString s)

theorem length_cString_le (s : Bytes) : (cString s).length ≤ s.length := (List.takeWhile_sublist _).length_le

theorem cString_append {s t : Bytes} (h : 0 ∉ s) : cString (s ++ t) = s ++ cString t := by
  refine List.takeWhile_append_of_pos fun x hx => ?_
  have hne : x ≠ 0 := fun heq => h (heq ▸ hx)
  simpa using hne

/-! ## Hash tables -/

/-- `INTERP_SCOPE_BUCKETS`. -/
def scopeBuckets : ℕ := 16

/-- `map_hash`: a character counts as a signed number. -/
def mapHash (key : Bytes) : UInt32 := key.foldl (fun h c => (h <<< 5) + h + c.toInt8.toInt32.toUInt32) 5381

def bucketOf (key : Bytes) : ℕ := (mapHash key).toNat % scopeBuckets

section Tables

variable {ν : Type}

/-- `map_set`, and `scope_set`: the key is copied as a C string. -/
def mapSet (key : Bytes) (v : ν) (entries : List (Bytes × ν)) : List (Bytes × ν) :=
  Chained.enter bucketOf (cString key) v entries

/-- `map_get`, and a scope's own part of `scope_get`. -/
def mapGet (key : Bytes) (entries : List (Bytes × ν)) : Option ν := Chained.lookup (cString key) entries

def mapSetAll (members entries : List (Bytes × ν)) : List (Bytes × ν) :=
  members.foldl (fun es m => mapSet m.1 m.2 es) entries

end Tables

/-! ## Values -/

/-- A value (`Value`).  A number is an `f64`, given by its bit pattern. -/
inductive Val where
  | null
  | bool (b : Bool)
  | number (bits : UInt64)
  | string (chars : Bytes)
  | array (items : List Val)
  | map (entries : List (Bytes × Val))
  | func

/-- A value's type, and what is inside; `V` is whatever stands for values.  A pointer may be NULL. -/
inductive Shape (V : Type) where
  | absent
  | null
  | bool (b : Bool)
  | number (bits : UInt64)
  | string (chars : Bytes)
  | array (items : List V)
  | map (entries : List (Bytes × V))
  | func

def Val.shape : Val → Shape Val
  | null => .null
  | bool b => .bool b
  | number bits => .number bits
  | string chars => .string chars
  | array items => .array items
  | map entries => .map entries
  | func => .func

namespace Val

/-- Induction with a hypothesis for every item and every entry. -/
@[elab_as_elim, induction_eliminator]
theorem ind {P : Val → Prop} (null : P null) (bool : ∀ b, P (bool b)) (number : ∀ n, P (number n))
    (string : ∀ s, P (string s)) (array : ∀ items, (∀ v ∈ items, P v) → P (array items))
    (map : ∀ entries, (∀ e ∈ entries, P e.2) → P (map entries)) (func : P func) : ∀ v, P v
  | .null => null
  | .bool b => bool b
  | .number n => number n
  | .string s => string s
  | .array items => array items fun v _hv => ind null bool number string array map func v
  | .map entries => map entries fun e _he => ind null bool number string array map func e.2
  | .func => func
termination_by v => v
decreasing_by
  · have := List.sizeOf_lt_of_mem _hv
    simp
    omega
  · obtain ⟨k, v⟩ := e
    have := List.sizeOf_lt_of_mem _he
    simp at *
    omega

mutual

/-- How many levels below the root the deepest value lies. -/
def depth : Val → ℕ
  | array items => itemsDepth items
  | map entries => entriesDepth entries
  | _ => 0

def itemsDepth : List Val → ℕ
  | [] => 0
  | v :: vs => max (depth v + 1) (itemsDepth vs)

def entriesDepth : List (Bytes × Val) → ℕ
  | [] => 0
  | (_, v) :: es => max (depth v + 1) (entriesDepth es)

end

theorem depth_array_le {items : List Val} {n : ℕ} : (array items).depth ≤ n ↔ ∀ v ∈ items, v.depth < n := by
  rw [depth]
  induction items with
  | nil => simp [itemsDepth]
  | cons v vs ih =>
    rw [itemsDepth, max_le_iff, ih, List.forall_mem_cons]
    exact Iff.rfl

theorem depth_map_le {entries : List (Bytes × Val)} {n : ℕ} :
    (map entries).depth ≤ n ↔ ∀ e ∈ entries, e.2.depth < n := by
  rw [depth]
  induction entries with
  | nil => simp [entriesDepth]
  | cons e es ih =>
    obtain ⟨k, w⟩ := e
    rw [entriesDepth, max_le_iff, ih, List.forall_mem_cons]
    exact Iff.rfl

end Val

end VelocityMcp.Interp
