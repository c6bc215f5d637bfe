import Mathlib.Data.List.AList

/-!
# Lib.HashMap — finite maps with one entry for each key

Mathlib's `AList`, whose entries are in the order in which they were made, the newest first; no operation here depends
on that order but `oldest`, which tells it.
-/

namespace Lib

variable {κ ν : Type}

/-- Finite maps; the order of the entries means nothing. -/
abbrev Map (κ ν : Type) : Type := AList fun _ : κ => ν

namespace Map

/-- How many entries there are. -/
def len (m : Map κ ν) : ℕ := m.entries.length

/-- The key whose entry was made first. -/
def oldest (m : Map κ ν) : Option κ := m.keys.getLast?

/-- Drop the entries that do not satisfy `p`. -/
def retain (p : κ → ν → Bool) (m : Map κ ν) : Map κ ν :=
  ⟨m.entries.filter fun e => p e.1 e.2, m.nodupKeys.sublist List.filter_sublist⟩

theorem len_eq_keys (m : Map κ ν) : m.len = m.keys.length := (List.length_map _).symm

@[simp] theorem len_empty : len (∅ : Map κ ν) = 0 := rfl

section Operations

variable [DecidableEq κ] {m : Map κ ν} {k k' : κ} {v w : ν}

/-- One entry more. -/
theorem len_insert (h : k ∉ m) (v : ν) : len (m.insert k v) = m.len + 1 := by
  rw [len, AList.entries_insert_of_notMem h, List.length_cons, len]

theorem len_insert_of_mem (h : k ∈ m) (v : ν) : len (m.insert k v) = m.len := by
  have hpos : 0 < m.keys.length := List.length_pos_of_mem (AList.mem_keys.mp h)
  rw [len_eq_keys, AList.keys_insert, List.length_cons, List.length_erase_of_mem (AList.mem_keys.mp h), len_eq_keys]
  omega

/-- One entry less. -/
theorem len_erase (h : k ∈ m) : len (m.erase k) + 1 = m.len := by
  have hpos : 0 < m.keys.length := List.length_pos_of_mem (AList.mem_keys.mp h)
  rw [len_eq_keys, AList.keys_erase, List.length_erase_of_mem (AList.mem_keys.mp h), len_eq_keys]
  omega

theorem len_erase_le (k : κ) (m : Map κ ν) : len (m.erase k) ≤ m.len := by
  rw [len_eq_keys, AList.keys_erase, len_eq_keys]
  exact List.erase_sublist.length_le

/-- What is left of a map when it is gone through. -/
theorem lookup_retain (p : κ → ν → Bool) (m : Map κ ν) (k : κ) :
    AList.lookup k (retain p m) = (AList.lookup k m).filter (p k) := by
  ext v
  rw [← Option.mem_def, AList.mem_lookup_iff, retain, List.mem_filter, ← AList.mem_lookup_iff,
    Option.filter_eq_some_iff, Option.mem_def]

theorem lookup_insert_some (h : AList.lookup k' (m.insert k v) = some w) :
    (k' = k ∧ w = v) ∨ (k' ≠ k ∧ AList.lookup k' m = some w) := by
  by_cases hk : k' = k
  · rw [hk, AList.lookup_insert] at h
    exact Or.inl ⟨hk, (Option.some.inj h).symm⟩
  · rw [AList.lookup_insert_ne hk] at h
    exact Or.inr ⟨hk, h⟩

theorem lookup_erase_some (h : AList.lookup k' (m.erase k) = some w) : k' ≠ k ∧ AList.lookup k' m = some w := by
  by_cases hk : k' = k
  · rw [hk, AList.lookup_erase] at h
    cases h
  · rw [AList.lookup_erase_ne hk] at h
    exact ⟨hk, h⟩

end Operations

end Map

end Lib
