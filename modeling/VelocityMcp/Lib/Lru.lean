import Mathlib.Data.List.Basic
import Mathlib.Data.List.Induction

/-!
# Lib.Lru — tables bounded by a capacity that drop the least recently used entry

A table is its list of entries, the most recently used first.  `LruCache` is what a caller relies on: an
implementation with any representation, whose one operation uses or makes an entry and lets the caller
replace its value.
-/

namespace Lib

variable {κ ν : Type} [DecidableEq κ]

namespace Lru

/-- The value of a key. -/
def find (es : List (κ × ν)) (k : κ) : Option ν := (es.find? fun e => e.1 = k).map Prod.snd

/-- The entry that makes room for `k`. -/
def evicted (cap : ℕ) (es : List (κ × ν)) (k : κ) : Option (κ × ν) :=
  if (find es k).isSome ∨ es.length < cap then none else es.getLast?

/-- What is kept when `k` is used: all the others, without the evicted entry. -/
def rest (cap : ℕ) (es : List (κ × ν)) (k : κ) : List (κ × ν) :=
  if (find es k).isSome then es.eraseP fun e => e.1 = k
  else if es.length < cap then es else es.dropLast

/-- What is left without the entry of `k`. -/
def pop (es : List (κ × ν)) (k : κ) : List (κ × ν) := es.filter fun e => e.1 ≠ k

@[simp] theorem find_nil (k : κ) : find ([] : List (κ × ν)) k = none := rfl

@[simp] theorem find_cons_self (k : κ) (v : ν) (es : List (κ × ν)) : find ((k, v) :: es) k = some v := by
  simp [find]

theorem find_cons_of_ne {k k' : κ} (h : k' ≠ k) (v : ν) (es : List (κ × ν)) :
    find ((k, v) :: es) k' = find es k' := by
  simp [find, List.find?_cons_of_neg, h.symm]

theorem find_eq_none_iff {es : List (κ × ν)} {k : κ} : find es k = none ↔ k ∉ es.map Prod.fst := by
  rw [find, Option.map_eq_none_iff, List.find?_eq_none]
  simp only [decide_eq_true_eq, List.mem_map, not_exists, not_and]

theorem mem_of_find {es : List (κ × ν)} {k : κ} {v : ν} (h : find es k = some v) : (k, v) ∈ es := by
  obtain ⟨⟨k', v'⟩, he, rfl⟩ := Option.map_eq_some_iff.mp h
  have hk : k' = k := by simpa using List.find?_some he
  exact hk ▸ List.mem_of_find?_eq_some he

theorem find_eraseP {es : List (κ × ν)} {k k' : κ} (h : k' ≠ k) :
    find (es.eraseP fun e => e.1 = k) k' = find es k' := by
  induction es with
  | nil => rfl
  | cons e es ih =>
    obtain ⟨a, v⟩ := e
    by_cases ha : a = k
    · subst ha
      rw [List.eraseP_cons_of_pos (by simp), find_cons_of_ne h]
    · rw [List.eraseP_cons_of_neg (by simpa using ha)]
      by_cases hk' : k' = a
      · subst hk'
        rw [find_cons_self, find_cons_self]
      · rw [find_cons_of_ne hk', find_cons_of_ne hk', ih]

theorem find_of_find_pop {es : List (κ × ν)} {k k' : κ} {v : ν} (h : find (pop es k) k' = some v) :
    k' ≠ k ∧ find es k' = some v := by
  have hk : k' ≠ k := by
    have hmem := mem_of_find h
    rw [pop, List.mem_filter] at hmem
    simpa using hmem.2
  refine ⟨hk, ?_⟩
  rw [find, pop, List.find?_filter] at h
  rw [← h, find]
  congr 2
  funext e
  by_cases he : e.1 = k'
  · simp [he, hk]
  · simp [he]

theorem find_of_find_foldl_pop {ks : List κ} {es : List (κ × ν)} {k : κ} {v : ν}
    (h : find (ks.foldl pop es) k = some v) : find es k = some v := by
  induction ks generalizing es with
  | nil => exact h
  | cons k' ks ih => exact (find_of_find_pop (ih h)).2

theorem find_dropLast (es : List (κ × ν)) (k : κ) : find es.dropLast k = find es k ∨
    ∃ v, es.getLast? = some (k, v) ∧ find es k = some v := by
  induction es using List.reverseRecOn with
  | nil => exact Or.inl rfl
  | append_singleton es e _ =>
    obtain ⟨a, v⟩ := e
    rw [List.dropLast_concat, List.getLast?_concat]
    cases hf : find es k with
    | some w =>
      left
      obtain ⟨e', he', rfl⟩ := Option.map_eq_some_iff.mp hf
      simp [find, List.find?_append, he']
    | none =>
      have hnone : es.find? (fun e => e.1 = k) = none := Option.map_eq_none_iff.mp hf
      by_cases ha : a = k
      · subst ha
        right
        exact ⟨v, rfl, by simp [find, List.find?_append, hnone]⟩
      · left
        simp [find, List.find?_append, hnone, ha]

/-- **An entry of another key is kept, or it is the one evicted.** -/
theorem find_rest {k k' : κ} (h : k' ≠ k) (cap : ℕ) (es : List (κ × ν)) :
    find (rest cap es k) k' = find es k' ∨
      ∃ v, evicted cap es k = some (k', v) ∧ find es k' = some v := by
  rw [rest, evicted]
  by_cases hk : (find es k).isSome
  · rw [if_pos hk]
    exact Or.inl (find_eraseP h)
  · rw [if_neg hk]
    by_cases hlt : es.length < cap
    · rw [if_pos hlt]
      exact Or.inl rfl
    · rw [if_neg hlt, if_neg (by simp [hk, hlt])]
      exact find_dropLast es k'

theorem find_of_find_rest {cap : ℕ} {es : List (κ × ν)} {k k' : κ} {v : ν} (h : k' ≠ k)
    (hfind : find (rest cap es k) k' = some v) : find es k' = some v := by
  rw [rest] at hfind
  split_ifs at hfind with hk hlt
  · rwa [find_eraseP h] at hfind
  · exact hfind
  · obtain ⟨e, he, rfl⟩ := Option.map_eq_some_iff.mp hfind
    rw [find, es.dropLast_prefix.find?_eq_some he]
    rfl

theorem mem_of_mem_rest {cap : ℕ} {es : List (κ × ν)} {k : κ} {e : κ × ν} (h : e ∈ rest cap es k) :
    e ∈ es := by
  rw [rest] at h
  split at h
  · exact List.mem_of_mem_eraseP h
  · split at h
    · exact h
    · exact (List.dropLast_sublist es).mem h

/-- The keys that are left when a new one comes in. -/
theorem keys_rest_of_new {cap : ℕ} {es : List (κ × ν)} {k : κ} (hk : find es k = none)
    (hlen : es.length ≤ cap) (hcap : 0 < cap) :
    k :: (rest cap es k).map Prod.fst = (k :: es.map Prod.fst).take cap := by
  obtain ⟨n, rfl⟩ : ∃ n, cap = n + 1 := ⟨cap - 1, by omega⟩
  rw [rest, hk, if_neg (by simp), List.take_succ_cons]
  congr 1
  by_cases hlt : es.length < n + 1
  · rw [if_pos hlt, List.take_of_length_le (by simpa using Nat.lt_succ_iff.mp hlt)]
  · rw [if_neg hlt, List.dropLast_eq_take, List.map_take]
    congr 1
    omega

end Lru

/-- An implementation of such tables: `getOrInsertMut c k fresh f` uses the entry of `k`, or makes one with
the value `fresh`, and replaces its value by what `f` makes of it. -/
structure LruCache (κ ν α : Type) [DecidableEq κ] (cap : ℕ) where
  Cache : Type
  new : Cache
  entries : Cache → List (κ × ν)
  getOrInsertMut : Cache → κ → ν → (ν → α × ν) → α × Cache
  entries_new : entries new = []
  result : ∀ c k fresh f, (getOrInsertMut c k fresh f).1 = (f ((Lru.find (entries c) k).getD fresh)).1
  entries_after : ∀ c k fresh f, entries (getOrInsertMut c k fresh f).2 =
    (k, (f ((Lru.find (entries c) k).getD fresh)).2) :: Lru.rest cap (entries c) k

def LruCache.lists (κ ν α : Type) [DecidableEq κ] (cap : ℕ) : LruCache κ ν α cap where
  Cache := List (κ × ν)
  new := []
  entries := id
  getOrInsertMut es k fresh f :=
    ((f ((Lru.find es k).getD fresh)).1, (k, (f ((Lru.find es k).getD fresh)).2) :: Lru.rest cap es k)
  entries_new := rfl
  result _ _ _ _ := rfl
  entries_after _ _ _ _ := rfl

end Lib
