import Mathlib.Data.List.Basic
import Mathlib.Order.Lattice

/-!
# Lib.SortedAssoc — ordered maps as association lists with increasing keys

`insertKey` is the insertion of an ordered map: a new key goes to its place, an old key gets the new
value.  `insertAll` inserts pairs one after the other, so the last pair of a key counts.
-/

namespace Lib

variable {κ ν : Type} [LinearOrder κ]

/-- The keys increase strictly (so they are distinct). -/
def SortedKeys (m : List (κ × ν)) : Prop := m.Pairwise fun p q => p.1 < q.1

def insertKey (k : κ) (v : ν) : List (κ × ν) → List (κ × ν)
  | [] => [(k, v)]
  | p :: m => if k < p.1 then (k, v) :: p :: m else if k = p.1 then (p.1, v) :: m else p :: insertKey k v m

/-- Insert the pairs of a list from left to right. -/
def insertAll (m : List (κ × ν)) (ps : List (κ × ν)) : List (κ × ν) :=
  ps.foldl (fun m p => insertKey p.1 p.2 m) m

@[simp] theorem insertAll_nil (m : List (κ × ν)) : insertAll m [] = m := rfl

@[simp] theorem insertAll_cons (m : List (κ × ν)) (p : κ × ν) (ps : List (κ × ν)) :
    insertAll m (p :: ps) = insertAll (insertKey p.1 p.2 m) ps := rfl

theorem mem_insertKey {k : κ} {v : ν} {m : List (κ × ν)} {q : κ × ν} (h : q ∈ insertKey k v m) :
    q = (k, v) ∨ q ∈ m := by
  induction m with
  | nil => exact Or.inl (List.mem_singleton.mp h)
  | cons p m ih =>
    simp only [insertKey] at h
    split_ifs at h with h₁ h₂
    · exact List.mem_cons.mp h
    · rcases List.mem_cons.mp h with rfl | h
      · exact Or.inl (by rw [h₂])
      · exact Or.inr (List.mem_cons_of_mem _ h)
    · rcases List.mem_cons.mp h with rfl | h
      · exact Or.inr List.mem_cons_self
      · exact (ih h).imp_right (List.mem_cons_of_mem _)

theorem mem_insertAll {m ps : List (κ × ν)} {q : κ × ν} (h : q ∈ insertAll m ps) : q ∈ m ∨ q ∈ ps := by
  induction ps generalizing m with
  | nil => exact Or.inl h
  | cons p ps ih =>
    rcases ih h with h | h
    · rcases mem_insertKey h with rfl | h
      · exact Or.inr List.mem_cons_self
      · exact Or.inl h
    · exact Or.inr (List.mem_cons_of_mem _ h)

theorem SortedKeys.insertKey {m : List (κ × ν)} (hm : SortedKeys m) (k : κ) (v : ν) :
    SortedKeys (insertKey k v m) := by
  induction m with
  | nil => simp [SortedKeys, Lib.insertKey]
  | cons p m ih =>
    obtain ⟨hp, hm'⟩ := List.pairwise_cons.mp hm
    simp only [Lib.insertKey]
    split_ifs with h₁ h₂
    · refine List.pairwise_cons.mpr ⟨fun q hq => ?_, hm⟩
      rcases List.mem_cons.mp hq with rfl | hq
      · exact h₁
      · exact lt_trans h₁ (hp q hq)
    · exact List.pairwise_cons.mpr ⟨fun q hq => hp q hq, hm'⟩
    · refine List.pairwise_cons.mpr ⟨fun q hq => ?_, ih hm'⟩
      rcases mem_insertKey hq with rfl | hq
      · exact lt_of_le_of_ne (not_lt.mp h₁) (fun h => h₂ h.symm)
      · exact hp q hq

theorem SortedKeys.insertAll {m : List (κ × ν)} (hm : SortedKeys m) (ps : List (κ × ν)) :
    SortedKeys (insertAll m ps) := by
  induction ps generalizing m with
  | nil => exact hm
  | cons p ps ih => exact ih (hm.insertKey p.1 p.2)

theorem insertKey_of_forall_lt {k : κ} {v : ν} {m : List (κ × ν)} (h : ∀ p ∈ m, p.1 < k) :
    insertKey k v m = m ++ [(k, v)] := by
  induction m with
  | nil => rfl
  | cons p m ih =>
    have hp : p.1 < k := h p List.mem_cons_self
    rw [insertKey, if_neg (not_lt.mpr hp.le), if_neg (ne_of_gt hp),
      ih (fun q hq => h q (List.mem_cons_of_mem _ hq)), List.cons_append]

theorem insertAll_of_sortedKeys {m ps : List (κ × ν)} (h : SortedKeys (m ++ ps)) :
    insertAll m ps = m ++ ps := by
  induction ps generalizing m with
  | nil => simp
  | cons p ps ih =>
    have hlt : ∀ q ∈ m, q.1 < p.1 := fun q hq =>
      (List.pairwise_append.mp h).2.2 q hq p List.mem_cons_self
    have hstep : insertKey p.1 p.2 m = m ++ [p] := insertKey_of_forall_lt hlt
    rw [insertAll_cons, hstep, ih (by simpa using h), List.append_assoc, List.singleton_append]

theorem length_insertKey_le (k : κ) (v : ν) (m : List (κ × ν)) :
    (insertKey k v m).length ≤ m.length + 1 := by
  induction m with
  | nil => simp [insertKey]
  | cons p m ih =>
    simp only [insertKey]
    split_ifs <;> simp only [List.length_cons] <;> omega

theorem length_insertAll_le (m ps : List (κ × ν)) : (insertAll m ps).length ≤ m.length + ps.length := by
  induction ps generalizing m with
  | nil => simp
  | cons p ps ih =>
    have h₁ := ih (insertKey p.1 p.2 m)
    have h₂ := length_insertKey_le p.1 p.2 m
    simp only [insertAll_cons, List.length_cons]
    omega

/-! ## Lookup -/

def getKey (k : κ) (m : List (κ × ν)) : Option ν := (m.find? fun p => p.1 = k).map Prod.snd

@[simp] theorem getKey_nil (k : κ) : getKey k ([] : List (κ × ν)) = none := rfl

theorem getKey_cons (k : κ) (p : κ × ν) (m : List (κ × ν)) :
    getKey k (p :: m) = if p.1 = k then some p.2 else getKey k m := by
  by_cases h : p.1 = k <;> simp [getKey, h]

theorem mem_of_getKey {k : κ} {v : ν} {m : List (κ × ν)} (h : getKey k m = some v) : (k, v) ∈ m := by
  obtain ⟨⟨k', v'⟩, he, rfl⟩ := Option.map_eq_some_iff.mp h
  have hk : k' = k := by simpa using List.find?_some he
  exact hk ▸ List.mem_of_find?_eq_some he

theorem getKey_insertKey (k k' : κ) (v : ν) (m : List (κ × ν)) :
    getKey k' (insertKey k v m) = if k = k' then some v else getKey k' m := by
  induction m with
  | nil => simp [insertKey, getKey_cons]
  | cons p m ih =>
    simp only [insertKey]
    by_cases h₁ : k < p.1
    · rw [if_pos h₁, getKey_cons]
    · rw [if_neg h₁]
      by_cases h₂ : k = p.1
      · rw [if_pos h₂, getKey_cons, getKey_cons, h₂]
        split_ifs <;> rfl
      · rw [if_neg h₂, getKey_cons, getKey_cons, ih]
        by_cases h₃ : k = k'
        · have hp : p.1 ≠ k' := fun h => h₂ (h₃.trans h.symm)
          rw [if_neg hp, if_pos h₃, if_pos h₃]
        · rw [if_neg h₃, if_neg h₃]

theorem getKey_insertAll (k : κ) (m ps : List (κ × ν)) : getKey k (insertAll m ps) =
    ((ps.filter fun p => p.1 = k).getLast?.map Prod.snd).or (getKey k m) := by
  induction ps generalizing m with
  | nil => rfl
  | cons p ps ih =>
    rw [insertAll_cons, ih, getKey_insertKey]
    by_cases hp : p.1 = k
    · rw [if_pos hp, List.filter_cons_of_pos (by simpa using hp), List.getLast?_cons]
      cases (ps.filter fun p => p.1 = k).getLast? <;> simp
    · rw [if_neg hp, List.filter_cons_of_neg (by simpa using hp)]

end Lib
