import Mathlib.Data.List.Induction
import Mathlib.Data.List.Nodup
import Mathlib.Logic.Function.Basic

/-!
# Lib.Tables — tables from names to values

A table is a function into `Option`; `Function.update` enters a value and takes one out.
-/

namespace Lib

variable {ν κ : Type*} [DecidableEq ν] {table : ν → Option κ} {name other : ν} {x y : κ}

/-- Where the entries of the new table come from. -/
theorem update_eq_some (h : Function.update table name (some x) other = some y) :
    (other = name ∧ y = x) ∨ (other ≠ name ∧ table other = some y) := by
  by_cases heq : other = name
  · subst heq
    rw [Function.update_self] at h
    exact Or.inl ⟨rfl, (Option.some.inj h).symm⟩
  · rw [Function.update_of_ne heq] at h
    exact Or.inr ⟨heq, h⟩

theorem update_none_eq_some (h : Function.update table name none other = some y) : table other = some y := by
  by_cases heq : other = name
  · subst heq
    rw [Function.update_self] at h
    cases h
  · rwa [Function.update_of_ne heq] at h

theorem update_eq_self_of_eq_some (h : table name = some x) : Function.update table name (some x) = table := by
  rw [← h, Function.update_eq_self]

/-- What holds of every entry, after one more. -/
theorem forall_update {P : ν → κ → Prop} (hname : P name x)
    (hothers : ∀ other y, other ≠ name → table other = some y → P other y) (other : ν) (y : κ)
    (h : Function.update table name (some x) other = some y) : P other y := by
  obtain ⟨rfl, rfl⟩ | ⟨hne, hold⟩ := update_eq_some h
  · exact hname
  · exact hothers other y hne hold

/-! ## A list of entries -/

section StoreAll

variable {es after : List (ν × Option κ)}

/-- A list of entries, entered one after the other. -/
def storeAll (table : ν → Option κ) : List (ν × Option κ) → ν → Option κ
  | [] => table
  | e :: es => storeAll (Function.update table e.1 e.2) es

def firstOf (es : List (ν × Option κ)) (name : ν) : Option κ := (es.find? fun e => e.1 = name).bind Prod.snd

theorem storeAll_append (table : ν → Option κ) (es after : List (ν × Option κ)) :
    storeAll table (es ++ after) = storeAll (storeAll table es) after := by
  induction es generalizing table with
  | nil => rfl
  | cons e es ih => exact ih _

theorem storeAll_of_notMem (h : ∀ e ∈ es, e.1 ≠ name) (table : ν → Option κ) : storeAll table es name = table name := by
  induction es generalizing table with
  | nil => rfl
  | cons e es ih =>
    have hne := (h e List.mem_cons_self).symm
    rw [storeAll, ih (fun e he => h e (List.mem_cons_of_mem _ he)), Function.update_of_ne hne]

theorem storeAll_of_mem {o : Option κ} (h : ∀ e ∈ after, e.1 ≠ name) (table : ν → Option κ)
    (es : List (ν × Option κ)) : storeAll table (es ++ (name, o) :: after) name = o := by
  rw [storeAll_append, storeAll, storeAll_of_notMem h, Function.update_self]

theorem mem_of_storeAll (h : storeAll (fun _ => none) es name = some x) : (name, some x) ∈ es := by
  induction es using List.reverseRecOn with
  | nil => cases h
  | append_singleton es e ih =>
    rw [storeAll_append, storeAll, storeAll] at h
    by_cases hname : name = e.1
    · rw [hname, Function.update_self] at h
      rw [hname, ← h]
      exact List.mem_append_right _ (List.mem_singleton_self _)
    · rw [Function.update_of_ne hname] at h
      exact List.mem_append_left _ (ih h)

theorem firstOf_of_mem (hnodup : (es.map Prod.fst).Nodup) {o : Option κ} (h : (name, o) ∈ es) :
    firstOf es name = o := by
  induction es with
  | nil => cases h
  | cons e es ih =>
    rw [List.map_cons, List.nodup_cons] at hnodup
    rcases List.mem_cons.mp h with rfl | h
    · simp [firstOf]
    · have hne : e.1 ≠ name := fun heq => hnodup.1 (heq ▸ List.mem_map_of_mem (f := Prod.fst) h)
      have hrest := ih hnodup.2 h
      unfold firstOf at hrest ⊢
      rw [List.find?_cons_of_neg (by simpa using hne), hrest]

theorem mem_of_firstOf (h : firstOf es name = some x) : (name, some x) ∈ es := by
  obtain ⟨⟨other, o⟩, he, rfl⟩ := Option.bind_eq_some_iff.mp h
  have hname := List.find?_some he
  obtain rfl : other = name := by simpa using hname
  exact List.mem_of_find?_eq_some he

theorem firstOf_of_notMem (h : ∀ e ∈ es, e.1 ≠ name) : firstOf es name = none := by
  have hnone : es.find? (fun e => e.1 = name) = none := List.find?_eq_none.mpr fun e he => by simpa using h e he
  rw [firstOf, hnone]
  rfl

/-- **With distinct names** the table holds what was listed. -/
theorem storeAll_eq_firstOf (hnodup : (es.map Prod.fst).Nodup) : storeAll (fun _ => none) es = firstOf es := by
  funext name
  by_cases h : ∃ e ∈ es, e.1 = name
  · obtain ⟨e, he, rfl⟩ := h
    obtain ⟨before, after, rfl⟩ := List.append_of_mem he
    rw [firstOf_of_mem hnodup he]
    refine storeAll_of_mem (fun d hd heq => ?_) _ _
    rw [List.map_append, List.map_cons, List.nodup_append, List.nodup_cons] at hnodup
    exact hnodup.2.1.1 (heq ▸ List.mem_map_of_mem hd)
  · have hne : ∀ e ∈ es, e.1 ≠ name := fun e he heq => h ⟨e, he, heq⟩
    rw [firstOf_of_notMem hne, storeAll_of_notMem hne]

end StoreAll

end Lib
