import Mathlib.Data.List.DropRight
import Mathlib.Data.List.Perm.Basic

/-!
# Lib.Recent — the last entries of a history

`push cap l x` puts `x` at the end of a list that keeps at most `cap` entries, the oldest of which goes.
* `Latest R cap history kept`: `kept` are the entries of the history that are highest in the order `R`.
-/

namespace Lib

variable {α : Type} {R : α → α → Prop} {cap : ℕ}

/-- Put an entry at the end, and drop the oldest ones beyond `cap`. -/
def push (cap : ℕ) (l : List α) (x : α) : List α :=
  if cap < (l ++ [x]).length then (l ++ [x]).drop ((l ++ [x]).length - cap) else l ++ [x]

theorem push_eq_rtake (l : List α) (x : α) : push cap l x = (l ++ [x]).rtake cap := by
  rw [push, List.rtake]
  by_cases h : cap < (l ++ [x]).length
  · rw [if_pos h]
  · rw [if_neg h, Nat.sub_eq_zero_of_le (Nat.le_of_not_lt h), List.drop_zero]

theorem length_rtake (l : List α) : (l.rtake cap).length = min l.length cap := by
  rw [List.rtake, List.length_drop]
  omega

theorem length_push_le (l : List α) (x : α) : (push cap l x).length ≤ cap := by
  rw [push_eq_rtake, length_rtake]
  exact Nat.min_le_right _ _

theorem rtake_append (l xs : List α) : (l.rtake cap ++ xs).rtake cap = (l ++ xs).rtake cap := by
  rw [List.rtake, List.rtake, List.rtake, List.length_append, List.length_append, List.length_drop,
    ← List.drop_append_of_le_length (Nat.sub_le l.length cap), List.drop_drop]
  congr 1
  omega

/-- **What is kept are the last entries of the history.** -/
theorem push_rtake (l : List α) (x : α) : push cap (l.rtake cap) x = (l ++ [x]).rtake cap := by
  rw [push_eq_rtake, rtake_append]

theorem push_of_lt {l : List α} (h : l.length < cap) (x : α) : push cap l x = l ++ [x] := by
  rw [push, if_neg (by simp; omega)]

theorem push_push_suffix (hcap : 2 ≤ cap) (l : List α) (x y : α) : [x, y] <:+ push cap (push cap l x) y := by
  obtain ⟨n, rfl⟩ : ∃ n, cap = n + 2 := ⟨cap - 2, by omega⟩
  rw [push_eq_rtake, push_eq_rtake, List.rtake_concat_succ, List.rtake_concat_succ]
  rw [show (l.rtake (n + 1) ++ [x]).rtake (n + 1) = (l.rtake (n + 1)).rtake n ++ [x] from List.rtake_concat_succ ..]
  exact ⟨(l.rtake (n + 1)).rtake n, by simp⟩

/-- `kept` is in order, and holds those entries of the history that are highest, as many as there is room for. -/
structure Latest (R : α → α → Prop) (cap : ℕ) (history kept : List α) : Prop where
  ordered : kept.Pairwise R
  length : kept.length = min history.length cap
  highest : ∃ dropped, history.Perm (dropped ++ kept) ∧ ∀ d ∈ dropped, ∀ e ∈ kept, R d e

/-- For a history in that order the last entries are the highest ones. -/
theorem latest_rtake {history : List α} (h : history.Pairwise R) : Latest R cap history (history.rtake cap) := by
  have hsplit : history = history.take (history.length - cap) ++ history.rtake cap := (List.take_append_drop _ _).symm
  rw [hsplit, List.pairwise_append] at h
  obtain ⟨-, hkept, hacross⟩ := h
  exact ⟨hkept, length_rtake history, _, List.Perm.of_eq hsplit, hacross⟩

theorem not_latest_of_suffix {history kept : List α} {x y : α} (hxy : ¬ R x y) (h : [x, y] <:+ kept) :
    ¬ Latest R cap history kept := by
  intro hlatest
  have hpair := hlatest.ordered.sublist h.sublist
  exact hxy (by simpa using hpair)

end Lib
