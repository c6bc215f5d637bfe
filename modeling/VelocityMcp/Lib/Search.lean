import Mathlib.Data.List.Infix
import Mathlib.Tactic.Common

/-!
# Lib.Search — occurrences of one list in another

`find`: where a pattern occurs for the first time; `find_eq_some`, `find_eq_none_iff`.
-/

namespace Lib.Search

variable {α : Type} [DecidableEq α]

/-- The first place where the pattern occurs. -/
def find (pat : List α) : List α → Option ℕ
  | [] => if pat = [] then some 0 else none
  | x :: s => if pat <+: x :: s then some 0 else (find pat s).map (· + 1)

theorem find_of_prefix {pat s : List α} (h : pat <+: s) : find pat s = some 0 := by
  cases s with
  | nil => rw [find, if_pos (List.prefix_nil.mp h)]
  | cons x s => rw [find, if_pos h]

theorem find_eq_some {pat s : List α} {i : ℕ} (h : find pat s = some i) :
    pat <+: s.drop i ∧ i ≤ s.length ∧ ∀ j < i, ¬pat <+: s.drop j := by
  induction s generalizing i with
  | nil =>
    rw [find] at h
    split_ifs at h with hp
    obtain rfl := Option.some.inj h
    exact ⟨hp ▸ List.nil_prefix, Nat.le_refl _, fun j hj => absurd hj (Nat.not_lt_zero j)⟩
  | cons x s ih =>
    rw [find] at h
    split_ifs at h with hp
    · obtain rfl := Option.some.inj h
      exact ⟨hp, Nat.zero_le _, fun j hj => absurd hj (Nat.not_lt_zero j)⟩
    · obtain ⟨k, hk, rfl⟩ := Option.map_eq_some_iff.mp h
      obtain ⟨h1, h2, h3⟩ := ih hk
      refine ⟨h1, Nat.succ_le_succ h2, fun j hj => ?_⟩
      cases j with
      | zero => exact hp
      | succ j => exact h3 j (Nat.lt_of_succ_lt_succ hj)

theorem find_eq_none_iff {pat s : List α} : find pat s = none ↔ ¬pat <:+: s := by
  induction s with
  | nil => simp [find]
  | cons x s ih =>
    rw [find, List.infix_cons_iff]
    split_ifs with hp
    · simp [hp]
    · simp [hp, ih]

theorem find_ne_none_iff {pat s : List α} : find pat s ≠ none ↔ pat <:+: s := by
  rw [ne_eq, find_eq_none_iff, not_not]

theorem add_length_le_of_find {pat s : List α} {i : ℕ} (h : find pat s = some i) : i + pat.length ≤ s.length := by
  obtain ⟨hp, hle, -⟩ := find_eq_some h
  have hlen := hp.length_le
  rw [List.length_drop] at hlen
  omega

/-- What lies between the occurrences. -/
def split (pat : List α) (s : List α) : List (List α) :=
  if pat = [] then [s]
  else
    match _h : find pat s with
    | none => [s]
    | some i => s.take i :: split pat (s.drop (i + pat.length))
termination_by s.length
decreasing_by
  have hlen := add_length_le_of_find _h
  have hpos : 0 < pat.length := List.length_pos_of_ne_nil ‹_›
  rw [List.length_drop]
  omega

/-- The occurrences replaced. -/
def replaceAll (pat repl s : List α) : List α := repl.intercalate (split pat s)

variable {pat repl s : List α} {i : ℕ}

theorem split_of_none (h : find pat s = none) : split pat s = [s] := by
  rw [split]
  split_ifs
  · rfl
  · split
    next => rfl
    next i hi => exact absurd (h.symm.trans hi) (by simp)

theorem split_nil (pat : List α) : split pat [] = [[]] := by
  by_cases hne : pat = []
  · rw [split, if_pos hne]
  · exact split_of_none (by rw [find, if_neg hne])

theorem split_of_some (hne : pat ≠ []) (h : find pat s = some i) :
    split pat s = s.take i :: split pat (s.drop (i + pat.length)) := by
  rw [split, if_neg hne]
  split
  next hnone => exact absurd (h.symm.trans hnone) (by simp)
  next j hj =>
    obtain rfl := Option.some.inj (h.symm.trans hj)
    rfl

theorem split_ne_nil (pat s : List α) : split pat s ≠ [] := by
  rw [split]
  split_ifs
  · simp
  · split <;> simp

omit [DecidableEq α] in
theorem intercalate_cons_of_ne_nil (sep x : List α) {xs : List (List α)} (h : xs ≠ []) :
    sep.intercalate (x :: xs) = x ++ (sep ++ sep.intercalate xs) := by
  cases xs with
  | nil => exact absurd rfl h
  | cons y ys => simp [List.intercalate]

theorem replaceAll_of_none (h : find pat s = none) : replaceAll pat repl s = s := by
  rw [replaceAll, split_of_none h]
  simp [List.intercalate]

theorem replaceAll_of_some (hne : pat ≠ []) (h : find pat s = some i) :
    replaceAll pat repl s = s.take i ++ (repl ++ replaceAll pat repl (s.drop (i + pat.length))) := by
  rw [replaceAll, split_of_some hne h, intercalate_cons_of_ne_nil _ _ (split_ne_nil _ _), replaceAll]

theorem replaceAll_eq_nil (hrepl : repl ≠ []) (h : replaceAll pat repl s = []) : s = [] := by
  by_cases hne : pat = []
  · rwa [replaceAll, split, if_pos hne, List.intercalate, List.intersperse_singleton, List.flatten_singleton] at h
  · cases hfind : find pat s with
    | none => rwa [replaceAll_of_none hfind] at h
    | some i =>
      rw [replaceAll_of_some hne hfind, List.append_eq_nil_iff, List.append_eq_nil_iff] at h
      exact absurd h.2.1 hrepl

end Lib.Search
