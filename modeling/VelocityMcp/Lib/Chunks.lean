import Mathlib.Data.List.Basic
import Mathlib.Tactic.Common

/-!
# Lib.Chunks — a list cut into pieces of one size, the last of which may be shorter

`length_chunks`: how many there are.  `length_of_mem_chunks`: how long they are.
-/

namespace Lib

variable {α β : Type} {n : ℕ} {xs ys : List α}

def chunksFrom (n : ℕ) : ℕ → List α → List (List α)
  | 0, _ => []
  | _ + 1, [] => []
  | k + 1, x :: xs => (x :: xs).take n :: chunksFrom n k ((x :: xs).drop n)

/-- The pieces (`slice::chunks`), for a size that is not zero. -/
def chunks (n : ℕ) (xs : List α) : List (List α) := chunksFrom n xs.length xs

example : chunks 2 [1, 2, 3, 4, 5] = [[1, 2], [3, 4], [5]] := rfl

@[simp] theorem chunks_nil (n : ℕ) : chunks n ([] : List α) = [] := rfl

theorem chunksFrom_of_le (hn : 0 < n) {k m : ℕ} (hk : xs.length ≤ k) (hm : xs.length ≤ m) :
    chunksFrom n k xs = chunksFrom n m xs := by
  induction k generalizing xs m with
  | zero =>
    obtain rfl := List.length_eq_zero_iff.mp (Nat.le_zero.mp hk)
    cases m <;> rfl
  | succ k ih =>
    cases xs with
    | nil => cases m <;> rfl
    | cons x xs =>
      obtain ⟨m, rfl⟩ : ∃ j, m = j + 1 := ⟨m - 1, by rw [List.length_cons] at hm; omega⟩
      have hdrop : ((x :: xs).drop n).length ≤ xs.length := by
        rw [List.length_drop, List.length_cons]
        omega
      rw [List.length_cons] at hk hm
      rw [chunksFrom, chunksFrom, ih (by omega) (by omega : _ ≤ m)]

theorem chunks_of_ne_nil (hn : 0 < n) (h : xs ≠ []) : chunks n xs = xs.take n :: chunks n (xs.drop n) := by
  obtain ⟨x, xs, rfl⟩ := List.exists_cons_of_ne_nil h
  have hdrop : ((x :: xs).drop n).length ≤ xs.length := by
    rw [List.length_drop, List.length_cons]
    omega
  rw [chunks, List.length_cons, chunksFrom, chunks, chunksFrom_of_le hn hdrop (Nat.le_refl _)]

theorem chunks_induction {P : List α → Prop} (hn : 0 < n) (nil : P [])
    (step : ∀ xs, xs ≠ [] → P (xs.drop n) → P xs) (xs : List α) : P xs := by
  induction h : xs.length using Nat.strongRecOn generalizing xs with
  | ind k ih =>
    by_cases hxs : xs = []
    · rw [hxs]
      exact nil
    · have hpos := List.length_pos_of_ne_nil hxs
      exact step xs hxs (ih (xs.drop n).length (by rw [List.length_drop]; omega) _ rfl)

/-- **The pieces are the list.** -/
theorem flatten_chunks (hn : 0 < n) (xs : List α) : (chunks n xs).flatten = xs := by
  induction xs using chunks_induction hn with
  | nil => rfl
  | step xs hxs ih => rw [chunks_of_ne_nil hn hxs, List.flatten_cons, ih, List.take_append_drop]

/-- **How many pieces there are**: the length, divided and rounded up. -/
theorem length_chunks (hn : 0 < n) (xs : List α) : (chunks n xs).length = (xs.length + n - 1) / n := by
  induction xs using chunks_induction hn with
  | nil =>
    rw [chunks_nil, List.length_nil, List.length_nil, Nat.div_eq_of_lt (by omega)]
  | step xs hxs ih =>
    have hpos := List.length_pos_of_ne_nil hxs
    rw [chunks_of_ne_nil hn hxs, List.length_cons, ih, List.length_drop]
    by_cases hle : xs.length ≤ n
    · have hzero : xs.length - n = 0 := by omega
      have hone : (xs.length + n - 1) / n = 1 := Nat.div_eq_of_lt_le (by omega) (by omega)
      rw [hzero, Nat.div_eq_of_lt (by omega), hone]
    · rw [← Nat.add_div_right _ hn]
      congr 1
      omega

theorem chunks_eq_nil_iff (hn : 0 < n) : chunks n xs = [] ↔ xs = [] := by
  refine ⟨fun h => ?_, fun h => by rw [h, chunks_nil]⟩
  have hxs := flatten_chunks hn xs
  rw [h] at hxs
  exact hxs.symm

theorem length_of_mem_chunks (hn : 0 < n) (hdvd : n ∣ xs.length) {c : List α} (hc : c ∈ chunks n xs) :
    c.length = n := by
  induction xs using chunks_induction hn with
  | nil => cases hc
  | step xs hxs ih =>
    have hpos := List.length_pos_of_ne_nil hxs
    have hle := Nat.le_of_dvd hpos hdvd
    rw [chunks_of_ne_nil hn hxs, List.mem_cons] at hc
    rcases hc with rfl | hc
    · rw [List.length_take]
      exact Nat.min_eq_left hle
    · refine ih ?_ hc
      rw [List.length_drop]
      exact Nat.dvd_sub hdvd (Nat.dvd_refl n)

end Lib
