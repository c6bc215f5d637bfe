import Mathlib.Algebra.BigOperators.Group.Finset.Basic
import Mathlib.Algebra.Order.BigOperators.Group.Finset
import Mathlib.Data.Set.Pairwise.Basic
import Mathlib.Order.CompletePartialOrder
import Mathlib.Order.Interval.Set.Disjoint

/-!
# Lib.Holdings — what several parties hold of one budget

`Within spent held bound`: what is spent, with what any finite number of parties hold, is within the bound.
There may be infinitely many parties, and most of them hold nothing.  The rule is about one party that takes
from the budget or spends what it holds.

The second part is about half-open intervals of time that are handed out one after the other.
-/

namespace Lib

variable {ι : Type} [DecidableEq ι]

/-- What is spent and what is held stay within `bound`. -/
def Within (spent : ℕ) (held : ι → ℕ) (bound : ℕ) : Prop :=
  ∀ S : Finset ι, spent + ∑ i ∈ S, held i ≤ bound

namespace Within

variable {spent spent' bound bound' : ℕ} {held : ι → ℕ}

omit [DecidableEq ι] in
theorem spent_le (h : Within spent held bound) : spent ≤ bound := by
  simpa using h ∅

omit [DecidableEq ι] in
theorem of_nothing_held (h : spent ≤ bound) (h0 : ∀ i, held i = 0) : Within spent held bound := by
  intro S
  simpa [h0] using h

/-- **Rule**: party `j` holds `x` from now on.  What this adds is covered by what it held, by what is no
longer spent, or by a larger bound. -/
theorem update (h : Within spent held bound) (j : ι) (x : ℕ)
    (hx : spent' + x + bound ≤ spent + held j + bound') :
    Within spent' (Function.update held j x) bound' := by
  intro S
  have hrest : ∑ i ∈ S.erase j, Function.update held j x i = ∑ i ∈ S.erase j, held i :=
    Finset.sum_congr rfl fun i hi => Function.update_of_ne (Finset.ne_of_mem_erase hi) _ _
  have hall : held j + ∑ i ∈ S.erase j, held i = ∑ i ∈ insert j S, held i := by
    rw [← Finset.erase_insert_eq_erase, Finset.add_sum_erase _ _ (Finset.mem_insert_self j S)]
  have hbound := h (insert j S)
  have hle : ∑ i ∈ S, Function.update held j x i ≤ x + ∑ i ∈ S.erase j, held i := by
    by_cases hj : j ∈ S
    · rw [← Finset.add_sum_erase _ _ hj, hrest, Function.update_self]
    · rw [← hrest, Finset.erase_eq_of_notMem hj]
      exact Nat.le_add_left _ _
  omega

end Within

/-! ## Intervals handed out one after the other -/

/-- The times of an interval, its end included. -/
abbrev span (iv : ℕ × ℕ) : Set ℕ := Set.Ioc iv.1 iv.2

theorem disjoint_span_of_le {iv iv' : ℕ × ℕ} (h : iv.2 ≤ iv'.1) : Disjoint (span iv) (span iv') :=
  Set.Ioc_disjoint_Ioc_of_le h

end Lib
