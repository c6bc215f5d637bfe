import Mathlib.Data.List.Basic
import Mathlib.Tactic.Common

/-!
# Lib.Stamps — parts that are read one by one, after a counter

A store has parts that change one at a time, and a counter that advances with every change.  `history` has the
store as it was when the counter had each of its values.  A reader loads the counter, `g`, and then reads part
after part: what it has of a part is what the store had when the counter stood at `g` or later.
-/

namespace Lib

variable {P : Type} {C : P → Type}

/-- The part `p` of `view` was in the store at a moment not before the counter came to `g`. -/
def ReadSince (history : List (∀ p, C p)) (g : ℕ) (view : ∀ p, C p) (p : P) : Prop :=
  ∃ h v, g ≤ h ∧ history[h]? = some v ∧ view p = v p

variable {history : List (∀ p, C p)} {g g' : ℕ} {view v : ∀ p, C p} {p : P}

theorem ReadSince.mono (h : ReadSince history g view p) (hle : g' ≤ g) : ReadSince history g' view p := by
  obtain ⟨n, v, hn, hv, hview⟩ := h
  exact ⟨n, v, Nat.le_trans hle hn, hv, hview⟩

theorem ReadSince.append (h : ReadSince history g view p) (more : List (∀ p, C p)) :
    ReadSince (history ++ more) g view p := by
  obtain ⟨n, v, hn, hv, hview⟩ := h
  obtain ⟨hlt, -⟩ := List.getElem?_eq_some_iff.mp hv
  exact ⟨n, v, hn, (List.getElem?_append_left hlt).trans hv, hview⟩

theorem readSince_last (hlast : history.getLast? = some v) (hg : g < history.length) (hview : view p = v p) :
    ReadSince history g view p := by
  rw [List.getLast?_eq_getElem?] at hlast
  exact ⟨history.length - 1, v, by omega, hlast, hview⟩

/-- **The counter has not moved**: what was read is what is there. -/
theorem ReadSince.eq_last (h : ReadSince history g view p) (hg : g + 1 = history.length)
    (hlast : history.getLast? = some v) : view p = v p := by
  obtain ⟨n, w, hn, hw, hview⟩ := h
  obtain ⟨hlt, -⟩ := List.getElem?_eq_some_iff.mp hw
  rw [List.getLast?_eq_getElem?, show history.length - 1 = n by omega, hw] at hlast
  rw [hview, Option.some.inj hlast]

end Lib
