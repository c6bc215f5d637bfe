import Mathlib.Data.List.Count
import Mathlib.Algebra.Order.Group.Nat

/-!
# Lib.Meter — how often parties are served in any window of time

Every party has a level, at most `cap`, that rises with the clock at `rate` and falls by `cost` when the party
is served; a reset of a party brings its level back to anything up to `cap`.  `Meter.Step` says just that,
and `served_le` of `Metered` is what follows for every window of time.
-/

namespace Lib

variable {P : Type} [DecidableEq P]

/-- How often `p` occurs in a log between two times, both included. -/
def inWindow (log : List (P × ℕ)) (p : P) (t₁ t₂ : ℕ) : ℕ :=
  log.countP fun e => e.1 = p ∧ t₁ ≤ e.2 ∧ e.2 ≤ t₂

/-- The log of what happens to some parties at one time. -/
def stamped (ps : List P) (t : ℕ) : List (P × ℕ) := ps.map fun p => (p, t)

theorem inWindow_append (log log' : List (P × ℕ)) (p : P) (t₁ t₂ : ℕ) :
    inWindow (log ++ log') p t₁ t₂ = inWindow log p t₁ t₂ + inWindow log' p t₁ t₂ :=
  List.countP_append

theorem inWindow_stamped {t t₁ t₂ : ℕ} (h₁ : t₁ ≤ t) (h₂ : t ≤ t₂) (ps : List P) (p : P) :
    inWindow (stamped ps t) p t₁ t₂ = ps.count p := by
  rw [inWindow, stamped, List.countP_map, List.count]
  apply List.countP_congr
  intro q _
  simp [h₁, h₂]

theorem inWindow_eq_zero {log : List (P × ℕ)} {p : P} {t₁ t₂ : ℕ}
    (h : ∀ e ∈ log, ¬ (t₁ ≤ e.2 ∧ e.2 ≤ t₂)) : inWindow log p t₁ t₂ = 0 := by
  rw [inWindow, List.countP_eq_zero]
  intro e he
  simpa using fun _ h₁ => Nat.lt_of_not_le fun h₂ => h e he ⟨h₁, h₂⟩

theorem inWindow_mono {log : List (P × ℕ)} {p : P} {t₁ t₂ t₂' : ℕ} (h : t₂ ≤ t₂') :
    inWindow log p t₁ t₂ ≤ inWindow log p t₁ t₂' := by
  apply List.countP_mono_left
  intro e _ he
  simp only [decide_eq_true_eq] at he ⊢
  exact ⟨he.1, he.2.1, le_trans he.2.2 h⟩

theorem inWindow_of_past {log : List (P × ℕ)} {c : ℕ} (hpast : ∀ e ∈ log, e.2 ≤ c) {t₂ : ℕ} (h : c ≤ t₂)
    (p : P) (t₁ : ℕ) : inWindow log p t₁ t₂ = inWindow log p t₁ c := by
  apply List.countP_congr
  intro e he
  have hc := hpast e he
  simp [hc, le_trans hc h]

/-- What is kept about the parties. -/
structure Meter (P : Type) where
  clock : ℕ
  level : P → ℕ
  served : List (P × ℕ)
  resets : List (P × ℕ)

variable (cap rate cost : ℕ)

/-- One step: some parties are reset, the clock moves on, and some are served. -/
def Meter.Step (m m' : Meter P) : Prop :=
  ∃ ps rs : List P, m.clock ≤ m'.clock ∧ m'.served = stamped ps m'.clock ++ m.served ∧
    m'.resets = stamped rs m.clock ++ m.resets ∧
    ∀ p, cost * ps.count p + m'.level p ≤ cap ∧
      cost * ps.count p + m'.level p ≤
        m.level p + (m'.clock - m.clock) * rate + cap * rs.count p

/-- The bounds, for windows up to now and for all windows. -/
structure Metered (m : Meter P) : Prop where
  past : ∀ e ∈ m.served, e.2 ≤ m.clock
  since : ∀ p t₁, t₁ ≤ m.clock → cost * inWindow m.served p t₁ m.clock + m.level p ≤
    cap + cap * inWindow m.resets p t₁ m.clock + (m.clock - t₁) * rate
  served_le : ∀ p t₁ t₂, t₁ ≤ t₂ → cost * inWindow m.served p t₁ t₂ ≤
    cap + cap * inWindow m.resets p t₁ t₂ + (t₂ - t₁) * rate

variable {cap rate cost}

theorem metered_of_nothing_served {m : Meter P} (hs : m.served = []) (hl : ∀ p, m.level p ≤ cap) :
    Metered cap rate cost m where
  past := by simp [hs]
  since p t₁ _ := by
    have := hl p
    rw [hs, inWindow, List.countP_nil]
    omega
  served_le p t₁ t₂ _ := by
    rw [hs, inWindow, List.countP_nil, Nat.mul_zero]
    exact Nat.zero_le _

section Step

variable {m m' : Meter P}

theorem Metered.since_step (h : Metered cap rate cost m) {ps rs : List P} (hc : m.clock ≤ m'.clock)
    (hserved : m'.served = stamped ps m'.clock ++ m.served)
    (hresets : m'.resets = stamped rs m.clock ++ m.resets) {p : P}
    (hcap : cost * ps.count p + m'.level p ≤ cap)
    (hlevel : cost * ps.count p + m'.level p ≤
      m.level p + (m'.clock - m.clock) * rate + cap * rs.count p) {t₁ : ℕ} (ht : t₁ ≤ m'.clock) :
    cost * inWindow m'.served p t₁ m'.clock + m'.level p ≤
      cap + cap * inWindow m'.resets p t₁ m'.clock + (m'.clock - t₁) * rate := by
  have hnew : inWindow m'.served p t₁ m'.clock = ps.count p + inWindow m.served p t₁ m'.clock := by
    rw [hserved, inWindow_append, inWindow_stamped ht (le_refl _)]
  by_cases hold : t₁ ≤ m.clock
  · have hserved' : inWindow m.served p t₁ m'.clock = inWindow m.served p t₁ m.clock :=
      inWindow_of_past h.past hc p t₁
    have hresets' : rs.count p + inWindow m.resets p t₁ m.clock ≤ inWindow m'.resets p t₁ m'.clock := by
      rw [hresets, inWindow_append, inWindow_stamped hold hc]
      exact Nat.add_le_add_left (inWindow_mono hc) _
    have htime : (m'.clock - t₁) * rate = (m'.clock - m.clock) * rate + (m.clock - t₁) * rate := by
      rw [← Nat.add_mul]
      congr 1
      omega
    have hbefore := h.since p t₁ hold
    have hspread := Nat.mul_le_mul_left cap hresets'
    rw [hnew, hserved', htime, Nat.mul_add]
    rw [Nat.mul_add] at hspread
    omega
  · -- the window begins after everything that was served before
    have hzero : inWindow m.served p t₁ m'.clock = 0 := by
      apply inWindow_eq_zero
      intro e he hin
      have := h.past e he
      omega
    rw [hnew, hzero, Nat.add_zero]
    omega

/-- **Step rule.** -/
theorem Metered.step (h : Metered cap rate cost m) (hstep : Meter.Step cap rate cost m m') :
    Metered cap rate cost m' := by
  obtain ⟨ps, rs, hc, hserved, hresets, hlevels⟩ := hstep
  have hpast : ∀ e ∈ m'.served, e.2 ≤ m'.clock := by
    intro e he
    rw [hserved, List.mem_append] at he
    obtain he | he := he
    · obtain ⟨q, -, rfl⟩ := List.mem_map.mp he
      exact le_refl _
    · exact le_trans (h.past e he) hc
  have hsince : ∀ p t₁, t₁ ≤ m'.clock → cost * inWindow m'.served p t₁ m'.clock + m'.level p ≤
      cap + cap * inWindow m'.resets p t₁ m'.clock + (m'.clock - t₁) * rate := fun p t₁ ht =>
    h.since_step hc hserved hresets (hlevels p).1 (hlevels p).2 ht
  refine ⟨hpast, hsince, ?_⟩
  intro p t₁ t₂ ht
  by_cases hnow : m'.clock ≤ t₂
  · rw [inWindow_of_past hpast hnow]
    by_cases hbegin : t₁ ≤ m'.clock
    · have hspread := Nat.mul_le_mul_left cap (inWindow_mono hnow : inWindow m'.resets p t₁ _ ≤ _)
      have htime : (m'.clock - t₁) * rate ≤ (t₂ - t₁) * rate := Nat.mul_le_mul_right _ (by omega)
      have := hsince p t₁ hbegin
      omega
    · have hzero : inWindow m'.served p t₁ m'.clock = 0 := inWindow_eq_zero fun e _ hin => by omega
      rw [hzero, Nat.mul_zero]
      exact Nat.zero_le _
  · -- the window ends before what this step served
    have hsame : inWindow m'.served p t₁ t₂ = inWindow m.served p t₁ t₂ := by
      rw [hserved, inWindow_append, inWindow_eq_zero, Nat.zero_add]
      intro e he hin
      obtain ⟨q, -, rfl⟩ := List.mem_map.mp he
      exact hnow hin.2
    have hspread : cap * inWindow m.resets p t₁ t₂ ≤ cap * inWindow m'.resets p t₁ t₂ := by
      rw [hresets, inWindow_append]
      exact Nat.mul_le_mul_left _ (Nat.le_add_left _ _)
    have := h.served_le p t₁ t₂ ht
    rw [hsame]
    omega

end Step

end Lib
