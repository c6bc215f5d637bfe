import Mathlib.Analysis.Complex.Exponential
import Mathlib.Analysis.Complex.Trigonometric
import Mathlib.Analysis.SpecialFunctions.Pow.Real
import Mathlib.Data.Nat.Nth
import Mathlib.Data.Nat.Prime.Defs

/-!
# Lib.Expansion — the first binary digits of roots and of sines
-/

namespace Lib

/-! ## Roots -/

/-- 32 binary digits behind the point. -/
noncomputable def fractionDigits (x : ℝ) : ℕ := ⌊2 ^ 32 * Int.fract x⌋₊

theorem fractionDigits_eq {x : ℝ} {r c : ℕ} (hc : c < 2 ^ 32) (hle : (r * 2 ^ 32 + c : ℕ) ≤ 2 ^ 32 * x)
    (hlt : 2 ^ 32 * x < (r * 2 ^ 32 + c + 1 : ℕ)) : fractionDigits x = c := by
  have hcr : (c : ℝ) + 1 ≤ 2 ^ 32 := by exact_mod_cast hc
  push_cast at hle hlt
  have hfloor : ⌊x⌋ = (r : ℤ) := by
    rw [Int.floor_eq_iff, Int.cast_natCast]
    constructor
    · linarith [Nat.cast_nonneg (α := ℝ) c]
    · linarith
  rw [fractionDigits, Int.fract, hfloor, Int.cast_natCast, Nat.floor_eq_iff (by linarith [Nat.cast_nonneg (α := ℝ) c])]
  constructor
  · linarith
  · linarith

/-- **The digits of a root.** -/
theorem fractionDigits_root {n p r c : ℕ} (hn : n ≠ 0) (hc : c < 2 ^ 32)
    (hle : (r * 2 ^ 32 + c) ^ n ≤ p * 2 ^ (32 * n)) (hlt : p * 2 ^ (32 * n) < (r * 2 ^ 32 + c + 1) ^ n) :
    fractionDigits ((p : ℝ) ^ (1 / n : ℝ)) = c := by
  have hpow : (2 ^ 32 * (p : ℝ) ^ (1 / n : ℝ)) ^ n = (p * 2 ^ (32 * n) : ℕ) := by
    rw [mul_pow, one_div, Real.rpow_inv_natCast_pow (Nat.cast_nonneg p) hn, ← pow_mul]
    push_cast
    ring
  have hpos : 0 ≤ 2 ^ 32 * (p : ℝ) ^ (1 / n : ℝ) := by positivity
  refine @fractionDigits_eq _ r c hc ?_ ?_
  · rw [← pow_le_pow_iff_left₀ (Nat.cast_nonneg _) hpos hn, hpow]
    exact_mod_cast hle
  · rw [← pow_lt_pow_iff_left₀ hpos (Nat.cast_nonneg _) hn, hpow]
    exact_mod_cast hlt

/-- A prime by the number of primes before it. -/
theorem nth_prime_eq {t p : ℕ} (hp : p.Prime) (ht : Nat.count Nat.Prime p = t) : Nat.nth Nat.Prime t = p := by
  rw [← ht, Nat.nth_count hp]

/-! ## Sines -/

noncomputable def sineSum (x : ℝ) : ℕ → ℝ
  | 0 => 0
  | m + 1 => sineSum x m + (-1) ^ m * x ^ (2 * m + 1) / (2 * m + 1).factorial

theorem sineSum_eq_im (x : ℝ) (m : ℕ) :
    sineSum x m = (∑ j ∈ Finset.range (2 * m), ((x : ℂ) * Complex.I) ^ j / (j.factorial : ℂ)).im := by
  induction m with
  | zero => rfl
  | succ m ih =>
    have hI : Complex.I ^ (2 * m) = (-1) ^ m := by rw [pow_mul, Complex.I_sq]
    have heven : (((x : ℂ) * Complex.I) ^ (2 * m) / ((2 * m).factorial : ℂ)).im = 0 := by
      have hreal : ((x : ℂ) * Complex.I) ^ (2 * m) / ((2 * m).factorial : ℂ) =
          ((x ^ (2 * m) * (-1) ^ m / (2 * m).factorial : ℝ) : ℂ) := by
        rw [mul_pow, hI]
        push_cast
        rfl
      rw [hreal, Complex.ofReal_im]
    have hodd : (((x : ℂ) * Complex.I) ^ (2 * m + 1) / ((2 * m + 1).factorial : ℂ)).im =
        (-1) ^ m * x ^ (2 * m + 1) / (2 * m + 1).factorial := by
      have himag : ((x : ℂ) * Complex.I) ^ (2 * m + 1) / ((2 * m + 1).factorial : ℂ) =
          (((-1) ^ m * x ^ (2 * m + 1) / (2 * m + 1).factorial : ℝ) : ℂ) * Complex.I := by
        rw [mul_pow, pow_succ Complex.I, hI]
        push_cast
        ring
      rw [himag, Complex.mul_I_im, Complex.ofReal_re]
    rw [sineSum, show 2 * (m + 1) = 2 * m + 1 + 1 from rfl, Finset.sum_range_succ, Finset.sum_range_succ,
      Complex.add_im, Complex.add_im, ← ih, heven, hodd, add_zero]

/-- **How far the series is from the sine.** -/
theorem abs_sin_sub_sineSum_le {x : ℝ} {m : ℕ} (h : |x| / (2 * m + 1) ≤ 1 / 2) :
    |Real.sin x - sineSum x m| ≤ |x| ^ (2 * m) / (2 * m).factorial * 2 := by
  have hnorm : ‖(x : ℂ) * Complex.I‖ = |x| := by simp
  have hexp : (Complex.exp ((x : ℂ) * Complex.I)).im = Real.sin x := Complex.exp_ofReal_mul_I_im x
  have hbound := Complex.exp_bound' (x := (x : ℂ) * Complex.I) (n := 2 * m) (by
    rw [hnorm]
    push_cast
    exact h)
  rw [hnorm] at hbound
  rw [← hexp, sineSum_eq_im, ← Complex.sub_im]
  exact (Complex.abs_im_le_norm _).trans hbound

/-- 32 binary digits of a sine. -/
noncomputable def sineDigits (n : ℕ) : ℕ := ⌊2 ^ 32 * |Real.sin n|⌋₊

/-- The series as an integer, over the factorial of `2 * m`. -/
def sineNumerator (n : ℕ) : ℕ → ℤ
  | 0 => 0
  | m + 1 =>
    let term : ℤ := (n ^ (2 * m + 1) * (2 * m + 2) : ℕ)
    sineNumerator n m * ((2 * m + 1) * (2 * m + 2) : ℕ) + if m % 2 = 0 then term else -term

theorem sineNumerator_eq (n m : ℕ) : (sineNumerator n m : ℝ) = (2 * m).factorial * sineSum n m := by
  induction m with
  | zero => simp [sineNumerator, sineSum]
  | succ m ih =>
    have hsign : ((if m % 2 = 0 then ((n ^ (2 * m + 1) * (2 * m + 2) : ℕ) : ℤ)
        else -((n ^ (2 * m + 1) * (2 * m + 2) : ℕ) : ℤ) : ℤ) : ℝ) = (-1) ^ m * (n ^ (2 * m + 1) * (2 * m + 2)) := by
      split_ifs with heven
      · rw [(Nat.even_iff.mpr heven).neg_one_pow]
        push_cast
        ring
      · rw [(Nat.not_even_iff_odd.mp fun h => heven (Nat.even_iff.mp h)).neg_one_pow]
        push_cast
        ring
    have hfactorial : ((2 * (m + 1)).factorial : ℝ) = (2 * m + 2) * (2 * m + 1).factorial := by
      rw [show 2 * (m + 1) = 2 * m + 1 + 1 from rfl, Nat.factorial_succ]
      push_cast
      ring
    have hfactorial' : ((2 * m + 1).factorial : ℝ) = (2 * m + 1) * (2 * m).factorial := by
      rw [Nat.factorial_succ]
      push_cast
      ring
    have hne : ((2 * m).factorial : ℝ) ≠ 0 := Nat.cast_ne_zero.mpr (Nat.factorial_ne_zero _)
    have hodd : (2 * m + 1 : ℝ) ≠ 0 := by positivity
    rw [sineNumerator, sineSum]
    rw [Int.cast_add, Int.cast_mul, ih, hsign, hfactorial, hfactorial']
    field_simp
    push_cast
    ring

/-- **The digits of a sine.** -/
theorem sineDigits_eq {n m c : ℕ} (hm : 2 * n ≤ 2 * m + 1)
    (hle : c * (2 * m).factorial + 2 ^ 33 * n ^ (2 * m) ≤ 2 ^ 32 * (sineNumerator n m).natAbs)
    (hlt : 2 ^ 32 * (sineNumerator n m).natAbs + 2 ^ 33 * n ^ (2 * m) < (c + 1) * (2 * m).factorial) :
    sineDigits n = c := by
  have hpos : (0 : ℝ) < (2 * m).factorial := Nat.cast_pos.mpr (Nat.factorial_pos _)
  have hclose : |Real.sin n - sineSum n m| ≤ (n : ℝ) ^ (2 * m) / (2 * m).factorial * 2 := by
    have h := @abs_sin_sub_sineSum_le n m (by
      rw [Nat.abs_cast, div_le_iff₀ (by positivity)]
      have hcast : ((2 * n : ℕ) : ℝ) ≤ (2 * m + 1 : ℕ) := Nat.cast_le.mpr hm
      push_cast at hcast
      linarith)
    rwa [Nat.abs_cast] at h
  have habs : ((sineNumerator n m).natAbs : ℝ) = (2 * m).factorial * |sineSum n m| := by
    rw [Nat.cast_natAbs, Int.cast_abs, sineNumerator_eq, abs_mul, abs_of_pos hpos]
  have hnear : |(2 * m).factorial * |Real.sin n| - (sineNumerator n m).natAbs| ≤ 2 * (n : ℝ) ^ (2 * m) := by
    rw [habs, ← mul_sub, abs_mul, abs_of_pos hpos]
    calc (2 * m).factorial * |(|Real.sin n| - |sineSum n m|)|
        ≤ (2 * m).factorial * ((n : ℝ) ^ (2 * m) / (2 * m).factorial * 2) :=
          mul_le_mul_of_nonneg_left ((abs_abs_sub_abs_le _ _).trans hclose) hpos.le
      _ = 2 * (n : ℝ) ^ (2 * m) := by
          field_simp
  have hle' : ((c * (2 * m).factorial + 2 ^ 33 * n ^ (2 * m) : ℕ) : ℝ) ≤
      (2 ^ 32 * (sineNumerator n m).natAbs : ℕ) := Nat.cast_le.mpr hle
  have hlt' : ((2 ^ 32 * (sineNumerator n m).natAbs + 2 ^ 33 * n ^ (2 * m) : ℕ) : ℝ) <
      ((c + 1) * (2 * m).factorial : ℕ) := Nat.cast_lt.mpr hlt
  push_cast at hle' hlt'
  rw [abs_le] at hnear
  rw [sineDigits, Nat.floor_eq_iff (by positivity)]
  constructor
  · refine le_of_mul_le_mul_left ?_ hpos
    linarith
  · refine lt_of_mul_lt_mul_left ?_ hpos.le
    linarith

end Lib
