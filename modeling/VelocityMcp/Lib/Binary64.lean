import Mathlib.Data.Rat.Cast.Order
import Mathlib.Algebra.Order.Field.Power
import Mathlib.Data.Nat.Log
import Mathlib.Tactic.Ring
import Mathlib.Tactic.Linarith
import Mathlib.Tactic.NormNum
import Mathlib.Tactic.Positivity

/-!
# Lib.Binary64 — the numbers that 64 bits stand for

`dvd_of_binary64_eq`: a natural number that is the value of some pattern has at most 53 significant bits.
-/

namespace Lib

/-- The number that a bit pattern stands for, unless its exponent is all ones. -/
def binary64 (bits : ℕ) : ℚ :=
  let e : ℕ := bits / 2 ^ 52 % 2048
  let m : ℕ := bits % 2 ^ 52
  let magnitude : ℚ := if e = 0 then m * 2 ^ (-1074 : ℤ) else ((2 ^ 52 + m : ℕ) : ℚ) * 2 ^ ((e : ℤ) - 1075)
  if bits < 2 ^ 63 then magnitude else -magnitude

theorem binary64_zero : binary64 0 = 0 := by simp [binary64]

/-- The value of a normal number, from its fields. -/
theorem binary64_of_fields {e m : ℕ} (hpos : 0 < e) (he : e < 2048) (hm : m < 2 ^ 52) :
    binary64 (e * 2 ^ 52 + m) = ((2 ^ 52 + m : ℕ) : ℚ) * 2 ^ ((e : ℤ) - 1075) := by
  have hexp : (e * 2 ^ 52 + m) / 2 ^ 52 % 2048 = e := by omega
  have hman : (e * 2 ^ 52 + m) % 2 ^ 52 = m := by omega
  have hlt : e * 2 ^ 52 + m < 2 ^ 63 := by omega
  rw [binary64]
  simp only [hexp, hman, if_neg (Nat.ne_of_gt hpos), if_pos hlt]

/-- The sign bit negates. -/
theorem binary64_of_not_lt {bits : ℕ} (h : ¬bits < 2 ^ 63) : binary64 bits = -binary64 (bits % 2 ^ 63) := by
  have hexp : bits % 2 ^ 63 / 2 ^ 52 % 2048 = bits / 2 ^ 52 % 2048 := by omega
  have hman : bits % 2 ^ 63 % 2 ^ 52 = bits % 2 ^ 52 := by omega
  have hlt : bits % 2 ^ 63 < 2 ^ 63 := Nat.mod_lt _ (by norm_num)
  rw [binary64, binary64]
  simp only [hexp, hman, if_neg h, if_pos hlt]

theorem binary64_nonneg {bits : ℕ} (h : bits < 2 ^ 63) : 0 ≤ binary64 bits := by
  rw [binary64]
  simp only [if_pos h]
  split_ifs <;> positivity

theorem binary64_nonpos {bits : ℕ} (h : ¬bits < 2 ^ 63) : binary64 bits ≤ 0 := by
  rw [binary64]
  simp only [if_neg h]
  split_ifs <;> exact neg_nonpos.mpr (by positivity)

theorem two_zpow_natCast_sub {a b : ℕ} (h : b ≤ a) : (2 : ℚ) ^ ((a : ℤ) - b) = (2 ^ (a - b) : ℕ) := by
  rw [← Nat.cast_sub h, zpow_natCast, Nat.cast_pow, Nat.cast_ofNat]

/-- **At most 53 significant bits.** -/
theorem dvd_of_binary64_eq {bits n : ℕ} (hn : 0 < n) (h : binary64 bits = n) : 2 ^ (Nat.log2 n - 52) ∣ n := by
  have hlt : bits < 2 ^ 63 := by
    by_contra hge
    have hle := binary64_nonpos hge
    rw [h] at hle
    have hpos : (0 : ℚ) < n := by exact_mod_cast hn
    linarith
  have hlog : 2 ^ Nat.log2 n ≤ n := Nat.log2_self_le (Nat.ne_of_gt hn)
  have hsmall : n < 2 ^ 53 → 2 ^ (Nat.log2 n - 52) ∣ n := by
    intro hn53
    have hle : Nat.log2 n < 53 := (Nat.log2_lt (Nat.ne_of_gt hn)).mpr hn53
    rw [show Nat.log2 n - 52 = 0 by omega]
    exact one_dvd n
  rw [binary64] at h
  simp only [if_pos hlt] at h
  split_ifs at h with he
  · -- a subnormal number is less than one
    exfalso
    have hm : bits % 2 ^ 52 < 2 ^ 52 := Nat.mod_lt _ (by norm_num)
    have hcast : ((bits % 2 ^ 52 : ℕ) : ℚ) = (n * 2 ^ 1074 : ℕ) := by
      rw [zpow_neg, ← div_eq_mul_inv, div_eq_iff (by positivity)] at h
      rw [h, Nat.cast_mul, Nat.cast_pow]
      rfl
    have hnat : bits % 2 ^ 52 = n * 2 ^ 1074 := Nat.cast_injective hcast
    have hbig : 2 ^ 52 ≤ n * 2 ^ 1074 :=
      le_trans (pow_le_pow_right₀ one_le_two (show 52 ≤ 1074 by decide)) (Nat.le_mul_of_pos_left _ hn)
    omega
  · set e := bits / 2 ^ 52 % 2048
    set m := bits % 2 ^ 52 with hmdef
    have hm : m < 2 ^ 52 := Nat.mod_lt _ (by norm_num)
    rcases Nat.lt_or_ge e 1075 with hlow | hhigh
    · apply hsmall
      have hcast : ((2 ^ 52 + m : ℕ) : ℚ) = (n * 2 ^ (1075 - e) : ℕ) := by
        have hzpow : (2 : ℚ) ^ ((e : ℤ) - 1075) = ((2 ^ (1075 - e) : ℕ) : ℚ)⁻¹ := by
          rw [← two_zpow_natCast_sub (Nat.le_of_lt hlow), ← zpow_neg, neg_sub]
          norm_cast
        rw [hzpow, ← div_eq_mul_inv, div_eq_iff (by positivity)] at h
        rw [h, Nat.cast_mul]
      have hnat : 2 ^ 52 + m = n * 2 ^ (1075 - e) := by exact_mod_cast hcast
      have hle : n ≤ n * 2 ^ (1075 - e) := Nat.le_mul_of_pos_right _ (by positivity)
      omega
    · have hnat : (2 ^ 52 + m) * 2 ^ (e - 1075) = n := by
        have hzpow := two_zpow_natCast_sub hhigh
        rw [Nat.cast_ofNat] at hzpow
        rw [hzpow, ← Nat.cast_mul] at h
        exact Nat.cast_injective h
      have hupper : n < 2 ^ (53 + (e - 1075)) := by
        rw [← hnat, pow_add]
        exact Nat.mul_lt_mul_of_pos_right (by omega) (by positivity)
      have hlt53 := (Nat.log2_lt (Nat.ne_of_gt hn)).mpr hupper
      rw [← hnat]
      exact ((Nat.pow_dvd_pow 2 (by rw [hnat]; omega)).trans (Nat.dvd_mul_left _ _))

end Lib
