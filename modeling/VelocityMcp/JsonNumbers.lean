import VelocityMcp.Json
import VelocityMcp.Lib.Binary64

/-!
# JsonNumbers — what the numbers of JSON stand for

`Number.exact_asF64`: `as_f64` gives the very number whenever some `f64` is that number.
-/

namespace VelocityMcp

open Lib

/-- The number, as a rational. -/
def Number.value : Number → ℚ
  | posInt n => n.toNat
  | negInt i _ => i.toInt
  | float bits _ => binary64 bits.toNat

theorem toNat_f64OfNat {n : ℕ} (hpos : 0 < n) (hn : n < 2 ^ 64) (hdvd : 2 ^ (Nat.log2 n - 52) ∣ n) :
    ∃ e m, 1023 ≤ e ∧ e ≤ 1086 ∧ m < 2 ^ 52 ∧ (f64OfNat n).toNat = e * 2 ^ 52 + m ∧
      (n : ℚ) = ((2 ^ 52 + m : ℕ) : ℚ) * 2 ^ ((e : ℤ) - 1075) := by
  have hne := Nat.ne_of_gt hpos
  have hlow : 2 ^ Nat.log2 n ≤ n := Nat.log2_self_le hne
  have hhigh : n < 2 ^ (Nat.log2 n + 1) := Nat.lt_log2_self
  have hlog : Nat.log2 n < 64 := (Nat.log2_lt hne).mpr hn
  rw [f64OfNat, if_neg hne]
  simp only
  generalize Nat.log2 n = k at *
  have hbits : ∀ m, m < 2 ^ 52 → (UInt64.ofNat ((1023 + k) * 2 ^ 52 + m)).toNat = (1023 + k) * 2 ^ 52 + m :=
    fun m hm => by
      rw [UInt64.toNat_ofNat']
      exact Nat.mod_eq_of_lt (by omega)
  by_cases he : k ≤ 52
  · -- all bits fit
    rw [if_pos he]
    have hpow : 2 ^ k * 2 ^ (52 - k) = 2 ^ 52 := by
      rw [← pow_add]
      congr 1
      omega
    have h1 : 2 ^ 52 ≤ n * 2 ^ (52 - k) := hpow ▸ Nat.mul_le_mul_right _ hlow
    have h2 : n * 2 ^ (52 - k) < 2 ^ 53 := by
      have hlt := Nat.mul_lt_mul_of_pos_right hhigh (show 0 < 2 ^ (52 - k) by positivity)
      rwa [pow_succ, mul_right_comm, hpow] at hlt
    refine ⟨1023 + k, n * 2 ^ (52 - k) - 2 ^ 52, by omega, by omega, by omega, hbits _ (by omega), ?_⟩
    rw [Nat.add_sub_cancel' h1, Nat.cast_mul, Nat.cast_pow, Nat.cast_ofNat, mul_assoc, ← zpow_natCast,
      ← zpow_add₀ (by norm_num), show ((52 - k : ℕ) : ℤ) + (((1023 + k : ℕ) : ℤ) - 1075) = 0 by omega, zpow_zero,
      mul_one]
  · -- what is cut off is zero
    obtain ⟨q, rfl⟩ := hdvd
    have hunit : 0 < 2 ^ (k - 52) := by positivity
    have hhalf : 0 < 2 ^ (k - 53) := by positivity
    have hpow : 2 ^ (k - 52) * 2 ^ 52 = 2 ^ k := by
      rw [← pow_add]
      congr 1
      omega
    have h1 : 2 ^ 52 ≤ q := Nat.le_of_mul_le_mul_left (hpow ▸ hlow) hunit
    have h2 : q < 2 ^ 53 := by
      rw [pow_succ, ← hpow, mul_assoc] at hhigh
      exact Nat.lt_of_mul_lt_mul_left hhigh
    rw [if_neg he, Nat.mul_mod_right, Nat.mul_div_cancel_left _ hunit, if_neg (by omega)]
    refine ⟨1023 + k, q - 2 ^ 52, by omega, by omega, by omega, hbits _ (by omega), ?_⟩
    rw [Nat.add_sub_cancel' h1, Nat.cast_mul, Nat.cast_pow, Nat.cast_ofNat, mul_comm, ← zpow_natCast,
      show ((k - 52 : ℕ) : ℤ) = ((1023 + k : ℕ) : ℤ) - 1075 by omega]

/-- **No rounding where none is needed.** -/
theorem binary64_f64OfNat {n : ℕ} (hn : n < 2 ^ 64) (hdvd : 2 ^ (Nat.log2 n - 52) ∣ n) :
    binary64 (f64OfNat n).toNat = n := by
  rcases Nat.eq_zero_or_pos n with rfl | hpos
  · exact binary64_zero
  · obtain ⟨e, m, h1, h2, hm, hbits, hvalue⟩ := toNat_f64OfNat hpos hn hdvd
    rw [hbits, binary64_of_fields (by omega) (by omega) hm, hvalue]

theorem f64Finite_f64OfNat {n : ℕ} (hn : n < 2 ^ 64) (hdvd : 2 ^ (Nat.log2 n - 52) ∣ n) :
    f64Finite (f64OfNat n) ∧ (f64OfNat n).toNat < 2 ^ 63 := by
  rcases Nat.eq_zero_or_pos n with rfl | hpos
  · decide
  · obtain ⟨e, m, h1, h2, hm, hbits, -⟩ := toNat_f64OfNat hpos hn hdvd
    rw [f64Finite, hbits]
    omega

theorem toNat_sign_or {x : UInt64} (hx : x.toNat < 2 ^ 63) :
    (UInt64.ofNat (2 ^ 63) ||| x).toNat = 2 ^ 63 + x.toNat := by
  have hor := Nat.two_pow_add_eq_or_of_lt hx 1
  rw [Nat.mul_one] at hor
  rw [UInt64.toNat_or, hor]
  rfl

/-- **What some `f64` is, `as_f64` gives.** -/
theorem Number.exact_asF64 {n : Number} {bits : UInt64} (hbits : n.asF64 = some bits)
    (h : ∃ b : ℕ, binary64 b = n.value) : f64Finite bits ∧ binary64 bits.toNat = n.value := by
  cases n with
  | float b finite =>
    obtain rfl := Option.some.inj hbits
    exact ⟨finite, rfl⟩
  | posInt n =>
    obtain rfl := Option.some.inj hbits
    obtain ⟨b, hb⟩ := h
    have hdvd : 2 ^ (Nat.log2 n.toNat - 52) ∣ n.toNat := by
      rcases Nat.eq_zero_or_pos n.toNat with hzero | hpos
      · rw [hzero]
        exact Nat.dvd_zero _
      · exact dvd_of_binary64_eq hpos hb
    exact ⟨(f64Finite_f64OfNat n.toNat_lt hdvd).1, binary64_f64OfNat n.toNat_lt hdvd⟩
  | negInt i neg =>
    obtain rfl := Option.some.inj hbits
    obtain ⟨b, hb⟩ := h
    have hneg : i.toInt < 0 := Int64.lt_iff_toInt_lt.mp neg
    have habs : (i.toInt : ℚ) = -(i.toInt.natAbs : ℕ) := by
      have hint : i.toInt = -(i.toInt.natAbs : ℤ) := by omega
      calc (i.toInt : ℚ) = ((-(i.toInt.natAbs : ℤ) : ℤ) : ℚ) := congrArg _ hint
        _ = -(i.toInt.natAbs : ℕ) := by rw [Int.cast_neg, Int.cast_natCast]
    have hpos : 0 < i.toInt.natAbs := by omega
    have hn : i.toInt.natAbs < 2 ^ 64 := by
      have hle := i.le_toInt
      omega
    rw [value, habs] at hb ⊢
    have hdvd : 2 ^ (Nat.log2 i.toInt.natAbs - 52) ∣ i.toInt.natAbs := by
      by_cases hlt : b < 2 ^ 63
      · have hcast : (0 : ℚ) < (i.toInt.natAbs : ℕ) := by exact_mod_cast hpos
        have hnonneg := binary64_nonneg hlt
        linarith
      · rw [binary64_of_not_lt hlt, neg_inj] at hb
        exact dvd_of_binary64_eq hpos hb
    obtain ⟨hfin, hlt⟩ := f64Finite_f64OfNat hn hdvd
    have htoNat := toNat_sign_or hlt
    constructor
    · rw [f64Finite, htoNat]
      rw [f64Finite] at hfin
      omega
    · rw [htoNat, binary64_of_not_lt (by omega), Nat.add_mod_left, Nat.mod_eq_of_lt hlt, binary64_f64OfNat hn hdvd]

end VelocityMcp
