import VelocityMcp.Lib.Lines

/-!
# Lib.Decimal — the decimal texts of integers
-/

namespace Lib

theorem toList_toString_nat (n : ℕ) : (toString n).toList = Nat.toDigits 10 n := by
  show n.repr.toList = _
  exact Nat.toList_repr

theorem toList_toString_neg {i : Int} (h : i < 0) : (toString i).toList = '-' :: Nat.toDigits 10 i.natAbs := by
  obtain ⟨n, rfl⟩ := Int.eq_negSucc_of_lt_zero h
  show ("-" ++ (n + 1).repr).toList = _
  rw [String.toList_append, Nat.toList_repr]
  rfl

/-! ## Digits among bytes -/

/-- A digit among bytes. -/
def isDigit (c : UInt8) : Bool := 0x30 ≤ c && c ≤ 0x39

/-- The number that digits stand for. -/
def decimalValue (b : Bytes) : ℕ := b.foldl (fun n c => 10 * n + (c.toNat - 0x30)) 0

/-- The digits of a number. -/
def natText (n : ℕ) : Bytes := (Nat.toDigits 10 n).map fun c => UInt8.ofNat c.toNat

theorem toNat_of_isDigit {c : Char} (h : c.isDigit) : 48 ≤ c.toNat ∧ c.toNat ≤ 57 :=
  Char.isDigit_iff_toNat.mp h

theorem isDigit_of_mem_natText {n : ℕ} {x : UInt8} (h : x ∈ natText n) : isDigit x = true := by
  obtain ⟨c, hc, rfl⟩ := List.mem_map.mp h
  obtain ⟨hlow, hhigh⟩ := toNat_of_isDigit (Nat.isDigit_of_mem_toDigits (by decide) (by decide) hc)
  have hx : (UInt8.ofNat c.toNat).toNat = c.toNat := by
    rw [UInt8.toNat_ofNat']
    exact Nat.mod_eq_of_lt (by omega)
  unfold isDigit
  rw [Bool.and_eq_true, decide_eq_true_iff, decide_eq_true_iff, UInt8.le_iff_toNat_le, UInt8.le_iff_toNat_le, hx]
  exact ⟨hlow, hhigh⟩

theorem natText_ne_nil (n : ℕ) : natText n ≠ [] := fun h => Nat.toDigits_ne_nil (List.map_eq_nil_iff.mp h)

theorem length_natText_le {n k : ℕ} (hk : 0 < k) (hn : n < 10 ^ k) : (natText n).length ≤ k := by
  unfold natText
  rw [List.length_map]
  exact (Nat.length_toDigits_le_iff (by decide) hk).mpr hn

/-- **The digits of a number stand for it.** -/
theorem decimalValue_natText (n : ℕ) : decimalValue (natText n) = n := by
  have hdigits : ∀ (cs : List Char), (∀ c ∈ cs, c.isDigit) → ∀ start,
      (cs.map fun c => UInt8.ofNat c.toNat).foldl (fun n c => 10 * n + (c.toNat - 0x30)) start =
        Nat.ofDigitChars 10 cs start := by
    intro cs hcs
    induction cs with
    | nil => exact fun start => Nat.ofDigitChars_nil.symm
    | cons c cs ih =>
      intro start
      have hc := toNat_of_isDigit (hcs c List.mem_cons_self)
      have hx : (UInt8.ofNat c.toNat).toNat = c.toNat := by
        rw [UInt8.toNat_ofNat']
        exact Nat.mod_eq_of_lt (by omega)
      rw [List.map_cons, List.foldl_cons, hx, Nat.ofDigitChars_cons,
        ih fun d hd => hcs d (List.mem_cons_of_mem _ hd)]
      rfl
  unfold decimalValue natText
  rw [hdigits _ (fun c hc => Nat.isDigit_of_mem_toDigits (by decide) (by decide) hc)]
  exact Nat.ofDigitChars_toDigits (by decide) (by decide)

theorem natText_of_head {n : ℕ} (h : (natText n).head? = some 0x30) : natText n = [0x30] := by
  induction n using Nat.strongRecOn with
  | ind n ih =>
    by_cases hn : n < 10
    · rw [natText, Nat.toDigits_of_lt_base hn] at h ⊢
      exact congrArg (fun c => [c]) (Option.some.inj h)
    · have hsplit : natText n = natText (n / 10) ++ natText (n % 10) := by
        rw [natText, natText, natText, ← List.map_append,
          Nat.toDigits_append_toDigits (by decide) (by omega) (Nat.mod_lt n (by decide)), Nat.div_add_mod]
      rw [hsplit, List.head?_append_of_ne_nil _ (natText_ne_nil _)] at h
      have hzero := congrArg decimalValue (ih (n / 10) (by omega) h)
      rw [decimalValue_natText] at hzero
      change n / 10 = 0 at hzero
      omega

theorem decimalValue_lt {b : Bytes} (h : ∀ c ∈ b, isDigit c = true) : decimalValue b < 10 ^ b.length := by
  induction b using List.reverseRecOn with
  | nil => exact Nat.one_pos
  | append_singleton b c ih =>
    have hc := h c (List.mem_append_right _ (List.mem_singleton_self c))
    rw [isDigit, Bool.and_eq_true, decide_eq_true_iff, decide_eq_true_iff, UInt8.le_iff_toNat_le,
      UInt8.le_iff_toNat_le] at hc
    have hupper : c.toNat ≤ 57 := hc.2
    have hrest := ih fun d hd => h d (List.mem_append_left _ hd)
    have hstep : decimalValue (b ++ [c]) = 10 * decimalValue b + (c.toNat - 0x30) := by
      rw [decimalValue, List.foldl_append, decimalValue]
      rfl
    rw [hstep, List.length_append, List.length_singleton, pow_succ]
    omega

/-! ## What is printed of an integer -/

theorem encode_of_ascii {cs : List Char} (h : ∀ c ∈ cs, c.toNat < 0x80) :
    encode cs = cs.map fun c => UInt8.ofNat c.toNat := by
  induction cs with
  | nil => rfl
  | cons c cs ih =>
    have hc := h c List.mem_cons_self
    have hone : String.utf8EncodeChar c = [UInt8.ofNat c.toNat] := by
      unfold String.utf8EncodeChar
      exact if_pos (show c.val.toNat ≤ 0x7f from Nat.lt_succ_iff.mp hc)
    rw [encode_cons, hone, ih fun d hd => h d (List.mem_cons_of_mem _ hd)]
    rfl

theorem utf8_eq_encode (s : String) : utf8 s = encode s.toList := by
  rw [← utf8_ofList, String.ofList_toList]

/-- What the standard library prints of a number. -/
theorem utf8_toString_nat (n : ℕ) : utf8 (toString n) = natText n := by
  rw [utf8_eq_encode, toList_toString_nat, encode_of_ascii]
  · rfl
  · intro c hc
    have hdigit := toNat_of_isDigit (Nat.isDigit_of_mem_toDigits (by decide) (by decide) hc)
    omega

theorem utf8_toString_of_nonneg {i : Int} (h : 0 ≤ i) : utf8 (toString i) = natText i.toNat := by
  rw [← utf8_toString_nat]
  conv_lhs => rw [← Int.toNat_of_nonneg h]
  rfl

/-- What it prints of a negative integer. -/
theorem utf8_toString_neg {i : Int} (h : i < 0) : utf8 (toString i) = 0x2d :: natText i.natAbs := by
  rw [utf8_eq_encode, toList_toString_neg h, encode_of_ascii]
  · rfl
  · intro c hc
    rcases List.mem_cons.mp hc with rfl | hc
    · decide
    · have hdigit := toNat_of_isDigit (Nat.isDigit_of_mem_toDigits (by decide) (by decide) hc)
      omega

end Lib
