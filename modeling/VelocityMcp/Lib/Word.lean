import VelocityMcp.Lib.Bytes

/-!
# Lib.Word — unsigned machine words of some width

`indexed`, `indexedLe`: bytes read one by one at computed offsets.
-/

namespace Lib

variable {ε : Type} {w a b : ℕ}

/-! ## Arithmetic -/

/-- `a + b`. -/
def addW (w a b : ℕ) : Outcome ε ℕ := if a + b < 2 ^ w then .ok (a + b) else .panic

/-- `a * b`. -/
def mulW (w a b : ℕ) : Outcome ε ℕ := if a * b < 2 ^ w then .ok (a * b) else .panic

/-- `a - b`. -/
def subW (a b : ℕ) : Outcome ε ℕ := if b ≤ a then .ok (a - b) else .panic

/-- `checked_add`. -/
def checkedAddW (w a b : ℕ) : Option ℕ := if a + b < 2 ^ w then some (a + b) else none

/-- `checked_mul`. -/
def checkedMulW (w a b : ℕ) : Option ℕ := if a * b < 2 ^ w then some (a * b) else none

/-- `saturating_add`. -/
def saturatingAddW (w a b : ℕ) : ℕ := min (a + b) (2 ^ w - 1)

theorem addW_of_lt (h : a + b < 2 ^ w) : addW (ε := ε) w a b = .ok (a + b) := if_pos h

theorem mulW_of_lt (h : a * b < 2 ^ w) : mulW (ε := ε) w a b = .ok (a * b) := if_pos h

theorem subW_of_le (h : b ≤ a) : subW (ε := ε) a b = .ok (a - b) := if_pos h

theorem checkedAddW_of_lt (h : a + b < 2 ^ w) : checkedAddW w a b = some (a + b) := if_pos h

theorem checkedMulW_of_lt (h : a * b < 2 ^ w) : checkedMulW w a b = some (a * b) := if_pos h

theorem lt_saturatingAddW_iff {n : ℕ} (h : n < 2 ^ w - 1) : n < saturatingAddW w a b ↔ n < a + b := by
  rw [saturatingAddW, lt_min_iff]
  exact and_iff_left h

theorem lt_saturatingAddW_saturatingAddW_iff {n c : ℕ} (h : n < 2 ^ w - 1) :
    n < saturatingAddW w (saturatingAddW w a b) c ↔ n < a + b + c := by
  rw [lt_saturatingAddW_iff h, saturatingAddW]
  omega

/-! ## Indexing -/

/-- `[data[offset + k], data[offset + k + 1], …]`, `n` of them. -/
def indexed (w : ℕ) (data : Bytes) (offset : ℕ) : ℕ → ℕ → Outcome ε Bytes
  | _, 0 => .ok []
  | k, n + 1 => do
    let i ← addW w offset k
    let x ← byteAt data i
    let xs ← indexed w data offset (k + 1) n
    .ok (x :: xs)

variable {data : Bytes} {offset : ℕ}

theorem indexed_eq_slice (hw : data.length < 2 ^ w) {k n : ℕ} (h : offset + k + n ≤ data.length) :
    indexed (ε := ε) w data offset k n = slice data (offset + k) (offset + k + n) := by
  induction n generalizing k with
  | zero =>
    rw [slice_of_le (by omega) (by omega), Nat.add_zero, Nat.sub_self, List.take_zero]
    rfl
  | succ n ih =>
    have hlt : offset + k < data.length := by omega
    have hbyte : byteAt (ε := ε) data (offset + k) = .ok data[offset + k] := by
      rw [byteAt, List.getElem?_eq_getElem hlt]
    have hrest := ih (k := k + 1) (by omega)
    rw [slice_of_le (by omega) (by omega), show offset + (k + 1) = offset + k + 1 from rfl] at hrest
    rw [indexed, addW_of_lt (by omega), Outcome.ok_bind, hbyte, Outcome.ok_bind, hrest, Outcome.ok_bind,
      slice_of_le (by omega) (by omega), List.drop_eq_getElem_cons hlt,
      show offset + k + (n + 1) - (offset + k) = (offset + k + 1 + n - (offset + k + 1)) + 1 by omega,
      List.take_succ_cons]

/-- `from_le_bytes` of `n` bytes. -/
def indexedLe (w : ℕ) (data : Bytes) (offset k n : ℕ) : Outcome ε ℕ := do
  let xs ← indexed w data offset k n
  .ok (leNat xs)

theorem indexedLe_eq (hw : data.length < 2 ^ w) {k n : ℕ} (h : offset + k + n ≤ data.length) :
    indexedLe (ε := ε) w data offset k n = leAt data (offset + k) n := by
  rw [indexedLe, indexed_eq_slice hw h, leAt]

end Lib
