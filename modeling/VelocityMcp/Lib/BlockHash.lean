import Mathlib.Order.Bounds.Basic
import VelocityMcp.Lib.Bytes
import VelocityMcp.Lib.Chunks

/-!
# Lib.BlockHash — what the hash functions on blocks of 64 bytes have in common

`hex`: the digits of a byte string.  `leftpad_toDigits`, `flatMap_hexByte_beBytes`: those of a number, by its bytes.
-/

namespace Lib.BlockHash

abbrev Word := BitVec 32

/-! ## Padding -/

/-- How many zero bytes stand between the bit that is set and the length. -/
def zeros (n : ℕ) : ℕ := (119 - n % 64) % 64

theorem zeros_add (n : ℕ) : (n + 1 + zeros n) % 64 = 56 := by
  rw [zeros]
  omega

theorem isLeast_zeros (n : ℕ) : IsLeast {z | (n + 1 + z) % 64 = 56} (zeros n) := by
  refine ⟨zeros_add n, fun z hz => ?_⟩
  rw [Set.mem_ofPred_eq] at hz
  rw [zeros]
  omega

/-- A message with its padding, where the length in bits is written by `field`. -/
def pad (field : ℕ → Bytes) (msg : Bytes) : Bytes :=
  msg ++ 0x80 :: (List.replicate (zeros msg.length) 0 ++ field (8 * msg.length))

theorem length_pad {field : ℕ → Bytes} (hfield : ∀ n, (field n).length = 8) (msg : Bytes) :
    64 ∣ (pad field msg).length := by
  have hzeros := zeros_add msg.length
  rw [pad, List.length_append, List.length_cons, List.length_append, List.length_replicate, hfield]
  omega

/-! ## Blocks -/

/-- A word of a block, whose first byte is the highest. -/
def wordBE (block : Bytes) (t : ℕ) : Word := BitVec.ofNat 32 (beNat ((block.drop (4 * t)).take 4))

/-- A word of a block, whose first byte is the lowest. -/
def wordLE (block : Bytes) (t : ℕ) : Word := BitVec.ofNat 32 (leNat ((block.drop (4 * t)).take 4))

/-- Block by block. -/
def process {σ : Type} (compress : σ → Bytes → σ) (init : σ) (field : ℕ → Bytes) (msg : Bytes) : σ :=
  (chunks 64 (pad field msg)).foldl compress init

theorem process_congr {σ τ : Type} {f : σ → Bytes → σ} {g : τ → Bytes → τ} {φ : σ → τ} {field : ℕ → Bytes}
    (hfield : ∀ n, (field n).length = 8) (hblock : ∀ s block, block.length = 64 → φ (f s block) = g (φ s) block)
    (init : σ) (msg : Bytes) : φ (process f init field msg) = process g (φ init) field msg := by
  have hlength (block : Bytes) (h : block ∈ chunks 64 (pad field msg)) : block.length = 64 :=
    length_of_mem_chunks (by decide) (length_pad hfield msg) h
  rw [process, process]
  generalize chunks 64 (pad field msg) = blocks at hlength
  induction blocks generalizing init with
  | nil => rfl
  | cons block blocks ih =>
    rw [List.forall_mem_cons] at hlength
    rw [List.foldl_cons, List.foldl_cons, ih _ hlength.2, hblock _ _ hlength.1]

/-! ## Tables -/

/-- **A table is filled** from the front. -/
theorem foldl_set {α : Type} {d : α} {g : ℕ → α} {f : List α → ℕ → α} {k lo : ℕ} {w : List α}
    (hlength : lo + k ≤ w.length) (hw : ∀ j < lo, w.getD j d = g j)
    (hf : ∀ (v : List α) (i : ℕ), lo ≤ i → i < lo + k → (∀ j < i, v.getD j d = g j) → f v i = g i) {j : ℕ}
    (hj : j < lo + k) : ((List.range' lo k).foldl (fun v i => v.set i (f v i)) w).getD j d = g j := by
  induction k generalizing lo w with
  | zero => exact hw j hj
  | succ k ih =>
    rw [List.range'_succ, List.foldl_cons]
    refine ih ?_ ?_ ?_ (by omega)
    · rw [List.length_set]
      omega
    · intro i hi
      by_cases heq : i = lo
      · rw [heq, List.getD_eq_getElem?_getD, List.getElem?_set_self (by omega), Option.getD_some]
        exact hf w lo le_rfl (by omega) hw
      · rw [List.getD_eq_getElem?_getD, List.getElem?_set_ne (Ne.symm heq), ← List.getD_eq_getElem?_getD]
        exact hw i (by omega)
    · intro v i hlo hhi hv
      exact hf v i (by omega) (by omega) hv

theorem length_foldl_set {α : Type} (f : List α → ℕ → α) (is : List ℕ) (w : List α) :
    (is.foldl (fun v i => v.set i (f v i)) w).length = w.length := by
  induction is generalizing w with
  | nil => rfl
  | cons i is ih => rw [List.foldl_cons, ih, List.length_set]

/-! ## Texts -/

def hexByte (x : UInt8) : List Char := [Nat.digitChar (x.toNat / 16), Nat.digitChar (x.toNat % 16)]

/-- A byte string as digits. -/
def hex (b : Bytes) : String := String.ofList (b.flatMap hexByte)

def fixedDigits : ℕ → ℕ → List Char
  | 0, _ => []
  | k + 1, n => fixedDigits k (n / 16) ++ [Nat.digitChar (n % 16)]

theorem fixedDigits_zero (k : ℕ) : fixedDigits k 0 = List.replicate k '0' := by
  induction k with
  | zero => rfl
  | succ k ih =>
    rw [fixedDigits, Nat.zero_div, ih, List.replicate_succ']
    rfl

theorem leftpad_toDigits {k n : ℕ} (hn : n < 16 ^ (k + 1)) :
    List.leftpad (k + 1) '0' (Nat.toDigits 16 n) = fixedDigits (k + 1) n := by
  induction k generalizing n with
  | zero =>
    have hsmall : n < 16 := hn
    rw [Nat.toDigits_of_lt_base hsmall, fixedDigits, fixedDigits, Nat.mod_eq_of_lt hsmall]
    rfl
  | succ k ih =>
    by_cases hsmall : n < 16
    · rw [Nat.toDigits_of_lt_base hsmall, fixedDigits, Nat.div_eq_of_lt hsmall, Nat.mod_eq_of_lt hsmall,
        fixedDigits_zero]
      rfl
    · have hdiv : n / 16 < 16 ^ (k + 1) := Nat.div_lt_of_lt_mul (by rw [← Nat.pow_succ']; exact hn)
      rw [Nat.toDigits_of_base_le (by decide) (not_lt.mp hsmall), fixedDigits, ← ih hdiv, List.leftpad, List.leftpad,
        List.length_append, List.length_singleton, Nat.add_sub_add_right, List.append_assoc]

theorem flatMap_hexByte_beBytes (k n : ℕ) : (beBytes k n).flatMap hexByte = fixedDigits (2 * k) n := by
  induction k generalizing n with
  | zero => rfl
  | succ k ih =>
    have hsucc : beBytes (k + 1) n = beBytes k (n / 256) ++ [UInt8.ofNat n] := List.reverse_cons
    have hhigh : n % 2 ^ 8 / 16 = n / 16 % 16 := by omega
    have hlow : n % 2 ^ 8 % 16 = n % 16 := by omega
    rw [hsucc, List.flatMap_append, ih, show 2 * (k + 1) = 2 * k + 1 + 1 from rfl, fixedDigits, fixedDigits,
      Nat.div_div_eq_div_mul, List.flatMap_singleton, hexByte, UInt8.toNat_ofNat', hhigh, hlow, List.append_assoc]
    rfl

end Lib.BlockHash
