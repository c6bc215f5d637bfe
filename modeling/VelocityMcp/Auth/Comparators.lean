import Mathlib.Data.List.GetD
import VelocityMcp.Lib.Bytes

/-!
# Auth.Comparators — how keys and signatures are compared (`http.rs`, `oauth2.rs`, the edge server)

`comparators_exact_iff`: for which texts all three are exact.
-/

namespace VelocityMcp.Auth

open Lib

/-! ## The comparators -/

/-- The bytes are compared in pairs, those of the shorter text over and over, and all differences are gathered in one
byte. -/
def cyclicEq (a b : Bytes) : Bool :=
  if a = [] ∨ b = [] then a = [] ∧ b = []
  else
    let maxLen := max a.length b.length
    let result : UInt8 := if a.length ≠ b.length then 1 else 0
    (List.range maxLen).foldl (fun r i => r ||| (a.getD (i % a.length) 0 ^^^ b.getD (i % b.length) 0)) result = 0

/-- `constant_time_eq` of the HTTP transport. -/
def Http.constantTimeEq (a b : String) : Bool := cyclicEq (utf8 a) (utf8 b)

/-- `constant_time_eq` of the OAuth2 module. -/
def Oauth2.constantTimeEq (a b : Bytes) : Bool := cyclicEq a b

/-- `MAX_KEY_LEN`: bytes beyond are not compared. -/
def maxKeyLen : ℕ := 256

/-- As many bytes as there is room for, then zeros. -/
def padded (a : Bytes) : Bytes := a.take maxKeyLen ++ List.replicate (maxKeyLen - a.length) 0

/-- `timing_safe_eq` of the edge server; `ctEq` compares arrays of one size. -/
def Edge.timingSafeEq (ctEq : Bytes → Bytes → Bool) (a b : Bytes) : Bool :=
  let lengthMatch : Bool := a.length = b.length
  let contentMatch := ctEq (padded a) (padded b)
  lengthMatch && contentMatch

/-! ## What they compare -/

theorem foldl_or_eq_zero_iff {ι : Type*} (f : ι → UInt8) (l : List ι) (r : UInt8) :
    l.foldl (fun r i => r ||| f i) r = 0 ↔ r = 0 ∧ ∀ i ∈ l, f i = 0 := by
  induction l generalizing r with
  | nil => exact (and_iff_left fun i hi => absurd hi List.not_mem_nil).symm
  | cons i l ih => rw [List.foldl_cons, ih, UInt8.or_eq_zero_iff, List.forall_mem_cons, and_assoc]

/-- **The cyclic comparison is equality**: texts of different lengths differ by the byte that the comparison starts
with. -/
theorem cyclicEq_iff (a b : Bytes) : cyclicEq a b = true ↔ a = b := by
  rw [cyclicEq]
  by_cases hempty : a = [] ∨ b = []
  · rw [if_pos hempty, decide_eq_true_iff]
    constructor
    · rintro ⟨rfl, rfl⟩
      rfl
    · rintro rfl
      exact ⟨or_self_iff.mp hempty, or_self_iff.mp hempty⟩
  rw [if_neg hempty, decide_eq_true_iff, foldl_or_eq_zero_iff]
  constructor
  · rintro ⟨hlen, hall⟩
    have hlen' : a.length = b.length := by
      by_contra hne
      rw [if_pos hne] at hlen
      exact absurd hlen (by decide)
    refine List.ext_getElem hlen' fun i ha hb => ?_
    have hi := hall i (List.mem_range.mpr (lt_max_of_lt_left ha))
    rwa [UInt8.xor_eq_zero_iff, Nat.mod_eq_of_lt ha, Nat.mod_eq_of_lt hb, List.getD_eq_getElem a 0 ha,
      List.getD_eq_getElem b 0 hb] at hi
  · rintro rfl
    exact ⟨if_neg (not_not_intro rfl), fun i _ => UInt8.xor_self⟩

theorem padded_eq_iff {a b : Bytes} (hlen : a.length = b.length) :
    padded a = padded b ↔ a.take maxKeyLen = b.take maxKeyLen := by
  rw [padded, padded, hlen]
  exact List.append_left_inj _

theorem length_padded (a : Bytes) : (padded a).length = maxKeyLen := by
  rw [padded, List.length_append, List.length_take, List.length_replicate]
  omega

variable {ctEq : Bytes → Bytes → Bool}

theorem timingSafeEq_iff (hct : ∀ a b, a.length = b.length → (ctEq a b = true ↔ a = b)) (a b : Bytes) :
    Edge.timingSafeEq ctEq a b = true ↔ a.length = b.length ∧ a.take maxKeyLen = b.take maxKeyLen := by
  rw [Edge.timingSafeEq, Bool.and_eq_true, decide_eq_true_iff]
  refine and_congr_right fun hlen => ?_
  rw [hct _ _ (by rw [length_padded, length_padded]), padded_eq_iff hlen]

/-- **All three are equality exactly on texts that do not first differ behind the first 256 bytes.** -/
theorem comparators_exact_iff (hct : ∀ a b, a.length = b.length → (ctEq a b = true ↔ a = b)) (s t : String)
    (a b : Bytes) :
    ((Http.constantTimeEq s t = true ↔ utf8 s = utf8 t) ∧ (Oauth2.constantTimeEq a b = true ↔ a = b) ∧
        (Edge.timingSafeEq ctEq a b = true ↔ a = b)) ↔
      (a.length = b.length → a.take maxKeyLen = b.take maxKeyLen → a.drop maxKeyLen = b.drop maxKeyLen) := by
  have hcyclic : Http.constantTimeEq s t = true ↔ utf8 s = utf8 t := cyclicEq_iff _ _
  have hcyclic' : Oauth2.constantTimeEq a b = true ↔ a = b := cyclicEq_iff a b
  rw [and_iff_right hcyclic, and_iff_right hcyclic', timingSafeEq_iff hct]
  constructor
  · intro h hlen htake
    rw [h.mp ⟨hlen, htake⟩]
  · intro h
    constructor
    · rintro ⟨hlen, htake⟩
      rw [← List.take_append_drop maxKeyLen a, ← List.take_append_drop maxKeyLen b, htake, h hlen htake]
    · rintro rfl
      exact ⟨rfl, rfl⟩

/-- Keys of three bytes. -/
theorem comparators_exact_iff_short :
    (Edge.timingSafeEq (fun a b => a == b) [1, 2, 3] [1, 2, 4] = true ↔ ([1, 2, 3] : Bytes) = [1, 2, 4]) :=
  ((comparators_exact_iff (fun _ _ _ => beq_iff_eq) "key" "key" [1, 2, 3] [1, 2, 4]).mpr
    fun _ h => absurd h (by decide)).2.2

/-- Two keys of 257 bytes that differ in the last one. -/
theorem timingSafeEq_long : ¬ ∀ (s t : String) (a b : Bytes),
    (Http.constantTimeEq s t = true ↔ utf8 s = utf8 t) ∧ (Oauth2.constantTimeEq a b = true ↔ a = b) ∧
      (Edge.timingSafeEq (fun a b => a == b) a b = true ↔ a = b) := by
  intro h
  have hiff := (h "" "" (List.replicate 256 0x6b ++ [0x31]) (List.replicate 256 0x6b ++ [0x32])).2.2
  rw [timingSafeEq_iff (fun _ _ _ => beq_iff_eq)] at hiff
  exact absurd (hiff.mp (by decide +kernel)) (by decide +kernel)

end VelocityMcp.Auth
