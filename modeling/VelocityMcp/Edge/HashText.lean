import Mathlib.Tactic.IntervalCases
import VelocityMcp.Lib.Digests

/-!
# Edge.HashText — the hash functions of the edge server (`sha256_hex`, `sha1_hex`, `md5_hex`)

`hash_standards`: every message is hashed as the standards have it.
-/

namespace VelocityMcp.Edge

open Lib Lib.BlockHash

/-! ## What the functions share -/

/-- The loop that appends zeros, for so many turns at most. -/
def padZeros : ℕ → Bytes → Bytes
  | 0, padded => padded
  | n + 1, padded => if padded.length % 64 ≠ 56 then padZeros n (padded ++ [0]) else padded

/-- `padded`, with the length in bits as eight bytes. -/
def padded (toBytes : UInt64 → Bytes) (data : Bytes) : Bytes :=
  let msgLenBits : UInt64 := UInt64.ofNat data.length * 8
  padZeros 64 (data ++ [0x80]) ++ toBytes msgLenBits

/-- `chunks_exact(64)`. -/
def chunksExact (b : Bytes) : List Bytes := (chunks 64 b).filter fun c => c.length = 64

/-- `chunk[4 * i]` and the three bytes behind it. -/
def fourBytes (chunk : Bytes) (i : ℕ) : Bytes :=
  [chunk.getD (4 * i) 0, chunk.getD (4 * i + 1) 0, chunk.getD (4 * i + 2) 0, chunk.getD (4 * i + 3) 0]

def fromBeBytes (b : Bytes) : Word := BitVec.ofNat 32 (beNat b)

def fromLeBytes (b : Bytes) : Word := BitVec.ofNat 32 (leNat b)

/-- A loop that writes one entry of a table in each turn. -/
def fill (f : List Word → ℕ → Word) (lo n : ℕ) (w : List Word) : List Word :=
  (List.range' lo n).foldl (fun v i => v.set i (f v i)) w

/-- `{:08x}`. -/
def hex08 (w : Word) : String := String.ofList (List.leftpad 8 '0' (Nat.toDigits 16 w.toNat))

/-- `{:02x}`. -/
def hex02 (w : Word) : String := String.ofList (List.leftpad 2 '0' (Nat.toDigits 16 w.toNat))

/-! ## SHA-256 -/

/-- `h0`. -/
def sha256H0 : Sha256.State :=
  ⟨0x6a09e667, 0xbb67ae85, 0x3c6ef372, 0xa54ff53a, 0x510e527f, 0x9b05688c, 0x1f83d9ab, 0x5be0cd19⟩

/-- `k`. -/
def sha256K : List Word :=
  [0x428a2f98, 0x71374491, 0xb5c0fbcf, 0xe9b5dba5, 0x3956c25b, 0x59f111f1, 0x923f82a4, 0xab1c5ed5,
    0xd807aa98, 0x12835b01, 0x243185be, 0x550c7dc3, 0x72be5d74, 0x80deb1fe, 0x9bdc06a7, 0xc19bf174,
    0xe49b69c1, 0xefbe4786, 0x0fc19dc6, 0x240ca1cc, 0x2de92c6f, 0x4a7484aa, 0x5cb0a9dc, 0x76f988da,
    0x983e5152, 0xa831c66d, 0xb00327c8, 0xbf597fc7, 0xc6e00bf3, 0xd5a79147, 0x06ca6351, 0x14292967,
    0x27b70a85, 0x2e1b2138, 0x4d2c6dfc, 0x53380d13, 0x650a7354, 0x766a0abb, 0x81c2c92e, 0x92722c85,
    0xa2bfe8a1, 0xa81a664b, 0xc24b8b70, 0xc76c51a3, 0xd192e819, 0xd6990624, 0xf40e3585, 0x106aa070,
    0x19a4c116, 0x1e376c08, 0x2748774c, 0x34b0bcb5, 0x391c0cb3, 0x4ed8aa4a, 0x5b9cca4f, 0x682e6ff3,
    0x748f82ee, 0x78a5636f, 0x84c87814, 0x8cc70208, 0x90befffa, 0xa4506ceb, 0xbef9a3f7, 0xc67178f2]

/-- `w`. -/
def sha256Words (chunk : Bytes) : List Word :=
  let w := fill (fun _ i => fromBeBytes (fourBytes chunk i)) 0 16 (List.replicate 64 0)
  fill (fun w i =>
    let w15 := w.getD (i - 15) 0
    let w2 := w.getD (i - 2) 0
    let s0 := w15.rotateRight 7 ^^^ w15.rotateRight 18 ^^^ (w15 >>> 3)
    let s1 := w2.rotateRight 17 ^^^ w2.rotateRight 19 ^^^ (w2 >>> 10)
    w.getD (i - 16) 0 + s0 + w.getD (i - 7) 0 + s1) 16 48 w

def sha256Round (w : List Word) (s : Sha256.State) (i : ℕ) : Sha256.State :=
  let s1 := s.e.rotateRight 6 ^^^ s.e.rotateRight 11 ^^^ s.e.rotateRight 25
  let ch := (s.e &&& s.f) ^^^ (~~~s.e &&& s.g)
  let temp1 := s.h + s1 + ch + sha256K.getD i 0 + w.getD i 0
  let s0 := s.a.rotateRight 2 ^^^ s.a.rotateRight 13 ^^^ s.a.rotateRight 22
  let maj := (s.a &&& s.b) ^^^ (s.a &&& s.c) ^^^ (s.b &&& s.c)
  let temp2 := s0 + maj
  ⟨temp1 + temp2, s.a, s.b, s.c, s.d + temp1, s.e, s.f, s.g⟩

def sha256Block (h : Sha256.State) (chunk : Bytes) : Sha256.State :=
  let v := (List.range 64).foldl (sha256Round (sha256Words chunk)) h
  ⟨h.a + v.a, h.b + v.b, h.c + v.c, h.d + v.d, h.e + v.e, h.f + v.f, h.g + v.g, h.h + v.h⟩

/-- `sha256_hex`: the blocks of the padded text, one after another, and the eight words in hexadecimal. -/
def sha256Hex (data : Bytes) : String :=
  let h := (chunksExact (padded (fun n => beBytes 8 n.toNat) data)).foldl sha256Block sha256H0
  String.join (h.words.map hex08)

/-! ## SHA-1 -/

/-- `w`. -/
def sha1Words (chunk : Bytes) : List Word :=
  let w := fill (fun _ i => fromBeBytes (fourBytes chunk i)) 0 16 (List.replicate 80 0)
  fill (fun w i => (w.getD (i - 3) 0 ^^^ w.getD (i - 8) 0 ^^^ w.getD (i - 14) 0 ^^^ w.getD (i - 16) 0).rotateLeft 1)
    16 64 w

/-- `f` and `k`. -/
def sha1Choice (i : ℕ) (b c d : Word) : Word × Word :=
  if i ≤ 19 then ((b &&& c) ||| (~~~b &&& d), 0x5A827999)
  else if i ≤ 39 then (b ^^^ c ^^^ d, 0x6ED9EBA1)
  else if i ≤ 59 then ((b &&& c) ||| (b &&& d) ||| (c &&& d), 0x8F1BBCDC)
  else (b ^^^ c ^^^ d, 0xCA62C1D6)

def sha1Round (w : List Word) (s : Sha1.State) (i : ℕ) : Sha1.State :=
  let (f, k) := sha1Choice i s.b s.c s.d
  let temp := s.a.rotateLeft 5 + f + s.e + k + w.getD i 0
  ⟨temp, s.a, s.b.rotateLeft 30, s.c, s.d⟩

def sha1Block (h : Sha1.State) (chunk : Bytes) : Sha1.State :=
  let v := (List.range 80).foldl (sha1Round (sha1Words chunk)) h
  ⟨h.a + v.a, h.b + v.b, h.c + v.c, h.d + v.d, h.e + v.e⟩

/-- `sha1_hex`, of the same shape with five words. -/
def sha1Hex (data : Bytes) : String :=
  let h := (chunksExact (padded (fun n => beBytes 8 n.toNat) data)).foldl sha1Block
    ⟨0x67452301, 0xEFCDAB89, 0x98BADCFE, 0x10325476, 0xC3D2E1F0⟩
  String.join (h.words.map hex08)

/-! ## MD5 -/

/-- `s`. -/
def md5S : List ℕ :=
  [7, 12, 17, 22, 7, 12, 17, 22, 7, 12, 17, 22, 7, 12, 17, 22, 5, 9, 14, 20, 5, 9, 14, 20, 5, 9, 14, 20, 5, 9, 14, 20,
    4, 11, 16, 23, 4, 11, 16, 23, 4, 11, 16, 23, 4, 11, 16, 23, 6, 10, 15, 21, 6, 10, 15, 21, 6, 10, 15, 21,
    6, 10, 15, 21]

/-- `k_vals`. -/
def md5K : List Word :=
  [0xd76aa478, 0xe8c7b756, 0x242070db, 0xc1bdceee, 0xf57c0faf, 0x4787c62a, 0xa8304613, 0xfd469501,
    0x698098d8, 0x8b44f7af, 0xffff5bb1, 0x895cd7be, 0x6b901122, 0xfd987193, 0xa679438e, 0x49b40821,
    0xf61e2562, 0xc040b340, 0x265e5a51, 0xe9b6c7aa, 0xd62f105d, 0x02441453, 0xd8a1e681, 0xe7d3fbc8,
    0x21e1cde6, 0xc33707d6, 0xf4d50d87, 0x455a14ed, 0xa9e3e905, 0xfcefa3f8, 0x676f02d9, 0x8d2a4c8a,
    0xfffa3942, 0x8771f681, 0x6d9d6122, 0xfde5380c, 0xa4beea44, 0x4bdecfa9, 0xf6bb4b60, 0xbebfbc70,
    0x289b7ec6, 0xeaa127fa, 0xd4ef3085, 0x04881d05, 0xd9d4d039, 0xe6db99e5, 0x1fa27cf8, 0xc4ac5665,
    0xf4292244, 0x432aff97, 0xab9423a7, 0xfc93a039, 0x655b59c3, 0x8f0ccc92, 0xffeff47d, 0x85845dd1,
    0x6fa87e4f, 0xfe2ce6e0, 0xa3014314, 0x4e0811a1, 0xf7537e82, 0xbd3af235, 0x2ad7d2bb, 0xeb86d391]

/-- `a`, `b`, `c` and `d`. -/
structure Registers where
  a : Word
  b : Word
  c : Word
  d : Word
deriving DecidableEq

/-- `m`. -/
def md5Words (chunk : Bytes) : List Word :=
  fill (fun _ i => fromLeBytes (fourBytes chunk i)) 0 16 (List.replicate 16 0)

/-- `f` and `g`. -/
def md5Choice (i : ℕ) (b c d : Word) : Word × ℕ :=
  if i ≤ 15 then ((b &&& c) ||| (~~~b &&& d), i)
  else if i ≤ 31 then ((d &&& b) ||| (~~~d &&& c), (5 * i + 1) % 16)
  else if i ≤ 47 then (b ^^^ c ^^^ d, (3 * i + 5) % 16)
  else (c ^^^ (b ||| ~~~d), 7 * i % 16)

def md5Round (m : List Word) (r : Registers) (i : ℕ) : Registers :=
  let (f, g) := md5Choice i r.b r.c r.d
  let f := f + r.a + md5K.getD i 0 + m.getD g 0
  ⟨r.d, r.b + f.rotateLeft (md5S.getD i 0), r.b, r.c⟩

def md5Block (h : Registers) (chunk : Bytes) : Registers :=
  let v := (List.range 64).foldl (md5Round (md5Words chunk)) h
  ⟨h.a + v.a, h.b + v.b, h.c + v.c, h.d + v.d⟩

def leHex (w : Word) : String :=
  hex02 (w &&& 0xff) ++ hex02 ((w >>> 8) &&& 0xff) ++ hex02 ((w >>> 16) &&& 0xff) ++ hex02 ((w >>> 24) &&& 0xff)

/-- `md5_hex`: here lengths and words are little-endian. -/
def md5Hex (data : Bytes) : String :=
  let h := (chunksExact (padded (fun n => leBytes 8 n.toNat) data)).foldl md5Block
    ⟨0x67452301, 0xefcdab89, 0x98badcfe, 0x10325476⟩
  leHex h.a ++ leHex h.b ++ leHex h.c ++ leHex h.d

/-! ## The padding -/

theorem padZeros_eq {n j : ℕ} {b : Bytes} (hj : j ≤ n) (hsmall : j < 64) (h : (b.length + j) % 64 = 56) :
    padZeros n b = b ++ List.replicate j 0 := by
  induction n generalizing b j with
  | zero =>
    obtain rfl := Nat.le_zero.mp hj
    exact (List.append_nil b).symm
  | succ n ih =>
    rw [padZeros]
    by_cases hdone : b.length % 64 = 56
    · obtain rfl : j = 0 := by omega
      rw [if_neg (not_not_intro hdone)]
      exact (List.append_nil b).symm
    · obtain ⟨i, rfl⟩ : ∃ i, j = i + 1 := ⟨j - 1, by omega⟩
      rw [if_pos hdone, ih (j := i) (by omega) (by omega), List.append_assoc]
      · rfl
      · rw [List.length_append, List.length_singleton]
        omega

/-- **The padding** is that of the standards. -/
theorem padded_eq {toBytes : UInt64 → Bytes} {field : ℕ → Bytes} (hbytes : ∀ n : UInt64, toBytes n = field n.toNat)
    {data : Bytes} (hdata : data.length < 2 ^ 61) : padded toBytes data = pad field data := by
  have hbits : (UInt64.ofNat data.length * 8).toNat = 8 * data.length := by
    have height : (8 : UInt64).toNat = 8 := rfl
    rw [UInt64.toNat_mul, UInt64.toNat_ofNat_of_lt' (Nat.lt_trans hdata (by decide)), height]
    omega
  have hzeros := zeros_add data.length
  have hlt : zeros data.length < 64 := Nat.mod_lt _ (by decide)
  have hlength : (data ++ [0x80]).length = data.length + 1 := List.length_append
  rw [padded, hbytes, hbits, @padZeros_eq 64 (zeros data.length) _ hlt.le hlt (by rw [hlength]; exact hzeros), pad,
    List.append_assoc, List.append_assoc]
  rfl

theorem chunksExact_padded {toBytes : UInt64 → Bytes} {field : ℕ → Bytes}
    (hbytes : ∀ n : UInt64, toBytes n = field n.toNat) (hfield : ∀ n, (field n).length = 8) {data : Bytes}
    (hdata : data.length < 2 ^ 61) : chunksExact (padded toBytes data) = chunks 64 (pad field data) := by
  rw [chunksExact, padded_eq hbytes hdata, List.filter_eq_self]
  intro c hc
  exact decide_eq_true (length_of_mem_chunks (by decide) (length_pad hfield data) hc)

/-! ## The words of a block -/

section Words

variable {chunk : Bytes} (hchunk : chunk.length = 64)
include hchunk

theorem fourBytes_eq {i : ℕ} (hi : i < 16) : fourBytes chunk i = (chunk.drop (4 * i)).take 4 := by
  have hget (j : ℕ) (hj : j < 4) : ((chunk.drop (4 * i)).take 4)[j]? = some (chunk.getD (4 * i + j) 0) := by
    rw [List.getElem?_take_of_lt hj, List.getElem?_drop, List.getD_eq_getElem?_getD,
      List.getElem?_eq_getElem (by omega), Option.getD_some]
  apply List.ext_getElem?
  intro j
  by_cases hj : j < 4
  · rw [hget j hj]
    interval_cases j <;> rfl
  · rw [List.getElem?_eq_none (by simp [fourBytes]; omega), List.getElem?_eq_none (by simp; omega)]

theorem fill_words (word : Bytes → Word) {n t : ℕ} (hn : 16 ≤ n) (ht : t < 16) :
    (fill (fun _ i => word (fourBytes chunk i)) 0 16 (List.replicate n 0)).getD t 0 =
      word ((chunk.drop (4 * t)).take 4) := by
  refine foldl_set (g := fun t => word ((chunk.drop (4 * t)).take 4)) ?_ ?_ ?_ ht
  · rw [List.length_replicate]
    omega
  · intro j hj
    omega
  · intro v i _ hi _
    rw [fourBytes_eq hchunk hi]

theorem sha256Words_getD {t : ℕ} (ht : t < 64) :
    (sha256Words chunk).getD t 0 = Sha256.schedule (wordBE chunk) t := by
  refine foldl_set (g := Sha256.schedule (wordBE chunk)) ?_ ?_ ?_ ht
  · rw [fill, length_foldl_set, List.length_replicate]
  · intro j hj
    rw [fill_words hchunk fromBeBytes (by decide) hj, Sha256.schedule, if_pos hj]
    rfl
  · intro v i hlo hhi hv
    rw [hv _ (by omega), hv _ (by omega), hv _ (by omega), hv _ (by omega), Sha256.schedule.eq_1 _ i,
      if_neg (by omega), Sha256.sigma0, Sha256.sigma1]
    dsimp only
    ac_rfl

theorem sha1Words_getD {t : ℕ} (ht : t < 80) : (sha1Words chunk).getD t 0 = Sha1.schedule (wordBE chunk) t := by
  refine foldl_set (g := Sha1.schedule (wordBE chunk)) ?_ ?_ ?_ ht
  · rw [fill, length_foldl_set, List.length_replicate]
  · intro j hj
    rw [fill_words hchunk fromBeBytes (by decide) hj, Sha1.schedule, if_pos hj]
    rfl
  · intro v i hlo hhi hv
    rw [hv _ (by omega), hv _ (by omega), hv _ (by omega), hv _ (by omega), Sha1.schedule.eq_1 _ i,
      if_neg (by omega)]

theorem md5Words_getD {t : ℕ} (ht : t < 16) : (md5Words chunk).getD t 0 = wordLE chunk t :=
  fill_words hchunk fromLeBytes le_rfl ht

end Words

/-! ## The tables -/

def primes : List ℕ :=
  [2, 3, 5, 7, 11, 13, 17, 19, 23, 29, 31, 37, 41, 43, 47, 53, 59, 61, 67, 71, 73, 79, 83, 89, 97, 101, 103, 107, 109,
    113, 127, 131, 137, 139, 149, 151, 157, 163, 167, 173, 179, 181, 191, 193, 197, 199, 211, 223, 227, 229, 233, 239,
    241, 251, 257, 263, 269, 271, 277, 281, 283, 293, 307, 311]

theorem prime_iff_of_lt {p : ℕ} (hp : p < 324) : p.Prime ↔ 2 ≤ p ∧ ∀ m < 18, 2 ≤ m → m * m ≤ p → ¬m ∣ p := by
  rw [Nat.prime_def_le_sqrt]
  refine and_congr_right fun _ => ⟨fun h m _ hm hle => h m hm (Nat.le_sqrt.mpr hle), fun h m hm hle => ?_⟩
  have hsquare : m * m ≤ p := Nat.le_sqrt.mp hle
  exact h m (by nlinarith) hm hsquare

theorem prime_primes {t : ℕ} (ht : t < 64) : (primes.getD t 0).Prime := by
  have hall : ∀ t < 64, primes.getD t 0 < 324 ∧ 2 ≤ primes.getD t 0 ∧
      ∀ m < 18, 2 ≤ m → m * m ≤ primes.getD t 0 → ¬m ∣ primes.getD t 0 := by decide +kernel
  exact (prime_iff_of_lt (hall t ht).1).mpr (hall t ht).2

theorem count_primes {t : ℕ} (ht : t < 64) : Nat.count Nat.Prime (primes.getD t 0) = t := by
  -- there is no prime between two entries
  have hgap : ∀ t < 63, primes.getD t 0 + 1 ≤ primes.getD (t + 1) 0 ∧
      ∀ k < primes.getD (t + 1) 0 - (primes.getD t 0 + 1), primes.getD t 0 + 1 + k < 324 ∧
        ∃ m < 18, 2 ≤ m ∧ m * m ≤ primes.getD t 0 + 1 + k ∧ m ∣ primes.getD t 0 + 1 + k := by decide +kernel
  induction t with
  | zero => decide +kernel
  | succ t ih =>
    obtain ⟨hle, hnone⟩ := hgap t (by omega)
    have hzero : Nat.count (fun k => (primes.getD t 0 + 1 + k).Prime)
        (primes.getD (t + 1) 0 - (primes.getD t 0 + 1)) = 0 := by
      refine Nat.count_of_forall_not fun k hk hprime => ?_
      obtain ⟨hlt, m, hm, htwo, hsquare, hdvd⟩ := hnone k hk
      exact ((prime_iff_of_lt hlt).mp hprime).2 m hm htwo hsquare hdvd
    rw [← Nat.add_sub_cancel' hle, Nat.count_add, hzero, Nat.count_succ, ih (by omega),
      if_pos (prime_primes (by omega))]

theorem nth_prime {t : ℕ} (ht : t < 64) : Nat.nth Nat.Prime t = primes.getD t 0 :=
  nth_prime_eq (prime_primes ht) (count_primes ht)

/-- **The table holds the digits that it is to hold.** -/
theorem sha256K_eq {t : ℕ} (ht : t < 64) : Sha256.k t = sha256K.getD t 0 := by
  have hall : ∀ t < 64, ∃ r < 7, (r * 2 ^ 32 + (sha256K.getD t 0).toNat) ^ 3 ≤ primes.getD t 0 * 2 ^ (32 * 3) ∧
      primes.getD t 0 * 2 ^ (32 * 3) < (r * 2 ^ 32 + (sha256K.getD t 0).toNat + 1) ^ 3 := by decide +kernel
  obtain ⟨r, -, hle, hlt⟩ := hall t ht
  rw [Sha256.k, nth_prime ht, fractionDigits_root (by decide) (BitVec.isLt _) hle hlt, BitVec.ofNat_toNat,
    BitVec.setWidth_eq]

theorem initial_eq {t c r : ℕ} (ht : t < 64) (hc : c < 2 ^ 32)
    (hle : (r * 2 ^ 32 + c) ^ 2 ≤ primes.getD t 0 * 2 ^ (32 * 2))
    (hlt : primes.getD t 0 * 2 ^ (32 * 2) < (r * 2 ^ 32 + c + 1) ^ 2) : Sha256.initial t = BitVec.ofNat 32 c := by
  rw [Sha256.initial, nth_prime ht, fractionDigits_root (by decide) hc hle hlt]

/-- So does the initial state. -/
theorem sha256H0_eq : Sha256.State.initial = sha256H0 := by
  rw [Sha256.State.initial, @initial_eq 0 0x6a09e667 1 (by decide) (by decide) (by decide) (by decide),
    @initial_eq 1 0xbb67ae85 1 (by decide) (by decide) (by decide) (by decide),
    @initial_eq 2 0x3c6ef372 2 (by decide) (by decide) (by decide) (by decide),
    @initial_eq 3 0xa54ff53a 2 (by decide) (by decide) (by decide) (by decide),
    @initial_eq 4 0x510e527f 3 (by decide) (by decide) (by decide) (by decide),
    @initial_eq 5 0x9b05688c 3 (by decide) (by decide) (by decide) (by decide),
    @initial_eq 6 0x1f83d9ab 4 (by decide) (by decide) (by decide) (by decide),
    @initial_eq 7 0x5be0cd19 4 (by decide) (by decide) (by decide) (by decide)]
  rfl

/-- So does this one, of sines. -/
theorem md5K_eq {n : ℕ} (hn : n < 64) : Md5.t (n + 1) = md5K.getD n 0 := by
  have hall : ∀ n < 64, (md5K.getD n 0).toNat * (2 * 100).factorial + 2 ^ 33 * (n + 1) ^ (2 * 100) ≤
        2 ^ 32 * (sineNumerator (n + 1) 100).natAbs ∧
      2 ^ 32 * (sineNumerator (n + 1) 100).natAbs + 2 ^ 33 * (n + 1) ^ (2 * 100) <
        ((md5K.getD n 0).toNat + 1) * (2 * 100).factorial := by decide +kernel
  obtain ⟨hle, hlt⟩ := hall n hn
  rw [Md5.t, sineDigits_eq (by omega) hle hlt, BitVec.ofNat_toNat, BitVec.setWidth_eq]

/-! ## A round -/

theorem sha1Round_eq (w : List Word) (s : Sha1.State) (i : ℕ) : sha1Round w s i = Sha1.round i (w.getD i 0) s := by
  have hch (x y z : Word) : (x &&& y) ||| (~~~x &&& z) = (x &&& y) ^^^ (~~~x &&& z) := by
    ext j
    simp only [BitVec.getElem_or, BitVec.getElem_and, BitVec.getElem_not, BitVec.getElem_xor]
    cases x[j] <;> simp
  have hmaj (x y z : Word) : (x &&& y) ||| (x &&& z) ||| (y &&& z) = (x &&& y) ^^^ (x &&& z) ^^^ (y &&& z) := by
    ext j
    simp only [BitVec.getElem_or, BitVec.getElem_and, BitVec.getElem_xor]
    cases x[j] <;> cases y[j] <;> cases z[j] <;> rfl
  rw [sha1Round, sha1Choice, hch, hmaj, Sha1.round, Sha1.f, Sha1.k, Sha256.ch, Sha256.maj]
  by_cases h20 : i < 20
  · simp only [h20, show i ≤ 19 by omega, if_true]
  · by_cases h40 : i < 40
    · simp only [h20, h40, show ¬i ≤ 19 by omega, show i ≤ 39 by omega, show ¬(40 ≤ i ∧ i < 60) by omega, if_true,
        if_false]
    · by_cases h60 : i < 60
      · simp only [h20, h40, h60, show ¬i ≤ 19 by omega, show ¬i ≤ 39 by omega, show i ≤ 59 by omega,
          show 40 ≤ i by omega, and_self, if_true, if_false]
      · simp only [h20, h40, h60, show ¬i ≤ 19 by omega, show ¬i ≤ 39 by omega, show ¬i ≤ 59 by omega, and_false,
          if_false]

section Rotated

local instance neZero_four : NeZero 4 := ⟨by decide⟩

/-- The registers, in the order in which an operation takes them. -/
def rotated (r : Md5.State) (n : ℕ) : Registers :=
  ⟨r (Md5.target n), r (Md5.target n + 1), r (Md5.target n + 2), r (Md5.target n + 3)⟩

end Rotated

theorem target_succ (n : ℕ) : Md5.target (n + 1) = Md5.target n + 3 := by
  have hsucc : Fin.ofNat 4 (n + 1) = Fin.ofNat 4 n + 1 := by
    ext
    simp [Fin.val_add]
  have hall : ∀ a : Fin 4, -(a + 1) = -a + 3 := by decide
  rw [Md5.target, Md5.target, hsucc, hall]

theorem md5Choice_function {n : ℕ} (b c d : Word) : (md5Choice n b c d).1 = Md5.function n b c d := by
  have hg : (d &&& b) ||| (~~~d &&& c) = (b &&& d) ||| (c &&& ~~~d) := by
    rw [BitVec.and_comm d, BitVec.and_comm (~~~d)]
  rw [md5Choice, Md5.function, hg]
  by_cases h16 : n < 16
  · rw [if_pos (by omega), if_pos h16]
    rfl
  · by_cases h32 : n < 32
    · rw [if_neg (by omega), if_pos (by omega), if_neg h16, if_pos h32]
      rfl
    · by_cases h48 : n < 48
      · rw [if_neg (by omega), if_neg (by omega), if_pos (by omega), if_neg h16, if_neg h32, if_pos h48]
        rfl
      · rw [if_neg (by omega), if_neg (by omega), if_neg (by omega), if_neg h16, if_neg h32, if_neg h48]
        rfl

theorem md5Choice_word {n : ℕ} (hn : n < 64) (b c d : Word) :
    (md5Choice n b c d).2 = Md5.order.getD n 0 ∧ (md5Choice n b c d).2 < 16 ∧ md5S.getD n 0 = Md5.shift n := by
  have hall : ∀ n < 64, (md5Choice n 0 0 0).2 = Md5.order.getD n 0 ∧ (md5Choice n 0 0 0).2 < 16 ∧
      md5S.getD n 0 = Md5.shift n := by decide +kernel
  have hsame : (md5Choice n b c d).2 = (md5Choice n 0 0 0).2 := by
    simp only [md5Choice]
    split_ifs <;> rfl
  rw [hsame]
  exact hall n hn

/-! ## A block -/

section Block

variable {chunk : Bytes} (hchunk : chunk.length = 64)
include hchunk

theorem sha256Rounds_eq (h : Sha256.State) {n : ℕ} (hn : n ≤ 64) :
    (List.range n).foldl (sha256Round (sha256Words chunk)) h = Sha256.rounds (wordBE chunk) h n := by
  induction n with
  | zero => rfl
  | succ n ih =>
    rw [List.range_succ, List.foldl_append, ih (by omega), List.foldl_cons, List.foldl_nil, Sha256.rounds,
      sha256Round, sha256Words_getD hchunk (by omega), ← sha256K_eq (by omega)]
    rfl

/-- **A block is done as the standard does it.** -/
theorem sha256Block_eq (h : Sha256.State) : sha256Block h chunk = Sha256.compress h chunk := by
  rw [sha256Block, sha256Rounds_eq hchunk h le_rfl]
  rfl

theorem sha1Rounds_eq (h : Sha1.State) {n : ℕ} (hn : n ≤ 80) :
    (List.range n).foldl (sha1Round (sha1Words chunk)) h = Sha1.rounds (wordBE chunk) h n := by
  induction n with
  | zero => rfl
  | succ n ih =>
    rw [List.range_succ, List.foldl_append, ih (by omega), List.foldl_cons, List.foldl_nil, Sha1.rounds,
      sha1Round_eq, sha1Words_getD hchunk (by omega)]

/-- The same for SHA-1. -/
theorem sha1Block_eq (h : Sha1.State) : sha1Block h chunk = Sha1.compress h chunk := by
  rw [sha1Block, sha1Rounds_eq hchunk h le_rfl]
  rfl

theorem md5Round_eq (r : Md5.State) {n : ℕ} (hn : n < 64) :
    md5Round (md5Words chunk) (rotated r n) n = rotated (Md5.operation (wordLE chunk) r n) (n + 1) := by
  have hplaces : ∀ a : Fin 4, a + 3 ≠ a ∧ a + 3 + 1 = a ∧ a + 3 + 2 = a + 1 ∧ a + 3 + 3 = a + 2 ∧ a + 1 ≠ a ∧
      a + 2 ≠ a := by decide
  obtain ⟨h3, h31, h32, h33, h1, h2⟩ := hplaces (Md5.target n)
  obtain ⟨hword, hlt, hshift⟩ := md5Choice_word hn (r (Md5.target n + 1)) (r (Md5.target n + 2)) (r (Md5.target n + 3))
  rw [rotated, rotated, target_succ, h31, h32, h33, Md5.operation, Function.update_of_ne h3, Function.update_self,
    Function.update_of_ne h1, Function.update_of_ne h2, md5Round]
  dsimp only
  rw [md5Choice_function, md5Words_getD hchunk hlt, hword, hshift, ← md5K_eq hn]
  congr 3
  ac_rfl

theorem md5Rounds_eq (r : Md5.State) {n : ℕ} (hn : n ≤ 64) :
    (List.range n).foldl (md5Round (md5Words chunk)) (rotated r 0) = rotated (Md5.operations (wordLE chunk) r n) n := by
  induction n with
  | zero => rfl
  | succ n ih =>
    rw [List.range_succ, List.foldl_append, ih (by omega), List.foldl_cons, List.foldl_nil,
      md5Round_eq hchunk _ hn, Md5.operations]

/-- The same for MD5. -/
theorem md5Block_eq (r : Md5.State) : md5Block (rotated r 0) chunk = rotated (Md5.compress r chunk) 0 := by
  rw [md5Block, md5Rounds_eq hchunk r le_rfl]
  rfl

end Block

/-! ## The text -/

theorem hex08_eq (w : Word) : (hex08 w).toList = (beBytes 4 w.toNat).flatMap hexByte := by
  rw [hex08, String.toList_ofList, leftpad_toDigits w.isLt, flatMap_hexByte_beBytes]

theorem hex02_eq {w : Word} (x : UInt8) (hx : w.toNat = x.toNat) : (hex02 w).toList = hexByte x := by
  have hlt := x.toNat_lt
  rw [hex02, String.toList_ofList, hx, leftpad_toDigits (by omega), fixedDigits, fixedDigits, fixedDigits,
    Nat.mod_eq_of_lt (by omega), hexByte]
  rfl

theorem join_hex08 (ws : List Word) : String.join (ws.map hex08) = hex (wordsBE ws) := by
  apply String.toList_inj.mp
  rw [String.toList_join, List.flatMap_map, hex, String.toList_ofList, wordsBE, List.flatMap_assoc]
  exact List.flatMap_congr fun w _ => hex08_eq w

theorem leHex_eq (w : Word) : (leHex w).toList = (leBytes 4 w.toNat).flatMap hexByte := by
  have hlt := w.isLt
  have hmask (v : Word) : (v &&& 0xff).toNat = v.toNat % 256 := by
    rw [BitVec.toNat_and]
    exact Nat.and_two_pow_sub_one_eq_mod _ 8
  have hshift (n k : ℕ) (hk : 2 ^ n = k) : (w >>> n).toNat = w.toNat / k := by
    rw [BitVec.toNat_ushiftRight, Nat.shiftRight_eq_div_pow, hk]
  rw [leHex, String.toList_append, String.toList_append, String.toList_append,
    hex02_eq (UInt8.ofNat w.toNat) (by rw [hmask, UInt8.toNat_ofNat']),
    hex02_eq (UInt8.ofNat (w.toNat / 256)) (by rw [hmask, hshift 8 256 rfl, UInt8.toNat_ofNat']),
    hex02_eq (UInt8.ofNat (w.toNat / 256 / 256))
      (by rw [hmask, hshift 16 65536 rfl, UInt8.toNat_ofNat', Nat.div_div_eq_div_mul]),
    hex02_eq (UInt8.ofNat (w.toNat / 256 / 256 / 256))
      (by rw [hmask, hshift 24 16777216 rfl, UInt8.toNat_ofNat', Nat.div_div_eq_div_mul, Nat.div_div_eq_div_mul])]
  rfl

/-! ## Messages -/

section Messages

variable {data : Bytes} (hdata : data.length < 2 ^ 61)
include hdata

theorem sha256Hex_eq : sha256Hex data = hex (Sha256.digest data) := by
  have hfield (n : ℕ) : (beBytes 8 n).length = 8 := length_beBytes 8 n
  have hprocess : (chunks 64 (pad (beBytes 8) data)).foldl sha256Block sha256H0 =
      process Sha256.compress Sha256.State.initial (beBytes 8) data := by
    rw [sha256H0_eq]
    exact process_congr (φ := id) hfield (fun s block hblock => sha256Block_eq hblock s) sha256H0 data
  rw [sha256Hex, chunksExact_padded (fun n => rfl) hfield hdata, hprocess]
  exact join_hex08 _

theorem sha1Hex_eq : sha1Hex data = hex (Sha1.digest data) := by
  have hfield (n : ℕ) : (beBytes 8 n).length = 8 := length_beBytes 8 n
  have hprocess : (chunks 64 (pad (beBytes 8) data)).foldl sha1Block Sha1.State.initial =
      process Sha1.compress Sha1.State.initial (beBytes 8) data :=
    process_congr (φ := id) hfield (fun s block hblock => sha1Block_eq hblock s) Sha1.State.initial data
  rw [sha1Hex, chunksExact_padded (fun n => rfl) hfield hdata]
  exact (congrArg (fun h : Sha1.State => String.join (h.words.map hex08)) hprocess).trans (join_hex08 _)

theorem md5Hex_eq : md5Hex data = hex (Md5.digest data) := by
  have hfield (n : ℕ) : (leBytes 8 n).length = 8 := length_leBytes 8 n
  have hprocess : (chunks 64 (pad (leBytes 8) data)).foldl md5Block (rotated Md5.State.initial 0) =
      rotated (process Md5.compress Md5.State.initial (leBytes 8) data) 0 :=
    (process_congr (φ := fun r => rotated r 0) hfield (fun r block hblock => (md5Block_eq hblock r).symm)
      Md5.State.initial data).symm
  have hwords (r : Md5.State) : leHex (r 0) ++ leHex (r 1) ++ leHex (r 2) ++ leHex (r 3) =
      hex (wordsLE (List.ofFn r)) := by
    apply String.toList_inj.mp
    rw [String.toList_append, String.toList_append, String.toList_append, leHex_eq, leHex_eq, leHex_eq, leHex_eq, hex,
      String.toList_ofList, wordsLE, List.flatMap_assoc]
    simp only [List.ofFn_succ, List.ofFn_zero, List.flatMap_cons, List.flatMap_nil, List.append_nil, List.append_assoc]
    rfl
  rw [md5Hex, chunksExact_padded (fun n => rfl) hfield hdata]
  have htext (h : Registers) (r : Md5.State) (hr : h = rotated r 0) :
      leHex h.a ++ leHex h.b ++ leHex h.c ++ leHex h.d = hex (wordsLE (List.ofFn r)) := by
    rw [hr]
    exact hwords r
  exact htext _ _ hprocess

end Messages

/-- **The hash functions are those of the standards.** -/
theorem hash_standards {data : Bytes} (hdata : data.length < 2 ^ 61) :
    sha256Hex data = hex (Sha256.digest data) ∧ sha1Hex data = hex (Sha1.digest data) ∧
      md5Hex data = hex (Md5.digest data) :=
  ⟨sha256Hex_eq hdata, sha1Hex_eq hdata, md5Hex_eq hdata⟩

/-- `abc`, of which each standard gives the digest. -/
theorem hash_standards_abc : sha256Hex [0x61, 0x62, 0x63] = hex (Sha256.digest [0x61, 0x62, 0x63]) ∧
    sha1Hex [0x61, 0x62, 0x63] = hex (Sha1.digest [0x61, 0x62, 0x63]) ∧
      md5Hex [0x61, 0x62, 0x63] = hex (Md5.digest [0x61, 0x62, 0x63]) :=
  hash_standards (show 3 < 2 ^ 61 by decide)

end VelocityMcp.Edge
