import Mathlib.Data.List.DropRight
import Mathlib.Data.Nat.Bitwise
import VelocityMcp.Lib.Base64
import VelocityMcp.Lib.Chunks

/-!
# Edge.Base64 — the base64 tools of the edge server (`base64_encode`, `base64_decode`)

`Exact`: what is expected of the decoder at a text.  `Regular`: the texts at which it does that.
-/

namespace VelocityMcp.Edge

open Lib Lib.Base64

/-! ## The source -/

def b64Chars : List Char := "ABCDEFGHIJKLMNOPQRSTUVWXYZabcdefghijklmnopqrstuvwxyz0123456789+/".toList

/-- `B64_CHARS[(triple >> shift) & 0x3F]`. -/
def b64Char (triple : UInt32) (shift : UInt32) : Char := (b64Chars[((triple >>> shift) &&& 0x3f).toNat]?).getD '?'

/-- What one piece of three bytes or less is written as. -/
def encodeChunk (chunk : Bytes) : List Char :=
  let b0 : UInt8 := chunk[0]?.getD 0
  let b1 : UInt8 := chunk[1]?.getD 0
  let b2 : UInt8 := chunk[2]?.getD 0
  let triple : UInt32 := (b0.toUInt32 <<< 16) ||| (b1.toUInt32 <<< 8) ||| b2.toUInt32
  [b64Char triple 18, b64Char triple 12, if chunk.length > 1 then b64Char triple 6 else '=',
    if chunk.length > 2 then b64Char triple 0 else '=']

def base64Encode (data : Bytes) : String := String.ofList ((chunks 3 data).flatMap encodeChunk)

def charValue (ch : Char) : Option UInt32 :=
  if 'A' ≤ ch ∧ ch ≤ 'Z' then some (ch.val - 'A'.val)
  else if 'a' ≤ ch ∧ ch ≤ 'z' then some (ch.val - 'a'.val + 26)
  else if '0' ≤ ch ∧ ch ≤ '9' then some (ch.val - '0'.val + 52)
  else if ch = '+' then some 62
  else if ch = '/' then some 63
  else none

def isBlank (ch : Char) : Bool := ch = ' ' || ch = '\n' || ch = '\r' || ch = '\t'

/-- `buf`, `bits_collected` and `result`. -/
structure Decoder where
  buf : UInt32
  bitsCollected : UInt32
  result : Bytes
deriving DecidableEq, Repr

/-- Six more bits. -/
def Decoder.push (d : Decoder) (val : UInt32) : Decoder :=
  let buf := (d.buf <<< 6) ||| val
  let bits := d.bitsCollected + 6
  if bits ≥ 8 then ⟨buf, bits - 8, d.result ++ [((buf >>> (bits - 8)) &&& 0xff).toUInt8]⟩ else ⟨buf, bits, d.result⟩

/-- One character. -/
def Decoder.step (d : Decoder) (ch : Char) : Except String Decoder :=
  match charValue ch with
  | some val => .ok (d.push val)
  | none => if isBlank ch then .ok d else .error s!"Invalid Base64 character: '{ch}'"

/-- `trim_end_matches('=')`. -/
def trimEnd (cs : List Char) : List Char := cs.rdropWhile (· = '=')

def base64Decode (encoded : String) : Except String Bytes :=
  ((trimEnd encoded.toList).foldlM Decoder.step ⟨0, 0, []⟩).map Decoder.result

example : base64Encode [0x4d, 0x61] = "TWE=" := by decide

/-! ## The encoder -/

theorem toNat_triple (a b c : UInt8) :
    ((a.toUInt32 <<< 16) ||| (b.toUInt32 <<< 8) ||| c.toUInt32).toNat = a.toNat * 65536 + b.toNat * 256 + c.toNat := by
  have ha := a.toNat_lt
  have hb := b.toNat_lt
  have hc := c.toNat_lt
  have h16 : (a.toUInt32 <<< 16).toNat = a.toNat <<< 16 := by
    rw [UInt32.toNat_shiftLeft, UInt8.toNat_toUInt32]
    exact Nat.mod_eq_of_lt (by rw [Nat.shiftLeft_eq]; simp; omega)
  have h8 : (b.toUInt32 <<< 8).toNat = b.toNat <<< 8 := by
    rw [UInt32.toNat_shiftLeft, UInt8.toNat_toUInt32]
    exact Nat.mod_eq_of_lt (by rw [Nat.shiftLeft_eq]; simp; omega)
  have hlow : b.toNat <<< 8 ||| c.toNat = b.toNat * 256 + c.toNat := by
    rw [← Nat.shiftLeft_add_eq_or_of_lt hc, Nat.shiftLeft_eq]
  rw [UInt32.toNat_or, UInt32.toNat_or, h16, h8, UInt8.toNat_toUInt32, Nat.or_assoc, hlow,
    ← Nat.shiftLeft_add_eq_or_of_lt (by omega), Nat.shiftLeft_eq, Nat.add_assoc]

theorem b64Char_eq (triple : UInt32) {shift : UInt32} {k n : ℕ} (hk : 2 ^ (shift.toNat % 32) = k)
    (hn : triple.toNat / k % 64 = n) : b64Char triple shift = digit n := by
  have hall : ∀ n < 64, (b64Chars[n]?).getD '?' = digit n := by decide +kernel
  have hindex : ((triple >>> shift) &&& 0x3f).toNat = triple.toNat / k % 64 := by
    rw [UInt32.toNat_and, UInt32.toNat_shiftRight, Nat.shiftRight_eq_div_pow, hk]
    exact Nat.and_two_pow_sub_one_eq_mod _ 6
  rw [b64Char, hindex, hn]
  exact hall n (hn ▸ Nat.mod_lt _ (by decide))

theorem encodeChunk_eq (a b c : UInt8) (chunk : Bytes) (ha : chunk[0]?.getD 0 = a) (hb : chunk[1]?.getD 0 = b)
    (hc : chunk[2]?.getD 0 = c) : encodeChunk chunk =
      [digit (a.toNat / 4), digit (a.toNat % 4 * 16 + b.toNat / 16),
        if chunk.length > 1 then digit (b.toNat % 16 * 4 + c.toNat / 64) else '=',
        if chunk.length > 2 then digit (c.toNat % 64) else '='] := by
  have hlt := And.intro a.toNat_lt (And.intro b.toNat_lt c.toNat_lt)
  have h := toNat_triple a b c
  rw [encodeChunk, ha, hb, hc]
  generalize (a.toUInt32 <<< 16) ||| (b.toUInt32 <<< 8) ||| c.toUInt32 = t at h ⊢
  have h18 : b64Char t 18 = digit (a.toNat / 4) := b64Char_eq t rfl (show t.toNat / 262144 % 64 = _ by omega)
  have h12 : b64Char t 12 = digit (a.toNat % 4 * 16 + b.toNat / 16) :=
    b64Char_eq t rfl (show t.toNat / 4096 % 64 = _ by omega)
  have h6 : b64Char t 6 = digit (b.toNat % 16 * 4 + c.toNat / 64) :=
    b64Char_eq t rfl (show t.toNat / 64 % 64 = _ by omega)
  have h0 : b64Char t 0 = digit (c.toNat % 64) := b64Char_eq t rfl (show t.toNat / 1 % 64 = _ by omega)
  rw [h18, h12, h6, h0]

/-- **The encoder** is the one of the standard. -/
theorem base64Encode_eq (b : Bytes) : base64Encode b = encode b := by
  have hchars : (chunks 3 b).flatMap encodeChunk = encodeChars b := by
    induction b using encodeChars.induct with
    | case1 => rfl
    | case2 a =>
      rw [chunks_of_ne_nil (by decide) (List.cons_ne_nil _ _), List.flatMap_cons, encodeChunk_eq a 0 0 _ rfl rfl rfl]
      rfl
    | case3 a b =>
      rw [chunks_of_ne_nil (by decide) (List.cons_ne_nil _ _), List.flatMap_cons, encodeChunk_eq a b 0 _ rfl rfl rfl]
      rfl
    | case4 a b c rest ih =>
      rw [chunks_of_ne_nil (by decide) (List.cons_ne_nil _ _), List.flatMap_cons, encodeChunk_eq a b c _ rfl rfl rfl,
        encodeChars, ← ih]
      rfl
  rw [base64Encode, hchars, encode]

/-! ## The decoder -/

theorem charValue_eq (ch : Char) : charValue ch = (digitValue ch).map UInt32.ofNat := by
  have hval : ch.val = UInt32.ofNat ch.toNat := (UInt32.ofNat_toNat).symm
  have hle (a b : Char) : a ≤ b ↔ a.toNat ≤ b.toNat := Iff.rfl
  have hsub {m : ℕ} (h : m ≤ ch.toNat) : UInt32.ofNat ch.toNat - UInt32.ofNat m = UInt32.ofNat (ch.toNat - m) :=
    (UInt32.ofNat_sub h).symm
  rw [charValue, digitValue]
  simp only [hle, Char.reduceToNat]
  split_ifs with hupper hlower hfigure hplus hslash
  · rw [hval]
    exact congrArg some (hsub hupper.1)
  · have hadd : ch.toNat - 97 + 26 = ch.toNat - 71 := by omega
    rw [hval, Option.map_some, ← hadd, UInt32.ofNat_add, ← hsub hlower.1]
    rfl
  · have hadd : ch.toNat - 48 + 52 = ch.toNat + 4 := by omega
    rw [hval, Option.map_some, ← hadd, UInt32.ofNat_add, ← hsub hfigure.1]
    rfl
  · rfl
  · rfl
  · rfl

theorem toNat_shift_or (buf : UInt32) {n : ℕ} (hn : n < 64) :
    ((buf <<< 6) ||| UInt32.ofNat n).toNat = (buf.toNat * 64 + n) % 2 ^ 32 := by
  have hmod : buf.toNat <<< 6 % 2 ^ 32 = (buf.toNat % 2 ^ 26) <<< 6 := by
    rw [Nat.shiftLeft_eq, Nat.shiftLeft_eq]
    omega
  have hor := Nat.shiftLeft_add_eq_or_of_lt (show n < 2 ^ 6 from hn) (buf.toNat % 2 ^ 26)
  have hshift : (buf <<< 6).toNat = (buf.toNat % 2 ^ 26) <<< 6 := (UInt32.toNat_shiftLeft _ _).trans hmod
  rw [UInt32.toNat_or, hshift, UInt32.toNat_ofNat_of_lt' (Nat.lt_trans hn (by decide)), ← hor, Nat.shiftLeft_eq]
  omega

theorem toUInt8_shift (buf : UInt32) {shift : UInt32} {i j k n : ℕ} (hi : i < 64) (hj : j < 64)
    (hk : 2 ^ (shift.toNat % 32) = k) (hn : ∀ m, (m * 4096 + i * 64 + j) / k % 256 = n % 256) :
    (((((buf <<< 6) ||| UInt32.ofNat i) <<< 6 ||| UInt32.ofNat j) >>> shift) &&& 0xff).toUInt8 = UInt8.ofNat n := by
  have hbuf : (((buf <<< 6) ||| UInt32.ofNat i) <<< 6 ||| UInt32.ofNat j).toNat =
      buf.toNat % 2 ^ 20 * 4096 + i * 64 + j := by
    rw [toNat_shift_or _ hj, toNat_shift_or _ hi]
    omega
  apply UInt8.toNat_inj.mp
  rw [UInt32.toNat_toUInt8, UInt32.toNat_and, UInt32.toNat_shiftRight, Nat.shiftRight_eq_div_pow, hk, hbuf,
    UInt8.toNat_ofNat', ← hn (buf.toNat % 2 ^ 20)]
  exact (congrArg (· % 256) (Nat.and_two_pow_sub_one_eq_mod _ 8)).trans (Nat.mod_mod _ _)

theorem first_byte (buf : UInt32) {i j : ℕ} (hi : i < 64) (hj : j < 64) :
    (((((buf <<< 6) ||| UInt32.ofNat i) <<< 6 ||| UInt32.ofNat j) >>> 4) &&& 0xff).toUInt8 =
      UInt8.ofNat (i * 4 + j / 16) := by
  apply @toUInt8_shift buf 4 i j 16 _ hi hj rfl
  intro m
  omega

theorem second_byte (buf : UInt32) {j k : ℕ} (hj : j < 64) (hk : k < 64) :
    (((((buf <<< 6) ||| UInt32.ofNat j) <<< 6 ||| UInt32.ofNat k) >>> 2) &&& 0xff).toUInt8 =
      UInt8.ofNat (j % 16 * 16 + k / 4) := by
  apply @toUInt8_shift buf 2 j k 4 _ hj hk rfl
  intro m
  omega

theorem third_byte (buf : UInt32) {k l : ℕ} (hk : k < 64) (hl : l < 64) :
    (((((buf <<< 6) ||| UInt32.ofNat k) <<< 6 ||| UInt32.ofNat l) >>> 0) &&& 0xff).toUInt8 =
      UInt8.ofNat (k % 4 * 64 + l) := by
  apply @toUInt8_shift buf 0 k l 1 _ hk hl rfl
  intro m
  omega

section Push

variable (buf : UInt32) (out : Bytes) (v : UInt32)

theorem push_zero : Decoder.push ⟨buf, 0, out⟩ v = ⟨(buf <<< 6) ||| v, 6, out⟩ := by
  simp [Decoder.push]

theorem push_six : Decoder.push ⟨buf, 6, out⟩ v =
    ⟨(buf <<< 6) ||| v, 4, out ++ [((((buf <<< 6) ||| v) >>> 4) &&& 0xff).toUInt8]⟩ := by
  simp [Decoder.push]

theorem push_four : Decoder.push ⟨buf, 4, out⟩ v =
    ⟨(buf <<< 6) ||| v, 2, out ++ [((((buf <<< 6) ||| v) >>> 2) &&& 0xff).toUInt8]⟩ := by
  simp [Decoder.push]

theorem push_two : Decoder.push ⟨buf, 2, out⟩ v =
    ⟨(buf <<< 6) ||| v, 0, out ++ [((((buf <<< 6) ||| v) >>> 0) &&& 0xff).toUInt8]⟩ := by
  simp [Decoder.push]

end Push

/-- **The accumulator** gives the bytes of the groups, and keeps what is left over to itself. -/
theorem result_foldl_push {vs : List ℕ} (hlt : ∀ v ∈ vs, v < 64) (buf : UInt32) (out : Bytes) :
    ((vs.map UInt32.ofNat).foldl Decoder.push ⟨buf, 0, out⟩).result = out ++ octets vs := by
  induction vs using octets.induct generalizing buf out with
  | case1 i j k l rest ih =>
    simp only [List.mem_cons, forall_eq_or_imp] at hlt
    obtain ⟨hi, hj, hk, hl, hrest⟩ := hlt
    simp only [List.map_cons, List.foldl_cons, push_zero, push_six, push_four, push_two]
    rw [ih hrest, octets, first_byte _ hi hj, second_byte _ hj hk, third_byte _ hk hl]
    simp only [List.append_assoc, List.cons_append, List.nil_append]
  | case2 i j k =>
    simp only [List.mem_cons, List.not_mem_nil, or_false, forall_eq_or_imp, forall_eq] at hlt
    obtain ⟨hi, hj, hk⟩ := hlt
    simp only [List.map_cons, List.map_nil, List.foldl_cons, List.foldl_nil, push_zero, push_six, push_four]
    rw [octets, first_byte _ hi hj, second_byte _ hj hk, List.append_assoc]
    rfl
  | case3 i j =>
    simp only [List.mem_cons, List.not_mem_nil, or_false, forall_eq_or_imp, forall_eq] at hlt
    obtain ⟨hi, hj⟩ := hlt
    simp only [List.map_cons, List.map_nil, List.foldl_cons, List.foldl_nil, push_zero, push_six]
    rw [octets, first_byte _ hi hj]
  | case4 vs h4 h3 h2 =>
    rcases vs with _ | ⟨i, _ | ⟨j, _ | ⟨k, _ | ⟨l, rest⟩⟩⟩⟩
    · exact (List.append_nil _).symm
    · exact (List.append_nil _).symm
    · exact absurd rfl (h2 i j)
    · exact absurd rfl (h3 i j k)
    · exact absurd rfl (h4 i j k l rest)

/-- A text without its blanks. -/
def unspaced (cs : List Char) : List Char := cs.filter fun c => !isBlank c

theorem isBlank_digit {n : ℕ} (hn : n < 64) : isBlank (digit n) = false := by
  have hall : ∀ n < 64, isBlank (digit n) = false := by decide
  exact hall n hn

theorem foldlM_step_eq_ok {cs : List Char} {d r : Decoder} : cs.foldlM Decoder.step d = .ok r ↔
    ∃ vs : List ℕ, (∀ v ∈ vs, v < 64) ∧ unspaced cs = vs.map digit ∧
      r = (vs.map UInt32.ofNat).foldl Decoder.push d := by
  induction cs generalizing d with
  | nil =>
    constructor
    · intro h
      exact ⟨[], fun v hv => absurd hv List.not_mem_nil, rfl, (Except.ok.inj h).symm⟩
    · rintro ⟨vs, -, hvs, rfl⟩
      obtain rfl := List.map_eq_nil_iff.mp hvs.symm
      rfl
  | cons c cs ih =>
    rw [List.foldlM_cons, Decoder.step, charValue_eq]
    cases hc : digitValue c with
    | some n =>
      obtain ⟨hn, rfl⟩ := eq_digit hc
      have hkeep : unspaced (digit n :: cs) = digit n :: unspaced cs :=
        List.filter_cons_of_pos (by rw [isBlank_digit hn]; rfl)
      refine ih.trans ⟨?_, ?_⟩
      · rintro ⟨vs, hlt, hvs, rfl⟩
        exact ⟨n :: vs, List.forall_mem_cons.mpr ⟨hn, hlt⟩, by rw [hkeep, hvs, List.map_cons], rfl⟩
      · rintro ⟨vs, hlt, hvs, rfl⟩
        rw [hkeep] at hvs
        obtain ⟨m, ws, rfl, hm, hws⟩ := List.map_eq_cons_iff.mp hvs.symm
        rw [List.forall_mem_cons] at hlt
        obtain rfl : m = n := Option.some.inj (by rw [← digitValue_digit hlt.1, hm, hc])
        exact ⟨ws, hlt.2, hws.symm, rfl⟩
    | none =>
      by_cases hblank : isBlank c = true
      · have hdrop : unspaced (c :: cs) = unspaced cs := List.filter_cons_of_neg (by rw [hblank]; decide)
        rw [hdrop, ← ih]
        simp only [Option.map_none, hblank, if_true]
        rfl
      · have hkeep : unspaced (c :: cs) = c :: unspaced cs := List.filter_cons_of_pos (by simpa using hblank)
        constructor
        · intro h
          simp only [Option.map_none, if_neg hblank] at h
          cases h
        · rintro ⟨vs, hlt, hvs, -⟩
          rw [hkeep] at hvs
          obtain ⟨m, ws, rfl, hm, -⟩ := List.map_eq_cons_iff.mp hvs.symm
          rw [← hm, digitValue_digit (hlt m List.mem_cons_self)] at hc
          cases hc

/-- **What the decoder accepts**: digits and blanks in front of padding signs. -/
theorem base64Decode_eq_ok {s : String} {b : Bytes} : base64Decode s = .ok b ↔
    ∃ vs : List ℕ, (∀ v ∈ vs, v < 64) ∧ unspaced (trimEnd s.toList) = vs.map digit ∧ b = octets vs := by
  rw [base64Decode]
  constructor
  · intro h
    cases hfold : (trimEnd s.toList).foldlM Decoder.step ⟨0, 0, []⟩ with
    | error e =>
      rw [hfold] at h
      cases h
    | ok r =>
      rw [hfold] at h
      obtain ⟨vs, hlt, hvs, rfl⟩ := foldlM_step_eq_ok.mp hfold
      refine ⟨vs, hlt, hvs, ?_⟩
      rw [← Except.ok.inj h, result_foldl_push hlt, List.nil_append]
  · rintro ⟨vs, hlt, hvs, rfl⟩
    rw [foldlM_step_eq_ok.mpr ⟨vs, hlt, hvs, rfl⟩]
    exact congrArg Except.ok ((result_foldl_push hlt 0 []).trans (List.nil_append _))

/-! ## Where it is exact -/

/-- How many padding signs close a text. -/
def pads (cs : List Char) : ℕ := (cs.rtakeWhile (· = '=')).length

theorem trimEnd_append_pads (cs : List Char) : trimEnd cs ++ List.replicate (pads cs) '=' = cs := by
  have hall (c : Char) (hc : c ∈ cs.rtakeWhile (· = '=')) : c = '=' := by
    simpa using List.mem_rtakeWhile_imp hc
  have hpads : List.replicate (pads cs) '=' = cs.rtakeWhile (· = '=') := (List.eq_replicate_of_mem hall).symm
  rw [hpads, trimEnd, List.rdropWhile_append_rtakeWhile]

theorem unspaced_eq (cs : List Char) : unspaced cs = unspaced (trimEnd cs) ++ List.replicate (pads cs) '=' := by
  have hpads : unspaced (List.replicate (pads cs) '=') = List.replicate (pads cs) '=' := by
    rw [unspaced, List.filter_replicate, if_pos (by decide)]
  rw [← hpads, unspaced, unspaced, unspaced, ← List.filter_append, trimEnd_append_pads]

/-- What is expected of the decoder at a text: an encoding with blanks in it gives the bytes back, and what it accepts
is the encoding of its answer, with the padding or without. -/
structure Exact (s : String) : Prop where
  complete : ∀ x : Bytes, unspaced s.toList = (base64Encode x).toList → base64Decode s = .ok x
  sound : ∀ b : Bytes, base64Decode s = .ok b →
    unspaced s.toList = (base64Encode b).toList ∨ unspaced s.toList = trimEnd (base64Encode b).toList

/-- A text that has only digits and blanks in front of the padding that closes it has whole groups and the right
padding or none; and no blank stands behind a padding sign in a text that is an encoding otherwise. -/
structure Regular (s : String) : Prop where
  groups : ∀ vs : List ℕ, (∀ v ∈ vs, v < 64) → unspaced (trimEnd s.toList) = vs.map digit →
    Whole vs ∧ (pads s.toList = 0 ∨ pads s.toList = fill vs.length)
  padding : ∀ vs : List ℕ, (∀ v ∈ vs, v < 64) → Whole vs →
    unspaced s.toList = vs.map digit ++ List.replicate (fill vs.length) '=' → '=' ∉ trimEnd s.toList

theorem encoded_eq (b : Bytes) : (base64Encode b).toList =
    (sextets b).map digit ++ List.replicate (fill (sextets b).length) '=' := by
  rw [base64Encode_eq, encode, String.toList_ofList, encodeChars_eq]

theorem trimEnd_append {us : List Char} (h : '=' ∉ us) (n : ℕ) : trimEnd (us ++ List.replicate n '=') = us := by
  induction n with
  | zero =>
    rw [List.replicate_zero, List.append_nil, trimEnd, List.rdropWhile_eq_self_iff]
    intro hne
    rw [decide_eq_true_iff]
    exact fun hlast => h (hlast ▸ List.getLast_mem hne)
  | succ n ih =>
    rw [List.replicate_succ', ← List.append_assoc]
    exact (List.rdropWhile_concat_pos _ _ _ rfl).trans ih

theorem pad_not_mem_digits {vs : List ℕ} (hlt : ∀ v ∈ vs, v < 64) : '=' ∉ vs.map digit := by
  intro h
  obtain ⟨v, hv, heq⟩ := List.mem_map.mp h
  exact digit_ne_pad (hlt v hv) heq

theorem pad_mem_unspaced {cs : List Char} : '=' ∈ unspaced cs ↔ '=' ∈ cs := by
  rw [unspaced, List.mem_filter]
  exact and_iff_left rfl

/-- **Where the decoder is exact.** -/
theorem base64_exact_iff (s : String) : Exact s ↔ Regular s := by
  constructor
  · rintro ⟨hcomplete, hsound⟩
    refine ⟨fun vs hlt hvs => ?_, fun vs hlt hwhole hvs => ?_⟩
    · have hdecode : base64Decode s = .ok (octets vs) := base64Decode_eq_ok.mpr ⟨vs, hlt, hvs, rfl⟩
      have hsextets : ∀ v ∈ sextets (octets vs), v < 64 := fun v hv => lt_of_mem_sextets hv
      have hsplit := unspaced_eq s.toList
      rw [hvs] at hsplit
      rcases hsound _ hdecode with h | h
      · rw [encoded_eq, hsplit] at h
        obtain ⟨heq, hpads⟩ := digits_inj hlt hsextets h
        rw [← heq] at hpads
        exact ⟨heq ▸ whole_sextets _, .inr hpads⟩
      · rw [encoded_eq, trimEnd_append (pad_not_mem_digits hsextets), hsplit,
          ← List.append_nil (List.map _ (sextets _))] at h
        obtain ⟨heq, hpads⟩ := digits_inj (n := 0) hlt hsextets h
        exact ⟨heq ▸ whole_sextets _, .inl hpads⟩
    · have hencoded : unspaced s.toList = (base64Encode (octets vs)).toList := by
        rw [encoded_eq, sextets_octets hlt hwhole, hvs]
      obtain ⟨ws, hws, hdigits, -⟩ := base64Decode_eq_ok.mp (hcomplete _ hencoded)
      rw [← pad_mem_unspaced, hdigits]
      exact pad_not_mem_digits hws
  · rintro ⟨hgroups, hpadding⟩
    refine ⟨fun x hx => ?_, fun b hb => ?_⟩
    · have hlt : ∀ v ∈ sextets x, v < 64 := fun v hv => lt_of_mem_sextets hv
      rw [encoded_eq] at hx
      have hpad := hpadding _ hlt (whole_sextets x) hx
      rw [← pad_mem_unspaced] at hpad
      have hdigits : unspaced (trimEnd s.toList) = (sextets x).map digit := by
        rw [← trimEnd_append hpad (pads s.toList), ← unspaced_eq, hx, trimEnd_append (pad_not_mem_digits hlt)]
      exact base64Decode_eq_ok.mpr ⟨sextets x, hlt, hdigits, (octets_sextets x).symm⟩
    · obtain ⟨vs, hlt, hvs, rfl⟩ := base64Decode_eq_ok.mp hb
      obtain ⟨hwhole, hpads⟩ := hgroups vs hlt hvs
      rw [encoded_eq, sextets_octets hlt hwhole, trimEnd_append (pad_not_mem_digits hlt), unspaced_eq s.toList, hvs]
      rcases hpads with hpads | hpads
      · right
        rw [hpads, List.replicate_zero, List.append_nil]
      · left
        rw [hpads]

/-- A blank behind the padding is an error; bits that are left over and a group that is cut off are not. -/
theorem base64_not_exact : ¬Exact "QQ== " ∧ ¬Exact "QR==" ∧ ¬Exact "Q" := by
  refine ⟨fun h => ?_, fun h => ?_, fun h => ?_⟩
  · have hrefused : (base64Decode "QQ== ").isOk = false := by decide +kernel
    have haccepted := h.complete [0x41] (by decide +kernel)
    rw [haccepted] at hrefused
    cases hrefused
  · have haccepted : base64Decode "QR==" = .ok [0x41] := rfl
    have hother : ¬(unspaced "QR==".toList = (base64Encode [0x41]).toList ∨
        unspaced "QR==".toList = trimEnd (base64Encode [0x41]).toList) := by decide +kernel
    exact hother (h.sound _ haccepted)
  · have haccepted : base64Decode "Q" = .ok [] := rfl
    have hother : ¬(unspaced "Q".toList = (base64Encode []).toList ∨
        unspaced "Q".toList = trimEnd (base64Encode []).toList) := by decide +kernel
    exact hother (h.sound _ haccepted)

end VelocityMcp.Edge
