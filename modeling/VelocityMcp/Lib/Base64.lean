import VelocityMcp.Lib.Bytes

/-!
# Lib.Base64 — base64 with the standard alphabet and padding

`sextets`, `octets`: the digits without the padding, as numbers; `Whole`: no group is cut off and no bits are left
over.  `octets_sextets`, `sextets_octets`: the digits of a byte string are those that are `Whole`.
-/

namespace Lib.Base64

/-- The character of a value below 64. -/
def digit (n : ℕ) : Char :=
  if n < 26 then Char.ofNat (65 + n)
  else if n < 52 then Char.ofNat (71 + n)
  else if n < 62 then Char.ofNat (n - 4)
  else if n = 62 then '+' else '/'

def digitValue (c : Char) : Option ℕ :=
  let n := c.toNat
  if 65 ≤ n ∧ n ≤ 90 then some (n - 65)
  else if 97 ≤ n ∧ n ≤ 122 then some (n - 71)
  else if 48 ≤ n ∧ n ≤ 57 then some (n + 4)
  else if c = '+' then some 62
  else if c = '/' then some 63
  else none

/-- The characters of a text: four for three bytes, the last group padded. -/
def encodeChars : Bytes → List Char
  | [] => []
  | [a] => [digit (a.toNat / 4), digit (a.toNat % 4 * 16), '=', '=']
  | [a, b] => [digit (a.toNat / 4), digit (a.toNat % 4 * 16 + b.toNat / 16), digit (b.toNat % 16 * 4), '=']
  | a :: b :: c :: rest =>
    digit (a.toNat / 4) :: digit (a.toNat % 4 * 16 + b.toNat / 16) ::
      digit (b.toNat % 16 * 4 + c.toNat / 64) :: digit (c.toNat % 64) :: encodeChars rest

/-- The bytes of a text; the bits that padding leaves over have to be zero. -/
def decodeChars : List Char → Option Bytes
  | [] => some []
  | w :: x :: y :: z :: rest => do
    let i ← digitValue w
    let j ← digitValue x
    if z = '=' then
      if rest ≠ [] then none
      else if y = '=' then if j % 16 = 0 then some [UInt8.ofNat (i * 4 + j / 16)] else none
      else do
        let k ← digitValue y
        if k % 4 = 0 then some [UInt8.ofNat (i * 4 + j / 16), UInt8.ofNat (j % 16 * 16 + k / 4)] else none
    else do
      let k ← digitValue y
      let l ← digitValue z
      let bytes ← decodeChars rest
      some (UInt8.ofNat (i * 4 + j / 16) :: UInt8.ofNat (j % 16 * 16 + k / 4) ::
        UInt8.ofNat (k % 4 * 64 + l) :: bytes)
  | _ => none

def encode (b : Bytes) : String := String.ofList (encodeChars b)

def decode (s : String) : Option Bytes := decodeChars s.toList

theorem digitValue_digit {n : ℕ} (h : n < 64) : digitValue (digit n) = some n := by
  have hall : ∀ n < 64, digitValue (digit n) = some n := by decide
  exact hall n h

theorem digit_ne_pad {n : ℕ} (h : n < 64) : digit n ≠ '=' := by
  have hall : ∀ n < 64, digit n ≠ '=' := by decide
  exact hall n h

theorem ofNat_toNat {a : UInt8} {n : ℕ} (h : n = a.toNat) : UInt8.ofNat n = a := by
  rw [h, UInt8.ofNat_toNat]

theorem decodeChars_encodeChars (b : Bytes) : decodeChars (encodeChars b) = some b := by
  induction b using encodeChars.induct with
  | case1 => rfl
  | case2 a =>
    have ha := a.toNat_lt
    have h₀ : UInt8.ofNat (a.toNat / 4 * 4 + a.toNat % 4 * 16 / 16) = a := ofNat_toNat (by omega)
    rw [encodeChars, decodeChars, digitValue_digit (by omega), digitValue_digit (by omega)]
    simp only [Option.bind_eq_bind, Option.bind_some, if_true, ne_eq, not_true, if_false, h₀]
    rw [if_pos (by omega)]
  | case3 a b =>
    have ha := a.toNat_lt
    have hb := b.toNat_lt
    have h₀ : UInt8.ofNat (a.toNat / 4 * 4 + (a.toNat % 4 * 16 + b.toNat / 16) / 16) = a :=
      ofNat_toNat (by omega)
    have h₁ : UInt8.ofNat ((a.toNat % 4 * 16 + b.toNat / 16) % 16 * 16 + b.toNat % 16 * 4 / 4) = b :=
      ofNat_toNat (by omega)
    have hpad := digit_ne_pad (n := b.toNat % 16 * 4) (by omega)
    rw [encodeChars, decodeChars, digitValue_digit (by omega), digitValue_digit (by omega),
      digitValue_digit (by omega)]
    simp only [Option.bind_eq_bind, Option.bind_some, if_true, ne_eq, not_true, if_false, h₀, h₁]
    rw [if_neg hpad, if_pos (by omega)]
  | case4 a b c rest ih =>
    have ha := a.toNat_lt
    have hb := b.toNat_lt
    have hc := c.toNat_lt
    have h₀ : UInt8.ofNat (a.toNat / 4 * 4 + (a.toNat % 4 * 16 + b.toNat / 16) / 16) = a :=
      ofNat_toNat (by omega)
    have h₁ : UInt8.ofNat ((a.toNat % 4 * 16 + b.toNat / 16) % 16 * 16 +
        (b.toNat % 16 * 4 + c.toNat / 64) / 4) = b := ofNat_toNat (by omega)
    have h₂ : UInt8.ofNat ((b.toNat % 16 * 4 + c.toNat / 64) % 4 * 64 + c.toNat % 64) = c :=
      ofNat_toNat (by omega)
    have hpad := digit_ne_pad (n := c.toNat % 64) (by omega)
    rw [encodeChars, decodeChars, digitValue_digit (by omega), digitValue_digit (by omega),
      digitValue_digit (by omega), digitValue_digit (by omega)]
    simp only [Option.bind_eq_bind, Option.bind_some]
    rw [if_neg hpad, ih, h₀, h₁]
    simp only [Option.bind_some, h₂]

/-- **The round trip.** -/
theorem decode_encode (b : Bytes) : decode (encode b) = some b := by
  rw [decode, encode, String.toList_ofList, decodeChars_encodeChars]

/-! ## Digits without padding -/

/-- The values of the digits for a byte string. -/
def sextets : Bytes → List ℕ
  | [] => []
  | [a] => [a.toNat / 4, a.toNat % 4 * 16]
  | [a, b] => [a.toNat / 4, a.toNat % 4 * 16 + b.toNat / 16, b.toNat % 16 * 4]
  | a :: b :: c :: rest =>
    a.toNat / 4 :: (a.toNat % 4 * 16 + b.toNat / 16) :: (b.toNat % 16 * 4 + c.toNat / 64) :: c.toNat % 64 ::
      sextets rest

/-- The bytes that values amount to, without what is left over. -/
def octets : List ℕ → Bytes
  | i :: j :: k :: l :: rest =>
    UInt8.ofNat (i * 4 + j / 16) :: UInt8.ofNat (j % 16 * 16 + k / 4) :: UInt8.ofNat (k % 4 * 64 + l) :: octets rest
  | [i, j, k] => [UInt8.ofNat (i * 4 + j / 16), UInt8.ofNat (j % 16 * 16 + k / 4)]
  | [i, j] => [UInt8.ofNat (i * 4 + j / 16)]
  | _ => []

/-- No group of four is cut off after its first digit, and no bits are left over. -/
def Whole : List ℕ → Prop
  | _ :: _ :: _ :: _ :: rest => Whole rest
  | [_, _, k] => k % 4 = 0
  | [_, j] => j % 16 = 0
  | [_] => False
  | [] => True

/-- How many padding signs complete a group of so many digits. -/
def fill (n : ℕ) : ℕ := (4 - n % 4) % 4

theorem fill_add_four (n : ℕ) : fill (n + 4) = fill n := by rw [fill, Nat.add_mod_right, fill]

theorem encodeChars_eq (b : Bytes) :
    encodeChars b = (sextets b).map digit ++ List.replicate (fill (sextets b).length) '=' := by
  induction b using encodeChars.induct with
  | case1 => rfl
  | case2 a => rfl
  | case3 a b => rfl
  | case4 a b c rest ih =>
    rw [encodeChars, sextets, ih]
    simp only [List.map_cons, List.cons_append, List.length_cons, fill_add_four]

theorem octets_sextets (b : Bytes) : octets (sextets b) = b := by
  induction b using encodeChars.induct with
  | case1 => rfl
  | case2 a =>
    have ha := a.toNat_lt
    rw [sextets, octets, ofNat_toNat (a := a) (by omega)]
  | case3 a b =>
    have ha := a.toNat_lt
    have hb := b.toNat_lt
    rw [sextets, octets, ofNat_toNat (a := a) (by omega), ofNat_toNat (a := b) (by omega)]
  | case4 a b c rest ih =>
    have ha := a.toNat_lt
    have hb := b.toNat_lt
    have hc := c.toNat_lt
    rw [sextets, octets, ih, ofNat_toNat (a := a) (by omega), ofNat_toNat (a := b) (by omega),
      ofNat_toNat (a := c) (by omega)]

theorem whole_sextets (b : Bytes) : Whole (sextets b) := by
  induction b using encodeChars.induct with
  | case1 => exact trivial
  | case2 a => exact Nat.mul_mod_left _ _
  | case3 a b => exact Nat.mul_mod_left _ _
  | case4 a b c rest ih => exact ih

theorem lt_of_mem_sextets {b : Bytes} {v : ℕ} (h : v ∈ sextets b) : v < 64 := by
  induction b using encodeChars.induct with
  | case1 => cases h
  | case2 a =>
    have ha := a.toNat_lt
    simp only [sextets, List.mem_cons, List.not_mem_nil, or_false] at h
    omega
  | case3 a b =>
    have ha := a.toNat_lt
    have hb := b.toNat_lt
    simp only [sextets, List.mem_cons, List.not_mem_nil, or_false] at h
    omega
  | case4 a b c rest ih =>
    have ha := a.toNat_lt
    have hb := b.toNat_lt
    have hc := c.toNat_lt
    simp only [sextets, List.mem_cons] at h
    rcases h with h | h | h | h | h
    · omega
    · omega
    · omega
    · omega
    · exact ih h

theorem toNat_ofNat_of_lt {n : ℕ} (h : n < 256) : (UInt8.ofNat n).toNat = n := UInt8.toNat_ofNat_of_lt' h

/-- **Whole digits** are those of the bytes that they amount to. -/
theorem sextets_octets {vs : List ℕ} (hlt : ∀ v ∈ vs, v < 64) (hwhole : Whole vs) : sextets (octets vs) = vs := by
  induction vs using octets.induct with
  | case1 i j k l rest ih =>
    simp only [List.mem_cons, forall_eq_or_imp] at hlt
    obtain ⟨hi, hj, hk, hl, hrest⟩ := hlt
    rw [octets, sextets, ih hrest hwhole, toNat_ofNat_of_lt (by omega), toNat_ofNat_of_lt (by omega),
      toNat_ofNat_of_lt (by omega)]
    simp only [List.cons.injEq, and_true]
    omega
  | case2 i j k =>
    simp only [List.mem_cons, List.not_mem_nil, or_false, forall_eq_or_imp, forall_eq] at hlt
    obtain ⟨hi, hj, hk⟩ := hlt
    rw [Whole] at hwhole
    rw [octets, sextets, toNat_ofNat_of_lt (by omega), toNat_ofNat_of_lt (by omega)]
    simp only [List.cons.injEq, and_true]
    omega
  | case3 i j =>
    simp only [List.mem_cons, List.not_mem_nil, or_false, forall_eq_or_imp, forall_eq] at hlt
    obtain ⟨hi, hj⟩ := hlt
    rw [Whole] at hwhole
    rw [octets, sextets, toNat_ofNat_of_lt (by omega)]
    simp only [List.cons.injEq, and_true]
    omega
  | case4 vs h4 h3 h2 =>
    match vs, h4, h3, h2 with
    | [], _, _, _ => rfl
    | [i], _, _, _ => exact absurd hwhole not_false
    | [i, j], _, _, h2 => exact absurd rfl (h2 i j)
    | [i, j, k], _, h3, _ => exact absurd rfl (h3 i j k)
    | i :: j :: k :: l :: rest, h4, _, _ => exact absurd rfl (h4 i j k l rest)

theorem eq_digit {c : Char} {n : ℕ} (h : digitValue c = some n) : n < 64 ∧ c = digit n := by
  have hc : Char.ofNat c.toNat = c := Char.ofNat_toNat c
  rw [digitValue] at h
  split_ifs at h with hupper hlower hfigure hplus hslash
  · obtain rfl := Option.some.inj h
    rw [digit, if_pos (by omega), show 65 + (c.toNat - 65) = c.toNat by omega]
    exact ⟨by omega, hc.symm⟩
  · obtain rfl := Option.some.inj h
    rw [digit, if_neg (by omega), if_pos (by omega), show 71 + (c.toNat - 71) = c.toNat by omega]
    exact ⟨by omega, hc.symm⟩
  · obtain rfl := Option.some.inj h
    rw [digit, if_neg (by omega), if_neg (by omega), if_pos (by omega), Nat.add_sub_cancel]
    exact ⟨by omega, hc.symm⟩
  · obtain rfl := Option.some.inj h
    exact ⟨by decide, hplus⟩
  · obtain rfl := Option.some.inj h
    exact ⟨by decide, hslash⟩

theorem map_digit_inj {vs ws : List ℕ} (hvs : ∀ v ∈ vs, v < 64) (hws : ∀ v ∈ ws, v < 64)
    (h : vs.map digit = ws.map digit) : vs = ws := by
  have hback {us : List ℕ} (hus : ∀ v ∈ us, v < 64) : (us.map digit).filterMap digitValue = us := by
    rw [List.filterMap_map]
    exact (List.filterMap_congr fun v hv => digitValue_digit (hus v hv)).trans List.filterMap_some
  rw [← hback hvs, h, hback hws]

theorem digits_inj {vs ws : List ℕ} {m n : ℕ} (hvs : ∀ v ∈ vs, v < 64) (hws : ∀ v ∈ ws, v < 64)
    (h : vs.map digit ++ List.replicate m '=' = ws.map digit ++ List.replicate n '=') : vs = ws ∧ m = n := by
  have hdigits {us : List ℕ} (hus : ∀ v ∈ us, v < 64) (k : ℕ) :
      (us.map digit ++ List.replicate k '=').filter (· ≠ '=') = us.map digit := by
    rw [List.filter_append, List.filter_replicate, if_neg (by decide), List.append_nil, List.filter_eq_self]
    intro c hc
    obtain ⟨v, hv, rfl⟩ := List.mem_map.mp hc
    exact decide_eq_true (digit_ne_pad (hus v hv))
  have heq : vs = ws := map_digit_inj hvs hws (by rw [← hdigits hvs m, h, hdigits hws n])
  rw [heq] at h
  exact ⟨heq, by simpa using List.append_cancel_left h⟩

/-! ## Lengths -/

theorem length_encodeChars (b : Bytes) : (encodeChars b).length = 4 * ((b.length + 2) / 3) := by
  induction b using encodeChars.induct with
  | case1 => rfl
  | case2 a =>
    simp [encodeChars]
  | case3 a b =>
    simp [encodeChars]
  | case4 a b c rest ih =>
    simp only [encodeChars, List.length_cons, ih]
    omega

theorem utf8Size_digit {n : ℕ} (h : n < 64) : (digit n).utf8Size = 1 := by
  have hall : ∀ n < 64, (digit n).utf8Size = 1 := by decide
  exact hall n h

theorem utf8Size_of_mem_encodeChars {b : Bytes} {d : Char} (h : d ∈ encodeChars b) : d.utf8Size = 1 := by
  induction b using encodeChars.induct with
  | case1 => cases h
  | case2 a =>
    have ha := a.toNat_lt
    rw [encodeChars] at h
    simp only [List.mem_cons, List.not_mem_nil, or_false] at h
    rcases h with rfl | rfl | rfl | rfl
    · exact utf8Size_digit (by omega)
    · exact utf8Size_digit (by omega)
    · rfl
    · rfl
  | case3 a b =>
    have ha := a.toNat_lt
    have hb := b.toNat_lt
    rw [encodeChars] at h
    simp only [List.mem_cons, List.not_mem_nil, or_false] at h
    rcases h with rfl | rfl | rfl | rfl
    · exact utf8Size_digit (by omega)
    · exact utf8Size_digit (by omega)
    · exact utf8Size_digit (by omega)
    · rfl
  | case4 a b c rest ih =>
    have ha := a.toNat_lt
    have hb := b.toNat_lt
    have hc := c.toNat_lt
    rw [encodeChars] at h
    simp only [List.mem_cons] at h
    rcases h with rfl | rfl | rfl | rfl | h
    · exact utf8Size_digit (by omega)
    · exact utf8Size_digit (by omega)
    · exact utf8Size_digit (by omega)
    · exact utf8Size_digit (by omega)
    · exact ih h

theorem length_of_decodeChars (cs : List Char) {b : Bytes} (h : decodeChars cs = some b) :
    4 * b.length ≤ 3 * cs.length := by
  match cs, h with
  | [], h =>
    rw [← Option.some.inj h]
    exact Nat.zero_le _
  | w :: x :: y :: z :: rest, h =>
    rw [decodeChars] at h
    simp only [Option.bind_eq_bind, Option.bind_eq_some_iff] at h
    obtain ⟨i, -, j, -, h⟩ := h
    by_cases hz : z = '='
    · rw [if_pos hz] at h
      by_cases hrest : rest = []
      · rw [if_neg (not_not_intro hrest)] at h
        have hlen : b.length ≤ 2 := by
          split_ifs at h
          · rw [← Option.some.inj h, List.length_singleton]
            decide
          · obtain ⟨k, -, h⟩ := Option.bind_eq_some_iff.mp h
            split_ifs at h
            rw [← Option.some.inj h]
            exact le_rfl
        simp only [List.length_cons]
        omega
      · rw [if_pos hrest] at h
        cases h
    · rw [if_neg hz] at h
      simp only [Option.bind_eq_some_iff] at h
      obtain ⟨k, -, l, -, bytes, hbytes, h⟩ := h
      have ih := length_of_decodeChars rest hbytes
      rw [← Option.some.inj h]
      simp only [List.length_cons]
      omega

example : encode [0x4e, 0x4d, 0x43, 0x50] = "Tk1DUA==" := by decide

end Lib.Base64
