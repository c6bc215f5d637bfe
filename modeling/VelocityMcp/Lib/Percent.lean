import VelocityMcp.Lib.Lines

/-!
# Lib.Percent — percent-encoding, and the query of a URL

`encode keep`: the bytes that are not kept are written as a percent sign and two hexadecimal digits.
-/

namespace Lib.Percent

def hexChar (n : ℕ) : Char := Char.ofNat (if n < 10 then 0x30 + n else 0x37 + n)

/-- The value of a hexadecimal digit, of either case. -/
def hexValue (c : Char) : Option ℕ :=
  if '0' ≤ c ∧ c ≤ '9' then some (c.toNat - 0x30)
  else if 'A' ≤ c ∧ c ≤ 'F' then some (c.toNat - 0x37)
  else if 'a' ≤ c ∧ c ≤ 'f' then some (c.toNat - 0x57)
  else none

def encodeByte (keep : UInt8 → Bool) (b : UInt8) : List Char :=
  if keep b then [Char.ofNat b.toNat] else ['%', hexChar (b.toNat / 16), hexChar (b.toNat % 16)]

/-- The text of some bytes. -/
def encode (keep : UInt8 → Bool) (bytes : Bytes) : List Char := bytes.flatMap (encodeByte keep)

/-- The bytes of a text: those of its characters, but for a percent sign before two digits. -/
def decode : List Char → Bytes
  | '%' :: a :: b :: cs =>
    match hexValue a, hexValue b with
    | some x, some y => UInt8.ofNat (16 * x + y) :: decode cs
    | _, _ => 0x25 :: decode (a :: b :: cs)
  | c :: cs => String.utf8EncodeChar c ++ decode cs
  | [] => []

/-- The bytes that are kept are ASCII, and the percent sign is not among them. -/
def Sound (keep : UInt8 → Bool) : Prop := ∀ b, keep b = true → b.toNat < 0x80 ∧ b ≠ 0x25

section Coding

variable {keep : UInt8 → Bool} {c : Char} {cs : List Char}

theorem hexValue_hexChar {n : ℕ} (h : n < 16) : hexValue (hexChar n) = some n := by
  have hall : ∀ n < 16, hexValue (hexChar n) = some n := by decide
  exact hall n h

theorem decode_cons_of_ne (h : c ≠ '%') (cs : List Char) : decode (c :: cs) = String.utf8EncodeChar c ++ decode cs := by
  rw [decode]
  rintro a b cs' rfl
  exact absurd rfl h

theorem decode_encodeByte (hkeep : Sound keep) (b : UInt8) (cs : List Char) :
    decode (encodeByte keep b ++ cs) = b :: decode cs := by
  rw [encodeByte]
  by_cases hb : keep b = true
  · obtain ⟨hascii, hpercent⟩ := hkeep b hb
    have hne : Char.ofNat b.toNat ≠ '%' := by
      intro heq
      have hchar : String.utf8EncodeChar (Char.ofNat b.toNat) = String.utf8EncodeChar '%' := by rw [heq]
      rw [utf8EncodeChar_ascii hascii, UInt8.ofNat_toNat] at hchar
      exact hpercent (List.cons.inj hchar).1
    rw [if_pos hb, List.singleton_append, decode_cons_of_ne hne, utf8EncodeChar_ascii hascii, UInt8.ofNat_toNat]
    rfl
  · have hlt := b.toNat_lt
    rw [if_neg hb, List.cons_append, List.cons_append, List.cons_append, List.nil_append, decode,
      hexValue_hexChar (by omega), hexValue_hexChar (by omega)]
    dsimp only
    rw [Nat.div_add_mod, UInt8.ofNat_toNat]

/-- **A reader gets the bytes back.** -/
theorem decode_encode (hkeep : Sound keep) (bytes : Bytes) : decode (encode keep bytes) = bytes := by
  induction bytes with
  | nil => rfl
  | cons b bytes ih => rw [encode, List.flatMap_cons, decode_encodeByte hkeep, ← encode, ih]

theorem decode_of_notMem (h : '%' ∉ cs) : decode cs = Lib.encode cs := by
  induction cs with
  | nil => rfl
  | cons c cs ih =>
    rw [List.mem_cons, not_or] at h
    rw [decode_cons_of_ne (Ne.symm h.1), ih h.2, encode_cons]

theorem hexChar_ne {n : ℕ} (h : n < 16) (hc : hexValue c = none) : hexChar n ≠ c := by
  rintro rfl
  rw [hexValue_hexChar h] at hc
  cases hc

theorem notMem_encode (hpercent : c ≠ '%') (hhex : hexValue c = none)
    (hc : ∀ b, keep b = true → Char.ofNat b.toNat ≠ c) (bytes : Bytes) : c ∉ encode keep bytes := by
  intro hmem
  obtain ⟨b, -, hb⟩ := List.mem_flatMap.mp hmem
  have hlt := b.toNat_lt
  rw [encodeByte] at hb
  split_ifs at hb with hkept
  · exact hc b hkept (List.mem_singleton.mp hb).symm
  · rcases List.mem_cons.mp hb with h | hb
    · exact hpercent h
    · rcases List.mem_cons.mp hb with h | hb
      · exact hexChar_ne (by omega) hhex h.symm
      · exact hexChar_ne (by omega) hhex (List.mem_singleton.mp hb).symm

end Coding

/-! ## Queries -/

def paramText (keep : UInt8 → Bool) (param : List Char × Bytes) : List Char :=
  param.1 ++ '=' :: encode keep param.2

/-- Parameters in a query. -/
def queryText (keep : UInt8 → Bool) (params : List (List Char × Bytes)) : List Char :=
  ['&'].intercalate (params.map (paramText keep))

/-- A query, split at `&` and at `=`, and decoded. -/
def fields (query : List Char) : List (List Bytes) :=
  (query.splitOn '&').map fun part => (part.splitOn '=').map decode

/-- The query of a URL: what is between the first question mark and a number sign. -/
def query (url : List Char) : List Char := ((url.dropWhile (· ≠ '?')).drop 1).takeWhile (· ≠ '#')

section Queries

variable {keep : UInt8 → Bool} {params : List (List Char × Bytes)}

def Separates (keep : UInt8 → Bool) : Prop := ∀ b, keep b = true → Char.ofNat b.toNat ∉ ['&', '=', '#', '?']

def PlainName (name : List Char) : Prop := '%' ∉ name ∧ '&' ∉ name ∧ '=' ∉ name ∧ '#' ∉ name

theorem separator_notMem (hkeep : Separates keep) {c : Char} (hc : c ∈ ['&', '=', '#', '?']) (bytes : Bytes) :
    c ∉ encode keep bytes := by
  have hhex : c ≠ '%' ∧ hexValue c = none := by
    simp only [List.mem_cons, List.not_mem_nil, or_false] at hc
    rcases hc with rfl | rfl | rfl | rfl <;> decide
  refine notMem_encode hhex.1 hhex.2 (fun b hb heq => hkeep b hb ?_) bytes
  rwa [heq]

/-- **Splitting a query gives exactly its parameters.** -/
theorem fields_queryText (hkeep : Sound keep) (hsep : Separates keep) (hne : params ≠ [])
    (hnames : ∀ p ∈ params, PlainName p.1) :
    fields (queryText keep params) = params.map fun p => [Lib.encode p.1, p.2] := by
  have hamp : ∀ part ∈ params.map (paramText keep), '&' ∉ part := by
    intro part hpart
    obtain ⟨p, hp, rfl⟩ := List.mem_map.mp hpart
    rw [paramText, List.mem_append, List.mem_cons, not_or, not_or]
    exact ⟨(hnames p hp).2.1, by decide, separator_notMem hsep (by decide) p.2⟩
  have hnonempty : params.map (paramText keep) ≠ [] := by simpa using hne
  rw [fields, queryText, List.splitOn_intercalate '&' hamp hnonempty, List.map_map]
  apply List.map_congr_left
  intro p hp
  have hequals : '=' ∉ encode keep p.2 := separator_notMem hsep (by decide) p.2
  rw [Function.comp_apply, paramText, List.splitOn_append_cons_self, List.splitOn_eq_singleton (hnames p hp).2.2.1,
    List.splitOn_eq_singleton hequals, List.singleton_append, List.map_cons, List.map_singleton,
    decode_of_notMem (hnames p hp).1, decode_encode hkeep]

theorem notMem_intercalate {x : Char} {sep : List Char} {ls : List (List Char)} (hsep : x ∉ sep)
    (hls : ∀ l ∈ ls, x ∉ l) : x ∉ sep.intercalate ls := by
  induction ls with
  | nil => exact List.not_mem_nil
  | cons l ls ih =>
    have hrest := ih fun l' h => hls l' (List.mem_cons_of_mem l h)
    by_cases hnil : ls = []
    · rw [hnil, List.intercalate_singleton]
      exact hls l List.mem_cons_self
    · rw [List.intercalate_cons_of_ne_nil hnil, List.mem_append, List.mem_append, not_or, not_or]
      exact ⟨⟨hls l List.mem_cons_self, hsep⟩, hrest⟩

theorem numberSign_notMem_queryText (hsep : Separates keep) (hnames : ∀ p ∈ params, PlainName p.1) :
    '#' ∉ queryText keep params := by
  apply notMem_intercalate (by decide)
  intro part hpart
  obtain ⟨p, hp, rfl⟩ := List.mem_map.mp hpart
  rw [paramText, List.mem_append, List.mem_cons, not_or, not_or]
  exact ⟨(hnames p hp).2.2.2, by decide, separator_notMem hsep (by decide) p.2⟩

theorem query_append {base text : List Char} (hbase : '?' ∉ base) (htext : '#' ∉ text) :
    query (base ++ '?' :: text) = text := by
  have hkept : ∀ c ∈ base, decide (c ≠ '?') = true := by
    intro c hc
    exact decide_eq_true fun heq => hbase (heq ▸ hc)
  rw [query, List.dropWhile_append_of_pos hkept, List.dropWhile_cons_of_neg (by simp), List.drop_one, List.tail_cons,
    List.takeWhile_eq_self_iff]
  intro c hc
  exact decide_eq_true fun heq => htext (heq ▸ hc)

end Queries

end Lib.Percent
