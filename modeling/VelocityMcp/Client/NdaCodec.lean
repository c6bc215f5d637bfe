import VelocityMcp.Client.Error
import VelocityMcp.NdaNative.RoundTrip

/-!
# Client.NdaCodec — the client's TLV codec (`client/src/transport/nda_codec.rs`)

`encodeTlvValue_agree`: both encoders write the same bytes and stop at the same place.
-/

namespace VelocityMcp.Client

open Lib

/-! ## The encoder -/

mutual

/-- `encode_tlv_value`, as the bytes it appends to `buf`. -/
def encodeTlvValue : Value → Emit Error
  | .string s => .put (0x01 :: (beBytes 4 (utf8 s).length ++ utf8 s))
  | .number n => match n.asI64 with
    | some i => .put (0x02 :: beBytes 8 i.toUInt64.toNat)
    | none => match n.asF64 with
      | some f => .put (0x07 :: beBytes 8 f.toNat)
      | none => .put (0x02 :: beBytes 8 0)
  | .bool b => .put [0x03, if b then 1 else 0]
  | .null => .put [0x04]
  | .array arr => (Emit.put (0x05 :: beBytes 4 arr.length)).andThen (encodeTlvItems arr)
  | .object obj => (Emit.put (0x06 :: beBytes 4 obj.length)).andThen (encodeTlvFields obj)

def encodeTlvItems : List Value → Emit Error
  | [] => .put []
  | v :: vs => (encodeTlvValue v).andThen (encodeTlvItems vs)

def encodeTlvFields : List (String × Value) → Emit Error
  | [] => .put []
  | (k, v) :: fs =>
    if 65535 < (utf8 k).length then
      .fail (.ndaProtocol s!"TLV object key length {(utf8 k).length} exceeds u16 max")
    else (Emit.put (beBytes 2 (utf8 k).length ++ utf8 k)).andThen
      ((encodeTlvValue v).andThen (encodeTlvFields fs))

end

/-! ## The decoder -/

/-- `Err(Error::NdaProtocol(text))`. -/
def nda {α : Type} (text : String) : Outcome Error α := .err (.ndaProtocol text)

/-- `from_utf8(t)`, with the text that goes before the error's own. -/
def checkUtf8 (what : String) (t : Bytes) : Outcome Error String :=
  match fromUtf8 t with
  | some s => .ok s
  | none => nda s!"{what}: invalid UTF-8: {utf8ErrorText t}"

def decodeTlvString (bytes : Bytes) : Outcome Error (Value × ℕ) :=
  if bytes.length < 5 then nda "TLV string: truncated length"
  else do
    let len ← beAt bytes 1 4
    if bytes.length < 5 + len then nda "TLV string: truncated body"
    else do
      let t ← slice bytes 5 (5 + len)
      let s ← checkUtf8 "TLV string" t
      .ok (.string s, 5 + len)

def decodeTlvI64 (bytes : Bytes) : Outcome Error (Value × ℕ) :=
  if bytes.length < 9 then nda "TLV i64: truncated"
  else do
    let v ← beAt bytes 1 8
    .ok (.number (.ofI64 (UInt64.ofNat v).toInt64), 9)

def decodeTlvBool (bytes : Bytes) : Outcome Error (Value × ℕ) :=
  if bytes.length < 2 then nda "TLV bool: truncated"
  else do
    let b ← byteAt bytes 1
    .ok (.bool (b != 0), 2)

def decodeTlvF64 (bytes : Bytes) : Outcome Error (Value × ℕ) :=
  if bytes.length < 9 then nda "TLV f64: truncated"
  else do
    let v ← beAt bytes 1 8
    .ok (.ofF64 (UInt64.ofNat v), 9)

def decodeTlvItem (value : Bytes → Outcome Error (Value × ℕ)) (bytes : Bytes) (s : List Value × ℕ) :
    Outcome Error (List Value × ℕ) := do
  let rest ← sliceFrom bytes s.2
  let (v, n) ← value rest
  .ok (s.1 ++ [v], s.2 + n)

def decodeTlvArray (value : Bytes → Outcome Error (Value × ℕ)) (bytes : Bytes) :
    Outcome Error (Value × ℕ) :=
  if bytes.length < 5 then nda "TLV array: truncated count"
  else do
    let count ← beAt bytes 1 4
    let (arr, off) ← forCount (decodeTlvItem value bytes) count ([], 5)
    .ok (.array arr, off)

def decodeTlvEntry (value : Bytes → Outcome Error (Value × ℕ)) (bytes : Bytes)
    (s : List (String × Value) × ℕ) : Outcome Error (List (String × Value) × ℕ) :=
  if bytes.length < s.2 + 2 then nda "TLV object: truncated key length"
  else do
    let klen ← beAt bytes s.2 2
    if bytes.length < s.2 + 2 + klen then nda "TLV object: truncated key"
    else do
      let k ← slice bytes (s.2 + 2) (s.2 + 2 + klen)
      let key ← checkUtf8 "TLV object key" k
      let rest ← sliceFrom bytes (s.2 + 2 + klen)
      let (v, n) ← value rest
      .ok (insertKey key v s.1, s.2 + 2 + klen + n)

def decodeTlvObject (value : Bytes → Outcome Error (Value × ℕ)) (bytes : Bytes) :
    Outcome Error (Value × ℕ) :=
  if bytes.length < 5 then nda "TLV object: truncated count"
  else do
    let count ← beAt bytes 1 4
    let (obj, off) ← forCount (decodeTlvEntry value bytes) count ([], 5)
    .ok (.object obj, off)

/-- The `match` of `decode_tlv_value`. -/
def decodeTlvTag (value : Bytes → Outcome Error (Value × ℕ)) (bytes : Bytes) (tag : UInt8) :
    Outcome Error (Value × ℕ) :=
  if tag = 0x01 then decodeTlvString bytes
  else if tag = 0x02 then decodeTlvI64 bytes
  else if tag = 0x03 then decodeTlvBool bytes
  else if tag = 0x04 then .ok (.null, 1)
  else if tag = 0x05 then decodeTlvArray value bytes
  else if tag = 0x06 then decodeTlvObject value bytes
  else if tag = 0x07 then decodeTlvF64 bytes
  else nda s!"TLV: unknown tag 0x{NdaNative.hex02 tag}"

/-- `decode_tlv_value`, with a bound on the recursion. -/
def decodeTlvFuel : ℕ → Bytes → Outcome Error (Value × ℕ)
  | 0, _ => .panic
  | fuel + 1, bytes =>
    if bytes = [] then nda "TLV: empty value"
    else byteAt bytes 0 >>= decodeTlvTag (decodeTlvFuel fuel) bytes

/-- `decode_tlv_value`: every recursive call is on a shorter slice, so it makes at most `|bytes| + 1` of
them inside one another. -/
def decodeTlvValue (bytes : Bytes) : Outcome Error (Value × ℕ) := decodeTlvFuel (bytes.length + 1) bytes

/-! ## One encoder, written twice -/

/-- Two writers append the same bytes, and both stop with an error or neither does. -/
def Agree {ε ε' : Type} (x : Emit ε) (y : Emit ε') : Prop :=
  x.bytes = y.bytes ∧ (x.error = none ↔ y.error = none)

theorem Agree.andThen {ε ε' : Type} {x y : Emit ε} {x' y' : Emit ε'} (h : Agree x x') (h' : Agree y y') :
    Agree (x.andThen y) (x'.andThen y') := by
  obtain ⟨b, e⟩ := x
  obtain ⟨b', e'⟩ := x'
  obtain ⟨rfl, he⟩ := h
  obtain ⟨hb, he'⟩ := h'
  cases e with
  | none =>
    obtain rfl : e' = none := he.mp rfl
    exact ⟨by simp [Emit.andThen, hb], by simpa [Emit.andThen] using he'⟩
  | some e =>
    cases e' with
    | none => exact absurd (he.mpr rfl) (by simp)
    | some e' => exact ⟨rfl, by simp [Emit.andThen]⟩

theorem agree_put {ε ε' : Type} (b : Bytes) : Agree (Emit.put b : Emit ε) (Emit.put b : Emit ε') :=
  ⟨rfl, by simp [Emit.put]⟩

theorem Agree.toOutcome {ε ε' : Type} {x : Emit ε} {y : Emit ε'} (h : Agree x y) (b : Bytes) :
    x.toOutcome = .ok b ↔ y.toOutcome = .ok b := by
  obtain ⟨b₁, e⟩ := x
  obtain ⟨b₂, e'⟩ := y
  obtain ⟨rfl, he⟩ := h
  cases e <;> cases e' <;> simp_all [Emit.toOutcome]

theorem encodeTlvItems_agree {vs : List Value}
    (h : ∀ v ∈ vs, Agree (encodeTlvValue v) (NdaNative.encodeJsonValue v)) :
    Agree (encodeTlvItems vs) (NdaNative.encodeItems vs) := by
  induction vs with
  | nil => exact agree_put []
  | cons v vs ih =>
    rw [encodeTlvItems, NdaNative.encodeItems]
    exact (h v List.mem_cons_self).andThen (ih fun w hw => h w (List.mem_cons_of_mem _ hw))

theorem encodeTlvFields_agree {fs : List (String × Value)}
    (h : ∀ p ∈ fs, Agree (encodeTlvValue p.2) (NdaNative.encodeJsonValue p.2)) :
    Agree (encodeTlvFields fs) (NdaNative.encodeFields fs) := by
  induction fs with
  | nil => exact agree_put []
  | cons p fs ih =>
    obtain ⟨k, v⟩ := p
    rw [encodeTlvFields, NdaNative.encodeFields]
    split_ifs with hk
    · exact ⟨rfl, by simp [Emit.fail]⟩
    · exact (agree_put _).andThen ((h _ List.mem_cons_self).andThen
        (ih fun q hq => h q (List.mem_cons_of_mem _ hq)))

/-- **Both encoders write the same bytes**, and both stop or neither does. -/
theorem encodeTlvValue_agree (v : Value) : Agree (encodeTlvValue v) (NdaNative.encodeJsonValue v) := by
  induction v with
  | null => exact agree_put _
  | bool b => exact agree_put _
  | number n =>
    rw [encodeTlvValue, NdaNative.encodeJsonValue]
    cases n.asI64 with
    | some i => exact agree_put _
    | none => cases n.asF64 <;> exact agree_put _
  | string s => exact agree_put _
  | array items ih =>
    rw [encodeTlvValue, NdaNative.encodeJsonValue]
    exact (agree_put _).andThen (encodeTlvItems_agree ih)
  | object fields ih =>
    rw [encodeTlvValue, NdaNative.encodeJsonValue]
    exact (agree_put _).andThen (encodeTlvFields_agree ih)

/-! ## The decoder on the encoding of a tree -/

section Complete

variable {b : Bytes} {fuel n off : ℕ}

theorem decodeTlvFuel_of_at {x : UInt8} (h : At b 0 [x]) :
    decodeTlvFuel (fuel + 1) b = decodeTlvTag (decodeTlvFuel fuel) b x := by
  have hb : b ≠ [] := by
    rintro rfl
    exact absurd h.length_le (by simp)
  rw [decodeTlvFuel, if_neg hb, h.byteAt, Outcome.ok_bind]

def badUtf8 : BadUtf8 → Error
  | .string t => .ndaProtocol s!"TLV string: invalid UTF-8: {utf8ErrorText t}"
  | .key t => .ndaProtocol s!"TLV object key: invalid UTF-8: {utf8ErrorText t}"

def ofWire {α : Type} (x : Except BadUtf8 α) : Outcome Error α := (Outcome.ofExcept x).mapErr badUtf8

@[simp] theorem ofWire_ok {α : Type} (a : α) : ofWire (.ok a) = .ok a := rfl

@[simp] theorem ofWire_error {α : Type} (e : BadUtf8) : ofWire (.error e : Except _ α) = .err (badUtf8 e) := rfl

theorem decodeTlvItem_eq (value : Bytes → Outcome Error (Value × ℕ)) :
    decodeTlvItem value = NdaNative.itemStep value := rfl

theorem decodeTlvEntry_eq (value : Bytes → Outcome Error (Value × ℕ)) :
    decodeTlvEntry value = NdaNative.entryStep (.ndaProtocol "TLV object: truncated key length")
      (.ndaProtocol "TLV object: truncated key") badUtf8 value := rfl

/-- **The client's decoder on an encoding**: the value of the tree, or its first bad string. -/
theorem decodeTlvFuel_of_fits {t : Tlv} (h : t.Fits) : ∀ {fuel : ℕ} {b : Bytes}, b.length < fuel →
    At b 0 t.bytes → decodeTlvFuel fuel b = ofWire t.value >>= fun v => .ok (v, t.bytes.length) := by
  induction h with
  | @string t len =>
    rintro (_ | fuel) b hfuel hb
    · exact absurd hfuel (by omega)
    obtain ⟨htag, hb⟩ := at_cons_iff.mp hb
    obtain ⟨hlen, ht⟩ := at_append_iff.mp hb
    rw [length_beBytes] at ht
    have hle : 5 + t.length ≤ b.length := ht.length_le
    rw [decodeTlvFuel_of_at htag, decodeTlvTag, if_pos rfl, decodeTlvString, if_neg (by omega),
      hlen.beAt len, Outcome.ok_bind, if_neg (by omega), ht.slice rfl, Outcome.ok_bind, checkUtf8, Tlv.value,
      Tlv.length_bytes_string]
    cases fromUtf8 t <;> rfl
  | int i =>
    rintro (_ | fuel) b hfuel hb
    · exact absurd hfuel (by omega)
    obtain ⟨htag, hb⟩ := at_cons_iff.mp hb
    have hle := hb.length_le
    rw [length_beBytes] at hle
    rw [decodeTlvFuel_of_at htag]
    show decodeTlvI64 b = _
    rw [decodeTlvI64, if_neg (by omega), hb.beAt (by exact i.toUInt64.toNat_lt), Outcome.ok_bind]
    simp [Tlv.value, Tlv.bytes]
  | bool x =>
    rintro (_ | fuel) b hfuel hb
    · exact absurd hfuel (by omega)
    have hle := hb.length_le
    obtain ⟨htag, hx⟩ := at_cons_iff.mp hb
    rw [decodeTlvFuel_of_at htag]
    simp only [Tlv.bytes, List.length_cons, List.length_nil] at hle
    show decodeTlvBool b = _
    rw [decodeTlvBool, if_neg (by omega), hx.byteAt, Outcome.ok_bind]
    rfl
  | null =>
    rintro (_ | fuel) b hfuel hb
    · exact absurd hfuel (by omega)
    rw [decodeTlvFuel_of_at hb]
    rfl
  | @array items count _ ih =>
    rintro (_ | fuel) b hfuel hb
    · exact absurd hfuel (by omega)
    obtain ⟨htag, hb⟩ := at_cons_iff.mp hb
    obtain ⟨hlen, hitems⟩ := at_append_iff.mp hb
    rw [length_beBytes] at hitems
    have hle := hitems.length_le
    rw [decodeTlvFuel_of_at htag]
    show decodeTlvArray _ b = _
    rw [decodeTlvArray, if_neg (by omega), hlen.beAt count, Outcome.ok_bind, decodeTlvItem_eq,
      NdaNative.items_of_at (by decide) (fun t ht b' hb' hat => ih t ht (by omega) hat) hitems, Tlv.value,
      Tlv.length_bytes_array]
    cases Tlv.itemsValue items <;> rfl
  | @object entries count key _ ih =>
    rintro (_ | fuel) b hfuel hb
    · exact absurd hfuel (by omega)
    obtain ⟨htag, hb⟩ := at_cons_iff.mp hb
    obtain ⟨hlen, hentries⟩ := at_append_iff.mp hb
    rw [length_beBytes] at hentries
    have hle := hentries.length_le
    rw [decodeTlvFuel_of_at htag]
    show decodeTlvObject _ b = _
    rw [decodeTlvObject, if_neg (by omega), hlen.beAt count, Outcome.ok_bind, decodeTlvEntry_eq,
      NdaNative.entries_of_at key (fun e he b' hb' hat => ih e he (by omega) hat) hentries, Tlv.value,
      Tlv.length_bytes_object]
    cases Tlv.entriesValue entries <;> rfl
  | float bits =>
    rintro (_ | fuel) b hfuel hb
    · exact absurd hfuel (by omega)
    obtain ⟨htag, hb⟩ := at_cons_iff.mp hb
    have hle := hb.length_le
    rw [length_beBytes] at hle
    rw [decodeTlvFuel_of_at htag]
    show decodeTlvF64 b = _
    rw [decodeTlvF64, if_neg (by omega), hb.beAt (by exact bits.toNat_lt), Outcome.ok_bind]
    simp [Tlv.value, Tlv.bytes]

/-- **The client reads the encodings of the wire trees** whose lengths fit their fields. -/
theorem decodeTlvValue_of_at {t : Tlv} (h : t.Fits) (hb : At b 0 t.bytes) :
    decodeTlvValue b = ofWire t.value >>= fun v => .ok (v, t.bytes.length) :=
  decodeTlvFuel_of_fits h (Nat.lt_succ_self _) hb

end Complete

/-! ## What the decoder accepts -/

section Sound

variable {b : Bytes} {fuel n off off' : ℕ} {v : Value} {P : Tlv → Prop}

theorem fromUtf8_of_checkUtf8 {what s : String} {t : Bytes} (h : checkUtf8 what t = .ok s) :
    fromUtf8 t = some s := by
  rw [checkUtf8] at h
  split at h
  · next hs => rw [hs, Outcome.ok.inj h]
  · exact absurd h (by simp [nda])

/-- **What the client's decoder accepts** is the encoding of a tree whose lengths fit, and the answer its
value. -/
theorem decodeTlvFuel_sound : ∀ {fuel : ℕ} {b : Bytes} {v : Value} {n : ℕ},
    decodeTlvFuel fuel b = .ok (v, n) →
      ∃ t : Tlv, t.Fits ∧ At b 0 t.bytes ∧ n = t.bytes.length ∧ t.value = .ok v := by
  intro fuel
  induction fuel with
  | zero => intro b v n h; exact absurd h (by simp [decodeTlvFuel])
  | succ fuel ih =>
    intro b v n h
    rw [decodeTlvFuel] at h
    split_ifs at h with hb
    · exact absurd h (by simp [nda])
    obtain ⟨x, hx, h⟩ := Outcome.bind_eq_ok.mp h
    have hat := at_of_byteAt hx
    rw [decodeTlvTag] at h
    split_ifs at h with h₁ h₂ h₃ h₄ h₅ h₆ h₇
    · -- a text
      subst h₁
      rw [decodeTlvString] at h
      split_ifs at h with hlen
      · exact absurd h (by simp [nda])
      obtain ⟨len, hlen', h⟩ := Outcome.bind_eq_ok.mp h
      split_ifs at h with hbody
      · exact absurd h (by simp [nda])
      obtain ⟨t, ht, h⟩ := Outcome.bind_eq_ok.mp h
      obtain ⟨s, hs, h⟩ := Outcome.bind_eq_ok.mp h
      obtain ⟨hatt, hl⟩ := at_of_slice ht
      obtain ⟨hatlen, hlt⟩ := at_of_beAt hlen'
      obtain rfl : len = t.length := by omega
      obtain ⟨rfl, rfl⟩ := Outcome.ok_pair_inj h
      refine ⟨.string t, .string hlt, at_cons_iff.mpr ⟨hat, at_append_iff.mpr ⟨hatlen, ?_⟩⟩, ?_, ?_⟩
      · rwa [length_beBytes]
      · rw [Tlv.length_bytes_string]
      · rw [Tlv.value, fromUtf8_of_checkUtf8 hs]
    · -- an integer
      subst h₂
      rw [decodeTlvI64] at h
      split_ifs at h with hlen
      · exact absurd h (by simp [nda])
      obtain ⟨i, hi, h⟩ := Outcome.bind_eq_ok.mp h
      obtain ⟨hati, hlt⟩ := at_of_beAt hi
      obtain ⟨rfl, rfl⟩ := Outcome.ok_pair_inj h
      have hint := NdaNative.at_intBytes (length_beBytes 8 i) hat hati
      rw [beNat_beBytes, Nat.mod_eq_of_lt hlt] at hint
      exact ⟨.int (UInt64.ofNat i).toInt64, .int _, by simpa [Tlv.bytes] using hint, by simp [Tlv.bytes], rfl⟩
    · subst h₃
      rw [decodeTlvBool] at h
      split_ifs at h with hlen
      · exact absurd h (by simp [nda])
      obtain ⟨y, hy, h⟩ := Outcome.bind_eq_ok.mp h
      obtain ⟨rfl, rfl⟩ := Outcome.ok_pair_inj h
      exact ⟨.bool y, .bool y, at_cons_iff.mpr ⟨hat, at_of_byteAt hy⟩, rfl, rfl⟩
    · subst h₄
      obtain ⟨rfl, rfl⟩ := Outcome.ok_pair_inj h
      exact ⟨.null, .null, hat, rfl, rfl⟩
    · -- an array: the items by the induction hypothesis
      subst h₅
      rw [decodeTlvArray] at h
      split_ifs at h with hlen
      · exact absurd h (by simp [nda])
      obtain ⟨count, hcount, h⟩ := Outcome.bind_eq_ok.mp h
      obtain ⟨hatlen, hlt⟩ := at_of_beAt hcount
      obtain ⟨⟨items, off⟩, hitems, h⟩ := Outcome.bind_eq_ok.mp h
      obtain ⟨rfl, rfl⟩ := Outcome.ok_pair_inj h
      obtain ⟨ts, rfl, hts, hats, rfl, vs, hvs, rfl⟩ :=
        NdaNative.items_sound (fun b v n => ih) (by omega) hitems
      refine ⟨.array ts, .array hlt hts, at_cons_iff.mpr ⟨hat, at_append_iff.mpr ⟨hatlen, ?_⟩⟩, ?_, ?_⟩
      · rwa [length_beBytes]
      · rw [Tlv.length_bytes_array]
      · rw [Tlv.value, hvs, Except.map]
    · -- an object: the same for its entries
      subst h₆
      rw [decodeTlvObject] at h
      split_ifs at h with hlen
      · exact absurd h (by simp [nda])
      obtain ⟨count, hcount, h⟩ := Outcome.bind_eq_ok.mp h
      obtain ⟨hatlen, hlt⟩ := at_of_beAt hcount
      obtain ⟨⟨obj, off⟩, hobj, h⟩ := Outcome.bind_eq_ok.mp h
      obtain ⟨rfl, rfl⟩ := Outcome.ok_pair_inj h
      rw [decodeTlvEntry_eq] at hobj
      obtain ⟨es, rfl, hes, hates, rfl, ps, hps, rfl⟩ :=
        NdaNative.entries_sound (fun b v n => ih) (by omega) hobj
      refine ⟨.object es, .object hlt (fun e he => (hes e he).1) (fun e he => (hes e he).2),
        at_cons_iff.mpr ⟨hat, at_append_iff.mpr ⟨hatlen, ?_⟩⟩, ?_, ?_⟩
      · rwa [length_beBytes]
      · rw [Tlv.length_bytes_object]
      · rw [Tlv.value, hps, Except.map]
    · subst h₇
      rw [decodeTlvF64] at h
      split_ifs at h with hlen
      · exact absurd h (by simp [nda])
      obtain ⟨f, hf, h⟩ := Outcome.bind_eq_ok.mp h
      obtain ⟨hatf, hlt⟩ := at_of_beAt hf
      obtain ⟨rfl, rfl⟩ := Outcome.ok_pair_inj h
      have hint := NdaNative.at_intBytes (length_beBytes 8 f) hat hatf
      rw [beNat_beBytes, Nat.mod_eq_of_lt hlt] at hint
      exact ⟨.float (UInt64.ofNat f), .float _, hint, by simp [Tlv.bytes], rfl⟩
    · exact absurd h (by simp [nda])

theorem decodeTlvFuel_le (h : decodeTlvFuel fuel b = .ok (v, n)) : n ≤ b.length := by
  obtain ⟨t, -, hat, rfl, -⟩ := decodeTlvFuel_sound h
  have hle := hat.length_le
  omega

end Sound

/-! ## The bound on the recursion is enough, and no index leaves the buffer -/

section NoPanic

variable {b : Bytes} {fuel n : ℕ} {v : Value}

theorem checkUtf8_ne_panic (what : String) (t : Bytes) : checkUtf8 what t ≠ .panic := by
  rw [checkUtf8]
  split <;> simp [nda]

/-- **The client's decoder never panics**, and its recursion is no deeper than the buffer is long. -/
theorem decodeTlvFuel_ne_panic : ∀ {fuel : ℕ} {b : Bytes}, b.length < fuel → decodeTlvFuel fuel b ≠ .panic := by
  intro fuel
  induction fuel with
  | zero => intro b h; exact absurd h (by omega)
  | succ fuel ih =>
    intro b hfuel
    have hrec : ∀ b' : Bytes, b'.length < b.length → decodeTlvFuel fuel b' ≠ .panic :=
      fun b' hb' => ih (by omega)
    rw [decodeTlvFuel]
    split_ifs with hb
    · simp [nda]
    have hpos : 0 < b.length := List.length_pos_iff.mpr hb
    refine Outcome.bind_ne_panic (byteAt_ne_panic hpos) fun x _ => ?_
    rw [decodeTlvTag]
    split_ifs
    · rw [decodeTlvString]
      split_ifs with h₁
      · simp [nda]
      refine Outcome.bind_ne_panic (beAt_ne_panic (by omega)) fun len _ => ?_
      split_ifs with h₂
      · simp [nda]
      exact Outcome.bind_ne_panic (slice_ne_panic (by omega) (by omega)) fun t _ =>
        Outcome.bind_ne_panic (checkUtf8_ne_panic _ t) fun _ _ => by simp
    · rw [decodeTlvI64]
      split_ifs with h₁
      · simp [nda]
      exact Outcome.bind_ne_panic (beAt_ne_panic (by omega)) fun _ _ => by simp
    · rw [decodeTlvBool]
      split_ifs with h₁
      · simp [nda]
      exact Outcome.bind_ne_panic (byteAt_ne_panic (by omega)) fun _ _ => by simp
    · simp
    · rw [decodeTlvArray]
      split_ifs with h₁
      · simp [nda]
      refine Outcome.bind_ne_panic (beAt_ne_panic (by omega)) fun count _ => ?_
      refine Outcome.bind_ne_panic ?_ fun _ _ => by simp
      exact NdaNative.forCount_itemStep_ne_panic (fun _ _ _ => decodeTlvFuel_le) hrec count (by omega)
    · rw [decodeTlvObject]
      split_ifs with h₁
      · simp [nda]
      refine Outcome.bind_ne_panic (beAt_ne_panic (by omega)) fun count _ => ?_
      refine Outcome.bind_ne_panic ?_ fun _ _ => by simp
      rw [decodeTlvEntry_eq]
      exact NdaNative.forCount_entryStep_ne_panic (fun _ _ _ => decodeTlvFuel_le) hrec count (by omega)
    · rw [decodeTlvF64]
      split_ifs with h₁
      · simp [nda]
      exact Outcome.bind_ne_panic (beAt_ne_panic (by omega)) fun _ _ => by simp
    · simp [nda]

/-- **The client's decoder never panics**, on any bytes. -/
theorem decodeTlvValue_ne_panic (b : Bytes) : decodeTlvValue b ≠ .panic :=
  decodeTlvFuel_ne_panic (Nat.lt_succ_self _)

end NoPanic

/-! ## Client and server -/

theorem decodeTlvValue_encodeJsonValue {v : Value} (hv : v.WF) (hfits : (Tlv.ofValue v).Fits) {b : Bytes}
    (hb : NdaNative.encodeJsonValue v = .put b) (rest : Bytes) :
    decodeTlvValue (b ++ rest) = .ok (Tlv.onWire v, b.length) := by
  obtain ⟨-, rfl⟩ := NdaNative.encodeJsonValue_eq_put.mp hb
  rw [decodeTlvValue_of_at hfits (at_zero _ rest), Tlv.value_ofValue hv, ofWire_ok, Outcome.ok_bind]

/-- **Client and server speak one format.**  Their encoders write the same bytes and fail together; what the
server's decoder reads, the client's reads as the same value; and the client reads every value the server
writes whose lengths fit their fields. -/
theorem codecs_agree :
    (∀ v, Agree (encodeTlvValue v) (NdaNative.encodeJsonValue v)) ∧
      (∀ b v n, NdaNative.decodeJsonValue b = .ok (v, n) → decodeTlvValue b = .ok (v, n)) ∧
      ∀ v b rest, v.WF → (Tlv.ofValue v).Fits → NdaNative.encodeJsonValue v = .put b →
        decodeTlvValue (b ++ rest) = .ok (Tlv.onWire v, b.length) := by
  refine ⟨encodeTlvValue_agree, fun b v n h => ?_,
    fun v b rest hv hfits hb => decodeTlvValue_encodeJsonValue hv hfits hb rest⟩
  obtain ⟨t, ht, hat, rfl, hv⟩ := NdaNative.decode_sound h
  rw [decodeTlvValue_of_at ht.fits hat, hv, ofWire_ok, Outcome.ok_bind]

end VelocityMcp.Client
