import VelocityMcp.Lib.Loop
import VelocityMcp.Wire

/-!
# NdaNative.Tlv — the server's TLV codec (`nda_native.rs`)

The encoder writes `Tlv.ofValue`, the wire tree of the value.
-/

namespace VelocityMcp.NdaNative

open Lib

/-! ## The encoder -/

mutual

/-- `encode_json_value`, as the bytes it appends to `buf`. -/
def encodeJsonValue : Value → Emit String
  | .string s => .put (0x01 :: (beBytes 4 (utf8 s).length ++ utf8 s))
  | .number n => match n.asI64 with
    | some i => .put (0x02 :: beBytes 8 i.toUInt64.toNat)
    | none => match n.asF64 with
      | some f => .put (0x07 :: beBytes 8 f.toNat)
      | none => .put (0x02 :: beBytes 8 0)
  | .bool b => .put [0x03, if b then 1 else 0]
  | .null => .put [0x04]
  | .array items => (Emit.put (0x05 :: beBytes 4 items.length)).andThen (encodeItems items)
  | .object fields => (Emit.put (0x06 :: beBytes 4 fields.length)).andThen (encodeFields fields)

def encodeItems : List Value → Emit String
  | [] => .put []
  | v :: vs => (encodeJsonValue v).andThen (encodeItems vs)

def encodeFields : List (String × Value) → Emit String
  | [] => .put []
  | (k, v) :: fs =>
    if 65535 < (utf8 k).length then .fail "JSON key exceeds maximum length of 65535 bytes"
    else (Emit.put (beBytes 2 (utf8 k).length ++ utf8 k)).andThen
      ((encodeJsonValue v).andThen (encodeFields fs))

end

/-! ## The decoder -/

/-- The errors of `decode_json_value`. -/
inductive DecodeError where
  | depth
  | unexpectedEnd
  | stringLength
  | stringTooLong (len : ℕ)
  | stringData
  | utf8 (t : Bytes)
  | integerData
  | floatData
  | boolData
  | arrayCount
  | arrayTooLong (count : ℕ)
  | objectCount
  | objectTooLong (count : ℕ)
  | keyLength
  | keyData
  | unknownTag (tag : UInt8)
deriving DecidableEq, Repr

/-- `{:02x}`. -/
def hex02 (x : UInt8) : String :=
  String.ofList [Nat.digitChar (x.toNat / 16), Nat.digitChar (x.toNat % 16)]

def DecodeError.text : DecodeError → String
  | depth => s!"TLV nesting depth exceeds maximum {tlvMaxDepth}"
  | unexpectedEnd => "Unexpected end of TLV buffer"
  | stringLength => "TLV string: missing length"
  | stringTooLong len => s!"TLV string length {len} exceeds maximum {tlvMaxStringLen}"
  | stringData => "TLV string: truncated data"
  | utf8 t => utf8ErrorText t
  | integerData => "TLV integer: missing data"
  | floatData => "TLV float: missing data"
  | boolData => "TLV bool: missing data"
  | arrayCount => "TLV array: missing count"
  | arrayTooLong count => s!"TLV array count {count} exceeds maximum {tlvMaxElements}"
  | objectCount => "TLV object: missing count"
  | objectTooLong count => s!"TLV object count {count} exceeds maximum {tlvMaxElements}"
  | keyLength => "TLV object: missing key length"
  | keyData => "TLV object: truncated key"
  | unknownTag tag => s!"Unknown TLV type tag: 0x{hex02 tag}"

/-- `std::str::from_utf8(t)?.to_string()`. -/
def decodeUtf8 (t : Bytes) : Outcome DecodeError String :=
  match fromUtf8 t with
  | some s => .ok s
  | none => .err (.utf8 t)

def decodeString (buf : Bytes) : Outcome DecodeError (Value × ℕ) :=
  if buf.length < 5 then .err .stringLength
  else do
    let len ← beAt buf 1 4
    if tlvMaxStringLen < len then .err (.stringTooLong len)
    else if buf.length < 5 + len then .err .stringData
    else do
      let t ← slice buf 5 (5 + len)
      let s ← decodeUtf8 t
      .ok (.string s, 5 + len)

def decodeInteger (buf : Bytes) : Outcome DecodeError (Value × ℕ) :=
  if buf.length < 9 then .err .integerData
  else do
    let i ← beAt buf 1 8
    .ok (.number (.ofI64 (UInt64.ofNat i).toInt64), 9)

def decodeFloat (buf : Bytes) : Outcome DecodeError (Value × ℕ) :=
  if buf.length < 9 then .err .floatData
  else do
    let f ← beAt buf 1 8
    .ok (.ofF64 (UInt64.ofNat f), 9)

def decodeBool (buf : Bytes) : Outcome DecodeError (Value × ℕ) :=
  if buf.length < 2 then .err .boolData
  else do
    let b ← byteAt buf 1
    .ok (.bool (b != 0), 2)

/-- The loop body of an array: the items so far, and the offset. -/
def decodeItem (value : Bytes → Outcome DecodeError (Value × ℕ)) (buf : Bytes)
    (s : List Value × ℕ) : Outcome DecodeError (List Value × ℕ) := do
  let rest ← sliceFrom buf s.2
  let (val, consumed) ← value rest
  .ok (s.1 ++ [val], s.2 + consumed)

def decodeArray (value : Bytes → Outcome DecodeError (Value × ℕ)) (buf : Bytes) :
    Outcome DecodeError (Value × ℕ) :=
  if buf.length < 5 then .err .arrayCount
  else do
    let count ← beAt buf 1 4
    if tlvMaxElements < count then .err (.arrayTooLong count)
    else do
      let (items, offset) ← forCount (decodeItem value buf) count ([], 5)
      .ok (.array items, offset)

/-- The loop body of an object: the map so far, and the offset. -/
def decodeEntry (value : Bytes → Outcome DecodeError (Value × ℕ)) (buf : Bytes)
    (s : List (String × Value) × ℕ) : Outcome DecodeError (List (String × Value) × ℕ) :=
  if buf.length < s.2 + 2 then .err .keyLength
  else do
    let keyLen ← beAt buf s.2 2
    if buf.length < s.2 + 2 + keyLen then .err .keyData
    else do
      let k ← slice buf (s.2 + 2) (s.2 + 2 + keyLen)
      let key ← decodeUtf8 k
      let rest ← sliceFrom buf (s.2 + 2 + keyLen)
      let (val, consumed) ← value rest
      .ok (insertKey key val s.1, s.2 + 2 + keyLen + consumed)

def decodeObject (value : Bytes → Outcome DecodeError (Value × ℕ)) (buf : Bytes) :
    Outcome DecodeError (Value × ℕ) :=
  if buf.length < 5 then .err .objectCount
  else do
    let count ← beAt buf 1 4
    if tlvMaxElements < count then .err (.objectTooLong count)
    else do
      let (map, offset) ← forCount (decodeEntry value buf) count ([], 5)
      .ok (.object map, offset)

/-- The `match` of `decode_json_value_inner`. -/
def decodeTag (value : Bytes → Outcome DecodeError (Value × ℕ)) (buf : Bytes) (tag : UInt8) :
    Outcome DecodeError (Value × ℕ) :=
  if tag = 0x01 then decodeString buf
  else if tag = 0x02 then decodeInteger buf
  else if tag = 0x07 then decodeFloat buf
  else if tag = 0x03 then decodeBool buf
  else if tag = 0x04 then .ok (.null, 1)
  else if tag = 0x05 then decodeArray value buf
  else if tag = 0x06 then decodeObject value buf
  else .err (.unknownTag tag)

/-- `decode_json_value_inner`; the levels left are `TLV_MAX_DEPTH + 1 - depth`. -/
def decodeJsonValueInner : ℕ → Bytes → Outcome DecodeError (Value × ℕ)
  | 0, _ => .err .depth
  | levels + 1, buf =>
    if buf = [] then .err .unexpectedEnd
    else byteAt buf 0 >>= decodeTag (decodeJsonValueInner levels) buf

/-- A value is read. -/
def decodeJsonValue (buf : Bytes) : Outcome DecodeError (Value × ℕ) :=
  decodeJsonValueInner (tlvMaxDepth + 1) buf

/-! ## The walker -/

/-- The errors of `skip_tlv_value`. -/
inductive SkipError where
  | depth
  | empty
  | stringLength
  | stringTooLong (len : ℕ)
  | stringBody
  | number
  | bool
  | arrayCount
  | arrayTooLong (count : ℕ)
  | objectCount
  | objectTooLong (count : ℕ)
  | keyLength
  | key
  | unknownTag (tag : UInt8)
deriving DecidableEq, Repr

def SkipError.text : SkipError → String
  | depth => s!"TLV skip: nesting depth exceeds maximum {tlvMaxDepth}"
  | empty => "TLV skip: empty value"
  | stringLength => "TLV skip: truncated string length"
  | stringTooLong len => s!"TLV skip: string length {len} exceeds maximum {tlvMaxStringLen}"
  | stringBody => "TLV skip: truncated string body"
  | number => "TLV skip: truncated number"
  | bool => "TLV skip: truncated bool"
  | arrayCount => "TLV skip: truncated array count"
  | arrayTooLong count => s!"TLV skip: array count {count} exceeds maximum {tlvMaxElements}"
  | objectCount => "TLV skip: truncated object count"
  | objectTooLong count => s!"TLV skip: object count {count} exceeds maximum {tlvMaxElements}"
  | keyLength => "TLV skip: truncated key length"
  | key => "TLV skip: truncated key"
  | unknownTag tag => s!"TLV skip: unknown tag 0x{hex02 tag}"

def skipString (bytes : Bytes) : Outcome SkipError ℕ :=
  if bytes.length < 5 then .err .stringLength
  else do
    let len ← beAt bytes 1 4
    if tlvMaxStringLen < len then .err (.stringTooLong len)
    else if bytes.length < 5 + len then .err .stringBody
    else .ok (5 + len)

def skipItem (value : Bytes → Outcome SkipError ℕ) (bytes : Bytes) (off : ℕ) : Outcome SkipError ℕ := do
  let rest ← sliceFrom bytes off
  let n ← value rest
  .ok (off + n)

def skipArray (value : Bytes → Outcome SkipError ℕ) (bytes : Bytes) : Outcome SkipError ℕ :=
  if bytes.length < 5 then .err .arrayCount
  else do
    let count ← beAt bytes 1 4
    if tlvMaxElements < count then .err (.arrayTooLong count)
    else forCount (skipItem value bytes) count 5

def skipEntry (value : Bytes → Outcome SkipError ℕ) (bytes : Bytes) (off : ℕ) : Outcome SkipError ℕ :=
  if bytes.length < off + 2 then .err .keyLength
  else do
    let klen ← beAt bytes off 2
    if bytes.length < off + (2 + klen) then .err .key
    else do
      let rest ← sliceFrom bytes (off + (2 + klen))
      let n ← value rest
      .ok (off + (2 + klen) + n)

def skipObject (value : Bytes → Outcome SkipError ℕ) (bytes : Bytes) : Outcome SkipError ℕ :=
  if bytes.length < 5 then .err .objectCount
  else do
    let count ← beAt bytes 1 4
    if tlvMaxElements < count then .err (.objectTooLong count)
    else forCount (skipEntry value bytes) count 5

/-- The `match` of `skip_tlv_value_inner`. -/
def skipTag (value : Bytes → Outcome SkipError ℕ) (bytes : Bytes) (tag : UInt8) : Outcome SkipError ℕ :=
  if tag = 0x01 then skipString bytes
  else if tag = 0x02 ∨ tag = 0x07 then if bytes.length < 9 then .err .number else .ok 9
  else if tag = 0x03 then if bytes.length < 2 then .err .bool else .ok 2
  else if tag = 0x04 then .ok 1
  else if tag = 0x05 then skipArray value bytes
  else if tag = 0x06 then skipObject value bytes
  else .err (.unknownTag tag)

/-- `skip_tlv_value_inner`; the levels left are `TLV_MAX_DEPTH + 1 - depth`. -/
def skipTlvValueInner : ℕ → Bytes → Outcome SkipError ℕ
  | 0, _ => .err .depth
  | levels + 1, bytes =>
    if bytes = [] then .err .empty
    else byteAt bytes 0 >>= skipTag (skipTlvValueInner levels) bytes

/-- Where a value ends. -/
def skipTlvValue (bytes : Bytes) : Outcome SkipError ℕ := skipTlvValueInner (tlvMaxDepth + 1) bytes

/-! ## The encoder writes the wire tree of a value -/

theorem encodeItems_eq_put {vs : List Value} (h : ∀ v ∈ vs, encodeJsonValue v = .put (Tlv.ofValue v).bytes) :
    encodeItems vs = .put (Tlv.itemsBytes (Tlv.ofItems vs)) := by
  induction vs with
  | nil => rfl
  | cons v vs ih =>
    have hv := h v List.mem_cons_self
    have hvs := ih fun w hw => h w (List.mem_cons_of_mem _ hw)
    rw [encodeItems, hv, hvs, Emit.put_andThen_put]
    rfl

theorem encodeFields_eq_put {fs : List (String × Value)} (hk : ∀ p ∈ fs, (utf8 p.1).length ≤ 65535)
    (h : ∀ p ∈ fs, encodeJsonValue p.2 = .put (Tlv.ofValue p.2).bytes) :
    encodeFields fs = .put (Tlv.entriesBytes (Tlv.ofFields fs)) := by
  induction fs with
  | nil => rfl
  | cons p fs ih =>
    obtain ⟨k, v⟩ := p
    have hkey : ¬ 65535 < (utf8 k).length := not_lt.mpr (hk _ List.mem_cons_self)
    have hv : encodeJsonValue v = .put (Tlv.ofValue v).bytes := h _ List.mem_cons_self
    have hfs := ih (fun q hq => hk q (List.mem_cons_of_mem _ hq)) fun q hq => h q (List.mem_cons_of_mem _ hq)
    rw [encodeFields, if_neg hkey, hv, hfs, Emit.put_andThen_put, Emit.put_andThen_put]
    simp [Tlv.ofFields, Tlv.entriesBytes]

theorem encodeJsonValue_of_keysLe {v : Value} (hk : v.All (Value.KeysLe 65535)) :
    encodeJsonValue v = .put (Tlv.ofValue v).bytes := by
  induction v with
  | null => rfl
  | bool b => rfl
  | number n =>
    rw [encodeJsonValue, Tlv.ofValue]
    cases n.asI64 with
    | some i => rfl
    | none => cases n.asF64 <;> rfl
  | string s => rfl
  | array items ih =>
    rw [Value.all_array] at hk
    have hitems := encodeItems_eq_put fun v hv => ih v hv (hk.2 v hv)
    rw [encodeJsonValue, hitems, Emit.put_andThen_put, Tlv.ofValue, Tlv.bytes, Tlv.ofItems_eq_map,
      List.length_map, List.cons_append]
  | object fields ih =>
    rw [Value.all_object] at hk
    have hfields := encodeFields_eq_put hk.1 fun p hp => ih p hp (hk.2 p hp)
    rw [encodeJsonValue, hfields, Emit.put_andThen_put, Tlv.ofValue, Tlv.bytes, Tlv.ofFields_eq_map,
      List.length_map, List.cons_append]

theorem mem_of_encodeItems {vs : List Value} {b : Bytes} (h : encodeItems vs = .put b) :
    ∀ v ∈ vs, ∃ c, encodeJsonValue v = .put c := by
  induction vs generalizing b with
  | nil => simp
  | cons v vs ih =>
    rw [encodeItems] at h
    obtain ⟨c, d, hc, hd, -⟩ := Emit.andThen_eq_put.mp h
    intro w hw
    rcases List.mem_cons.mp hw with rfl | hw
    · exact ⟨c, hc⟩
    · exact ih hd w hw

theorem mem_of_encodeFields {fs : List (String × Value)} {b : Bytes} (h : encodeFields fs = .put b) :
    ∀ p ∈ fs, (utf8 p.1).length ≤ 65535 ∧ ∃ c, encodeJsonValue p.2 = .put c := by
  induction fs generalizing b with
  | nil => simp
  | cons p fs ih =>
    obtain ⟨k, v⟩ := p
    rw [encodeFields] at h
    split_ifs at h with hk
    · exact absurd h (by simp [Emit.fail, Emit.put])
    obtain ⟨-, d, -, hd, -⟩ := Emit.andThen_eq_put.mp h
    obtain ⟨c, d', hc, hd', -⟩ := Emit.andThen_eq_put.mp hd
    intro q hq
    rcases List.mem_cons.mp hq with rfl | hq
    · exact ⟨not_lt.mp hk, c, hc⟩
    · exact ih hd' q hq

theorem keysLe_of_encodeJsonValue {v : Value} : ∀ {b : Bytes}, encodeJsonValue v = .put b →
    v.All (Value.KeysLe 65535) := by
  induction v with
  | null => intro b _; exact trivial
  | bool x => intro b _; exact trivial
  | number n => intro b _; exact trivial
  | string s => intro b _; exact trivial
  | array items ih =>
    intro b h
    rw [encodeJsonValue] at h
    obtain ⟨-, d, -, hd, -⟩ := Emit.andThen_eq_put.mp h
    refine Value.all_array.mpr ⟨trivial, fun v hv => ?_⟩
    obtain ⟨c, hc⟩ := mem_of_encodeItems hd v hv
    exact ih v hv hc
  | object fields ih =>
    intro b h
    rw [encodeJsonValue] at h
    obtain ⟨-, d, -, hd, -⟩ := Emit.andThen_eq_put.mp h
    have hmem := mem_of_encodeFields hd
    refine Value.all_object.mpr ⟨fun p hp => (hmem p hp).1, fun p hp => ?_⟩
    obtain ⟨-, c, hc⟩ := hmem p hp
    exact ih p hp hc

/-- **The encoder**: it succeeds exactly on the values whose keys fit, and writes the wire tree. -/
theorem encodeJsonValue_eq_put {v : Value} {b : Bytes} :
    encodeJsonValue v = .put b ↔ v.All (Value.KeysLe 65535) ∧ b = (Tlv.ofValue v).bytes := by
  constructor
  · intro h
    have hk := keysLe_of_encodeJsonValue h
    rw [encodeJsonValue_of_keysLe hk, Emit.put, Emit.put, Emit.mk.injEq] at h
    exact ⟨hk, h.1.symm⟩
  · rintro ⟨hk, rfl⟩
    exact encodeJsonValue_of_keysLe hk

end VelocityMcp.NdaNative
