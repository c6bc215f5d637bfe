import VelocityMcp.Guest.JsonParser
import VelocityMcp.Lib.Tables
import VelocityMcp.Wire

/-!
# Guest.Lua — what the Lua guest makes of its arguments (`lua_wasi.c`)

`value_luaTlv`: the TLV decoder returns the image of an object; `luaJson_eq_image_iff`: when the JSON parser does.
-/

namespace VelocityMcp.Guest

open Lib

/-! ## Values -/

/-- A key that a decoder stores under. -/
inductive LuaKey where
  | index (i : ℕ)
  | string (chars : Bytes)
deriving DecidableEq

/-- The values of the guest; a table is what can be looked up in it. -/
inductive LuaValue where
  | nil
  | boolean (b : Bool)
  | integer (i : Int64)
  | number (bits : UInt64)
  | string (chars : Bytes)
  | table (content : LuaKey → Option LuaValue)

abbrev LuaTable := LuaKey → Option LuaValue

def emptyTable : LuaTable := fun _ => none

def LuaValue.stored : LuaValue → Option LuaValue
  | nil => none
  | v => some v

/-- `lua_rawseti`, for the items of an array, from index `i` on. -/
@[grind =] def storeItems (i : ℕ) (t : LuaTable) : List LuaValue → LuaTable
  | [] => t
  | v :: vs => storeItems (i + 1) (Function.update t (.index i) v.stored) vs

def luaEntry (m : Bytes × LuaValue) : LuaKey × Option LuaValue := (.string m.1, m.2.stored)

/-- `lua_rawset`, for the members of an object. -/
def storeMembers (t : LuaTable) (ms : List (Bytes × LuaValue)) : LuaTable := storeAll t (ms.map luaEntry)

/-! ## Decoders -/

/-- What a decoder leaves on the stack, level by level. -/
inductive LuaRead where
  /-- The decoder has failed here, and nil stands for the value. -/
  | broken
  | pushed (v : LuaValue)
  /-- A string that is put together in a buffer. -/
  | built (chars : Bytes)
  /-- An array; only the last item may have failed. -/
  | array (items : List LuaRead)
  /-- An object, with keys from a buffer or not, whose next key cannot be read (`cut`) or not. -/
  | object (keysBuilt : Bool) (members : List (Bytes × LuaRead)) (cut : Bool)

namespace LuaRead

mutual

/-- The decoder returns 0. -/
def ok : LuaRead → Bool
  | broken => false
  | pushed _ => true
  | built _ => true
  | array items => itemsOk items
  | object _ members cut => membersOk members && !cut

def itemsOk : List LuaRead → Bool
  | [] => true
  | r :: rs => ok r && itemsOk rs

def membersOk : List (Bytes × LuaRead) → Bool
  | [] => true
  | (_, r) :: ms => ok r && membersOk ms

end

mutual

@[grind =] def value : LuaRead → LuaValue
  | broken => .nil
  | pushed v => v
  | built chars => .string chars
  | array items => .table (storeItems 1 emptyTable (itemsValue items))
  | object _ members _ => .table (storeMembers emptyTable (membersValue members))

def itemsValue : List LuaRead → List LuaValue
  | [] => []
  | r :: rs => value r :: itemsValue rs

def membersValue : List (Bytes × LuaRead) → List (Bytes × LuaValue)
  | [] => []
  | (k, r) :: ms => (k, value r) :: membersValue ms

end

theorem itemsValue_eq_map (rs : List LuaRead) : itemsValue rs = rs.map value := by
  induction rs with
  | nil => rfl
  | cons r rs ih => rw [itemsValue, ih, List.map_cons]

theorem membersValue_eq_map (ms : List (Bytes × LuaRead)) : membersValue ms = ms.map fun m => (m.1, m.2.value) := by
  induction ms with
  | nil => rfl
  | cons m ms ih => rw [membersValue, ih, List.map_cons]

end LuaRead

section Json

/-- The bit pattern of a text, as the C library reads it. -/
abbrev Strtod := Bytes → UInt64

variable (strtod : Strtod)

mutual

/-- `jp_parse_value`: what is made of the text. -/
@[grind =] def jpRead : Raw → LuaRead
  | .nil => .pushed .nil
  | .boolean b => .pushed (.boolean b)
  | .number isFloat text => .pushed (if isFloat then .number (strtod text) else .integer (strtoll text))
  | .string chars => .built chars
  | .array items => .array (jpItems items)
  | .object members => .object true (jpMembers members) false

def jpItems : List Raw → List LuaRead
  | [] => []
  | r :: rs => jpRead r :: jpItems rs

/-- The Lua guest reads a key whatever comes next. -/
def jpMembers : List (Option Bytes × Raw) → List (Bytes × LuaRead)
  | [] => []
  | (k, r) :: ms => (k.getD [], jpRead r) :: jpMembers ms

end

/-- `jp_parse_value`, on a text. -/
def jpParseValue (s : Bytes) : LuaRead := jpRead strtod (parse false s)

end Json

section Tlv

/-- `TLV_MAX_DEPTH`. -/
def maxDepth : ℕ := 32

/-- `TLV_MAX_STRING_LEN`. -/
def maxStringLen : ℕ := 10 * 1024 * 1024

/-- `TLV_MAX_ELEMENTS`. -/
def maxElements : ℕ := 100000

/-- `tlv_read_bytes`. -/
def takeBytes (n : ℕ) (s : Bytes) : Option (Bytes × Bytes) := if n ≤ s.length then some (s.take n, s.drop n) else none

/-- `tlv_read_u16_be`, `tlv_read_u32_be`, and the eight bytes of a number. -/
def takeNat (k : ℕ) (s : Bytes) : Option (ℕ × Bytes) := (takeBytes k s).map fun r => (beNat r.1, r.2)

/-- The items of an array, up to the first that fails. -/
def tlvItems (value : Bytes → LuaRead × Bytes) : ℕ → Bytes → List LuaRead × Bytes
  | 0, s => ([], s)
  | n + 1, s =>
    let (item, r) := value s
    if item.ok then
      let (items, rest) := tlvItems value n r
      (item :: items, rest)
    else ([item], r)

/-- The members of an object, up to the first that fails. -/
def tlvMembers (value : Bytes → LuaRead × Bytes) : ℕ → Bytes → List (Bytes × LuaRead) × Bool × Bytes
  | 0, s => ([], false, s)
  | n + 1, s =>
    match (takeNat 2 s).bind fun len => takeBytes len.1 len.2 with
    | none => ([], true, s)
    | some (key, s) =>
      let (v, r) := value s
      if v.ok then
        let (members, cut, rest) := tlvMembers value n r
        ((key, v) :: members, cut, rest)
      else ([(key, v)], false, r)

def tlvBool : Bytes → LuaRead × Bytes
  | [] => (.broken, [])
  | b :: s => (.pushed (.boolean (b != 0)), s)

def tlvInteger (s : Bytes) : LuaRead × Bytes :=
  match takeNat 8 s with
  | none => (.broken, s)
  | some (n, s) => (.pushed (.integer (UInt64.ofNat n).toInt64), s)

def tlvFloat (s : Bytes) : LuaRead × Bytes :=
  match takeNat 8 s with
  | none => (.broken, s)
  | some (n, s) => (.pushed (.number (UInt64.ofNat n)), s)

def tlvString (s : Bytes) : LuaRead × Bytes :=
  match takeNat 4 s with
  | none => (.broken, s)
  | some (len, s) =>
    if maxStringLen < len then (.broken, s)
    else
      match takeBytes len s with
      | none => (.broken, s)
      | some (chars, s) => (.pushed (.string chars), s)

def tlvArray (value : Bytes → LuaRead × Bytes) (s : Bytes) : LuaRead × Bytes :=
  match takeNat 4 s with
  | none => (.broken, s)
  | some (count, s) =>
    if maxElements < count then (.broken, s)
    else
      let (items, s) := tlvItems value count s
      (.array items, s)

def tlvObject (value : Bytes → LuaRead × Bytes) (s : Bytes) : LuaRead × Bytes :=
  match takeNat 4 s with
  | none => (.broken, s)
  | some (count, s) =>
    if maxElements < count then (.broken, s)
    else
      let (members, cut, s) := tlvMembers value count s
      (.object false members cut, s)

/-- The `switch` of `tlv_decode_value`. -/
def tlvTag (value : Bytes → LuaRead × Bytes) (tag : UInt8) (s : Bytes) : LuaRead × Bytes :=
  if tag = 0x04 then (.pushed .nil, s)
  else if tag = 0x03 then tlvBool s
  else if tag = 0x02 then tlvInteger s
  else if tag = 0x07 then tlvFloat s
  else if tag = 0x01 then tlvString s
  else if tag = 0x05 then tlvArray value s
  else if tag = 0x06 then tlvObject value s
  else (.broken, s)

/-- `tlv_decode_value`, with so many levels left. -/
@[grind =] def tlvRead : ℕ → Bytes → LuaRead × Bytes
  | 0, s => (.broken, s)
  | _ + 1, [] => (.broken, [])
  | d + 1, tag :: s => tlvTag (tlvRead d) tag s

/-- `tlv_decode_value`, from the top. -/
def tlvDecodeValue (s : Bytes) : LuaRead := (tlvRead (maxDepth + 1) s).1

end Tlv

/-! ## The value that a JSON value stands for -/

/-- An array, as a table: item `i` under the key `i + 1`; a null is not stored. -/
def arrayTable (vs : List LuaValue) : LuaTable
  | .index 0 => none
  | .index (i + 1) => vs[i]?.bind LuaValue.stored
  | .string _ => none

def objectTable (ms : List (Bytes × LuaValue)) : LuaTable := firstOf (ms.map luaEntry)

/-- A number: an integer where it is a 64-bit one, the closest float otherwise. -/
@[grind =] def luaNumber : Number → LuaValue
  | .posInt n => if n ≤ Number.i64Max then .integer n.toInt64 else .number (f64OfNat n.toNat)
  | .negInt i _ => .integer i
  | .float bits _ => .number bits

mutual

/-- **The Lua value that a JSON value stands for.** -/
@[grind =] def LuaValue.image : Value → LuaValue
  | .null => .nil
  | .bool b => .boolean b
  | .number n => luaNumber n
  | .string s => .string (utf8 s)
  | .array items => .table (arrayTable (imageItems items))
  | .object fields => .table (objectTable (imageFields fields))

def LuaValue.imageItems : List Value → List LuaValue
  | [] => []
  | v :: vs => image v :: imageItems vs

def LuaValue.imageFields : List (String × Value) → List (Bytes × LuaValue)
  | [] => []
  | (k, v) :: fs => (utf8 k, image v) :: imageFields fs

end

namespace LuaValue

theorem imageItems_eq_map (vs : List Value) : imageItems vs = vs.map image := by
  induction vs with
  | nil => rfl
  | cons v vs ih => rw [imageItems, ih, List.map_cons]

theorem imageFields_eq_map (fs : List (String × Value)) : imageFields fs = fs.map fun p => (utf8 p.1, image p.2) := by
  induction fs with
  | nil => rfl
  | cons p fs ih => rw [imageFields, ih, List.map_cons]

theorem stored_injective : Function.Injective stored := by
  intro v w h
  cases v <;> cases w <;> simp_all [stored]

theorem stored_eq_none {v : LuaValue} : v.stored = none ↔ v = nil := stored_injective.eq_iff' rfl

theorem image_eq_nil {v : Value} : image v = nil ↔ v = .null := by
  cases v with
  | number n => cases n <;> simp [image, luaNumber, apply_ite (· = LuaValue.nil)]
  | _ => simp [image]

end LuaValue

/-! ### What is stored can be looked up -/

section Store

theorem storeItems_string (i : ℕ) (t : LuaTable) (vs : List LuaValue) (k : Bytes) :
    storeItems i t vs (.string k) = t (.string k) := by
  induction vs generalizing i t with
  | nil => rfl
  | cons v vs ih => rw [storeItems, ih, Function.update_of_ne (by simp)]

theorem storeItems_of_lt {i j : ℕ} (h : j < i) (t : LuaTable) (vs : List LuaValue) :
    storeItems i t vs (.index j) = t (.index j) := by
  induction vs generalizing i t with
  | nil => rfl
  | cons v vs ih => rw [storeItems, ih (by omega), Function.update_of_ne (by simp; omega)]

theorem storeItems_index (i j : ℕ) {t : LuaTable} {vs : List LuaValue} (h : t (.index (i + j)) = none) :
    storeItems i t vs (.index (i + j)) = vs[j]?.bind LuaValue.stored := by
  induction vs generalizing i j t with
  | nil => exact h
  | cons v vs ih =>
    rw [storeItems]
    cases j with
    | zero =>
      rw [storeItems_of_lt (by omega), Nat.add_zero, Function.update_self]
      rfl
    | succ j =>
      have hkey : i + (j + 1) = i + 1 + j := by omega
      rw [hkey, ih (i + 1) j (by rw [Function.update_of_ne (by simp; omega), ← hkey]; exact h)]
      rfl

/-- **The table of an array.** -/
theorem storeItems_eq_arrayTable (vs : List LuaValue) : storeItems 1 emptyTable vs = arrayTable vs := by
  funext k
  match k with
  | .index 0 => exact storeItems_of_lt Nat.zero_lt_one _ _
  | .index (i + 1) =>
    rw [show i + 1 = 1 + i by omega, storeItems_index 1 i rfl, show 1 + i = i + 1 by omega]
    rfl
  | .string k => exact storeItems_string 1 emptyTable vs k

theorem nodup_luaEntry {ms : List (Bytes × LuaValue)} (h : (ms.map Prod.fst).Nodup) :
    ((ms.map luaEntry).map Prod.fst).Nodup := by
  rw [List.map_map]
  have hkeys : ms.map (Prod.fst ∘ luaEntry) = (ms.map Prod.fst).map LuaKey.string := by
    rw [List.map_map]
    rfl
  rw [hkeys]
  exact h.map fun k l heq => LuaKey.string.inj heq

end Store

/-! ## The TLV decoder -/

section TlvImage

mutual

/-- What the decoder reads from the encoding of a tree. -/
@[grind =] def luaTlv : Tlv → LuaRead
  | .string t => .pushed (.string t)
  | .int i => .pushed (.integer i)
  | .bool b => .pushed (.boolean (b != 0))
  | .null => .pushed .nil
  | .array items => .array (luaTlvItems items)
  | .object entries => .object false (luaTlvEntries entries) false
  | .float bits => .pushed (.number bits)

def luaTlvItems : List Tlv → List LuaRead
  | [] => []
  | t :: ts => luaTlv t :: luaTlvItems ts

def luaTlvEntries : List (Bytes × Tlv) → List (Bytes × LuaRead)
  | [] => []
  | (k, t) :: es => (k, luaTlv t) :: luaTlvEntries es

end

theorem takeBytes_append (b rest : Bytes) : takeBytes b.length (b ++ rest) = some (b, rest) := by
  rw [takeBytes, if_pos (by rw [List.length_append]; omega), List.take_left, List.drop_left]

theorem takeNat_append {k n : ℕ} (hn : n < 256 ^ k) (rest : Bytes) :
    takeNat k (beBytes k n ++ rest) = some (n, rest) := by
  have htake := takeBytes_append (beBytes k n) rest
  rw [length_beBytes] at htake
  rw [takeNat, htake, Option.map_some, beNat_beBytes, Nat.mod_eq_of_lt hn]

variable {value : Bytes → LuaRead × Bytes}

def ReadsTlv (value : Bytes → LuaRead × Bytes) (t : Tlv) : Prop :=
  (luaTlv t).ok = true ∧ ∀ rest, value (t.bytes ++ rest) = (luaTlv t, rest)

theorem tlvItems_bytes {ts : List Tlv} (h : ∀ t ∈ ts, ReadsTlv value t) (rest : Bytes) :
    LuaRead.itemsOk (luaTlvItems ts) = true ∧
      tlvItems value ts.length (Tlv.itemsBytes ts ++ rest) = (luaTlvItems ts, rest) := by
  induction ts with
  | nil => exact ⟨rfl, rfl⟩
  | cons t ts ih =>
    obtain ⟨hok, hread⟩ := h t List.mem_cons_self
    obtain ⟨hoks, hreads⟩ := ih fun u hu => h u (List.mem_cons_of_mem _ hu)
    constructor
    · rw [luaTlvItems, LuaRead.itemsOk, hok, hoks]
      rfl
    · rw [Tlv.itemsBytes, List.append_assoc, List.length_cons, tlvItems, hread]
      dsimp only
      rw [if_pos hok, hreads]
      rfl

theorem tlvMembers_bytes {es : List (Bytes × Tlv)} (hkey : ∀ e ∈ es, e.1.length < 256 ^ 2)
    (h : ∀ e ∈ es, ReadsTlv value e.2) (rest : Bytes) :
    LuaRead.membersOk (luaTlvEntries es) = true ∧
      tlvMembers value es.length (Tlv.entriesBytes es ++ rest) = (luaTlvEntries es, false, rest) := by
  induction es with
  | nil => exact ⟨rfl, rfl⟩
  | cons e es ih =>
    obtain ⟨k, t⟩ := e
    obtain ⟨hok, hread⟩ := h (k, t) List.mem_cons_self
    obtain ⟨hoks, hreads⟩ := ih (fun f hf => hkey f (List.mem_cons_of_mem _ hf))
      fun f hf => h f (List.mem_cons_of_mem _ hf)
    constructor
    · rw [luaTlvEntries, LuaRead.membersOk, hok, hoks]
      rfl
    · rw [Tlv.entriesBytes, List.append_assoc, List.append_assoc, List.append_assoc, List.length_cons, tlvMembers,
        takeNat_append (hkey (k, t) List.mem_cons_self), Option.bind_some, takeBytes_append]
      dsimp only
      rw [hread]
      dsimp only
      rw [if_pos hok, hreads]
      rfl

section Tags

variable (value) (s : Bytes)

theorem tlvTag_string : tlvTag value 0x01 s = tlvString s := rfl

theorem tlvTag_integer : tlvTag value 0x02 s = tlvInteger s := rfl

theorem tlvTag_array : tlvTag value 0x05 s = tlvArray value s := rfl

theorem tlvTag_object : tlvTag value 0x06 s = tlvObject value s := rfl

theorem tlvTag_float : tlvTag value 0x07 s = tlvFloat s := rfl

end Tags

/-- **The encoding of a tree within the limits is read as the tree.** -/
theorem readsTlv_tlvRead {d : ℕ} {t : Tlv} (h : t.Within d) : ReadsTlv (tlvRead d) t := by
  induction h with
  | @string d t len =>
    have hlen : t.length < 256 ^ 4 := lt_of_le_of_lt len (by decide)
    refine ⟨rfl, fun rest => ?_⟩
    rw [Tlv.bytes, List.cons_append, List.append_assoc]
    rw [tlvRead, tlvTag_string, tlvString, takeNat_append hlen]
    dsimp only
    rw [if_neg (not_lt.mpr (len.trans (by decide))), takeBytes_append]
    rfl
  | @int d i =>
    refine ⟨rfl, fun rest => ?_⟩
    rw [Tlv.bytes, List.cons_append]
    rw [tlvRead, tlvTag_integer, tlvInteger, takeNat_append i.toUInt64.toNat_lt]
    simp [luaTlv]
  | @bool d b => exact ⟨rfl, fun rest => rfl⟩
  | @null d => exact ⟨rfl, fun rest => rfl⟩
  | @array d items count _ ih =>
    have hitems := tlvItems_bytes ih
    refine ⟨(hitems []).1, fun rest => ?_⟩
    rw [Tlv.bytes, List.cons_append, List.append_assoc]
    rw [tlvRead, tlvTag_array, tlvArray, takeNat_append (lt_of_le_of_lt count (by decide))]
    dsimp only
    rw [if_neg (show ¬ maxElements < _ from not_lt.mpr count), (hitems rest).2, luaTlv]
  | @object d entries count key _ ih =>
    have hmembers := tlvMembers_bytes key ih
    refine ⟨by rw [luaTlv, LuaRead.ok, (hmembers []).1]; rfl, fun rest => ?_⟩
    rw [Tlv.bytes, List.cons_append, List.append_assoc]
    rw [tlvRead, tlvTag_object, tlvObject, takeNat_append (lt_of_le_of_lt count (by decide))]
    dsimp only
    rw [if_neg (show ¬ maxElements < _ from not_lt.mpr count), (hmembers rest).2]
    rfl
  | @float d bits =>
    refine ⟨rfl, fun rest => ?_⟩
    rw [Tlv.bytes, List.cons_append]
    rw [tlvRead, tlvTag_float, tlvFloat, takeNat_append bits.toNat_lt]
    simp [luaTlv]

theorem luaTlvItems_eq_map (ts : List Tlv) : luaTlvItems ts = ts.map luaTlv := by
  induction ts with
  | nil => rfl
  | cons t ts ih => rw [luaTlvItems, ih, List.map_cons]

theorem luaTlvEntries_eq_map (es : List (Bytes × Tlv)) : luaTlvEntries es = es.map fun e => (e.1, luaTlv e.2) := by
  induction es with
  | nil => rfl
  | cons e es ih => rw [luaTlvEntries, ih, List.map_cons]

theorem value_luaTlv_number (n : Number) : (luaTlv (.ofValue (.number n))).value = luaNumber n := by
  cases n with
  | posInt n =>
    by_cases hn : n ≤ Number.i64Max
    · simp [Tlv.ofValue, Number.asI64, hn, luaTlv, LuaRead.value, luaNumber]
    · simp [Tlv.ofValue, Number.asI64, Number.asF64, hn, luaTlv, LuaRead.value, luaNumber]
  | negInt i neg => rfl
  | float bits fin => rfl

theorem nodup_keys {fields : List (String × Value)} (h : SortedKeys fields) : (fields.map fun p => utf8 p.1).Nodup :=
  List.pairwise_map.mpr (h.imp fun hlt heq => absurd (utf8_injective heq ▸ hlt) (lt_irrefl _))

/-- **The TLV decoder returns the value's image.** -/
theorem value_luaTlv {v : Value} (hv : v.WF) : (luaTlv (.ofValue v)).value = .image v := by
  induction v with
  | null => rfl
  | bool b => cases b <;> rfl
  | number n => exact value_luaTlv_number n
  | string s => rfl
  | array items ih =>
    rw [Value.WF, Value.all_array] at hv
    rw [Tlv.ofValue, Tlv.ofItems_eq_map, luaTlv, luaTlvItems_eq_map, LuaRead.value, LuaRead.itemsValue_eq_map,
      storeItems_eq_arrayTable, LuaValue.image, LuaValue.imageItems_eq_map, List.map_map, List.map_map]
    congr 2
    exact List.map_congr_left fun w hw => ih w hw (hv.2 w hw)
  | object fields ih =>
    rw [Value.WF, Value.all_object] at hv
    have hmembers : ((fields.map fun p => (utf8 p.1, Tlv.ofValue p.2)).map fun e => (e.1, luaTlv e.2)).map
        (fun m => (m.1, m.2.value)) = fields.map fun p => (utf8 p.1, LuaValue.image p.2) := by
      rw [List.map_map, List.map_map]
      exact List.map_congr_left fun p hp => by
        show (utf8 p.1, (luaTlv (.ofValue p.2)).value) = _
        rw [ih p hp (hv.2 p hp)]
    rw [Tlv.ofValue, Tlv.ofFields_eq_map, luaTlv, luaTlvEntries_eq_map, LuaRead.value, LuaRead.membersValue_eq_map,
      hmembers, storeMembers, LuaValue.image, LuaValue.imageFields_eq_map, objectTable]
    refine congrArg _ (storeAll_eq_firstOf (nodup_luaEntry ?_))
    rw [List.map_map]
    exact nodup_keys hv.1

end TlvImage

/-! ## The JSON parser -/

/-! ### What is left of a key comes no earlier -/

section Order

/-- `spokenByte`, for a character. -/
@[grind =] def spokenChar (c : Char) : Char := if c.toNat < 0x80 then Char.ofNat (spokenByte (UInt8.ofNat c.toNat)).toNat else c

theorem spoken_utf8EncodeChar (c : Char) : spoken (String.utf8EncodeChar c) = String.utf8EncodeChar (spokenChar c) := by
  by_cases hc : c.toNat < 0x80
  · have hone : ∀ d : Char, d.toNat < 0x80 → String.utf8EncodeChar d = [UInt8.ofNat d.toNat] := fun d hd => by
      have h : encode [d] = [d].map fun c => UInt8.ofNat c.toNat := encode_of_ascii (by simpa using hd)
      simpa using h
    have hsmall : ∀ n < 0x80, (spokenByte (UInt8.ofNat n)).toNat < 0x80 ∧
        (Char.ofNat (spokenByte (UInt8.ofNat n)).toNat).toNat = (spokenByte (UInt8.ofNat n)).toNat := by
      decide
    obtain ⟨hlt, hchar⟩ := hsmall c.toNat hc
    rw [spokenChar, if_pos hc, hone c hc, hone _ (by rw [hchar]; exact hlt), hchar, UInt8.ofNat_toNat]
    rfl
  · rw [spokenChar, if_neg hc, ← plain_iff]
    intro x hx
    left
    by_contra hlow
    have hnat : x.toNat < 0x20 := by
      have h := UInt8.not_le.mp hlow
      rwa [UInt8.lt_iff_toNat_lt] at h
    have heq := toNat_of_mem_utf8EncodeChar (by omega) hx
    omega

theorem spoken_encode (cs : List Char) : spoken (encode cs) = encode (cs.map spokenChar) := by
  induction cs with
  | nil => rfl
  | cons c cs ih =>
    rw [encode_cons, List.map_cons, encode_cons, ← ih, ← spoken_utf8EncodeChar]
    exact List.map_append

theorem le_spokenChar (c : Char) : ¬ spokenChar c < c := by
  have hle : c.toNat ≤ (spokenChar c).toNat := by
    unfold spokenChar
    split_ifs with hc
    · have hsmall : ∀ n < 0x80, n ≤ (Char.ofNat (spokenByte (UInt8.ofNat n)).toNat).toNat := by decide
      exact hsmall c.toNat hc
    · exact le_rfl
  intro hlt
  exact absurd (Char.lt_def.mp hlt) (by
    rw [UInt32.lt_iff_toNat_lt]
    exact not_lt.mpr hle)

theorem not_map_spokenChar_lt (cs : List Char) : ¬ cs.map spokenChar < cs := by
  induction cs with
  | nil => exact List.not_lt_nil _
  | cons c cs ih =>
    rw [List.map_cons, List.cons_lt_cons_iff]
    rintro (h | ⟨-, h⟩)
    · exact le_spokenChar c h
    · exact ih h

theorem not_lt_of_spoken {k l : String} (h : spoken (utf8 l) = utf8 k) : ¬ k < l := by
  have hk : k = String.ofList (l.toList.map spokenChar) := by
    apply utf8_injective
    rw [utf8_ofList, ← spoken_encode, ← utf8_eq_encode, h]
  rw [hk, String.lt_iff, String.toList_ofList]
  exact not_map_spokenChar_lt l.toList

end Order

section JsonImage

variable (f64Text : F64Text) (strtod : Strtod)

def FloatsRead : Value → Prop
  | .number (.float bits _) => FloatText (f64Text bits) ∧ strtod (f64Text bits) = bits
  | _ => True

/-- What the Lua guest makes of the text of a value. -/
@[grind =] def luaJson (v : Value) : LuaValue := (jpRead strtod (rawOf f64Text v)).value

/-- What the JSON parser of the Lua guest keeps: no integer above `i64::MAX`, and no control character that is
written as a code point, in a string or in the key of a member that is not null. -/
def LuaPlain : Value → Prop
  | .number (.posInt n) => n ≤ Number.i64Max
  | .string s => Plain (utf8 s)
  | .object fields => ∀ p ∈ fields, p.2 ≠ .null → Plain (utf8 p.1)
  | _ => True

variable {f64Text strtod}

theorem FloatsRead.print {v : Value} (h : FloatsRead f64Text strtod v) : FloatsPrint f64Text v := by
  match v, h with
  | .number (.float _ _), h => exact h.1
  | .number (.posInt _), _ | .number (.negInt _ _), _ | .null, _ | .bool _, _ | .string _, _ | .array _, _
  | .object _, _ => exact trivial

theorem jpItems_eq_map (rs : List Raw) : jpItems strtod rs = rs.map (jpRead strtod) := by
  induction rs with
  | nil => rfl
  | cons r rs ih => rw [jpItems, ih, List.map_cons]

theorem jpMembers_eq_map (ms : List (Option Bytes × Raw)) :
    jpMembers strtod ms = ms.map fun m => (m.1.getD [], jpRead strtod m.2) := by
  induction ms with
  | nil => rfl
  | cons m ms ih => rw [jpMembers, ih, List.map_cons]

theorem luaJson_array (items : List Value) :
    luaJson f64Text strtod (.array items) = .table (arrayTable (items.map (luaJson f64Text strtod))) := by
  rw [luaJson, rawOf, rawItems_eq_map, jpRead, jpItems_eq_map, LuaRead.value, LuaRead.itemsValue_eq_map,
    storeItems_eq_arrayTable, List.map_map, List.map_map]
  rfl

/-- A field, as the JSON parser stores it, and as it is meant. -/
def jsonEntry (f64Text : F64Text) (strtod : Strtod) (p : String × Value) : LuaKey × Option LuaValue :=
  (.string (spoken (utf8 p.1)), (luaJson f64Text strtod p.2).stored)

def imageEntry (p : String × Value) : LuaKey × Option LuaValue := (.string (utf8 p.1), (LuaValue.image p.2).stored)

theorem luaJson_object (fields : List (String × Value)) : luaJson f64Text strtod (.object fields) =
    .table (storeAll emptyTable (fields.map (jsonEntry f64Text strtod))) := by
  rw [luaJson, rawOf, rawFields_eq_map, jpRead, jpMembers_eq_map, LuaRead.value, LuaRead.membersValue_eq_map,
    storeMembers, List.map_map, List.map_map, List.map_map]
  rfl

theorem image_object (fields : List (String × Value)) :
    LuaValue.image (.object fields) = .table (firstOf (fields.map imageEntry)) := by
  rw [LuaValue.image, LuaValue.imageFields_eq_map, objectTable, List.map_map]
  rfl

theorem luaJson_eq_nil {v : Value} : luaJson f64Text strtod v = .nil ↔ v = .null := by
  cases v with
  | number n => cases n <;> simp [luaJson, rawOf, jpRead, LuaRead.value, isFloat]
  | array items => simp [luaJson_array]
  | object fields => simp [luaJson_object]
  | _ => simp [luaJson, rawOf, jpRead, LuaRead.value]

theorem luaJson_number_eq_iff {n : Number} (h : FloatsRead f64Text strtod (.number n)) :
    luaJson f64Text strtod (.number n) = luaNumber n ↔ LuaPlain (.number n) := by
  cases n with
  | posInt n =>
    show LuaValue.integer (strtoll (utf8 (toString n.toNat))) = luaNumber (.posInt n) ↔ n ≤ Number.i64Max
    rw [strtoll_posInt, luaNumber]
    split_ifs with hn
    · have hm : Number.i64Max.toNat = 2 ^ 63 - 1 := rfl
      have hlt := UInt64.le_iff_toNat_le.mp hn
      have hmin : min (2 ^ 63 - 1 : Int) n.toNat = n.toNat := by omega
      have hint : Int64.ofInt n.toNat = n.toInt64 := by
        apply Int64.toBitVec_inj.mp
        rw [Int64.toBitVec_ofInt, BitVec.ofInt_natCast]
        exact BitVec.ofNat_toNat 64 n.toBitVec
      rw [hmin, hint]
      simp [hn]
    · simp [hn]
  | negInt i neg =>
    show LuaValue.integer (strtoll (utf8 (toString i.toInt))) = .integer i ↔ True
    rw [strtoll_negInt neg]
    simp
  | float bits fin =>
    show LuaValue.number (strtod (f64Text bits)) = .number bits ↔ True
    rw [h.2]
    simp

/-- What is stored under a key of the object: its own value, since what is left of a later key is not this key. -/
theorem luaJson_member {fields : List (String × Value)} (hsorted : SortedKeys fields) {p : String × Value}
    (hp : p ∈ fields) (hplain : Plain (utf8 p.1)) : storeAll emptyTable (fields.map (jsonEntry f64Text strtod)) (.string (utf8 p.1)) =
      (luaJson f64Text strtod p.2).stored := by
  obtain ⟨before, after, rfl⟩ := List.append_of_mem hp
  have hlater : ∀ q ∈ after, p.1 < q.1 := by
    have h := (List.pairwise_append.mp hsorted).2.1
    exact (List.pairwise_cons.mp h).1
  rw [List.map_append, List.map_cons, jsonEntry, plain_iff.mp hplain]
  refine storeAll_of_mem (fun e he => ?_) emptyTable _
  obtain ⟨q, hq, rfl⟩ := List.mem_map.mp he
  exact fun heq => not_lt_of_spoken (LuaKey.string.inj heq) (hlater q hq)

theorem image_member {fields : List (String × Value)} (hsorted : SortedKeys fields) {p : String × Value}
    (hp : p ∈ fields) : firstOf (fields.map imageEntry) (.string (utf8 p.1)) = (LuaValue.image p.2).stored := by
  refine firstOf_of_mem ?_ (List.mem_map_of_mem (f := imageEntry) hp)
  have hkeys : (fields.map imageEntry).map Prod.fst = (fields.map fun p => utf8 p.1).map LuaKey.string := by
    rw [List.map_map, List.map_map]
    rfl
  rw [hkeys]
  exact (nodup_keys hsorted).map fun k l heq => LuaKey.string.inj heq

theorem exists_of_jsonEntry {fields : List (String × Value)} {k : LuaKey} {w : LuaValue}
    (h : storeAll emptyTable (fields.map (jsonEntry f64Text strtod)) k = some w) :
    ∃ p ∈ fields, k = .string (spoken (utf8 p.1)) ∧ p.2 ≠ .null := by
  obtain ⟨p, hp, heq⟩ := List.mem_map.mp (mem_of_storeAll h)
  obtain ⟨rfl, hstored⟩ := Prod.mk.inj heq
  refine ⟨p, hp, rfl, fun hnull => ?_⟩
  rw [luaJson_eq_nil.mpr hnull] at hstored
  cases hstored

theorem exists_of_imageEntry {fields : List (String × Value)} {k : LuaKey} {w : LuaValue}
    (h : firstOf (fields.map imageEntry) k = some w) : ∃ p ∈ fields, k = .string (utf8 p.1) ∧ p.2 ≠ .null := by
  obtain ⟨p, hp, heq⟩ := List.mem_map.mp (mem_of_firstOf h)
  obtain ⟨rfl, hstored⟩ := Prod.mk.inj heq
  refine ⟨p, hp, rfl, fun hnull => ?_⟩
  rw [hnull] at hstored
  cases hstored

/-- **When the JSON parser of the Lua guest returns the value's image.** -/
theorem luaJson_eq_image_iff {v : Value} (hv : v.WF) (hf : v.All (FloatsRead f64Text strtod)) :
    luaJson f64Text strtod v = .image v ↔ v.All LuaPlain := by
  induction v with
  | null => exact ⟨fun _ => trivial, fun _ => rfl⟩
  | bool b => exact ⟨fun _ => trivial, fun _ => rfl⟩
  | number n => exact luaJson_number_eq_iff hf
  | string s =>
    show LuaValue.string (spoken (utf8 s)) = .string (utf8 s) ↔ Plain (utf8 s)
    rw [LuaValue.string.injEq, plain_iff]
  | array items ih =>
    rw [Value.WF, Value.all_array] at hv
    rw [Value.all_array] at hf ⊢
    rw [luaJson_array, LuaValue.image, LuaValue.imageItems_eq_map, LuaValue.table.injEq]
    constructor
    · refine fun heq => ⟨trivial, fun w hw => (ih w hw (hv.2 w hw) (hf.2 w hw)).mp ?_⟩
      obtain ⟨i, hi, rfl⟩ := List.mem_iff_getElem.mp hw
      have hat := congrFun heq (.index (i + 1))
      rw [arrayTable, arrayTable, List.getElem?_map, List.getElem?_map, List.getElem?_eq_getElem hi] at hat
      exact LuaValue.stored_injective hat
    · rintro ⟨-, hplain⟩
      rw [List.map_congr_left fun w hw => (ih w hw (hv.2 w hw) (hf.2 w hw)).mpr (hplain w hw)]
  | object fields ih =>
    rw [Value.WF, Value.all_object] at hv
    rw [Value.all_object] at hf ⊢
    rw [luaJson_object, image_object, LuaValue.table.injEq]
    constructor
    · intro heq
      -- the key of a member that is not null is found, so it is what is left of a key
      have hkey : ∀ p ∈ fields, p.2 ≠ .null → Plain (utf8 p.1) := by
        intro p hp hne
        have himage : (LuaValue.image p.2).stored ≠ none := fun h =>
          hne (LuaValue.image_eq_nil.mp (LuaValue.stored_eq_none.mp h))
        obtain ⟨w, hw⟩ := Option.ne_none_iff_exists'.mp himage
        have hat := (congrFun heq (.string (utf8 p.1))).trans (image_member hv.1 hp)
        obtain ⟨q, -, hq, -⟩ := exists_of_jsonEntry (hat.trans hw)
        rw [LuaKey.string.inj hq]
        exact plain_spoken (utf8 q.1)
      refine ⟨hkey, fun p hp => ?_⟩
      by_cases hnull : p.2 = .null
      · rw [hnull]
        exact trivial
      · have hat := (congrFun heq (.string (utf8 p.1))).trans (image_member hv.1 hp)
        rw [luaJson_member hv.1 hp (hkey p hp hnull)] at hat
        exact (ih p hp (hv.2 p hp) (hf.2 p hp)).mp (LuaValue.stored_injective hat)
    · rintro ⟨hkey, hplain⟩
      have hmember : ∀ p ∈ fields, p.2 ≠ .null → storeAll emptyTable (fields.map (jsonEntry f64Text strtod))
          (.string (utf8 p.1)) = firstOf (fields.map imageEntry) (.string (utf8 p.1)) := fun p hp hnull => by
        rw [luaJson_member hv.1 hp (hkey p hp hnull), image_member hv.1 hp,
          (ih p hp (hv.2 p hp) (hf.2 p hp)).mpr (hplain p hp)]
      -- what either table holds is the value of a member that is not null
      funext k
      refine Option.ext fun w => ⟨fun h => ?_, fun h => ?_⟩
      · obtain ⟨p, hp, rfl, hnull⟩ := exists_of_jsonEntry h
        rw [plain_iff.mp (hkey p hp hnull)] at h ⊢
        rwa [← hmember p hp hnull]
      · obtain ⟨p, hp, rfl, hnull⟩ := exists_of_imageEntry h
        rwa [hmember p hp hnull]

end JsonImage

end VelocityMcp.Guest
