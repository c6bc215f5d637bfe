import VelocityMcp.Guest.Lua
import VelocityMcp.NdaNative.Tlv

/-!
# Guest.MicroPython — what the MicroPython guest makes of its arguments (`wasi_main.c`)

`pyReads_pyRead`: the TLV decoder returns the image of an object; `pyJson_eq_image_iff`: when the JSON parser does.
-/

namespace VelocityMcp.Guest

open Lib

/-! ## Values -/

/-- The values of the guest. -/
inductive PyValue where
  | none
  | bool (b : Bool)
  | int (i : Int)
  | float (bits : UInt64)
  | str (chars : Bytes)
  | list (items : List PyValue)
  /-- What can be looked up; a key that is no string is None. -/
  | dict (content : Option Bytes → Option PyValue)

abbrev PyDict := Option Bytes → Option PyValue

def emptyDict : PyDict := fun _ => none

/-- An entry, as `mp_obj_dict_store` stores it. -/
def pyEntry (m : Option Bytes × PyValue) : Option Bytes × Option PyValue := (m.1, some m.2)

/-- `mp_obj_dict_store`, for one entry after the other. -/
def storeEntries (d : PyDict) (ms : List (Option Bytes × PyValue)) : PyDict := storeAll d (ms.map pyEntry)

/-- `utf8_check`, with so many bytes of a character to come: only their number is checked. -/
def utf8Check : ℕ → Bytes → Bool
  | need, [] => need = 0
  | need + 1, c :: s => if isContinuation c then utf8Check need s else false
  | 0, c :: s =>
    if 0xc0 ≤ c then if 0xf8 ≤ c then false else utf8Check (0xe5 >>> (c.toNat >>> 3 &&& 6) &&& 3) s
    else if 0x80 ≤ c then false
    else utf8Check 0 s

def mpObjNewStr (b : Bytes) : Option Bytes := if utf8Check 0 b then some b else none

/-- `vstr_add_char`, for a `char`: it is signed, so that a byte from 0x80 on is taken for a large code point. -/
def vstrAddChar (c : UInt8) : Bytes :=
  if c < 0x80 then [c] else [0xff, 0xbf, (0xbc : UInt8) ||| c >>> 6, (0x80 : UInt8) ||| c &&& 0x3f]

/-! ## The JSON parser -/

section Json

variable (strtod : Strtod)

/-- `mjp_parse_string`, for the characters between the quotes. -/
def mjpString (chars : Bytes) : Option Bytes := mpObjNewStr (chars.flatMap vstrAddChar)

mutual

/-- `mjp_parse_value`: what is made of the text.  An `mp_int_t` has 32 bits. -/
def mjpObject : Raw → Option PyValue
  | .nil => some .none
  | .boolean b => some (.bool b)
  | .number isFloat text => some (if isFloat then .float (strtod text) else .int (strtoll text).toInt32.toInt)
  | .string chars => (mjpString chars).map .str
  | .array items => (mjpItems items).map .list
  | .object members => (mjpMembers members).map fun ms => .dict (storeEntries emptyDict ms)

def mjpItems : List Raw → Option (List PyValue)
  | [] => some []
  | r :: rs => (mjpObject r).bind fun v => (mjpItems rs).map (v :: ·)

def mjpMembers : List (Option Bytes × Raw) → Option (List (Option Bytes × PyValue))
  | [] => some []
  | (none, r) :: ms => (mjpObject r).bind fun v => (mjpMembers ms).map ((none, v) :: ·)
  | (some chars, r) :: ms => (mjpString chars).bind fun k =>
      (mjpObject r).bind fun v => (mjpMembers ms).map ((some k, v) :: ·)

end

/-- `mjp_parse_value`, on a text. -/
def mjpParseValue (s : Bytes) : Option PyValue := mjpObject strtod (parse true s)

end Json

/-! ## The TLV decoder -/

section Tlv

/-- What is left of the bytes, and how many elements there have been. -/
structure TlvParser where
  data : Bytes
  elementCount : ℕ

/-- `read_u8`, `read_u16_be`, `read_u32_be`, `read_i64_be`, `read_f64_be`: zero where the bytes end. -/
def readNat (k : ℕ) (p : TlvParser) : ℕ × TlvParser :=
  if k ≤ p.data.length then (beNat (p.data.take k), { p with data := p.data.drop k }) else (0, p)

/-- The byte behind the text of an error, which is handed over with it. -/
abbrev Beyond := UInt8

variable (beyond : Beyond)

/-- `tlv_decode_string`.  The lengths of the error texts include their ends. -/
def pyString (p : TlvParser) : Option (PyValue × TlvParser) :=
  let (len, p) := readNat 4 p
  if maxStringLen < len then (mpObjNewStr (utf8 "TLV string too long" ++ [0])).map fun s => (.str s, p)
  else if p.data.length < len then
    (mpObjNewStr (utf8 "TLV truncated string" ++ [0, beyond])).map fun s => (.str s, p)
  else (mpObjNewStr (p.data.take len)).map fun s => (.str s, { p with data := p.data.drop len })

/-- The loop of `tlv_decode_array`. -/
def pyItems (value : TlvParser → Option (PyValue × TlvParser)) : ℕ → TlvParser → Option (List PyValue × TlvParser)
  | 0, p => some ([], p)
  | n + 1, p =>
    let p := { p with elementCount := p.elementCount + 1 }
    if maxElements < p.elementCount then some ([], p)
    else (value p).bind fun v => (pyItems value n v.2).map fun vs => (v.1 :: vs.1, vs.2)

/-- The loop of `tlv_decode_object`. -/
def pyMembers (value : TlvParser → Option (PyValue × TlvParser)) :
    ℕ → TlvParser → Option (List (Option Bytes × PyValue) × TlvParser)
  | 0, p => some ([], p)
  | n + 1, p =>
    let p := { p with elementCount := p.elementCount + 1 }
    if maxElements < p.elementCount then some ([], p)
    else
      let (len, p) := readNat 2 p
      if p.data.length < len then some ([], p)
      else (mpObjNewStr (p.data.take len)).bind fun key =>
        (value { p with data := p.data.drop len }).bind fun v =>
          (pyMembers value n v.2).map fun ms => ((some key, v.1) :: ms.1, ms.2)

/-- The `switch` of `tlv_decode_value`. -/
def pyTag (value : TlvParser → Option (PyValue × TlvParser)) (tag : ℕ) (p : TlvParser) :
    Option (PyValue × TlvParser) :=
  match tag with
  | 0x01 => pyString beyond p
  | 0x02 =>
    let (n, p) := readNat 8 p
    some (.int (UInt64.ofNat n).toInt64.toInt, p)
  | 0x03 =>
    let (n, p) := readNat 1 p
    some (.bool (n ≠ 0), p)
  | 0x04 => some (.none, p)
  | 0x05 =>
    let (count, p) := readNat 4 p
    (pyItems value count p).map fun vs => (.list vs.1, vs.2)
  | 0x06 =>
    let (count, p) := readNat 4 p
    (pyMembers value count p).map fun ms => (.dict (storeEntries emptyDict ms.1), ms.2)
  | 0x07 =>
    let (n, p) := readNat 8 p
    some (.float (UInt64.ofNat n), p)
  | _ => (mpObjNewStr (utf8 ("Unknown TLV tag: 0x" ++ NdaNative.hex02 (UInt8.ofNat tag)))).map fun s => (.str s, p)

/-- `tlv_decode_value`, with so many levels left. -/
def pyRead : ℕ → TlvParser → Option (PyValue × TlvParser)
  | 0, p => (mpObjNewStr (utf8 "TLV depth exceeded" ++ [0])).map fun s => (.str s, p)
  | d + 1, p =>
    let (tag, p) := readNat 1 p
    pyTag beyond (pyRead d) tag p

/-- `tlv_decode_value`, from the top. -/
def pyDecodeValue (s : Bytes) : Option PyValue := (pyRead beyond (maxDepth + 1) ⟨s, 0⟩).map Prod.fst

end Tlv

/-! ## The value that a JSON value stands for -/

def objectDict (ms : List (Option Bytes × PyValue)) : PyDict := firstOf (ms.map pyEntry)

def pyNumber : Number → PyValue
  | .posInt n => .int n.toNat
  | .negInt i _ => .int i.toInt
  | .float bits _ => .float bits

mutual

/-- **The Python value that a JSON value stands for.** -/
def PyValue.image : Value → PyValue
  | .null => .none
  | .bool b => .bool b
  | .number n => pyNumber n
  | .string s => .str (utf8 s)
  | .array items => .list (imageItems items)
  | .object fields => .dict (objectDict (imageFields fields))

def PyValue.imageItems : List Value → List PyValue
  | [] => []
  | v :: vs => image v :: imageItems vs

def PyValue.imageFields : List (String × Value) → List (Option Bytes × PyValue)
  | [] => []
  | (k, v) :: fs => (some (utf8 k), image v) :: imageFields fs

end

namespace PyValue

theorem imageFields_eq_map (fs : List (String × Value)) :
    imageFields fs = fs.map fun p => (some (utf8 p.1), image p.2) := by
  induction fs with
  | nil => rfl
  | cons p fs ih => rw [imageFields, ih, List.map_cons]

end PyValue

theorem storeEntries_eq_objectDict {ms : List (Option Bytes × PyValue)} (h : (ms.map Prod.fst).Nodup) :
    storeEntries emptyDict ms = objectDict ms := by
  refine storeAll_eq_firstOf ?_
  rw [List.map_map]
  exact h

theorem nodup_pyKeys {fields : List (String × Value)} (h : SortedKeys fields) (f : String × Value → PyValue) :
    ((fields.map fun p => (some (utf8 p.1), f p)).map Prod.fst).Nodup := by
  rw [List.map_map]
  have hkeys : fields.map (Prod.fst ∘ fun p => (some (utf8 p.1), f p)) = (fields.map fun p => utf8 p.1).map some := by
    rw [List.map_map]
    rfl
  rw [hkeys]
  exact (nodup_keys h).map fun k l heq => Option.some.inj heq

/-! ### The texts that a string can be made of -/

section Utf8

theorem utf8Check_of_ascii {x : UInt8} (h : x < 0x80) (b : Bytes) : utf8Check 0 (x :: b) = utf8Check 0 b := by
  have hlow := UInt8.lt_iff_toNat_lt.mp h
  have hc0 : ¬ (0xc0 : UInt8) ≤ x := by
    rw [UInt8.le_iff_toNat_le]
    exact not_le.mpr (hlow.trans (by decide))
  rw [utf8Check, if_neg hc0, if_neg (UInt8.not_le.mpr h)]

def Ascii (b : Bytes) : Prop := ∀ x ∈ b, x < 0x80

instance (b : Bytes) : Decidable (Ascii b) := inferInstanceAs (Decidable (∀ x ∈ b, x < 0x80))

theorem mjpString_eq_some {b c : Bytes} : mjpString b = some c ↔ Ascii b ∧ c = b := by
  have hascii : ∀ {b : Bytes}, Ascii b → b.flatMap vstrAddChar = b := by
    intro b hb
    induction b with
    | nil => rfl
    | cons x b ih =>
      rw [List.flatMap_cons, vstrAddChar, if_pos (hb x List.mem_cons_self),
        ih fun y hy => hb y (List.mem_cons_of_mem _ hy)]
      rfl
  have hcheck : ∀ b : Bytes, utf8Check 0 (b.flatMap vstrAddChar) = true ↔ Ascii b := by
    intro b
    induction b with
    | nil => simp [utf8Check, Ascii]
    | cons x b ih =>
      rw [List.flatMap_cons, vstrAddChar]
      split_ifs with hx
      · rw [List.singleton_append, utf8Check_of_ascii hx, ih]
        simp [Ascii, hx]
      · refine ⟨fun h => ?_, fun h => absurd (h x List.mem_cons_self) hx⟩
        exact absurd h (by simp [utf8Check])
  unfold mjpString mpObjNewStr
  split_ifs with h
  · have hb := (hcheck b).mp h
    rw [hascii hb, Option.some.injEq]
    exact ⟨fun heq => ⟨hb, heq.symm⟩, fun heq => heq.2.symm⟩
  · exact ⟨fun heq => absurd heq (by simp), fun heq => absurd ((hcheck b).mpr heq.1) h⟩

/-- How many bytes are to come after the first byte of a character. -/
def needOf (c : UInt8) : ℕ := 0xe5 >>> (c.toNat >>> 3 &&& 6) &&& 3

theorem utf8Check_lead {c : UInt8} (hc : 0xc0 ≤ c ∧ c < 0xf8) (s : Bytes) :
    utf8Check 0 (c :: s) = utf8Check (needOf c) s := by
  rw [utf8Check, if_pos hc.1, if_neg (UInt8.not_le.mpr hc.2), needOf]

theorem utf8Check_continuation {n : ℕ} (hn : n < 0x40) (need : ℕ) (s : Bytes) :
    utf8Check (need + 1) (UInt8.ofNat (n + 0x80) :: s) = utf8Check need s := by
  have hcont : ∀ n < 0x40, isContinuation (UInt8.ofNat (n + 0x80)) = true := by decide
  rw [utf8Check, if_pos (hcont n hn)]

theorem utf8Check_encodeChar (c : Char) (rest : Bytes) :
    utf8Check 0 (String.utf8EncodeChar c ++ rest) = utf8Check 0 rest := by
  have htwo : ∀ n < 0x20, (0xc0 ≤ UInt8.ofNat (n + 0xc0) ∧ UInt8.ofNat (n + 0xc0) < 0xf8) ∧
      needOf (UInt8.ofNat (n + 0xc0)) = 1 := by decide
  have hthree : ∀ n < 0x10, (0xc0 ≤ UInt8.ofNat (n + 0xe0) ∧ UInt8.ofNat (n + 0xe0) < 0xf8) ∧
      needOf (UInt8.ofNat (n + 0xe0)) = 2 := by decide
  have hfour : ∀ n < 0x08, (0xc0 ≤ UInt8.ofNat (n + 0xf0) ∧ UInt8.ofNat (n + 0xf0) < 0xf8) ∧
      needOf (UInt8.ofNat (n + 0xf0)) = 3 := by decide
  have hcont : ∀ n, n % 0x40 < 0x40 := fun n => Nat.mod_lt n (by decide)
  unfold String.utf8EncodeChar
  dsimp only
  split_ifs with h₁ h₂ h₃
  · refine utf8Check_of_ascii ?_ rest
    rw [UInt8.lt_iff_toNat_lt, UInt8.toNat_ofNat', Nat.mod_eq_of_lt (by omega)]
    exact Nat.lt_succ_of_le h₁
  · obtain ⟨hlead, hneed⟩ := htwo (c.val.toNat / 64 % 0x20) (Nat.mod_lt _ (by decide))
    rw [List.cons_append, utf8Check_lead hlead, hneed, List.cons_append, utf8Check_continuation (hcont _),
      List.nil_append]
  · obtain ⟨hlead, hneed⟩ := hthree (c.val.toNat / 4096 % 0x10) (Nat.mod_lt _ (by decide))
    rw [List.cons_append, utf8Check_lead hlead, hneed, List.cons_append, utf8Check_continuation (hcont _),
      List.cons_append, utf8Check_continuation (hcont _), List.nil_append]
  · obtain ⟨hlead, hneed⟩ := hfour (c.val.toNat / 262144 % 0x08) (Nat.mod_lt _ (by decide))
    rw [List.cons_append, utf8Check_lead hlead, hneed, List.cons_append, utf8Check_continuation (hcont _),
      List.cons_append, utf8Check_continuation (hcont _), List.cons_append, utf8Check_continuation (hcont _),
      List.nil_append]

theorem mpObjNewStr_utf8 (s : String) : mpObjNewStr (utf8 s) = some (utf8 s) := by
  have hcheck : ∀ cs : List Char, utf8Check 0 (encode cs) = true := by
    intro cs
    induction cs with
    | nil => rfl
    | cons c cs ih => rw [encode_cons, utf8Check_encodeChar, ih]
  rw [mpObjNewStr, utf8_eq_encode, if_pos (hcheck _)]

end Utf8

/-! ## The TLV decoder returns the image -/

section TlvImage

mutual

/-- How many items and members a value has, at all levels. -/
def elementsOf : Value → ℕ
  | .array items => itemsElements items
  | .object fields => fieldsElements fields
  | _ => 0

def itemsElements : List Value → ℕ
  | [] => 0
  | v :: vs => 1 + elementsOf v + itemsElements vs

def fieldsElements : List (String × Value) → ℕ
  | [] => 0
  | (_, v) :: fs => 1 + elementsOf v + fieldsElements fs

end

theorem readNat_append {k n : ℕ} (hn : n < 256 ^ k) (s : Bytes) (e : ℕ) :
    readNat k ⟨beBytes k n ++ s, e⟩ = (n, ⟨s, e⟩) := by
  have hlen : k ≤ (beBytes k n ++ s).length := by
    rw [List.length_append, length_beBytes]
    exact Nat.le_add_right _ _
  have htake : (beBytes k n ++ s).take k = beBytes k n := by
    rw [List.take_append_of_le_length (by rw [length_beBytes]), List.take_of_length_le (by rw [length_beBytes])]
  have hdrop : (beBytes k n ++ s).drop k = s := by
    rw [List.drop_append_of_le_length (by rw [length_beBytes]), List.drop_of_length_le (by rw [length_beBytes]),
      List.nil_append]
  rw [readNat, if_pos hlen, htake, hdrop, beNat_beBytes, Nat.mod_eq_of_lt hn]

variable {beyond : Beyond} {value : TlvParser → Option (PyValue × TlvParser)}

theorem pyRead_cons (d : ℕ) (x : UInt8) (s : Bytes) (e : ℕ) :
    pyRead beyond (d + 1) ⟨x :: s, e⟩ = pyTag beyond (pyRead beyond d) x.toNat ⟨s, e⟩ := by
  have hread : readNat 1 ⟨x :: s, e⟩ = (x.toNat, ⟨s, e⟩) := by
    rw [readNat, if_pos (show 1 ≤ (x :: s).length from Nat.succ_le_succ (Nat.zero_le _))]
    simp [beNat, leNat]
  rw [pyRead, hread]

theorem pyTag_string (p : TlvParser) : pyTag beyond value (0x01 : UInt8).toNat p = pyString beyond p := rfl

theorem pyTag_int (p : TlvParser) : pyTag beyond value (0x02 : UInt8).toNat p =
    some (.int (UInt64.ofNat (readNat 8 p).1).toInt64.toInt, (readNat 8 p).2) := rfl

theorem pyTag_array (p : TlvParser) : pyTag beyond value (0x05 : UInt8).toNat p =
    (pyItems value (readNat 4 p).1 (readNat 4 p).2).map fun vs => (.list vs.1, vs.2) := rfl

theorem pyTag_object (p : TlvParser) : pyTag beyond value (0x06 : UInt8).toNat p =
    (pyMembers value (readNat 4 p).1 (readNat 4 p).2).map fun ms => (.dict (storeEntries emptyDict ms.1), ms.2) := rfl

theorem pyTag_float (p : TlvParser) : pyTag beyond value (0x07 : UInt8).toNat p =
    some (.float (UInt64.ofNat (readNat 8 p).1), (readNat 8 p).2) := rfl

/-- A decoder reads this value, if the elements are not too many. -/
def PyReads (value : TlvParser → Option (PyValue × TlvParser)) (v : Value) : Prop :=
  ∀ e rest, e + elementsOf v ≤ maxElements →
    value ⟨(Tlv.ofValue v).bytes ++ rest, e⟩ = some (.image v, ⟨rest, e + elementsOf v⟩)

theorem pyItems_bytes {vs : List Value} (h : ∀ v ∈ vs, PyReads value v) (e : ℕ) (rest : Bytes)
    (he : e + itemsElements vs ≤ maxElements) :
    pyItems value vs.length ⟨Tlv.itemsBytes (Tlv.ofItems vs) ++ rest, e⟩ =
      some (PyValue.imageItems vs, ⟨rest, e + itemsElements vs⟩) := by
  induction vs generalizing e with
  | nil => rfl
  | cons v vs ih =>
    rw [itemsElements] at he ⊢
    rw [Tlv.ofItems, Tlv.itemsBytes, List.append_assoc, List.length_cons, pyItems]
    dsimp only
    rw [if_neg (by omega), h v List.mem_cons_self (e + 1) _ (by omega), Option.bind_some,
      ih (fun w hw => h w (List.mem_cons_of_mem _ hw)) _ (by omega), Option.map_some, PyValue.imageItems,
      show e + 1 + elementsOf v + itemsElements vs = e + (1 + elementsOf v + itemsElements vs) by omega]

theorem pyMembers_bytes {fs : List (String × Value)} (hkey : ∀ p ∈ fs, (utf8 p.1).length ≤ 65535)
    (h : ∀ p ∈ fs, PyReads value p.2) (e : ℕ) (rest : Bytes) (he : e + fieldsElements fs ≤ maxElements) :
    pyMembers value fs.length ⟨Tlv.entriesBytes (Tlv.ofFields fs) ++ rest, e⟩ =
      some (PyValue.imageFields fs, ⟨rest, e + fieldsElements fs⟩) := by
  induction fs generalizing e with
  | nil => rfl
  | cons p fs ih =>
    obtain ⟨k, v⟩ := p
    have hlen : (utf8 k).length < 256 ^ 2 := lt_of_le_of_lt (hkey (k, v) List.mem_cons_self) (by decide)
    rw [fieldsElements] at he ⊢
    rw [Tlv.ofFields, Tlv.entriesBytes, List.append_assoc, List.append_assoc, List.append_assoc, List.length_cons,
      pyMembers]
    dsimp only
    rw [if_neg (by omega), readNat_append hlen]
    dsimp only
    rw [if_neg (by rw [List.length_append]; omega), List.take_left, List.drop_left, mpObjNewStr_utf8, Option.bind_some,
      h (k, v) List.mem_cons_self (e + 1) _ (by simp only; omega), Option.bind_some,
      ih (fun q hq => hkey q (List.mem_cons_of_mem _ hq)) (fun q hq => h q (List.mem_cons_of_mem _ hq)) _
        (by simp only; omega), Option.map_some, PyValue.imageFields,
      show e + 1 + elementsOf v + fieldsElements fs = e + (1 + elementsOf v + fieldsElements fs) by omega]

theorem pyReads_number {n : Number} (h : Value.IntFits (.number n)) (d : ℕ) :
    PyReads (pyRead beyond (d + 1)) (.number n) := by
  intro e rest _
  have hint : ∀ i : Int64, pyRead beyond (d + 1) ⟨0x02 :: (beBytes 8 i.toUInt64.toNat ++ rest), e⟩ =
      some (.int i.toInt, ⟨rest, e⟩) := by
    intro i
    rw [pyRead_cons, pyTag_int, readNat_append i.toUInt64.toNat_lt]
    simp
  cases n with
  | posInt n =>
    have hn : n ≤ Number.i64Max := h
    have htlv : Tlv.ofValue (.number (.posInt n)) = .int n.toInt64 := by simp [Tlv.ofValue, Number.asI64, hn]
    have hvalue : n.toInt64.toInt = n.toNat := by
      have hm : Number.i64Max.toNat = 2 ^ 63 - 1 := rfl
      have hle := UInt64.le_iff_toNat_le.mp hn
      show n.toBitVec.toInt = _
      rw [BitVec.toInt_eq_toNat_of_lt (by rw [UInt64.toNat_toBitVec]; omega)]
      rfl
    rw [htlv, Tlv.bytes, List.cons_append, hint, hvalue]
    rfl
  | negInt i neg => exact hint i
  | float bits fin =>
    show pyRead beyond (d + 1) ⟨0x07 :: (beBytes 8 bits.toNat ++ rest), e⟩ = _
    rw [pyRead_cons, pyTag_float, readNat_append bits.toNat_lt]
    simp [PyValue.image, pyNumber, elementsOf]

/-- **The TLV decoder returns the value's image.** -/
theorem pyReads_pyRead {v : Value} : ∀ {d : ℕ}, v.depth < d → v.WF → v.All Value.IntFits →
    v.All (fun w => w.StringLe tlvMaxStringLen ∧ w.EntriesLe tlvMaxElements) → v.All (Value.KeysLe 65535) →
    PyReads (pyRead beyond d) v := by
  induction v with
  | null =>
    rintro (_ | d) hd - - - -
    · exact absurd hd (Nat.not_lt_zero _)
    · exact fun e rest _ => pyRead_cons d 0x04 rest e
  | bool b =>
    rintro (_ | d) hd - - - -
    · exact absurd hd (Nat.not_lt_zero _)
    · intro e rest _
      cases b <;> exact (pyRead_cons d 0x03 _ e).trans (by rfl)
  | number n =>
    rintro (_ | d) hd - hint - -
    · exact absurd hd (Nat.not_lt_zero _)
    · exact pyReads_number hint d
  | string s =>
    rintro (_ | d) hd - - hlimits -
    · exact absurd hd (Nat.not_lt_zero _)
    · intro e rest _
      have hle : (utf8 s).length ≤ tlvMaxStringLen := hlimits.1
      have hlen : (utf8 s).length < 256 ^ 4 := lt_of_le_of_lt hle (by decide)
      rw [Tlv.ofValue, Tlv.bytes, List.cons_append, List.append_assoc, pyRead_cons, pyTag_string, pyString,
        readNat_append hlen]
      dsimp only
      rw [if_neg (not_lt.mpr (hle.trans (by decide))), if_neg (by rw [List.length_append]; omega), List.take_left,
        List.drop_left, mpObjNewStr_utf8]
      rfl
  | array items ih =>
    rintro (_ | d) hd hwf hint hlimits hkeys
    · exact absurd hd (Nat.not_lt_zero _)
    · intro e rest he
      rw [Value.WF, Value.all_array] at hwf
      rw [Value.all_array] at hint hlimits hkeys
      have hdepth := Value.depth_array_le.mp (Nat.lt_succ_iff.mp hd)
      have hcount : items.length < 256 ^ 4 := lt_of_le_of_lt hlimits.1.2 (by decide)
      have hlen : (Tlv.ofItems items).length = items.length := by rw [Tlv.ofItems_eq_map, List.length_map]
      rw [Tlv.ofValue, Tlv.bytes, List.cons_append, List.append_assoc, pyRead_cons, hlen, pyTag_array,
        readNat_append hcount, pyItems_bytes (fun w hw => ih w hw (hdepth w hw) (hwf.2 w hw) (hint.2 w hw)
        (hlimits.2 w hw) (hkeys.2 w hw)) e rest he]
      rfl
  | object fields ih =>
    rintro (_ | d) hd hwf hint hlimits hkeys
    · exact absurd hd (Nat.not_lt_zero _)
    · intro e rest he
      rw [Value.WF, Value.all_object] at hwf
      rw [Value.all_object] at hint hlimits hkeys
      have hdepth := Value.depth_object_le.mp (Nat.lt_succ_iff.mp hd)
      have hcount : fields.length < 256 ^ 4 := lt_of_le_of_lt hlimits.1.2 (by decide)
      have hlen : (Tlv.ofFields fields).length = fields.length := by rw [Tlv.ofFields_eq_map, List.length_map]
      rw [Tlv.ofValue, Tlv.bytes, List.cons_append, List.append_assoc, pyRead_cons, hlen, pyTag_object,
        readNat_append hcount, pyMembers_bytes hkeys.1 (fun p hp => ih p hp (hdepth p hp) (hwf.2 p hp) (hint.2 p hp)
        (hlimits.2 p hp) (hkeys.2 p hp)) e rest he, Option.map_some, PyValue.imageFields_eq_map,
        storeEntries_eq_objectDict (nodup_pyKeys hwf.1 _), ← PyValue.imageFields_eq_map]
      rfl

/-! ### A text has more bytes than elements -/

variable {f64Text : F64Text}

theorem itemsElements_le {vs : List Value} (h : ∀ v ∈ vs, elementsOf v < (jsonText f64Text v).length) :
    itemsElements vs ≤ (moreItemsText f64Text vs).length := by
  induction vs with
  | nil => exact Nat.zero_le _
  | cons v vs ih =>
    have hv := h v List.mem_cons_self
    have hvs := ih fun w hw => h w (List.mem_cons_of_mem _ hw)
    rw [itemsElements, moreItemsText, List.length_cons, List.length_append]
    omega

theorem fieldsElements_le {fs : List (String × Value)} (h : ∀ p ∈ fs, elementsOf p.2 < (jsonText f64Text p.2).length) :
    fieldsElements fs ≤ (moreFieldsText f64Text fs).length := by
  induction fs with
  | nil => exact Nat.zero_le _
  | cons p fs ih =>
    obtain ⟨k, v⟩ := p
    have hv := h (k, v) List.mem_cons_self
    have hfs := ih fun q hq => h q (List.mem_cons_of_mem _ hq)
    simp only [fieldsElements, moreFieldsText, List.length_cons, List.length_append] at hv ⊢
    omega

theorem elementsOf_lt {v : Value} (hf : v.All (FloatsPrint f64Text)) : elementsOf v < (jsonText f64Text v).length := by
  induction v with
  | array items ih =>
    cases items with
    | nil => exact Nat.zero_lt_two
    | cons v vs =>
      rw [Value.all_array] at hf
      have hitems : ∀ w ∈ v :: vs, elementsOf w < (jsonText f64Text w).length := fun w hw => ih w hw (hf.2 w hw)
      have hv := hitems v List.mem_cons_self
      have hvs := itemsElements_le fun w hw => hitems w (List.mem_cons_of_mem _ hw)
      rw [elementsOf, itemsElements, jsonText, List.length_cons, List.length_append, List.length_append]
      simp only [List.length_cons, List.length_nil]
      omega
  | object fields ih =>
    cases fields with
    | nil => exact Nat.zero_lt_two
    | cons p fs =>
      obtain ⟨k, v⟩ := p
      rw [Value.all_object] at hf
      have hfields : ∀ q ∈ (k, v) :: fs, elementsOf q.2 < (jsonText f64Text q.2).length :=
        fun q hq => ih q hq (hf.2 q hq)
      have hv := hfields (k, v) List.mem_cons_self
      have hfs := fieldsElements_le fun q hq => hfields q (List.mem_cons_of_mem _ hq)
      simp only [elementsOf, fieldsElements, jsonText, List.length_cons, List.length_append, List.length_nil] at hv ⊢
      omega
  | _ =>
    obtain ⟨c, r, hcr, -, -⟩ := head_jsonText hf
    rw [hcr]
    exact Nat.succ_pos _

end TlvImage

/-! ## When the JSON parser returns the image -/

section JsonImage

variable (f64Text : F64Text) (strtod : Strtod)

/-- What the MicroPython guest makes of the text of a value. -/
def pyJson (v : Value) : Option PyValue := mjpObject strtod (rawOf f64Text v)

/-- A text that the JSON parser of the MicroPython guest keeps. -/
def PyText (s : String) : Prop := Plain (utf8 s) ∧ Ascii (utf8 s)

instance (s : String) : Decidable (PyText s) := inferInstanceAs (Decidable (_ ∧ _))

/-- What the JSON parser of the MicroPython guest keeps: only 32-bit integers, and only ASCII, without control
characters that are written as code points, in strings and in keys. -/
def PyPlain : Value → Prop
  | .number (.posInt n) => n.toNat < 2 ^ 31
  | .number (.negInt i _) => -2 ^ 31 ≤ i.toInt
  | .string s => PyText s
  | .object fields => ∀ p ∈ fields, PyText p.1
  | _ => True

variable {f64Text strtod}

theorem ascii_spoken {b : Bytes} : Ascii (spoken b) ↔ Ascii b := by
  have hbyte : ∀ x : UInt8, spokenByte x < 0x80 ↔ x < 0x80 := by
    intro x
    unfold spokenByte
    split_ifs with h
    · have hmark : (0x3f : UInt8) < 0x80 := by decide
      have hspace : (0x20 : UInt8) < 0x80 := by decide
      exact ⟨fun _ => UInt8.lt_trans h.1 hspace, fun _ => hmark⟩
    · exact Iff.rfl
  simp [Ascii, spoken, hbyte]

theorem mjpString_spoken {s : String} {c : Bytes} :
    mjpString (spoken (utf8 s)) = some c ↔ Ascii (utf8 s) ∧ c = spoken (utf8 s) := by
  rw [mjpString_eq_some, ascii_spoken]

theorem mjpString_spoken_eq_self {s : String} : mjpString (spoken (utf8 s)) = some (utf8 s) ↔ PyText s := by
  rw [mjpString_spoken, PyText, plain_iff, eq_comm (a := utf8 s), and_comm]

theorem toInt32_ofInt {n : Int} (hlow : -2 ^ 31 ≤ n) (hhigh : n < 2 ^ 31) : (Int64.ofInt n).toInt32.toInt = n := by
  rw [Int64.toInt_toInt32, Int64.toInt_ofInt_of_le (by omega) (by omega)]
  exact Int.bmod_eq_of_le (by omega) (by omega)

theorem pyJson_number_eq_iff {n : Number} (h : FloatsRead f64Text strtod (.number n)) :
    pyJson f64Text strtod (.number n) = some (pyNumber n) ↔ PyPlain (.number n) := by
  cases n with
  | posInt n =>
    show some (PyValue.int (strtoll (utf8 (toString n.toNat))).toInt32.toInt) = some (.int n.toNat) ↔ n.toNat < 2 ^ 31
    rw [strtoll_posInt, Option.some.injEq, PyValue.int.injEq]
    constructor
    · intro heq
      have hlt := (Int64.ofInt (min (2 ^ 63 - 1 : Int) n.toNat)).toInt32.toInt_lt
      omega
    · intro hlt
      have hmin : min (2 ^ 63 - 1 : Int) n.toNat = n.toNat := by omega
      rw [hmin, toInt32_ofInt (by omega) (by omega)]
  | negInt i neg =>
    show some (PyValue.int (strtoll (utf8 (toString i.toInt))).toInt32.toInt) = some (.int i.toInt) ↔ -2 ^ 31 ≤ i.toInt
    rw [strtoll_negInt neg, Option.some.injEq, PyValue.int.injEq]
    constructor
    · intro heq
      have hle := i.toInt32.le_toInt
      omega
    · intro hle
      have hneg : i.toInt < 0 := by rwa [Int64.lt_iff_toInt_lt, Int64.toInt_zero] at neg
      have hcast := toInt32_ofInt hle (by omega)
      rwa [Int64.ofInt_toInt] at hcast
  | float bits fin =>
    show some (PyValue.float (strtod (f64Text bits))) = some (.float bits) ↔ True
    rw [h.2]
    simp

theorem mjpItems_eq_image {vs : List Value} : mjpItems strtod (rawItems f64Text vs) = some (PyValue.imageItems vs) ↔
    ∀ v ∈ vs, pyJson f64Text strtod v = some (.image v) := by
  induction vs with
  | nil => simp [rawItems, mjpItems, PyValue.imageItems]
  | cons v vs ih =>
    rw [rawItems, mjpItems, PyValue.imageItems, List.forall_mem_cons, ← ih, pyJson]
    simp [Option.bind_eq_some_iff]

def imageMember (p : String × Value) : Option Bytes × PyValue := (some (utf8 p.1), .image p.2)

/-- The entries that are stored, if nothing is raised: each field under what is left of its key. -/
theorem mjpMembers_eq_some {fs : List (String × Value)} {ms : List (Option Bytes × PyValue)} :
    mjpMembers strtod (rawFields f64Text fs) = some ms ↔
      List.Forall₂ (fun p m => Ascii (utf8 p.1) ∧ m.1 = some (spoken (utf8 p.1)) ∧ pyJson f64Text strtod p.2 = some m.2)
        fs ms := by
  induction fs generalizing ms with
  | nil => simp [rawFields, mjpMembers, eq_comm]
  | cons p fs ih =>
    obtain ⟨k, v⟩ := p
    rw [rawFields, mjpMembers, List.forall₂_cons_left_iff]
    simp only [Option.bind_eq_some_iff, Option.map_eq_some_iff, mjpString_spoken, pyJson]
    constructor
    · rintro ⟨c, ⟨hascii, rfl⟩, w, hw, ns, hns, rfl⟩
      exact ⟨_, ns, ⟨hascii, rfl, hw⟩, ih.mp hns, rfl⟩
    · rintro ⟨⟨key, w⟩, ns, ⟨hascii, rfl, hw⟩, hns, rfl⟩
      exact ⟨_, ⟨hascii, rfl⟩, w, hw, ns, ih.mpr hns, rfl⟩

theorem objectDict_member {fields : List (String × Value)} (hsorted : SortedKeys fields) {p : String × Value}
    (hp : p ∈ fields) : objectDict (fields.map imageMember) (some (utf8 p.1)) = some (.image p.2) := by
  refine firstOf_of_mem ?_ (List.mem_map_of_mem (f := pyEntry) (List.mem_map_of_mem (f := imageMember) hp))
  rw [List.map_map]
  exact nodup_pyKeys hsorted _

theorem mjpMembers_eq_image {fields : List (String × Value)} (hsorted : SortedKeys fields) :
    (mjpMembers strtod (rawFields f64Text fields)).map (storeEntries emptyDict) =
        some (objectDict (PyValue.imageFields fields)) ↔
      (∀ p ∈ fields, PyText p.1) ∧ ∀ p ∈ fields, pyJson f64Text strtod p.2 = some (.image p.2) := by
  have himage : PyValue.imageFields fields = fields.map imageMember := PyValue.imageFields_eq_map fields
  rw [himage, Option.map_eq_some_iff]
  constructor
  · rintro ⟨ms, hms, heq⟩
    have hall := mjpMembers_eq_some.mp hms
    -- the key of a field is found, so it is what is left of a key
    have hfound : ∀ p ∈ fields, ∃ q ∈ fields, Ascii (utf8 q.1) ∧ utf8 p.1 = spoken (utf8 q.1) ∧
        pyJson f64Text strtod q.2 = some (.image p.2) := by
      intro p hp
      have hat := (congrFun heq (some (utf8 p.1))).trans (objectDict_member hsorted hp)
      obtain ⟨m, hm, hentry⟩ := List.mem_map.mp (mem_of_storeAll hat)
      obtain ⟨hkey, hvalue⟩ := Prod.mk.inj hentry
      obtain ⟨q, hq, hascii, hspoken, hjson⟩ := Tlv.exists_mem_of_forall₂ hall hm
      rw [Option.some.inj hvalue] at hjson
      exact ⟨q, hq, hascii, Option.some.inj (hkey.symm.trans hspoken), hjson⟩
    have htext : ∀ p ∈ fields, PyText p.1 := by
      intro p hp
      obtain ⟨q, -, hascii, hspoken, -⟩ := hfound p hp
      rw [PyText, hspoken]
      exact ⟨plain_spoken (utf8 q.1), ascii_spoken.mpr hascii⟩
    refine ⟨htext, fun p hp => ?_⟩
    obtain ⟨q, hq, -, hspoken, hjson⟩ := hfound p hp
    rw [plain_iff.mp (htext q hq).1] at hspoken
    obtain rfl := List.inj_on_of_nodup_map (nodup_keys hsorted) hp hq hspoken
    exact hjson
  · rintro ⟨htext, hjson⟩
    refine ⟨fields.map imageMember, mjpMembers_eq_some.mpr ?_, storeEntries_eq_objectDict (nodup_pyKeys hsorted _)⟩
    rw [List.forall₂_map_right_iff, List.forall₂_same]
    intro p hp
    have hkey := plain_iff.mp (htext p hp).1
    exact ⟨(htext p hp).2, congrArg some hkey.symm, hjson p hp⟩

/-- **When the JSON parser of the MicroPython guest returns the value's image.** -/
theorem pyJson_eq_image_iff {v : Value} (hv : v.WF) (hf : v.All (FloatsRead f64Text strtod)) :
    pyJson f64Text strtod v = some (.image v) ↔ v.All PyPlain := by
  induction v with
  | null => exact ⟨fun _ => trivial, fun _ => rfl⟩
  | bool b => exact ⟨fun _ => trivial, fun _ => rfl⟩
  | number n => exact pyJson_number_eq_iff hf
  | string s =>
    show (mjpString (spoken (utf8 s))).map PyValue.str = some (.str (utf8 s)) ↔ PyText s
    rw [← mjpString_spoken_eq_self, Option.map_eq_some_iff]
    constructor
    · rintro ⟨c, hc, heq⟩
      exact PyValue.str.inj heq ▸ hc
    · exact fun h => ⟨_, h, rfl⟩
  | array items ih =>
    rw [Value.WF, Value.all_array] at hv
    rw [Value.all_array] at hf ⊢
    have hlist : pyJson f64Text strtod (.array items) = some (.image (.array items)) ↔
        mjpItems strtod (rawItems f64Text items) = some (PyValue.imageItems items) := by
      show (mjpItems strtod (rawItems f64Text items)).map PyValue.list = some (.list (PyValue.imageItems items)) ↔ _
      rw [Option.map_eq_some_iff]
      constructor
      · rintro ⟨c, hc, heq⟩
        exact PyValue.list.inj heq ▸ hc
      · exact fun h => ⟨_, h, rfl⟩
    rw [hlist, mjpItems_eq_image]
    refine ⟨fun h => ⟨trivial, fun w hw => ?_⟩, fun h w hw => ?_⟩
    · exact (ih w hw (hv.2 w hw) (hf.2 w hw)).mp (h w hw)
    · exact (ih w hw (hv.2 w hw) (hf.2 w hw)).mpr (h.2 w hw)
  | object fields ih =>
    rw [Value.WF, Value.all_object] at hv
    rw [Value.all_object] at hf ⊢
    have hdict : pyJson f64Text strtod (.object fields) = some (.image (.object fields)) ↔
        (mjpMembers strtod (rawFields f64Text fields)).map (storeEntries emptyDict) =
          some (objectDict (PyValue.imageFields fields)) := by
      show (mjpMembers strtod (rawFields f64Text fields)).map (fun ms => PyValue.dict (storeEntries emptyDict ms)) =
        some (.dict (objectDict (PyValue.imageFields fields))) ↔ _
      rw [Option.map_eq_some_iff, Option.map_eq_some_iff]
      simp only [PyValue.dict.injEq]
    rw [hdict, mjpMembers_eq_image hv.1]
    refine ⟨fun h => ⟨h.1, fun p hp => ?_⟩, fun h => ⟨h.1, fun p hp => ?_⟩⟩
    · exact (ih p hp (hv.2 p hp) (hf.2 p hp)).mp (h.2 p hp)
    · exact (ih p hp (hv.2 p hp) (hf.2 p hp)).mpr (h.2 p hp)

end JsonImage

end VelocityMcp.Guest
