import VelocityMcp.Interp.Render
import VelocityMcp.NdaNative.Tlv

/-!
# Interp.Tlv — the TLV decoder of the interpreter (`interp_core/interp.c`)

`Tlv.Limits`, `Tlv.elements`: the limits of the decoder.  `decodeValue_bytes`: within them it reads a value back, as
`Val.ofTlv`.
-/

namespace VelocityMcp

open Lib

/-- Induction with a hypothesis for every item and every entry. -/
@[elab_as_elim]
theorem Tlv.ind {P : Tlv → Prop} (string : ∀ t, P (string t)) (int : ∀ i, P (int i)) (bool : ∀ b, P (bool b))
    (null : P null) (array : ∀ items, (∀ t ∈ items, P t) → P (array items))
    (object : ∀ entries, (∀ e ∈ entries, P e.2) → P (object entries)) (float : ∀ bits, P (float bits)) : ∀ t, P t
  | .string t => string t
  | .int i => int i
  | .bool b => bool b
  | .null => null
  | .array items => array items fun t _ht => ind string int bool null array object float t
  | .object entries => object entries fun e _he => ind string int bool null array object float e.2
  | .float bits => float bits
termination_by t => t
decreasing_by
  · have := List.sizeOf_lt_of_mem _ht
    simp
    omega
  · obtain ⟨k, t⟩ := e
    have := List.sizeOf_lt_of_mem _he
    simp at *
    omega

namespace Interp

/-! ## The decoder -/

/-- `TLV_MAX_DEPTH`. -/
def maxDepth : ℕ := 32

/-- `TLV_MAX_STRING_LEN`. -/
def maxStringLen : ℕ := 10 * 1024 * 1024

/-- `TLV_MAX_ELEMENTS`. -/
def maxElements : ℕ := 1000000

/-- What the decoder writes into `g_error`. -/
inductive TlvFault where
  | arrayElements
  | objectElements
  | objectKey
deriving DecidableEq

def TlvFault.message : TlvFault → Bytes
  | arrayElements => utf8 "TLV array exceeded 1000000 elements (hard cap)"
  | objectElements => utf8 "TLV object exceeded 1000000 elements (hard cap)"
  | objectKey => utf8 "TLV object key exceeds max string length"

/-- `TlvParser`, with what has been written into `g_error` meanwhile. -/
structure TlvParser where
  data : Bytes
  pos : ℕ
  elementCount : ℕ
  fault : Option TlvFault

/-- `n` bytes of the buffer, from the `i`th on. -/
def bytesAt (data : Bytes) (i n : ℕ) : Run Unit Bytes :=
  if i + n ≤ data.length then .done ((data.drop i).take n) else .undefined

/-- `(double)val`, as a bit pattern. -/
def doubleOfInt (i : Int64) : UInt64 :=
  if i < 0 then UInt64.ofNat (2 ^ 63) ||| f64OfNat i.toInt.natAbs else f64OfNat i.toInt.natAbs

namespace TlvParser

/-- `read_u8`, `read_u16_be`, `read_u32_be`, `read_i64_be`, `read_f64_be`: 0 where there are not so many bytes. -/
def readBe (k : ℕ) (p : TlvParser) : Run Unit (ℕ × TlvParser) :=
  if p.data.length ≤ p.pos + (k - 1) then .done (0, p)
  else do
    let bs ← bytesAt p.data p.pos k
    .done (beNat bs, { p with pos := p.pos + k })

/-- `parser->element_count++`. -/
def counted (p : TlvParser) : TlvParser := { p with elementCount := p.elementCount + 1 }

def failed (p : TlvParser) (f : TlvFault) : TlvParser := { p with fault := some f }

def moved (p : TlvParser) (n : ℕ) : TlvParser := { p with pos := p.pos + n }

end TlvParser

/-- `tlv_decode_string`. -/
def decodeString (p : TlvParser) : Run Unit (Val × TlvParser) := do
  let (len, p) ← p.readBe 4
  if maxStringLen < len then .done (.string (utf8 "TLV string too long"), p)
  else if p.data.length < p.pos + len then .done (.string (utf8 "TLV truncated string"), p)
  else do
    let s ← bytesAt p.data p.pos len
    .done (.string s, p.moved len)

/-- The loop of `tlv_decode_array`. -/
def decodeItems (value : TlvParser → Run Unit (Val × TlvParser)) : ℕ → TlvParser → Run Unit (List Val × TlvParser)
  | 0, p => .done ([], p)
  | n + 1, p =>
    if maxElements < p.counted.elementCount then .done ([], p.counted.failed .arrayElements)
    else do
      let (item, p) ← value p.counted
      let (items, p) ← decodeItems value n p
      .done (item :: items, p)

/-- The loop of `tlv_decode_object`.  A key becomes a C string. -/
def decodeMembers (value : TlvParser → Run Unit (Val × TlvParser)) :
    ℕ → List (Bytes × Val) → TlvParser → Run Unit (List (Bytes × Val) × TlvParser)
  | 0, obj, p => .done (obj, p)
  | n + 1, obj, p =>
    if maxElements < p.counted.elementCount then .done (obj, p.counted.failed .objectElements)
    else do
      let (len, p) ← p.counted.readBe 2
      if maxStringLen < len ∨ p.data.length < p.pos + len then .done (obj, p.failed .objectKey)
      else do
        let key ← bytesAt p.data p.pos len
        let (v, p) ← value (p.moved len)
        decodeMembers value n (mapSet (cString key) v obj) p

/-- `tlv_decode_value`, for so many levels. -/
def decodeValue : ℕ → TlvParser → Run Unit (Val × TlvParser)
  | 0, p => .done (.string (utf8 "TLV depth exceeded"), p)
  | n + 1, p => do
    let (tag, p) ← p.readBe 1
    match tag with
    | 1 => decodeString p
    | 2 => do
      let (val, p) ← p.readBe 8
      .done (.number (doubleOfInt (UInt64.ofNat val).toInt64), p)
    | 3 => do
      let (val, p) ← p.readBe 1
      .done (.bool (val != 0), p)
    | 4 => .done (.null, p)
    | 5 => do
      let (count, p) ← p.readBe 4
      let (items, p) ← decodeItems (decodeValue n) count p
      .done (.array items, p)
    | 6 => do
      let (count, p) ← p.readBe 4
      let (entries, p) ← decodeMembers (decodeValue n) count [] p
      .done (.map entries, p)
    | 7 => do
      let (val, p) ← p.readBe 8
      .done (.number (UInt64.ofNat val), p)
    | tag => .done (.string (utf8 ("Unknown TLV tag: 0x" ++ NdaNative.hex02 (UInt8.ofNat tag))), p)

def decodeTlv (data : Bytes) : Run Unit (Val × TlvParser) := decodeValue (maxDepth + 1) ⟨data, 0, 0, none⟩

/-! ## Every read is inside the buffer -/

section Done

variable {value : TlvParser → Run Unit (Val × TlvParser)}

theorem readBe_done (k : ℕ) (p : TlvParser) : ∃ n q, p.readBe k = .done (n, q) := by
  unfold TlvParser.readBe
  split_ifs with h
  · exact ⟨0, p, rfl⟩
  · have hin : p.pos + k ≤ p.data.length := by omega
    exact ⟨_, _, by rw [bytesAt, if_pos hin]; rfl⟩

theorem decodeString_done (p : TlvParser) : ∃ v q, decodeString p = .done (v, q) := by
  obtain ⟨len, q, hq⟩ := readBe_done 4 p
  rw [decodeString, hq, Run.done_bind]
  dsimp only
  split_ifs with hlong hshort
  · exact ⟨_, _, rfl⟩
  · exact ⟨_, _, rfl⟩
  · exact ⟨_, _, by rw [bytesAt, if_pos (Nat.not_lt.mp hshort)]; rfl⟩

theorem decodeItems_done (hvalue : ∀ p, ∃ v q, value p = .done (v, q)) (n : ℕ) (p : TlvParser) :
    ∃ vs q, decodeItems value n p = .done (vs, q) := by
  induction n generalizing p with
  | zero => exact ⟨_, _, rfl⟩
  | succ n ih =>
    rw [decodeItems]
    split_ifs with hcap
    · exact ⟨_, _, rfl⟩
    · obtain ⟨v, q, hv⟩ := hvalue p.counted
      obtain ⟨vs, r, hvs⟩ := ih q
      refine ⟨v :: vs, r, ?_⟩
      rw [hv, Run.done_bind]
      dsimp only
      rw [hvs, Run.done_bind]

theorem decodeMembers_done (hvalue : ∀ p, ∃ v q, value p = .done (v, q)) (n : ℕ) (obj : List (Bytes × Val))
    (p : TlvParser) : ∃ es q, decodeMembers value n obj p = .done (es, q) := by
  induction n generalizing obj p with
  | zero => exact ⟨_, _, rfl⟩
  | succ n ih =>
    rw [decodeMembers]
    split_ifs with hcap
    · exact ⟨_, _, rfl⟩
    · obtain ⟨len, q, hq⟩ := readBe_done 2 p.counted
      rw [hq, Run.done_bind]
      dsimp only
      split_ifs with hkey
      · exact ⟨_, _, rfl⟩
      · obtain ⟨v, r, hv⟩ := hvalue (q.moved len)
        rw [bytesAt, if_pos (Nat.not_lt.mp fun h => hkey (Or.inr h)), Run.done_bind, hv, Run.done_bind]
        exact ih _ r

/-- **The decoder reads no byte outside the buffer**, whatever is in it. -/
theorem decodeValue_done (n : ℕ) (p : TlvParser) : ∃ v q, decodeValue n p = .done (v, q) := by
  induction n generalizing p with
  | zero => exact ⟨_, _, rfl⟩
  | succ n ih =>
    obtain ⟨tag, q, hq⟩ := readBe_done 1 p
    obtain ⟨long, q₈, hq₈⟩ := readBe_done 8 q
    obtain ⟨byte, q₁, hq₁⟩ := readBe_done 1 q
    obtain ⟨count, q₄, hq₄⟩ := readBe_done 4 q
    rw [decodeValue, hq, Run.done_bind]
    dsimp only
    split
    · exact decodeString_done q
    · exact ⟨_, _, by rw [hq₈]; rfl⟩
    · exact ⟨_, _, by rw [hq₁]; rfl⟩
    · exact ⟨_, _, rfl⟩
    · obtain ⟨vs, r, hvs⟩ := decodeItems_done ih count q₄
      exact ⟨_, _, by rw [hq₄, Run.done_bind, hvs]; rfl⟩
    · obtain ⟨es, r, hes⟩ := decodeMembers_done ih count [] q₄
      exact ⟨_, _, by rw [hq₄, Run.done_bind, hes]; rfl⟩
    · exact ⟨_, _, by rw [hq₈]; rfl⟩
    · exact ⟨_, _, rfl⟩

end Done

end Interp

/-! ## Reading back -/

namespace Tlv

mutual

/-- How many items and members there are in a value, at all levels. -/
def elements : Tlv → ℕ
  | array items => itemsElements items
  | object entries => entriesElements entries
  | _ => 0

def itemsElements : List Tlv → ℕ
  | [] => 0
  | t :: ts => 1 + elements t + itemsElements ts

def entriesElements : List (Bytes × Tlv) → ℕ
  | [] => 0
  | (_, t) :: es => 1 + elements t + entriesElements es

end

/-- At most so many levels, and the decoder's limit on strings; keys and counts fit their fields. -/
inductive Limits : ℕ → Tlv → Prop
  | string {d : ℕ} {t : Bytes} (len : t.length ≤ Interp.maxStringLen) : Limits (d + 1) (string t)
  | int {d : ℕ} (i : Int64) : Limits (d + 1) (int i)
  | bool {d : ℕ} (b : UInt8) : Limits (d + 1) (bool b)
  | null {d : ℕ} : Limits (d + 1) null
  | array {d : ℕ} {items : List Tlv} (count : items.length < 256 ^ 4) (item : ∀ t ∈ items, Limits d t) :
      Limits (d + 1) (array items)
  | object {d : ℕ} {entries : List (Bytes × Tlv)} (count : entries.length < 256 ^ 4)
      (key : ∀ e ∈ entries, e.1.length < 256 ^ 2) (item : ∀ e ∈ entries, Limits d e.2) : Limits (d + 1) (object entries)
  | float {d : ℕ} (bits : UInt64) : Limits (d + 1) (float bits)

end Tlv

namespace Interp

mutual

def Val.ofTlv : Tlv → Val
  | .string t => .string t
  | .int i => .number (doubleOfInt i)
  | .bool b => .bool (b != 0)
  | .null => .null
  | .array items => .array (ofItems items)
  | .object entries => .map (mapSetAll (ofEntries entries) [])
  | .float bits => .number bits

def Val.ofItems : List Tlv → List Val
  | [] => []
  | t :: ts => Val.ofTlv t :: ofItems ts

def Val.ofEntries : List (Bytes × Tlv) → List (Bytes × Val)
  | [] => []
  | (k, t) :: es => (k, Val.ofTlv t) :: ofEntries es

end

/-- What is left of the buffer. -/
def TlvParser.rest (p : TlvParser) : Bytes := p.data.drop p.pos

/-- Behind `n` bytes with `e` elements. -/
def TlvParser.past (p : TlvParser) (n e : ℕ) : TlvParser :=
  { p with pos := p.pos + n, elementCount := p.elementCount + e }

section Reads

variable {p : TlvParser} {r : Bytes} {k n e : ℕ}

theorem past_past (p : TlvParser) (n e n' e' : ℕ) : (p.past n e).past n' e' = p.past (n + n') (e + e') := by
  simp only [TlvParser.past, Nat.add_assoc]

theorem moved_past (p : TlvParser) (n e n' : ℕ) : (p.past n e).moved n' = p.past (n + n') e := past_past p n e n' 0

@[simp] theorem elementCount_past (p : TlvParser) (n e : ℕ) : (p.past n e).elementCount = p.elementCount + e := rfl

theorem rest_past {bs : Bytes} (h : p.rest = bs ++ r) (e : ℕ) : (p.past bs.length e).rest = r := by
  show p.data.drop (p.pos + bs.length) = r
  rw [← List.drop_drop]
  show p.rest.drop bs.length = r
  rw [h, List.drop_left]

theorem pos_add_le {bs : Bytes} (h : p.rest = bs ++ r) (hpos : p.pos ≤ p.data.length ∨ bs ≠ []) :
    p.pos + bs.length ≤ p.data.length := by
  have hlen := congrArg List.length h
  rw [TlvParser.rest, List.length_drop, List.length_append] at hlen
  rcases hpos with hpos | hne
  · omega
  · have hpos := List.length_pos_of_ne_nil hne
    omega

theorem bytesAt_rest {bs : Bytes} (h : p.rest = bs ++ r) (hin : p.pos + bs.length ≤ p.data.length) :
    bytesAt p.data p.pos bs.length = .done bs := by
  have htake : (p.data.drop p.pos).take bs.length = bs := by
    show p.rest.take bs.length = bs
    rw [h, List.take_left]
  rw [bytesAt, if_pos hin, htake]

theorem beBytes_ne_nil (hk : k ≠ 0) : beBytes k n ≠ [] := fun h => by
  have hlen := congrArg List.length h
  rw [length_beBytes] at hlen
  exact hk hlen

theorem readBe_rest (hk : k ≠ 0) (h : p.rest = beBytes k n ++ r) (hn : n < 256 ^ k) :
    p.readBe k = .done (n, p.past k 0) ∧ (p.past k 0).rest = r ∧ p.pos + k ≤ p.data.length := by
  have hin := pos_add_le h (Or.inr (beBytes_ne_nil hk))
  have hbytes := bytesAt_rest h hin
  have hrest := rest_past h 0
  rw [length_beBytes] at hin hbytes hrest
  have hroom : ¬ p.data.length ≤ p.pos + (k - 1) := by omega
  refine ⟨?_, hrest, hin⟩
  rw [TlvParser.readBe, if_neg hroom, hbytes, Run.done_bind, beNat_beBytes, Nat.mod_eq_of_lt hn]
  rfl

/-- It reads `t` back, wherever it meets it, and stands behind it then. -/
def ReadsBack (value : TlvParser → Run Unit (Val × TlvParser)) (t : Tlv) : Prop :=
  ∀ p r, p.rest = t.bytes ++ r → p.elementCount + t.elements ≤ maxElements →
    value p = .done (.ofTlv t, p.past t.bytes.length t.elements)

variable {value : TlvParser → Run Unit (Val × TlvParser)}

theorem decodeItems_bytes {items : List Tlv} (hvalue : ∀ t ∈ items, ReadsBack value t)
    (h : p.rest = Tlv.itemsBytes items ++ r) (hcap : p.elementCount + Tlv.itemsElements items ≤ maxElements) :
    decodeItems value items.length p =
      .done (Val.ofItems items, p.past (Tlv.itemsBytes items).length (Tlv.itemsElements items)) := by
  induction items generalizing p with
  | nil => rfl
  | cons t ts ih =>
    rw [Tlv.itemsBytes, List.append_assoc] at h
    rw [Tlv.itemsElements] at hcap
    have hcount : ¬ maxElements < p.counted.elementCount := by
      show ¬ maxElements < p.elementCount + 1
      omega
    have hitem : value p.counted = .done (.ofTlv t, p.past t.bytes.length (1 + t.elements)) := by
      rw [hvalue t List.mem_cons_self p.counted _ h (by show p.elementCount + 1 + _ ≤ _; omega)]
      show Run.done (_, (p.past 0 1).past _ _) = _
      rw [past_past, Nat.zero_add]
    have hrest := ih (p := p.past t.bytes.length (1 + t.elements))
      (fun u hu => hvalue u (List.mem_cons_of_mem _ hu)) (rest_past h _) (by rw [elementCount_past]; omega)
    rw [List.length_cons, decodeItems, if_neg hcount, hitem, Run.done_bind]
    dsimp only
    rw [hrest, Run.done_bind, past_past, Tlv.itemsBytes, List.length_append]
    rfl

theorem key_bytes {key : Bytes} (h : p.rest = beBytes 2 key.length ++ (key ++ r)) (hkey : key.length < 256 ^ 2) :
    p.readBe 2 = .done (key.length, p.past 2 0) ∧
      ¬ (maxStringLen < key.length ∨ (p.past 2 0).data.length < (p.past 2 0).pos + key.length) ∧
      bytesAt (p.past 2 0).data (p.past 2 0).pos key.length = .done key ∧ (p.past (2 + key.length) 0).rest = r := by
  obtain ⟨hread, hrest, hin⟩ := readBe_rest (by decide) h hkey
  have hin' := pos_add_le hrest (Or.inl hin)
  refine ⟨hread, ?_, bytesAt_rest hrest hin', ?_⟩
  · have hmax : 256 ^ 2 ≤ maxStringLen := by decide
    rintro (hlong | hshort)
    · omega
    · exact absurd hin' (Nat.not_le.mpr hshort)
  · have hafter := rest_past hrest 0
    rwa [past_past] at hafter

theorem mapSet_cString {ν : Type} (key : Bytes) (v : ν) (es : List (Bytes × ν)) :
    mapSet (cString key) v es = mapSet key v es := by
  rw [mapSet, mapSet, cString_cString]

theorem decodeMembers_bytes {entries : List (Bytes × Tlv)} (hkey : ∀ e ∈ entries, e.1.length < 256 ^ 2)
    (hvalue : ∀ e ∈ entries, ReadsBack value e.2) (obj : List (Bytes × Val))
    (h : p.rest = Tlv.entriesBytes entries ++ r) (hcap : p.elementCount + Tlv.entriesElements entries ≤ maxElements) :
    decodeMembers value entries.length obj p =
      .done (mapSetAll (Val.ofEntries entries) obj,
        p.past (Tlv.entriesBytes entries).length (Tlv.entriesElements entries)) := by
  induction entries generalizing p obj with
  | nil => rfl
  | cons e es ih =>
    obtain ⟨key, t⟩ := e
    simp only [Tlv.entriesBytes, List.append_assoc] at h
    rw [Tlv.entriesElements] at hcap
    have hcount : ¬ maxElements < p.counted.elementCount := by
      show ¬ maxElements < p.elementCount + 1
      omega
    obtain ⟨hread, hshort, hbytes, hafter⟩ := key_bytes (p := p.counted) h (hkey _ List.mem_cons_self)
    have hitem : value ((p.counted.past 2 0).moved key.length) =
        .done (.ofTlv t, p.past (2 + key.length + t.bytes.length) (1 + t.elements)) := by
      rw [moved_past]
      refine (hvalue _ List.mem_cons_self _ _ hafter ?_).trans ?_
      · show p.elementCount + 1 + 0 + t.elements ≤ maxElements
        omega
      · show Run.done (_, ((p.past 0 1).past _ _).past _ _) = _
        rw [past_past, past_past, Nat.zero_add, Nat.zero_add]
    have hnext : (p.past (2 + key.length + t.bytes.length) (1 + t.elements)).rest = Tlv.entriesBytes es ++ r := by
      have hrest := rest_past hafter t.elements
      change (((p.past 0 1).past _ _).past _ _).rest = _ at hrest
      rwa [past_past, past_past, Nat.zero_add, Nat.zero_add] at hrest
    have hlength : (Tlv.entriesBytes ((key, t) :: es)).length =
        2 + key.length + t.bytes.length + (Tlv.entriesBytes es).length := by
      simp only [Tlv.entriesBytes, List.length_append, length_beBytes]
      omega
    have hrest := ih (fun e he => hkey e (List.mem_cons_of_mem _ he)) (fun e he => hvalue e (List.mem_cons_of_mem _ he))
      (mapSet key (.ofTlv t) obj) hnext (by rw [elementCount_past]; omega)
    rw [List.length_cons, decodeMembers, if_neg hcount, hread, Run.done_bind]
    dsimp only
    rw [if_neg hshort, hbytes, Run.done_bind, hitem, Run.done_bind]
    dsimp only
    rw [mapSet_cString, hrest, past_past, hlength]
    rfl

theorem readBe_tag {tag : UInt8} (h : p.rest = tag :: r) :
    p.readBe 1 = .done (tag.toNat, p.past 1 0) ∧ (p.past 1 0).rest = r := by
  have htag : beBytes 1 tag.toNat = [tag] := by
    have hone := beBytes_beNat [tag]
    rwa [show beNat [tag] = tag.toNat by simp [beNat, leNat]] at hone
  obtain ⟨hread, hrest, -⟩ := readBe_rest (k := 1) (n := tag.toNat) (by decide) (by rw [htag]; exact h) tag.toNat_lt
  exact ⟨hread, hrest⟩

theorem tagged_field {tag : UInt8} (hk : k ≠ 0) (h : p.rest = tag :: (beBytes k n ++ r)) (hn : n < 256 ^ k) :
    p.readBe 1 = .done (tag.toNat, p.past 1 0) ∧ (p.past 1 0).readBe k = .done (n, p.past (1 + k) 0) ∧
      (p.past (1 + k) 0).rest = r ∧ p.pos + (1 + k) ≤ p.data.length := by
  obtain ⟨htag, hafter⟩ := readBe_tag h
  obtain ⟨hread, hrest, hin⟩ := readBe_rest hk hafter hn
  rw [past_past] at hread hrest
  refine ⟨htag, hread, hrest, ?_⟩
  change p.pos + 1 + k ≤ p.data.length at hin
  omega

/-- **Within its limits, the decoder reads every value back.** -/
theorem decodeValue_bytes {d : ℕ} {t : Tlv} (h : t.Limits d) : ReadsBack (decodeValue d) t := by
  induction h with
  | @string d t len =>
    intro p r h hcap
    rw [Tlv.bytes, List.cons_append, List.append_assoc] at h
    have hfield : t.length < 256 ^ 4 := lt_of_le_of_lt len (by decide)
    obtain ⟨htag, hread, hrest, hin⟩ := tagged_field (by decide) h hfield
    have hin' := pos_add_le hrest (Or.inl hin)
    have hbytes := bytesAt_rest hrest hin'
    rw [decodeValue, htag, Run.done_bind]
    show decodeString (p.past 1 0) = _
    rw [decodeString, hread, Run.done_bind]
    dsimp only
    rw [if_neg (Nat.not_lt.mpr len), if_neg (Nat.not_lt.mpr hin'), hbytes, Run.done_bind, moved_past,
      Tlv.length_bytes_string]
    rfl
  | int i =>
    intro p r h hcap
    obtain ⟨htag, hread, -, -⟩ := tagged_field (by decide) h i.toUInt64.toNat_lt
    rw [decodeValue, htag, Run.done_bind]
    show (p.past 1 0).readBe 8 >>= _ = _
    rw [hread, Run.done_bind]
    dsimp only
    rw [UInt64.ofNat_toNat]
    rfl
  | bool b =>
    intro p r h hcap
    obtain ⟨htag, hafter⟩ := readBe_tag h
    obtain ⟨hread, -⟩ := @readBe_tag _ r b hafter
    have hbool : (b.toNat != 0) = (b != 0) := by
      rw [Bool.eq_iff_iff, bne_iff_ne, bne_iff_ne, Ne, Ne, ← UInt8.toNat_inj]
      rfl
    rw [decodeValue, htag, Run.done_bind]
    show (p.past 1 0).readBe 1 >>= _ = _
    rw [hread, Run.done_bind]
    dsimp only
    rw [hbool, past_past]
    rfl
  | null =>
    intro p r h hcap
    obtain ⟨htag, -⟩ := readBe_tag h
    rw [decodeValue, htag, Run.done_bind]
    rfl
  | @array d items count _ ih =>
    intro p r h hcap
    rw [Tlv.bytes, List.cons_append, List.append_assoc] at h
    obtain ⟨htag, hread, hrest, -⟩ := tagged_field (by decide) h count
    rw [decodeValue, htag, Run.done_bind]
    show (p.past 1 0).readBe 4 >>= _ = _
    rw [hread, Run.done_bind]
    dsimp only
    rw [decodeItems_bytes ih hrest hcap, Run.done_bind, past_past, Nat.zero_add, Tlv.length_bytes_array]
    rfl
  | @object d entries count key _ ih =>
    intro p r h hcap
    rw [Tlv.bytes, List.cons_append, List.append_assoc] at h
    obtain ⟨htag, hread, hrest, -⟩ := tagged_field (by decide) h count
    rw [decodeValue, htag, Run.done_bind]
    show (p.past 1 0).readBe 4 >>= _ = _
    rw [hread, Run.done_bind]
    dsimp only
    rw [decodeMembers_bytes key ih [] hrest hcap, Run.done_bind, past_past, Nat.zero_add, Tlv.length_bytes_object]
    rfl
  | float bits =>
    intro p r h hcap
    obtain ⟨htag, hread, -, -⟩ := tagged_field (by decide) h bits.toNat_lt
    rw [decodeValue, htag, Run.done_bind]
    show (p.past 1 0).readBe 8 >>= _ = _
    rw [hread, Run.done_bind]
    dsimp only
    rw [UInt64.ofNat_toNat]
    rfl

end Reads

end Interp

end VelocityMcp
