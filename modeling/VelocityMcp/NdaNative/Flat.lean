import VelocityMcp.NdaNative.Frame
import VelocityMcp.Resources

/-!
# NdaNative.Flat — frames of values without keys, one after the other (`nda_native.rs`)

`flat_roundTrip_iff`: which requests and which responses are read back.
-/

namespace VelocityMcp

open Lib

/-! ## Leaves -/

namespace Value

mutual

/-- What is left of a value without its arrays, its objects and their keys. -/
def leaves : Value → List Value
  | array items => leavesOfItems items
  | object fields => leavesOfFields fields
  | null => [null]
  | bool b => [bool b]
  | number n => [number n]
  | string s => [string s]

def leavesOfItems : List Value → List Value
  | [] => []
  | v :: vs => leaves v ++ leavesOfItems vs

def leavesOfFields : List (String × Value) → List Value
  | [] => []
  | (_, v) :: fs => leaves v ++ leavesOfFields fs

end

def IsLeaf : Value → Prop
  | array _ => False
  | object _ => False
  | _ => True

theorem isLeaf_of_mem_leaves {v w : Value} (h : w ∈ v.leaves) : w.IsLeaf := by
  induction v with
  | null | bool _ | number _ | string _ =>
    rw [leaves, List.mem_singleton] at h
    rw [h]
    trivial
  | array items ih =>
    rw [leaves] at h
    induction items with
    | nil => simp [leavesOfItems] at h
    | cons v vs ihs =>
      rcases List.mem_append.mp h with h | h
      · exact ih v List.mem_cons_self h
      · exact ihs (fun u hu => ih u (List.mem_cons_of_mem _ hu)) h
  | object fields ih =>
    rw [leaves] at h
    induction fields with
    | nil => simp [leavesOfFields] at h
    | cons p fs ihs =>
      rcases List.mem_append.mp h with h | h
      · exact ih p List.mem_cons_self h
      · exact ihs (fun q hq => ih q (List.mem_cons_of_mem _ hq)) h

end Value

namespace NdaNative

/-! ## The encoder -/

mutual

/-- `encode_flat_value`, as the bytes it appends to `buf`. -/
def encodeFlatValue : Value → Bytes
  | .string s => 0x01 :: (leBytes 4 (utf8 s).length ++ utf8 s)
  | .number n => match n.asI64 with
    | some i => 0x02 :: leBytes 8 i.toUInt64.toNat
    | none => match n.asF64 with
      | some f => 0x05 :: leBytes 8 f.toNat
      | none => 0x02 :: leBytes 8 0
  | .bool b => [0x03, if b then 1 else 0]
  | .null => [0x04]
  | .array items => encodeFlatItems items
  | .object fields => encodeFlatFields fields

def encodeFlatItems : List Value → Bytes
  | [] => []
  | v :: vs => encodeFlatValue v ++ encodeFlatItems vs

def encodeFlatFields : List (String × Value) → Bytes
  | [] => []
  | (_, v) :: fs => encodeFlatValue v ++ encodeFlatFields fs

end

theorem encodeFlatValue_eq (v : Value) : encodeFlatValue v = v.leaves.flatMap encodeFlatValue := by
  induction v with
  | null | bool _ | number _ | string _ => rw [Value.leaves, List.flatMap_singleton]
  | array items ih =>
    rw [encodeFlatValue, Value.leaves]
    induction items with
    | nil => rfl
    | cons v vs ihs =>
      rw [encodeFlatItems, Value.leavesOfItems, List.flatMap_append, ← ih v List.mem_cons_self,
        ihs fun u hu => ih u (List.mem_cons_of_mem _ hu)]
  | object fields ih =>
    rw [encodeFlatValue, Value.leaves]
    induction fields with
    | nil => rfl
    | cons p fs ihs =>
      obtain ⟨k, v⟩ := p
      rw [encodeFlatFields, Value.leavesOfFields, List.flatMap_append, ← ih (k, v) List.mem_cons_self,
        ihs fun q hq => ih q (List.mem_cons_of_mem _ hq)]

/-! ## The decoder -/

def decodeFlatString (buf : Bytes) (offset : ℕ) : Outcome String (Value × ℕ) :=
  if buf.length < offset + 4 then .err "Flat string: missing length"
  else do
    let len ← leAt buf offset 4
    if buf.length < offset + 4 + len then .err "Flat string: truncated"
    else do
      let t ← slice buf (offset + 4) (offset + 4 + len)
      match fromUtf8 t with
      | some s => .ok (.string s, offset + 4 + len)
      | none => .err (utf8ErrorText t)

def decodeFlatInteger (buf : Bytes) (offset : ℕ) : Outcome String (Value × ℕ) :=
  if buf.length < offset + 8 then .err "Flat integer: missing data"
  else do
    let i ← leAt buf offset 8
    .ok (.number (.ofI64 (UInt64.ofNat i).toInt64), offset + 8)

def decodeFlatFloat (buf : Bytes) (offset : ℕ) : Outcome String (Value × ℕ) :=
  if buf.length < offset + 8 then .err "Flat float: missing data"
  else do
    let f ← leAt buf offset 8
    .ok (.ofF64 (UInt64.ofNat f), offset + 8)

def decodeFlatBool (buf : Bytes) (offset : ℕ) : Outcome String (Value × ℕ) :=
  if buf.length < offset + 1 then .err "Flat bool: missing data"
  else do
    let b ← byteAt buf offset
    .ok (.bool (b != 0), offset + 1)

/-- The `match` of `decode_flat_value`, behind the tag. -/
def decodeFlatTag (buf : Bytes) (offset : ℕ) (tag : UInt8) : Outcome String (Value × ℕ) :=
  if tag = 0x01 then decodeFlatString buf offset
  else if tag = 0x02 then decodeFlatInteger buf offset
  else if tag = 0x05 then decodeFlatFloat buf offset
  else if tag = 0x03 then decodeFlatBool buf offset
  else if tag = 0x04 then .ok (.null, offset)
  else .err s!"Flat decode: unknown tag 0x{hex02 tag}"

/-- `decode_flat_value`: the value, and the offset behind it. -/
def decodeFlatValue (buf : Bytes) (offset : ℕ) : Outcome String (Value × ℕ) :=
  if buf.length ≤ offset then .err "Flat decode: unexpected end of buffer"
  else do
    let tag ← byteAt buf offset
    decodeFlatTag buf (offset + 1) tag

section Decoder

variable {buf : Bytes} {offset next : ℕ} {v : Value}

theorem decodeFlatTag_le {tag : UInt8} (h : decodeFlatTag buf offset tag = .ok (v, next)) : offset ≤ next := by
  unfold decodeFlatTag at h
  split_ifs at h with h₁ h₂ h₃ h₄ h₅
  · rw [decodeFlatString, Outcome.ite_err_eq_ok] at h
    obtain ⟨len, -, h⟩ := Outcome.bind_eq_ok.mp h.2
    obtain ⟨t, -, h⟩ := Outcome.bind_eq_ok.mp (Outcome.ite_err_eq_ok.mp h).2
    cases ht : fromUtf8 t with
    | none => simp [ht] at h
    | some s =>
      rw [ht] at h
      have := (Outcome.ok_pair_inj h).2
      omega
  · rw [decodeFlatInteger, Outcome.ite_err_eq_ok] at h
    obtain ⟨i, -, h⟩ := Outcome.bind_eq_ok.mp h.2
    have := (Outcome.ok_pair_inj h).2
    omega
  · rw [decodeFlatFloat, Outcome.ite_err_eq_ok] at h
    obtain ⟨f, -, h⟩ := Outcome.bind_eq_ok.mp h.2
    have := (Outcome.ok_pair_inj h).2
    omega
  · rw [decodeFlatBool, Outcome.ite_err_eq_ok] at h
    obtain ⟨b, -, h⟩ := Outcome.bind_eq_ok.mp h.2
    have := (Outcome.ok_pair_inj h).2
    omega
  · exact (Outcome.ok_pair_inj h).2.le

theorem decodeFlatValue_lt (h : decodeFlatValue buf offset = .ok (v, next)) : offset < next := by
  rw [decodeFlatValue, Outcome.ite_err_eq_ok] at h
  obtain ⟨tag, -, h⟩ := Outcome.bind_eq_ok.mp h.2
  exact Nat.lt_of_succ_le (decodeFlatTag_le h)

/-- The leaves that come back as they were: a string whose length fits its field, and no integer above
`i64::MAX`, which is written as a float. -/
def FlatKept : Value → Prop
  | .string s => (utf8 s).length < 2 ^ 32
  | .number (.posInt n) => n ≤ Number.i64Max
  | _ => True

theorem encodeFlatValue_ne_nil (hleaf : v.IsLeaf) : encodeFlatValue v ≠ [] := by
  cases v with
  | null => simp [encodeFlatValue]
  | bool b => simp [encodeFlatValue]
  | number n =>
    rw [encodeFlatValue]
    cases n.asI64 <;> cases n.asF64 <;> simp
  | string s => simp [encodeFlatValue]
  | array items => exact hleaf.elim
  | object fields => exact hleaf.elim

theorem decodeFlatValue_of_tag {tag : UInt8} {rest : Bytes} (h : At buf offset (tag :: rest)) :
    decodeFlatValue buf offset = decodeFlatTag buf (offset + 1) tag ∧ At buf (offset + 1) rest := by
  obtain ⟨htag, hrest⟩ := at_cons_iff.mp h
  have hlen := htag.length_le
  rw [List.length_singleton] at hlen
  refine ⟨?_, hrest⟩
  rw [decodeFlatValue, if_neg (by omega), htag.byteAt, Outcome.ok_bind]

theorem decodeFlatInteger_of_at {i : Int64} (h : At buf offset (leBytes 8 i.toUInt64.toNat)) :
    decodeFlatInteger buf offset = .ok (.number (.ofI64 i), offset + 8) := by
  have hlen := h.length_le
  rw [length_leBytes] at hlen
  rw [decodeFlatInteger, if_neg (by omega), h.leAt i.toUInt64.toNat_lt, Outcome.ok_bind, UInt64.ofNat_toNat]
  rfl

theorem decodeFlatFloat_of_at {f : UInt64} (h : At buf offset (leBytes 8 f.toNat)) :
    decodeFlatFloat buf offset = .ok (.ofF64 f, offset + 8) := by
  have hlen := h.length_le
  rw [length_leBytes] at hlen
  rw [decodeFlatFloat, if_neg (by omega), h.leAt f.toNat_lt, Outcome.ok_bind, UInt64.ofNat_toNat]

theorem decodeFlatBool_of_at {b : Bool} (h : At buf offset [if b then 1 else 0]) :
    decodeFlatBool buf offset = .ok (.bool b, offset + 1) := by
  have hlen := h.length_le
  rw [List.length_singleton] at hlen
  rw [decodeFlatBool, if_neg (by omega), h.byteAt, Outcome.ok_bind]
  cases b <;> rfl

theorem decodeFlatString_of_at {n : ℕ} {rest : Bytes} (h : At buf offset (leBytes 4 n ++ rest)) :
    decodeFlatString buf offset =
      if buf.length < offset + 4 + n % 2 ^ 32 then .err "Flat string: truncated"
      else (slice buf (offset + 4) (offset + 4 + n % 2 ^ 32)).bind fun t =>
        match fromUtf8 t with
        | some s => .ok (.string s, offset + 4 + n % 2 ^ 32)
        | none => .err (utf8ErrorText t) := by
  obtain ⟨hlen, -⟩ := at_append_iff.mp h
  have hroom := hlen.length_le
  rw [length_leBytes] at hroom
  rw [decodeFlatString, if_neg (by omega), hlen.leAt_mod, Outcome.ok_bind]
  rfl

/-- **A kept leaf is read back**, and the decoder stops behind it. -/
theorem decodeFlatValue_of_kept (hleaf : v.IsLeaf) (hkept : FlatKept v) (h : At buf offset (encodeFlatValue v)) :
    decodeFlatValue buf offset = .ok (v, offset + (encodeFlatValue v).length) := by
  cases v with
  | null =>
    rw [(decodeFlatValue_of_tag h).1]
    rfl
  | bool b =>
    obtain ⟨htag, hrest⟩ := decodeFlatValue_of_tag h
    rw [htag]
    exact decodeFlatBool_of_at hrest
  | number n =>
    cases n with
    | posInt n =>
      have hi : (Number.posInt n).asI64 = some n.toInt64 := if_pos hkept
      simp only [encodeFlatValue, hi] at h ⊢
      obtain ⟨htag, hrest⟩ := decodeFlatValue_of_tag h
      have hread : decodeFlatInteger buf (offset + 1) = _ := decodeFlatInteger_of_at hrest
      rw [htag, List.length_cons, length_leBytes]
      rw [Number.ofI64_toInt64 hkept] at hread
      exact hread
    | negInt i neg =>
      obtain ⟨htag, hrest⟩ := decodeFlatValue_of_tag h
      have hread : decodeFlatInteger buf (offset + 1) = _ := decodeFlatInteger_of_at hrest
      rw [Number.ofI64, dif_pos neg] at hread
      rw [htag]
      exact hread
    | float bits finite =>
      obtain ⟨htag, hrest⟩ := decodeFlatValue_of_tag h
      have hread : decodeFlatFloat buf (offset + 1) = _ := decodeFlatFloat_of_at hrest
      rw [Value.ofF64, dif_pos finite] at hread
      rw [htag]
      exact hread
  | string s =>
    obtain ⟨htag, hrest⟩ := decodeFlatValue_of_tag h
    have htext := (at_append_iff.mp hrest).2
    have hroom := htext.length_le
    rw [length_leBytes] at htext hroom
    have hmod : (utf8 s).length % 2 ^ 32 = (utf8 s).length := Nat.mod_eq_of_lt hkept
    have hread : decodeFlatString buf (offset + 1) = _ := decodeFlatString_of_at hrest
    rw [hmod, if_neg (by omega), htext.slice rfl] at hread
    simp only [Outcome.bind, fromUtf8_utf8] at hread
    rw [htag, encodeFlatValue, List.length_cons, List.length_append, length_leBytes]
    refine Eq.trans hread ?_
    rw [show offset + 1 + 4 + (utf8 s).length = offset + (4 + (utf8 s).length + 1) by omega]
  | array items => exact hleaf.elim
  | object fields => exact hleaf.elim

/-- **Another leaf never is.** -/
theorem decodeFlatValue_of_not_kept (hkept : ¬ FlatKept v) (h : At buf offset (encodeFlatValue v)) {w : Value}
    (hw : decodeFlatValue buf offset = .ok (w, next)) : w ≠ v := by
  cases v with
  | number n =>
    cases n with
    | posInt n =>
      have hi : (Number.posInt n).asI64 = none := if_neg hkept
      simp only [encodeFlatValue, hi] at h
      obtain ⟨htag, hrest⟩ := decodeFlatValue_of_tag h
      have hread : decodeFlatFloat buf (offset + 1) = _ := decodeFlatFloat_of_at hrest
      have hw' : decodeFlatFloat buf (offset + 1) = .ok (w, next) := htag.symm.trans hw
      rw [← (Outcome.ok_pair_inj (hread.symm.trans hw')).1, Value.ofF64]
      split_ifs <;> simp
    | negInt i neg => exact absurd trivial hkept
    | float bits finite => exact absurd trivial hkept
  | string s =>
    obtain ⟨htag, hrest⟩ := decodeFlatValue_of_tag h
    have hw' : decodeFlatString buf (offset + 1) = .ok (w, next) := htag.symm.trans hw
    rw [decodeFlatString_of_at hrest, Outcome.ite_err_eq_ok] at hw'
    obtain ⟨hroom, hw'⟩ := hw'
    obtain ⟨t, ht, hw'⟩ := Outcome.bind_eq_ok.mp hw'
    rintro rfl
    cases hs : fromUtf8 t with
    | none => simp [hs] at hw'
    | some s' =>
      rw [hs] at hw'
      obtain rfl : s' = s := Value.string.inj (Outcome.ok_pair_inj hw').1
      have hlen := congrArg List.length (utf8_of_fromUtf8 hs)
      have hsize := (at_of_slice ht).2
      have hlt : (utf8 s').length % 2 ^ 32 < 2 ^ 32 := Nat.mod_lt _ (by norm_num)
      simp only [FlatKept] at hkept
      omega
  | null => exact absurd trivial hkept
  | bool b => exact absurd trivial hkept
  | array items => exact absurd trivial hkept
  | object fields => exact absurd trivial hkept

end Decoder

/-! ## The frames -/

section Frames

variable (cfg : Config)

def buildNdaFrame (payload : Bytes) : Bytes :=
  ndaMagic ++ ((if cfg.merkleEnabled then cfg.sha256 payload else List.replicate 32 0) ++ payload)

def valueToU64 : Value → UInt64
  | .number n => n.asU64.getD 0
  | .string s => UInt64.ofNat ((parseUsize s).getD 0)
  | _ => 0

/-- What both parsers do first, each with its own texts. -/
def flatPayload (tooSmall mismatch empty : String) (frame : Bytes) : Outcome String Bytes :=
  if frame.length < frameHeaderSize then .err tooSmall
  else do
    let magic ← slice frame 0 4
    if magic ≠ ndaMagic then .err "Invalid NDA magic"
    else do
      let storedMerkle ← slice frame 4 36
      let payload ← sliceFrom frame frameHeaderSize
      if cfg.merkleEnabled ∧ storedMerkle ≠ cfg.sha256 payload then .err mismatch
      else if payload = [] then .err empty
      else .ok payload

/-- The loop of both parsers: the fields up to the end of the payload. -/
def readFields (tooMany : String) (payload : Bytes) (offset : ℕ) (fields : List Value) :
    Outcome String (List Value) :=
  if offset < payload.length then
    if tlvMaxElements ≤ fields.length then .err tooMany
    else match _h : decodeFlatValue payload offset with
      | .ok (v, next) => readFields tooMany payload next (fields ++ [v])
      | .err e => .err e
      | .panic => .panic
  else .ok fields
termination_by payload.length - offset
decreasing_by
  have := decodeFlatValue_lt _h
  omega

structure FlatRequest where
  method : UInt8
  requestId : UInt64
  toolName : String
  fields : List Value

def buildFlatRequest (method : UInt8) (requestId : Value) (toolName : String) (arguments : Value) : Bytes :=
  buildNdaFrame cfg (method :: (leBytes 8 (valueToU64 requestId).toNat ++
    (leBytes 2 (utf8 toolName).length ++ (utf8 toolName ++ encodeFlatValue arguments))))

/-- The method, an id of eight bytes, and the tool's name and arguments behind their lengths. -/
def parseFlatRequest (frame : Bytes) : Outcome String FlatRequest := do
  let payload ← flatPayload cfg "Flat frame too small" "Flat frame Merkle root mismatch" "Flat payload is empty" frame
  let method ← byteAt payload 0
  if payload.length < 9 then .err "Flat: missing request id"
  else do
    let requestId ← leAt payload 1 8
    if payload.length < 11 then .err "Flat: missing tool name length"
    else do
      let nameLen ← leAt payload 9 2
      if payload.length < 11 + nameLen then .err "Flat: truncated tool name"
      else do
        let t ← slice payload 11 (11 + nameLen)
        match fromUtf8 t with
        | none => .err (utf8ErrorText t)
        | some toolName => do
          let fields ← readFields s!"Flat request field count exceeds maximum {tlvMaxElements}" payload
            (11 + nameLen) []
          .ok ⟨method, UInt64.ofNat requestId, toolName, fields⟩

structure FlatResponse where
  status : UInt8
  requestId : UInt64
  fields : List Value

def buildFlatResponse (status : UInt8) (requestId : UInt64) (result : Value) : Bytes :=
  buildNdaFrame cfg (status :: (leBytes 8 requestId.toNat ++ encodeFlatValue result))

def parseFlatResponse (frame : Bytes) : Outcome String FlatResponse := do
  let payload ← flatPayload cfg "Flat response frame too small" "Flat response Merkle root mismatch"
    "Flat response payload empty" frame
  let status ← byteAt payload 0
  if payload.length < 9 then .err "Flat: missing response request id"
  else do
    let requestId ← leAt payload 1 8
    let fields ← readFields s!"Flat response field count exceeds maximum {tlvMaxElements}" payload 9 []
    .ok ⟨status, UInt64.ofNat requestId, fields⟩

end Frames

/-! ## The loop -/

section Loop

variable {tooMany : String} {payload : Bytes} {offset : ℕ} {fields : List Value}

theorem readFields_of_lt (hlt : offset < payload.length) (hroom : fields.length < tlvMaxElements) :
    readFields tooMany payload offset fields =
      decodeFlatValue payload offset >>= fun p => readFields tooMany payload p.2 (fields ++ [p.1]) := by
  rw [readFields, if_pos hlt, if_neg (Nat.not_le.mpr hroom)]
  cases h : decodeFlatValue payload offset <;> rfl

theorem prefix_readFields {r : List Value} (h : readFields tooMany payload offset fields = .ok r) :
    fields <+: r := by
  induction offset, fields using readFields.induct payload with
  | case1 offset fields hlt hfull =>
    rw [readFields, if_pos hlt, if_pos hfull] at h
    simp at h
  | case2 offset fields hlt hroom v next hv ih =>
    rw [readFields_of_lt hlt (Nat.not_le.mp hroom), hv, Outcome.ok_bind] at h
    exact (List.prefix_append fields [v]).trans (ih h)
  | case3 offset fields hlt hroom e he =>
    rw [readFields_of_lt hlt (Nat.not_le.mp hroom), he] at h
    simp at h
  | case4 offset fields hlt hroom hp =>
    rw [readFields_of_lt hlt (Nat.not_le.mp hroom), hp] at h
    simp at h
  | case5 offset fields hge =>
    rw [readFields, if_neg hge, Outcome.ok.injEq] at h
    exact h ▸ List.prefix_refl fields

/-- **What is read back**: at the end of a payload, as many leaves as the parsers take, all of them kept. -/
theorem readFields_eq_ok_iff {vs : List Value} (hleaf : ∀ v ∈ vs, v.IsLeaf)
    (h : At payload offset (vs.flatMap encodeFlatValue))
    (hend : offset + (vs.flatMap encodeFlatValue).length = payload.length) :
    readFields tooMany payload offset fields = .ok (fields ++ vs) ↔
      (∀ v ∈ vs, FlatKept v) ∧ (vs = [] ∨ fields.length + vs.length ≤ tlvMaxElements) := by
  induction vs generalizing offset fields with
  | nil =>
    have hge : ¬ offset < payload.length := by
      simp only [List.flatMap_nil, List.length_nil] at hend
      omega
    rw [readFields, if_neg hge]
    simp
  | cons v vs ih =>
    rw [List.flatMap_cons] at h hend
    obtain ⟨hv, hvs⟩ := at_append_iff.mp h
    have hpos := List.length_pos_iff.mpr (encodeFlatValue_ne_nil (hleaf v List.mem_cons_self))
    have hlt : offset < payload.length := by
      rw [List.length_append] at hend
      omega
    by_cases hroom : fields.length < tlvMaxElements
    · rw [readFields_of_lt hlt hroom]
      by_cases hkept : FlatKept v
      · have hread := decodeFlatValue_of_kept (hleaf v List.mem_cons_self) hkept hv
        have hrest := @ih (offset + (encodeFlatValue v).length) (fields ++ [v])
          (fun w hw => hleaf w (List.mem_cons_of_mem _ hw)) hvs (by rw [← hend, List.length_append, Nat.add_assoc])
        rw [List.append_assoc, List.singleton_append, List.length_append, List.length_singleton] at hrest
        rw [hread, Outcome.ok_bind, hrest, List.forall_mem_cons, List.length_cons]
        constructor
        · rintro ⟨hall, hcount⟩
          refine ⟨⟨hkept, hall⟩, Or.inr ?_⟩
          rcases hcount with rfl | hcount
          · rw [List.length_nil]
            omega
          · omega
        · rintro ⟨⟨-, hall⟩, hcount⟩
          rcases hcount with hnil | hcount
          · simp at hnil
          · exact ⟨hall, Or.inr (by omega)⟩
      · refine iff_of_false ?_ (fun hall => hkept (hall.1 v List.mem_cons_self))
        intro hok
        obtain ⟨⟨w, next⟩, hw, hok⟩ := Outcome.bind_eq_ok.mp hok
        have hfront := prefix_readFields hok
        rw [List.prefix_append_right_inj, List.cons_prefix_cons] at hfront
        exact decodeFlatValue_of_not_kept hkept hv hw hfront.1
    · refine iff_of_false ?_ ?_
      · rw [readFields, if_pos hlt, if_pos (Nat.not_lt.mp hroom)]
        simp
      · rintro ⟨-, hnil | hcount⟩
        · simp at hnil
        · rw [List.length_cons] at hcount
          omega

end Loop

/-! ## The round trips -/

section RoundTrip

variable {cfg : Config}

theorem flatPayload_buildNdaFrame (hsha : ∀ b, (cfg.sha256 b).length = 32) {payload : Bytes}
    (hpayload : payload ≠ []) (tooSmall mismatch empty : String) :
    flatPayload cfg tooSmall mismatch empty (buildNdaFrame cfg payload) = .ok payload := by
  set root := if cfg.merkleEnabled then cfg.sha256 payload else List.replicate 32 0 with hroot
  have hlen : root.length = 32 := by
    rw [hroot]
    split_ifs
    · exact hsha payload
    · rw [List.length_replicate]
  have hframe : buildNdaFrame cfg payload = ndaMagic ++ (root ++ payload) := rfl
  have hsize : (buildNdaFrame cfg payload).length = 36 + payload.length := by
    rw [hframe, List.length_append, List.length_append, hlen, ← Nat.add_assoc]
    rfl
  have hmagic : slice (ε := String) (buildNdaFrame cfg payload) 0 4 = .ok ndaMagic :=
    (at_zero ndaMagic (root ++ payload)).slice rfl
  have hstored : slice (ε := String) (buildNdaFrame cfg payload) 4 36 = .ok root := by
    apply (at_append ndaMagic root payload).slice
    rw [hlen]
    rfl
  have hrest : sliceFrom (ε := String) (buildNdaFrame cfg payload) frameHeaderSize = .ok payload := by
    rw [sliceFrom_of_le (by rw [hsize, frameHeaderSize]; omega), hframe, ← List.append_assoc,
      List.drop_left' (by rw [List.length_append, hlen]; rfl)]
  have hmerkle : ¬ (cfg.merkleEnabled = true ∧ root ≠ cfg.sha256 payload) := by
    rintro ⟨hon, hne⟩
    exact hne (by rw [hroot, if_pos hon])
  rw [flatPayload, if_neg (by rw [hsize, frameHeaderSize]; omega), hmagic, Outcome.ok_bind,
    if_neg (not_not_intro rfl), hstored, Outcome.ok_bind, hrest, Outcome.ok_bind, if_neg hmerkle, if_neg hpayload]

theorem parseFlatRequest_buildFlatRequest (hsha : ∀ b, (cfg.sha256 b).length = 32) (method : UInt8)
    (requestId : Value) (toolName : String) (arguments : Value) :
    ∃ payload tooMany, payload.length = 11 + (utf8 toolName).length + (encodeFlatValue arguments).length ∧
      At payload (11 + (utf8 toolName).length) (encodeFlatValue arguments) ∧
      parseFlatRequest cfg (buildFlatRequest cfg method requestId toolName arguments) =
        (let nameLen := (utf8 toolName).length % 2 ^ 16
        let t := (utf8 toolName).take nameLen
        match fromUtf8 t with
        | none => .err (utf8ErrorText t)
        | some name => do
          let fields ← readFields tooMany payload (11 + nameLen) []
          .ok ⟨method, valueToU64 requestId, name, fields⟩) := by
  set n := (utf8 toolName).length with hn
  set payload := method :: (leBytes 8 (valueToU64 requestId).toNat ++ (leBytes 2 n ++
    (utf8 toolName ++ encodeFlatValue arguments))) with hpayload
  have hsome : payload ≠ [] := List.cons_ne_nil _ _
  have hlen : payload.length = 11 + n + (encodeFlatValue arguments).length := by
    simp only [hpayload, List.length_cons, List.length_append, length_leBytes, ← hn]
    omega
  obtain ⟨hmethod, hafter⟩ := at_cons_iff.mp (at_zero payload [])
  rw [List.append_nil] at hmethod hafter
  obtain ⟨hid, hafter⟩ := at_append_iff.mp hafter
  obtain ⟨hname, hafter⟩ := at_append_iff.mp hafter
  obtain ⟨htext, hafter⟩ := at_append_iff.mp hafter
  simp only [length_leBytes, ← hn, Nat.zero_add] at hid hname htext hafter
  have hmod : n % 2 ^ 16 ≤ n := Nat.mod_le _ _
  have htake : slice (ε := String) payload 11 (11 + n % 2 ^ 16) = .ok ((utf8 toolName).take (n % 2 ^ 16)) := by
    rw [slice_of_le (by omega) (by omega)]
    obtain ⟨q, hq⟩ := htext.drop
    rw [show 1 + 8 + 2 = 11 from rfl] at hq
    rw [hq, show 11 + n % 2 ^ 16 - 11 = n % 2 ^ 16 by omega, List.take_append_of_le_length (hn ▸ hmod)]
  have hnameLen : leAt (ε := String) payload 9 2 = .ok (n % 2 ^ 16) := hname.leAt_mod
  have hbuilt : buildFlatRequest cfg method requestId toolName arguments = buildNdaFrame cfg payload := rfl
  refine ⟨payload, s!"Flat request field count exceeds maximum {tlvMaxElements}", hlen, hafter, ?_⟩
  rw [parseFlatRequest, hbuilt, flatPayload_buildNdaFrame hsha hsome, Outcome.ok_bind,
    hmethod.byteAt, Outcome.ok_bind, if_neg (by omega), hid.leAt (valueToU64 requestId).toNat_lt, Outcome.ok_bind,
    if_neg (by omega), hnameLen, Outcome.ok_bind, if_neg (by omega), htake, Outcome.ok_bind, UInt64.ofNat_toNat]

theorem parseFlatResponse_buildFlatResponse (hsha : ∀ b, (cfg.sha256 b).length = 32) (status : UInt8)
    (requestId : UInt64) (result : Value) :
    ∃ payload tooMany, payload.length = 9 + (encodeFlatValue result).length ∧
      At payload 9 (encodeFlatValue result) ∧
      parseFlatResponse cfg (buildFlatResponse cfg status requestId result) = (do
        let fields ← readFields tooMany payload 9 []
        .ok ⟨status, requestId, fields⟩) := by
  set payload := status :: (leBytes 8 requestId.toNat ++ encodeFlatValue result) with hpayload
  have hsome : payload ≠ [] := List.cons_ne_nil _ _
  have hlen : payload.length = 9 + (encodeFlatValue result).length := by
    simp only [hpayload, List.length_cons, List.length_append, length_leBytes]
    omega
  obtain ⟨hstatus, hafter⟩ := at_cons_iff.mp (at_zero payload [])
  rw [List.append_nil] at hstatus hafter
  obtain ⟨hid, hafter⟩ := at_append_iff.mp hafter
  simp only [length_leBytes, Nat.zero_add] at hid hafter
  have hbuilt : buildFlatResponse cfg status requestId result = buildNdaFrame cfg payload := rfl
  refine ⟨payload, s!"Flat response field count exceeds maximum {tlvMaxElements}", hlen, hafter, ?_⟩
  rw [parseFlatResponse, hbuilt, flatPayload_buildNdaFrame hsha hsome, Outcome.ok_bind,
    hstatus.byteAt, Outcome.ok_bind, if_neg (by omega), hid.leAt requestId.toNat_lt, Outcome.ok_bind,
    UInt64.ofNat_toNat]

/-- A flat request comes back: its id is a number, and the arguments are what the format carries of them. -/
def RequestReadBack (cfg : Config) (method : UInt8) (requestId : Value) (toolName : String) (arguments : Value) :
    Prop :=
  ∃ n, requestId = .number (.posInt n) ∧
    parseFlatRequest cfg (buildFlatRequest cfg method requestId toolName arguments) =
      .ok ⟨method, n, toolName, arguments.leaves⟩

/-- A flat response comes back, with what the format carries of the result. -/
def ResponseReadBack (cfg : Config) (status : UInt8) (requestId : UInt64) (result : Value) : Prop :=
  parseFlatResponse cfg (buildFlatResponse cfg status requestId result) = .ok ⟨status, requestId, result.leaves⟩

theorem readFields_leaves {tooMany : String} {payload : Bytes} {offset : ℕ} {v : Value}
    (h : At payload offset (encodeFlatValue v)) (hend : payload.length = offset + (encodeFlatValue v).length) :
    readFields tooMany payload offset [] = .ok v.leaves ↔
      (∀ w ∈ v.leaves, FlatKept w) ∧ v.leaves.length ≤ tlvMaxElements := by
  rw [encodeFlatValue_eq] at h hend
  have hiff := @readFields_eq_ok_iff tooMany payload offset [] v.leaves (fun w hw => Value.isLeaf_of_mem_leaves hw)
    h hend.symm
  rw [List.nil_append, List.length_nil, Nat.zero_add] at hiff
  rw [hiff, and_congr_right_iff]
  intro _
  constructor
  · rintro (hnil | hcount)
    · rw [hnil]
      exact Nat.zero_le _
    · exact hcount
  · exact Or.inr

theorem name_lt_of_requestReadBack (hsha : ∀ b, (cfg.sha256 b).length = 32) {method : UInt8} {requestId : Value}
    {toolName : String} {arguments : Value} (h : RequestReadBack cfg method requestId toolName arguments) :
    (utf8 toolName).length < 2 ^ 16 := by
  obtain ⟨n, -, hparse⟩ := h
  obtain ⟨payload, tooMany, -, -, hread⟩ :=
    parseFlatRequest_buildFlatRequest hsha method requestId toolName arguments
  rw [hparse] at hread
  dsimp only at hread
  split at hread
  · simp at hread
  · rename_i name hname
    obtain ⟨fields, -, hread⟩ := Outcome.bind_eq_ok.mp hread.symm
    simp only [Outcome.ok.injEq, FlatRequest.mk.injEq] at hread
    have hlen := congrArg List.length (utf8_of_fromUtf8 hname)
    rw [hread.2.2.1, List.length_take] at hlen
    have hlt : (utf8 toolName).length % 2 ^ 16 < 2 ^ 16 := Nat.mod_lt _ (by norm_num)
    omega

/-- **Flat round trips.**  A request of at most as many leaves as the parser takes is read back exactly if its
id is a `u64`, its tool name has fewer than `2 ^ 16` bytes and all its leaves are kept; a response, exactly if
its leaves are kept and not too many. -/
theorem flat_roundTrip_iff (hsha : ∀ b, (cfg.sha256 b).length = 32) :
    (∀ (method : UInt8) (requestId : Value) (toolName : String) (arguments : Value),
      arguments.leaves.length ≤ tlvMaxElements →
      (RequestReadBack cfg method requestId toolName arguments ↔
        (∃ n, requestId = .number (.posInt n)) ∧ (utf8 toolName).length < 2 ^ 16 ∧
          ∀ v ∈ arguments.leaves, FlatKept v)) ∧
    (∀ (status : UInt8) (requestId : UInt64) (result : Value),
      ResponseReadBack cfg status requestId result ↔
        (∀ v ∈ result.leaves, FlatKept v) ∧ result.leaves.length ≤ tlvMaxElements) := by
  constructor
  · intro method requestId toolName arguments hcount
    obtain ⟨payload, tooMany, hlen, hat, hread⟩ :=
      parseFlatRequest_buildFlatRequest hsha method requestId toolName arguments
    have hleaves : readFields tooMany payload (11 + (utf8 toolName).length) [] = .ok arguments.leaves ↔
        ∀ v ∈ arguments.leaves, FlatKept v := by
      rw [readFields_leaves hat hlen]
      exact and_iff_left hcount
    constructor
    · intro h
      have hname := name_lt_of_requestReadBack hsha h
      obtain ⟨n, hid, hparse⟩ := h
      refine ⟨⟨n, hid⟩, hname, hleaves.mp ?_⟩
      simp only [hparse, Nat.mod_eq_of_lt hname, List.take_length, fromUtf8_utf8] at hread
      obtain ⟨fields, hfields, hread⟩ := Outcome.bind_eq_ok.mp hread.symm
      simp only [Outcome.ok.injEq, FlatRequest.mk.injEq] at hread
      rw [hfields, hread.2.2.2]
    · rintro ⟨⟨n, rfl⟩, hname, hkept⟩
      refine ⟨n, rfl, ?_⟩
      simp only [Nat.mod_eq_of_lt hname, List.take_length, fromUtf8_utf8, hleaves.mpr hkept] at hread
      exact hread
  · intro status requestId result
    obtain ⟨payload, tooMany, hlen, hat, hread⟩ :=
      parseFlatResponse_buildFlatResponse hsha status requestId result
    rw [ResponseReadBack, hread, ← @readFields_leaves tooMany _ _ _ hat hlen]
    constructor
    · intro h
      obtain ⟨fields, hfields, h⟩ := Outcome.bind_eq_ok.mp h
      simp only [Outcome.ok.injEq, FlatResponse.mk.injEq] at h
      rw [hfields, h.2.2]
    · intro h
      rw [h, Outcome.ok_bind]

/-- The SHA-256 digest of the payload of `flatPing`. -/
def flatDigest : Bytes :=
  [0x19, 0x11, 0xb4, 0xe3, 0x60, 0xbe, 0x12, 0x68, 0xa7, 0x1c, 0x94, 0xfd, 0x3a, 0x85, 0xc3, 0x9e,
   0x5b, 0xf3, 0xf5, 0xba, 0x61, 0x4d, 0xd5, 0x20, 0x0f, 0x12, 0x6d, 0x5e, 0x5c, 0x54, 0x9e, 0x00]

/-- The arguments `[1, "a"]`. -/
def flatPing : Value := .array [.number (.posInt 1), .string "a"]

/-- The id 7 and the tool name `ping`. -/
theorem flat_roundTrip_ping :
    RequestReadBack { defaultConfig with sha256 := fun _ => flatDigest } 0x04 (.number (.posInt 7)) "ping"
      flatPing := by
  have hroundTrip := @flat_roundTrip_iff { defaultConfig with sha256 := fun _ => flatDigest } fun _ => rfl
  refine (hroundTrip.1 0x04 (.number (.posInt 7)) "ping" flatPing (by decide)).mpr ⟨⟨7, rfl⟩, by decide +kernel, ?_⟩
  intro v hv
  rcases List.mem_pair.mp hv with rfl | rfl
  · exact show (1 : UInt64) ≤ Number.i64Max by decide
  · exact show (utf8 "a").length < 2 ^ 32 by decide +kernel

/-- A name of 65536 bytes: its length field holds 0. -/
theorem longToolName_lost :
    2 ^ 16 ≤ (utf8 (String.ofList (List.replicate 65536 'a'))).length ∧
      ∀ cfg : Config, (∀ b, (cfg.sha256 b).length = 32) →
        ¬ RequestReadBack cfg 0x03 (.number (.posInt 1)) (String.ofList (List.replicate 65536 'a')) .null := by
  have hle := le_length_utf8_ofList (List.replicate 65536 'a')
  rw [List.length_replicate] at hle
  refine ⟨hle, fun cfg hsha h => ?_⟩
  have hlt := name_lt_of_requestReadBack hsha h
  omega

end RoundTrip

end NdaNative

end VelocityMcp
