import VelocityMcp.NdaNative.Field
import VelocityMcp.Wasm.Registry

/-!
# Registry.Frames — the frames of `convert_to_nda_tool`, written and read (`registry.rs`)

The TLV codec of `registry.rs` is line for line that of `nda_native.rs`.
-/

namespace VelocityMcp.Registry

open Lib NdaNative

/-! ## Writing -/

/-- `b"NMCP"`. -/
def nmcpMagic : Bytes := [0x4e, 0x4d, 0x43, 0x50]

def methodType (method : String) : Outcome String UInt8 :=
  if method = "tools/call" then .ok 1
  else if method = "tools/list" then .ok 2
  else if method = "initialize" then .ok 3
  else .err s!"Unknown method: {method}"

/-- `as_str().ok_or(missing)?`. -/
def strOr (v : Value) (missing : String) : Outcome String String :=
  match v.asStr with
  | some s => .ok s
  | none => .err missing

def nmcpPayload (methodType : UInt8) (toolName : String) (args : Bytes) : Bytes :=
  methodType :: (beBytes 2 (utf8 toolName).length ++ (utf8 toolName ++ (beBytes 4 args.length ++ args)))

def nmcpFrame (sha256 : Bytes → Bytes) (payload : Bytes) : Bytes := nmcpMagic ++ (sha256 payload ++ payload)

/-- `params.name`. -/
def requestName (request : Value) : Value := (request.index "params").index "name"

def requestArguments (request : Value) : Value := (request.index "params").index "arguments"

/-- The frame that `json_to_nmcp_frame` writes, from the parsed request. -/
def frameOfRequest (sha256 : Bytes → Bytes) (request : Value) : Outcome String Bytes := do
  let method ← strOr (request.index "method") "Missing 'method' field"
  let toolName ← strOr (requestName request) "Missing 'params.name' field"
  let methodType ← methodType method
  let args ← (encodeJsonValue (requestArguments request)).toOutcome
  .ok (nmcpFrame sha256 (nmcpPayload methodType toolName args))

/-! ## Reading -/

/-- The arguments of a frame that is for the tool: the first part of `execute_cached_nmcp_frame`. -/
def parseCachedFrame (toolName : String) (nda : Bytes) : Outcome String Bytes :=
  if nda.length < 37 then .err "NDA binary too small"
  else do
    let magic ← slice nda 0 4
    if magic ≠ nmcpMagic then .err "Invalid NDA binary: bad magic"
    else do
      let nameLen ← beAt nda 37 2
      if nda.length < 39 + nameLen then .err "NDA binary truncated: missing tool name"
      else do
        let name ← slice nda 39 (39 + nameLen)
        match fromUtf8 name with
        | none => .err (utf8ErrorText name)
        | some binaryToolName =>
          if binaryToolName ≠ toolName then
            .err s!"NDA binary tool name mismatch: expected '{toolName}', found '{binaryToolName}'"
          else if nda.length < 39 + nameLen + 4 then .err "NDA binary truncated: missing args length"
          else do
            let argsLen ← beAt nda (39 + nameLen) 4
            if nda.length < 39 + nameLen + 4 + argsLen then
              .err "NDA binary truncated: args data extends beyond buffer"
            else slice nda (39 + nameLen + 4) (39 + nameLen + 4 + argsLen)

def tlvToI64 (tlv : Bytes) : Outcome String Int64 :=
  if tlv = [] then .err "expected integer TLV"
  else do
    let tag ← byteAt tlv 0
    if tag ≠ 0x02 then .err "expected integer TLV"
    else if tlv.length < 9 then .err "truncated integer"
    else do
      let i ← beAt tlv 1 8
      .ok (UInt64.ofNat i).toInt64

def tlvToStr (tlv : Bytes) : Outcome String String :=
  if tlv = [] then .err "expected string TLV"
  else do
    let tag ← byteAt tlv 0
    if tag ≠ 0x01 then .err "expected string TLV"
    else if tlv.length < 5 then .err "truncated string"
    else do
      let len ← beAt tlv 1 4
      if tlv.length < 5 + len then .err "truncated string data"
      else do
        let t ← slice tlv 5 (5 + len)
        match fromUtf8 t with
        | some s => .ok s
        | none => .err (utf8ErrorText t)

/-- What the execution of a frame calls in the end. -/
inductive FrameCall where
  /-- `bench_echo_impl` -/
  | benchEcho (size : UInt64)
  /-- `file_read_impl` -/
  | fileRead (path : String)
  /-- `call_tool_with_csharp_path` -/
  | builtin (args : Value)
  /-- `execute_csharp_mcp_tool` -/
  | csharp (args : Value)

/-- `tlv_to_i64(size_tlv).unwrap_or(64) as u64`. -/
def sizeOfTlv (tlv : Bytes) : Outcome String UInt64 :=
  match tlvToI64 tlv with
  | .ok i => .ok i.toUInt64
  | .err _ => .ok 64
  | .panic => .panic

/-- The two built-in tools that are run from the encoded arguments. -/
def fastPath (toolName : String) (args : Bytes) : Outcome String (Option FrameCall) :=
  if toolName = "bench_echo" then do
    let field ← (extractTlvField args (utf8 "size")).mapErr FieldError.text
    match field with
    | some tlv => do
      let size ← sizeOfTlv tlv
      .ok (some (.benchEcho size))
    | none => .ok none
  else if toolName = "file_read" then do
    let field ← (extractTlvField args (utf8 "path")).mapErr FieldError.text
    match field with
    | some tlv => do
      let path ← tlvToStr tlv
      .ok (some (.fileRead path))
    | none => .ok none
  else .ok none

/-- `effective_args`: the caller's, if they are an object with entries. -/
def effectiveArgs (arguments original : Value) : Value :=
  match arguments with
  | .object (_ :: _) => arguments
  | _ => original

/-- The second part: the fast path, or the decoded arguments. -/
def planArgs (toolName : String) (arguments : Value) (args : Bytes) : Outcome String FrameCall := do
  let fast ← fastPath toolName args
  match fast with
  | some call => .ok call
  | none => do
    let (original, _) ← (decodeJsonValue args).mapErr DecodeError.text
    if toolName ∈ Wasm.builtinToolNames then .ok (.builtin (effectiveArgs arguments original))
    else .ok (.csharp (effectiveArgs arguments original))

/-- `execute_cached_nmcp_frame`, up to the call of the executor. -/
def planCachedFrame (toolName : String) (arguments : Value) (nda : Bytes) : Outcome String FrameCall := do
  let args ← parseCachedFrame toolName nda
  planArgs toolName arguments args

/-! ## Which index leaves the frame -/

theorem searchEntries_ne_panic (data key : Bytes) (count off : ℕ) : searchEntries data key count off ≠ .panic := by
  induction count generalizing off with
  | zero => simp [searchEntries]
  | succ count ih =>
    rw [searchEntries]
    split_ifs with h₁
    · simp
    refine Outcome.bind_ne_panic (beAt_ne_panic (by omega)) fun klen _ => ?_
    split_ifs with h₂
    · simp
    refine Outcome.bind_ne_panic (slice_ne_panic (by omega) (by omega)) fun k _ => ?_
    refine Outcome.bind_ne_panic (sliceFrom_ne_panic (by omega)) fun rest _ => ?_
    refine Outcome.bind_ne_panic (mt Outcome.mapErr_eq_panic.mp (skip_ne_panic _ _)) fun valLen _ => ?_
    split_ifs with h₃ h₄
    · simp
    · exact Outcome.bind_ne_panic (slice_ne_panic (by omega) (by omega)) fun _ _ => by simp
    · exact ih _

/-- **The search for a field takes no index out of range.** -/
theorem extractTlvField_ne_panic (data key : Bytes) : extractTlvField data key ≠ .panic := by
  rw [extractTlvField]
  by_cases hnil : data = []
  · rw [if_pos hnil]
    simp
  rw [if_neg hnil]
  have hpos : 0 < data.length := List.length_pos_iff.mpr hnil
  refine Outcome.bind_ne_panic (byteAt_ne_panic hpos) fun tag _ => ?_
  split_ifs with h₁ h₂
  · simp
  · simp
  · exact Outcome.bind_ne_panic (beAt_ne_panic (by omega)) fun count _ => searchEntries_ne_panic _ _ _ _

theorem tlvToI64_ne_panic (tlv : Bytes) : tlvToI64 tlv ≠ .panic := by
  rw [tlvToI64]
  by_cases hnil : tlv = []
  · rw [if_pos hnil]
    simp
  rw [if_neg hnil]
  refine Outcome.bind_ne_panic (byteAt_ne_panic (List.length_pos_iff.mpr hnil)) fun tag _ => ?_
  split_ifs with h₁ h₂
  · simp
  · simp
  · exact Outcome.bind_ne_panic (beAt_ne_panic (by omega)) fun _ _ => by simp

theorem sizeOfTlv_ne_panic (tlv : Bytes) : sizeOfTlv tlv ≠ .panic := by
  rw [sizeOfTlv]
  cases h : tlvToI64 tlv with
  | ok i => simp
  | err e => simp
  | panic => exact absurd h (tlvToI64_ne_panic tlv)

theorem tlvToStr_ne_panic (tlv : Bytes) : tlvToStr tlv ≠ .panic := by
  rw [tlvToStr]
  by_cases hnil : tlv = []
  · rw [if_pos hnil]
    simp
  rw [if_neg hnil]
  refine Outcome.bind_ne_panic (byteAt_ne_panic (List.length_pos_iff.mpr hnil)) fun tag _ => ?_
  split_ifs with h₁ h₂
  · simp
  · simp
  refine Outcome.bind_ne_panic (beAt_ne_panic (by omega)) fun len _ => ?_
  split_ifs with h₃
  · simp
  refine Outcome.bind_ne_panic (slice_ne_panic (by omega) (by omega)) fun t _ => ?_
  cases fromUtf8 t <;> simp

theorem fastPath_ne_panic (toolName : String) (args : Bytes) : fastPath toolName args ≠ .panic := by
  have hfield : ∀ key, (extractTlvField args key).mapErr FieldError.text ≠ .panic := fun key =>
    mt Outcome.mapErr_eq_panic.mp (extractTlvField_ne_panic args key)
  rw [fastPath]
  split_ifs
  · refine Outcome.bind_ne_panic (hfield _) fun field _ => ?_
    cases field with
    | none => simp
    | some tlv => exact Outcome.bind_ne_panic (sizeOfTlv_ne_panic tlv) fun _ _ => by simp
  · refine Outcome.bind_ne_panic (hfield _) fun field _ => ?_
    cases field with
    | none => simp
    | some tlv => exact Outcome.bind_ne_panic (tlvToStr_ne_panic tlv) fun _ _ => by simp
  · simp

theorem planArgs_ne_panic (toolName : String) (arguments : Value) (args : Bytes) :
    planArgs toolName arguments args ≠ .panic := by
  refine Outcome.bind_ne_panic (fastPath_ne_panic toolName args) fun fast _ => ?_
  cases fast with
  | some call => simp
  | none =>
    refine Outcome.bind_ne_panic (mt Outcome.mapErr_eq_panic.mp (decode_ne_panic _ args)) fun p _ => ?_
    split_ifs <;> simp

/-- The frames whose name length lies outside, in whole or in part. -/
def EndsInHeader (nda : Bytes) : Prop := (nda.length = 37 ∨ nda.length = 38) ∧ nda.take 4 = nmcpMagic

theorem parseCachedFrame_eq_panic_iff (toolName : String) (nda : Bytes) :
    parseCachedFrame toolName nda = .panic ↔ EndsInHeader nda := by
  rw [parseCachedFrame, EndsInHeader]
  by_cases hshort : nda.length < 37
  · rw [if_pos hshort]
    exact ⟨fun h => by simp at h, fun h => by omega⟩
  rw [if_neg hshort, slice_of_le (by omega) (by omega), Outcome.ok_bind]
  show (if nda.take 4 ≠ nmcpMagic then _ else _) = _ ↔ _
  by_cases hmagic : nda.take 4 = nmcpMagic
  · rw [if_neg (not_not.mpr hmagic)]
    by_cases hlen : nda.length < 39
    · have hpanic : beAt (ε := String) nda 37 2 = .panic := by
        rw [beAt, slice, if_neg (by omega)]
        rfl
      rw [hpanic]
      exact ⟨fun _ => ⟨by omega, hmagic⟩, fun _ => rfl⟩
    · refine ⟨fun h => absurd h ?_, fun h => by omega⟩
      refine Outcome.bind_ne_panic (beAt_ne_panic (by omega)) fun nameLen _ => ?_
      by_cases hname : nda.length < 39 + nameLen
      · rw [if_pos hname]
        simp
      rw [if_neg hname]
      refine Outcome.bind_ne_panic (slice_ne_panic (by omega) (by omega)) fun name _ => ?_
      cases fromUtf8 name with
      | none => simp
      | some binaryToolName =>
        simp only
        by_cases hother : binaryToolName ≠ toolName
        · rw [if_pos hother]
          simp
        rw [if_neg hother]
        by_cases hargsLen : nda.length < 39 + nameLen + 4
        · rw [if_pos hargsLen]
          simp
        rw [if_neg hargsLen]
        refine Outcome.bind_ne_panic (beAt_ne_panic (by omega)) fun argsLen _ => ?_
        by_cases hargs : nda.length < 39 + nameLen + 4 + argsLen
        · rw [if_pos hargs]
          simp
        · rw [if_neg hargs]
          exact slice_ne_panic (by omega) (by omega)
  · rw [if_pos hmagic]
    exact ⟨fun h => by simp at h, fun h => absurd h.2 hmagic⟩

/-- **Which index leaves the frame**: only that of the name length. -/
theorem plan_eq_panic_iff (toolName : String) (arguments : Value) (nda : Bytes) :
    planCachedFrame toolName arguments nda = .panic ↔ EndsInHeader nda := by
  rw [← parseCachedFrame_eq_panic_iff toolName]
  constructor
  · intro h
    by_contra hparse
    exact Outcome.bind_ne_panic hparse (fun args _ => planArgs_ne_panic toolName arguments args) h
  · intro h
    rw [planCachedFrame, h]
    rfl

/-! ## Which requests come back -/

section RoundTrip

variable {sha256 : Bytes → Bytes} {request : Value} {frame args : Bytes} {toolName : String} {code : UInt8}

theorem strOr_eq_ok {v : Value} {missing s : String} : strOr v missing = .ok s ↔ v = .string s := by
  cases v <;> simp [strOr, Value.asStr]

theorem frameOfRequest_eq_ok : frameOfRequest sha256 request = .ok frame ↔
    ∃ method toolName code, request.index "method" = .string method ∧ requestName request = .string toolName ∧
      methodType method = .ok code ∧ (requestArguments request).All (Value.KeysLe 65535) ∧
      frame = nmcpFrame sha256 (nmcpPayload code toolName (Tlv.ofValue (requestArguments request)).bytes) := by
  constructor
  · intro h
    obtain ⟨method, hmethod, h⟩ := Outcome.bind_eq_ok.mp h
    obtain ⟨toolName, hname, h⟩ := Outcome.bind_eq_ok.mp h
    obtain ⟨code, hcode, h⟩ := Outcome.bind_eq_ok.mp h
    obtain ⟨args, hargs, h⟩ := Outcome.bind_eq_ok.mp h
    obtain ⟨hkeys, rfl⟩ := encodeJsonValue_eq_put.mp (Emit.toOutcome_eq_ok.mp hargs)
    exact ⟨method, toolName, code, strOr_eq_ok.mp hmethod, strOr_eq_ok.mp hname, hcode, hkeys,
      (Outcome.ok.inj h).symm⟩
  · rintro ⟨method, toolName, code, hmethod, hname, hcode, hkeys, rfl⟩
    rw [frameOfRequest, strOr_eq_ok.mpr hmethod, Outcome.ok_bind, strOr_eq_ok.mpr hname, Outcome.ok_bind, hcode,
      Outcome.ok_bind, encodeJsonValue_of_keysLe hkeys, Emit.toOutcome_put, Outcome.ok_bind]

theorem at_nmcpFrame (hsha : ∀ b, (sha256 b).length = 32) (code : UInt8) (toolName : String) (args : Bytes) :
    let nda := nmcpFrame sha256 (nmcpPayload code toolName args)
    At nda 0 nmcpMagic ∧ At nda 37 (beBytes 2 (utf8 toolName).length) ∧ At nda 39 (utf8 toolName) ∧
      At nda (39 + (utf8 toolName).length) (beBytes 4 args.length) ∧
      At nda (39 + (utf8 toolName).length + 4) args := by
  intro nda
  have hwhole : At nda 0 (nmcpMagic ++ (sha256 (nmcpPayload code toolName args) ++
      (code :: (beBytes 2 (utf8 toolName).length ++ (utf8 toolName ++ (beBytes 4 args.length ++ args)))))) :=
    ⟨[], [], by rw [List.append_nil]; rfl, rfl⟩
  obtain ⟨hmagic, hrest⟩ := at_append_iff.mp hwhole
  obtain ⟨-, hrest⟩ := at_append_iff.mp hrest
  rw [hsha] at hrest
  obtain ⟨-, hrest⟩ := at_cons_iff.mp hrest
  obtain ⟨hlen, hrest⟩ := at_append_iff.mp hrest
  rw [length_beBytes] at hrest
  obtain ⟨hname, hrest⟩ := at_append_iff.mp hrest
  obtain ⟨hargsLen, hargs⟩ := at_append_iff.mp hrest
  rw [length_beBytes] at hargs
  exact ⟨hmagic, hlen, hname, hargsLen, hargs⟩

/-- **Reading a frame that was written**: the length of the arguments is taken modulo 2^32. -/
theorem parse_nmcpFrame (hsha : ∀ b, (sha256 b).length = 32) (hlen : (utf8 toolName).length < 256 ^ 2) :
    parseCachedFrame toolName (nmcpFrame sha256 (nmcpPayload code toolName args)) =
      .ok (args.take (args.length % 256 ^ 4)) := by
  obtain ⟨hmagic, hnameLen, hname, hargsLen, hargs⟩ := at_nmcpFrame hsha code toolName args
  generalize nmcpFrame sha256 (nmcpPayload code toolName args) = nda at *
  have hsize := hargs.length_le
  have hmod : args.length % 256 ^ 4 ≤ args.length := Nat.mod_le _ _
  have hpart : At nda (39 + (utf8 toolName).length + 4) (args.take (args.length % 256 ^ 4)) := by
    have hsplit := hargs
    rw [← List.take_append_drop (args.length % 256 ^ 4) args] at hsplit
    exact (at_append_iff.mp hsplit).1
  have hmagic' : slice (ε := String) nda 0 4 = .ok nmcpMagic := hmagic.slice rfl
  rw [parseCachedFrame, if_neg (by omega), hmagic', Outcome.ok_bind, if_neg (by simp),
    hnameLen.beAt hlen, Outcome.ok_bind, if_neg (by omega), hname.slice rfl, Outcome.ok_bind]
  simp only [fromUtf8_utf8]
  rw [if_neg (by simp), if_neg (by omega), hargsLen.beAt_mod, Outcome.ok_bind, if_neg (by omega)]
  exact hpart.slice (by rw [List.length_take, Nat.min_eq_left hmod])

theorem nameLen_of_parse (h : parseCachedFrame toolName frame = .ok args) : (utf8 toolName).length < 256 ^ 2 := by
  obtain ⟨-, h⟩ := Outcome.ite_err_eq_ok.mp h
  obtain ⟨magic, -, h⟩ := Outcome.bind_eq_ok.mp h
  obtain ⟨-, h⟩ := Outcome.ite_err_eq_ok.mp h
  obtain ⟨nameLen, hnameLen, h⟩ := Outcome.bind_eq_ok.mp h
  obtain ⟨-, h⟩ := Outcome.ite_err_eq_ok.mp h
  obtain ⟨name, hname, h⟩ := Outcome.bind_eq_ok.mp h
  cases hutf8 : fromUtf8 name with
  | none =>
    rw [hutf8] at h
    cases h
  | some binaryToolName =>
    rw [hutf8] at h
    obtain ⟨hother, -⟩ := Outcome.ite_err_eq_ok.mp h
    obtain rfl := not_not.mp hother
    rw [utf8_of_fromUtf8 hutf8]
    have hlen := (at_of_slice hname).2
    have hlt := (at_of_beAt hnameLen).2
    omega

/-- The frame of a request is read back as the request's tool and arguments. -/
def ReadsBack (request : Value) (frame : Bytes) : Prop :=
  ∃ toolName args n, requestName request = .string toolName ∧ parseCachedFrame toolName frame = .ok args ∧
    decodeJsonValue args = .ok (requestArguments request, n)

/-- A request whose lengths fit their fields and whose arguments are within the limits of the decoder. -/
structure FitsFrame (request : Value) : Prop where
  name : ∀ toolName, requestName request = .string toolName → (utf8 toolName).length < 256 ^ 2
  args : (Tlv.ofValue (requestArguments request)).bytes.length < 256 ^ 4
  depth : (requestArguments request).depth ≤ tlvMaxDepth
  strings : (requestArguments request).All (Value.StringLe tlvMaxStringLen)
  entries : (requestArguments request).All (Value.EntriesLe tlvMaxElements)
  ints : (requestArguments request).All Value.IntFits

/-- The encoding of the arguments, cut to its length modulo 2^32, decodes to them only if it is not cut and
they are within the limits. -/
theorem decode_cut {v : Value} (hv : v.WF) (hkeys : v.All (Value.KeysLe 65535)) {n : ℕ}
    (h : decodeJsonValue ((Tlv.ofValue v).bytes.take ((Tlv.ofValue v).bytes.length % 256 ^ 4)) = .ok (v, n)) :
    (Tlv.ofValue v).bytes.length < 256 ^ 4 ∧ WithinLimits v := by
  have hread : n ≤ (Tlv.ofValue v).bytes.length % 256 ^ 4 := by
    have hle := decode_le h
    rw [List.length_take] at hle
    omega
  obtain ⟨t, hwithin, -, -, ht⟩ := decode_sound h
  obtain ⟨hdepth, hbounded, -⟩ := Tlv.value_limits hwithin ht
  have hlimits : WithinLimits v := ⟨hv, Nat.lt_succ_iff.mp hdepth, hbounded.imp fun _ h => h.1,
    hbounded.imp fun _ h => h.2.1, hkeys, hbounded.imp fun _ h => h.2.2⟩
  have hwhole := decodeJsonValue_append h
    ((Tlv.ofValue v).bytes.drop ((Tlv.ofValue v).bytes.length % 256 ^ 4))
  have hfull := hlimits.decode []
  rw [List.append_nil] at hfull
  rw [List.take_append_drop, hfull] at hwhole
  have hn := (Outcome.ok_pair_inj hwhole).2
  have hmod := Nat.mod_lt (Tlv.ofValue v).bytes.length (show 0 < 256 ^ 4 by decide)
  exact ⟨by omega, hlimits⟩

/-- **Which requests come back.** -/
theorem readsBack_iff (hsha : ∀ b, (sha256 b).length = 32) (hwf : (requestArguments request).WF)
    (h : frameOfRequest sha256 request = .ok frame) : ReadsBack request frame ↔ FitsFrame request := by
  obtain ⟨method, toolName, code, -, hname, -, hkeys, rfl⟩ := frameOfRequest_eq_ok.mp h
  constructor
  · rintro ⟨toolName', args, n, hname', hparse, hdecode⟩
    obtain rfl : toolName = toolName' := Value.string.inj (hname.symm.trans hname')
    have hlen := nameLen_of_parse hparse
    rw [parse_nmcpFrame hsha hlen, Outcome.ok.injEq] at hparse
    subst hparse
    obtain ⟨hargs, hlimits⟩ := decode_cut hwf hkeys hdecode
    refine ⟨fun other hother => ?_, hargs, hlimits.depth, hlimits.strings, hlimits.entries, hlimits.ints⟩
    rwa [← Value.string.inj (hname.symm.trans hother)]
  · intro hfits
    have hlimits : WithinLimits (requestArguments request) :=
      ⟨hwf, hfits.depth, hfits.strings, hfits.entries, hkeys, hfits.ints⟩
    have hdecode := hlimits.decode []
    rw [List.append_nil] at hdecode
    have hparse : parseCachedFrame toolName
        (nmcpFrame sha256 (nmcpPayload code toolName (Tlv.ofValue (requestArguments request)).bytes)) =
          .ok (Tlv.ofValue (requestArguments request)).bytes := by
      rw [parse_nmcpFrame hsha (hfits.name toolName hname), Nat.mod_eq_of_lt hfits.args, List.take_length]
    exact ⟨toolName, _, _, hname, hparse, hdecode⟩

/-- **Frames are read safely and faithfully** but for these: the length of the tool name is outside a frame of
37 or 38 bytes; and a request does not come back whose name or arguments are too long for their length fields
or whose arguments are beyond the limits of the decoder. -/
theorem cachedFrame_safe_iff (hsha : ∀ b, (sha256 b).length = 32) :
    (∀ toolName arguments nda, planCachedFrame toolName arguments nda ≠ .panic ↔ ¬ EndsInHeader nda) ∧
      ∀ request frame, request.WF → frameOfRequest sha256 request = .ok frame →
        (ReadsBack request frame ↔ FitsFrame request) := by
  refine ⟨fun toolName arguments nda => not_congr (plan_eq_panic_iff toolName arguments nda), ?_⟩
  intro request frame hwf hframe
  exact readsBack_iff hsha ((hwf.index "params").index "arguments") hframe

end RoundTrip

/-! ### A short frame, a long name, and a request that comes back -/

/-- A `tools/call` request, as it is parsed. -/
def callRequest (toolName : String) (arguments : Value) : Value :=
  .object [("method", .string "tools/call"),
    ("params", .object [("arguments", arguments), ("name", .string toolName)])]

theorem requestName_callRequest (toolName : String) (arguments : Value) :
    requestName (callRequest toolName arguments) = .string toolName := rfl

theorem frameOfRequest_callRequest (sha256 : Bytes → Bytes) (toolName : String) {arguments : Value}
    (hkeys : arguments.All (Value.KeysLe 65535)) : frameOfRequest sha256 (callRequest toolName arguments) =
      .ok (nmcpFrame sha256 (nmcpPayload 1 toolName (Tlv.ofValue arguments).bytes)) :=
  frameOfRequest_eq_ok.mpr ⟨"tools/call", toolName, 1, rfl, rfl, rfl, hkeys, rfl⟩

theorem wf_callRequest (toolName : String) {arguments : Value} (h : arguments.WF) :
    (callRequest toolName arguments).WF := by
  have hinner : ["arguments", "name"].Pairwise (· < ·) := by decide
  have houter : ["method", "params"].Pairwise (· < ·) := by decide
  have hparams : (Value.object [("arguments", arguments), ("name", .string toolName)]).WF := by
    refine Value.all_object.mpr ⟨List.pairwise_map.mp hinner, ?_⟩
    simpa using ⟨h, trivial⟩
  refine Value.all_object.mpr ⟨List.pairwise_map.mp houter, ?_⟩
  simpa using ⟨trivial, hparams⟩

def longName : String := String.ofList (List.replicate 65536 'a')

theorem length_utf8_longName : 65536 ≤ (utf8 longName).length := by
  have hle := le_length_utf8_ofList (List.replicate 65536 'a')
  rwa [List.length_replicate] at hle

/-- A frame of 37 bytes makes the reader panic, and a name that is too long makes it refuse what the writer
accepted. -/
theorem frames_unsafe :
    planCachedFrame "bench_echo" .null (nmcpMagic ++ List.replicate 33 0) = .panic ∧
      ∀ sha256 : Bytes → Bytes, (∀ b, (sha256 b).length = 32) →
        ∃ frame, frameOfRequest sha256 (callRequest longName .null) = .ok frame ∧
          ¬ ReadsBack (callRequest longName .null) frame := by
  refine ⟨(plan_eq_panic_iff _ _ _).mpr ⟨Or.inl rfl, rfl⟩, fun sha256 hsha => ?_⟩
  have hframe := frameOfRequest_callRequest sha256 longName (show Value.null.All _ from trivial)
  refine ⟨_, hframe, fun hback => ?_⟩
  have hwf : (requestArguments (callRequest longName .null)).WF := trivial
  have hfits := (readsBack_iff hsha hwf hframe).mp hback
  have hshort := hfits.name longName (requestName_callRequest _ _)
  have hlong := length_utf8_longName
  omega

/-- The arguments of `bench_echo` for the size 8. -/
def echoArguments : Value := .object [("size", .number (.posInt 8))]

/-- The SHA-256 digest of the payload of the frame for them. -/
def echoDigest : Bytes := [0x92, 0x06, 0x54, 0x63, 0xc3, 0x03, 0xfc, 0xd0, 0x94, 0x68, 0x97, 0x8b, 0x6f, 0xeb, 0x4d, 0x65,
  0x0c, 0x7a, 0x5c, 0xa3, 0x2f, 0x55, 0x45, 0xf4, 0x07, 0x13, 0x77, 0x4b, 0x4d, 0x47, 0x3d, 0xae]

def echoSha256 (_ : Bytes) : Bytes := echoDigest

/-- `{"size":n}` -/
def sizeArguments (n : Number) : Value := .object [("size", .number n)]

theorem withinLimits_sizeArguments {n : Number} (h : (Value.number n).IntFits) : WithinLimits (sizeArguments n) where
  wf := by simp [sizeArguments, Value.WF, Value.All, Value.AllFields, Value.KeysSorted, SortedKeys]
  depth := by simp [sizeArguments, Value.depth, Value.fieldsDepth, tlvMaxDepth]
  strings := by simp [sizeArguments, Value.All, Value.AllFields, Value.StringLe]
  entries := by simp [sizeArguments, Value.All, Value.AllFields, Value.EntriesLe, tlvMaxElements]
  keys := by
    have hsize : (utf8 "size").length = 4 := by decide
    simp [sizeArguments, Value.All, Value.AllFields, Value.KeysLe, hsize]
  ints := Value.all_object.mpr ⟨trivial, by simpa [Value.All] using h⟩

theorem fits_of_withinLimits {toolName : String} {arguments : Value} (hlimits : WithinLimits arguments)
    (hlen : (utf8 toolName).length < 256 ^ 2) (hargs : (Tlv.ofValue arguments).bytes.length < 256 ^ 4) :
    FitsFrame (callRequest toolName arguments) where
  name name hname := by rwa [← Value.string.inj hname]
  args := hargs
  depth := hlimits.depth
  strings := hlimits.strings
  entries := hlimits.entries
  ints := hlimits.ints

theorem withinLimits_echo : WithinLimits echoArguments :=
  withinLimits_sizeArguments (n := .posInt 8) (by simp [Value.IntFits, Number.i64Max])

/-- The frame of a `bench_echo` call. -/
theorem cachedFrame_safe_iff_echo :
    ∃ frame, frameOfRequest echoSha256 (callRequest "bench_echo" echoArguments) = .ok frame ∧
      ReadsBack (callRequest "bench_echo" echoArguments) frame ∧
      ∀ arguments, planCachedFrame "bench_echo" arguments frame ≠ .panic := by
  have hsha : ∀ b, (echoSha256 b).length = 32 := fun _ => rfl
  have hlimits := withinLimits_echo
  have hframe := frameOfRequest_callRequest echoSha256 "bench_echo" hlimits.keys
  have hwf := wf_callRequest "bench_echo" hlimits.wf
  obtain ⟨hsafe, hback⟩ := cachedFrame_safe_iff hsha
  have hfits : FitsFrame (callRequest "bench_echo" echoArguments) :=
    fits_of_withinLimits hlimits (by decide) (by decide +kernel)
  refine ⟨_, hframe, (hback _ _ hwf hframe).mpr hfits, fun arguments => (hsafe _ arguments _).mpr ?_⟩
  rintro ⟨hlen, -⟩
  exact absurd hlen (by decide +kernel)

end VelocityMcp.Registry
