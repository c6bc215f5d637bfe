import VelocityMcp.NdaNative.RoundTrip

/-!
# NdaNative.Frame — the two request parsers (`nda_native.rs`), and the lazy stage of the second

`parseNdaRequest_iff_inplace`: on which plaintext frames they agree.
-/

namespace VelocityMcp.NdaNative

open Lib

/-- What a build and its settings fix: the `oauth2` feature, the Merkle switch, SHA-256, the session key
and AES-256-GCM decryption (of key, nonce and ciphertext). -/
structure Config where
  oauth2 : Bool
  merkleEnabled : Bool
  sha256 : Bytes → Bytes
  sessionKey : Option Bytes
  aeadDecrypt : Bytes → Bytes → Bytes → Except String Bytes

/-- `b"NMCP"`. -/
def ndaMagic : Bytes := [0x4e, 0x4d, 0x43, 0x50]

/-- `b"NMCE"`. -/
def ndaEncryptedMagic : Bytes := [0x4e, 0x4d, 0x43, 0x45]

/-- The magic and the Merkle root. -/
def frameHeaderSize : ℕ := 36

def flagEncrypted : UInt8 := 0x80

def isNdaFrame (data : Bytes) : Bool := 4 ≤ data.length && data.take 4 == ndaMagic

/-- Why a frame is not accepted. -/
inductive ParseError where
  | frameTooSmall
  | badMagic
  | notEnabled
  | decryption (text : String)
  | merkleMismatch
  | merkleMismatchDecrypted
  | payloadEmpty
  | payloadTooSmall
  | decode (e : DecodeError)
  | skip (e : SkipError)
  | trailing (n : ℕ)
deriving DecidableEq, Repr

def ParseError.text : ParseError → String
  | frameTooSmall => "NDA frame too small for header"
  | badMagic => "Invalid NDA magic"
  | notEnabled => "Encrypted frame received but oauth2 feature is not enabled"
  | decryption text => s!"Encrypted frame decryption failed: {text}"
  | merkleMismatch => "NDA frame Merkle root mismatch"
  | merkleMismatchDecrypted => "NDA frame Merkle root mismatch after decryption"
  | payloadEmpty => "NDA payload is empty"
  | payloadTooSmall => "NDA payload too small for method + id"
  | decode e => e.text
  | skip e => e.text
  | trailing n => s!"NDA frame has {n} trailing bytes after payload"

variable (cfg : Config)

def decryptNdaFramePayload (frame : Bytes) : Outcome String Bytes :=
  if frame.length < frameHeaderSize + 12 then .err "Encrypted frame too short"
  else do
    let magic ← slice frame 0 4
    if magic ≠ ndaEncryptedMagic then .err "Invalid encrypted frame: bad magic"
    else do
      let nonce ← slice frame frameHeaderSize (frameHeaderSize + 12)
      let ciphertext ← sliceFrom frame (frameHeaderSize + 12)
      match cfg.sessionKey with
      | none => .err "Session encryption key not set. Call set_session_encryption_key() first."
      | some key => match cfg.aeadDecrypt key nonce ciphertext with
        | .error e => .err s!"Failed to decrypt payload: {e}"
        | .ok plaintext => .ok plaintext

/-- What both parsers do first: check the header and the Merkle root.  The answer is whether the frame was
encrypted, and its payload. -/
def framePayload (frame : Bytes) : Outcome ParseError (Bool × Bytes) :=
  if frame.length < frameHeaderSize then .err .frameTooSmall
  else do
    let magic ← slice frame 0 4
    let storedMerkle ← slice frame 4 36
    if magic ≠ ndaEncryptedMagic ∧ magic ≠ ndaMagic then .err .badMagic
    else if magic = ndaEncryptedMagic then
      if !cfg.oauth2 then .err .notEnabled
      else do
        let plaintext ← (decryptNdaFramePayload cfg frame).mapErr .decryption
        if cfg.merkleEnabled ∧ storedMerkle ≠ cfg.sha256 plaintext then .err .merkleMismatchDecrypted
        else .ok (true, plaintext)
    else do
      let payload ← sliceFrom frame frameHeaderSize
      if cfg.merkleEnabled ∧ storedMerkle ≠ cfg.sha256 payload then .err .merkleMismatch
      else .ok (false, payload)

/-- The method of a payload's first byte, without its flag bit where the parser takes it off. -/
def methodOf (unflag : Bool) (first : UInt8) : UInt8 := if unflag then first &&& ~~~flagEncrypted else first

/-! ## The allocating parser -/

/-- `NdaRequest`: all of it is decoded. -/
structure NdaRequest where
  method : UInt8
  requestId : Value
  data : Value
deriving DecidableEq

/-- The whole payload is decoded. -/
def parseNdaRequest (frame : Bytes) : Outcome ParseError NdaRequest := do
  let (_, payload) ← framePayload cfg frame
  if payload = [] then .err .payloadEmpty
  else do
    let first ← byteAt payload 0
    let method := methodOf cfg.oauth2 first
    let rest ← sliceFrom payload 1
    let (requestId, consumed) ← (decodeJsonValue rest).mapErr .decode
    let offset := 1 + consumed
    if offset < payload.length then do
      let rest ← sliceFrom payload offset
      let (d, dataConsumed) ← (decodeJsonValue rest).mapErr .decode
      if offset + dataConsumed ≠ payload.length then
        .err (.trailing (payload.length - (offset + dataConsumed)))
      else .ok ⟨method, requestId, d⟩
    else .ok ⟨method, requestId, .null⟩

/-! ## The in-place parser -/

/-- `NdaRequestRef`: the id and the data are left as bytes. -/
structure NdaRequestRef where
  method : UInt8
  idTlv : Bytes
  data : Bytes
deriving DecidableEq, Repr

/-- The request id is found, and the data left to `decodeReqData`. -/
def parseNdaRequestInplace (frame : Bytes) : Outcome ParseError NdaRequestRef := do
  let (encrypted, payload) ← framePayload cfg frame
  if payload.length < 2 then .err .payloadTooSmall
  else do
    let first ← byteAt payload 0
    let method := methodOf encrypted first
    let rest ← sliceFrom payload 1
    let idLen ← (skipTlvValue rest).mapErr .skip
    let idTlv ← slice payload 1 (1 + idLen)
    let data ← sliceFrom payload (1 + idLen)
    .ok ⟨method, idTlv, data⟩

/-- `decode_req_data` (`nmcp_binary.rs`). -/
def decodeReqData (data : Bytes) : Outcome DecodeError Value :=
  if data = [] then .ok .null
  else do
    let (v, _) ← decodeJsonValue data
    .ok v

/-! ## What each parser accepts -/

section Accept

variable {cfg} {f : Bytes}

/-- A data slice that holds nothing, or exactly one value. -/
def WholeValue (data : Bytes) (d : Value) : Prop :=
  (data = [] ∧ d = .null) ∨ decodeJsonValue data = .ok (d, data.length)

theorem parseNdaRequest_eq_ok {r : NdaRequest} :
    parseNdaRequest cfg f = .ok r ↔
      ∃ enc m q n, framePayload cfg f = .ok (enc, m :: q) ∧ decodeJsonValue q = .ok (r.requestId, n) ∧
        r.method = methodOf cfg.oauth2 m ∧ WholeValue (q.drop n) r.data := by
  rw [parseNdaRequest, Outcome.bind_eq_ok]
  constructor
  · rintro ⟨⟨enc, payload⟩, hframe, h⟩
    cases payload with
    | nil => exact absurd h (by simp)
    | cons m q =>
      simp only [reduceCtorEq, if_false] at h
      rw [byteAt_cons_zero, Outcome.ok_bind, sliceFrom_cons_one, Outcome.ok_bind] at h
      obtain ⟨⟨i, n⟩, hi, h⟩ := Outcome.bind_eq_ok.mp h
      have hi := Outcome.mapErr_eq_ok.mp hi
      have hn : n ≤ q.length := decode_le hi
      refine ⟨enc, m, q, n, hframe, ?_⟩
      simp only [List.length_cons] at h
      split_ifs at h with hlt
      · rw [sliceFrom_cons hn, Outcome.ok_bind] at h
        obtain ⟨⟨d, k⟩, hd, h⟩ := Outcome.bind_eq_ok.mp h
        have hd := Outcome.mapErr_eq_ok.mp hd
        simp only at h
        split_ifs at h with hk
        obtain rfl := Outcome.ok.inj h
        have hlen : k = (q.drop n).length := by rw [List.length_drop]; omega
        exact ⟨hi, rfl, Or.inr (by rw [← hlen]; exact hd)⟩
      · obtain rfl := Outcome.ok.inj h
        exact ⟨hi, rfl, Or.inl ⟨List.drop_eq_nil_of_le (by omega), rfl⟩⟩
  · rintro ⟨enc, m, q, n, hframe, hi, hm, hdata⟩
    have hn : n ≤ q.length := decode_le hi
    refine ⟨(enc, m :: q), hframe, ?_⟩
    obtain ⟨method, i, d⟩ := r
    simp only [reduceCtorEq, if_false] at hm hi hdata ⊢
    subst hm
    rw [byteAt_cons_zero, Outcome.ok_bind, sliceFrom_cons_one, Outcome.ok_bind, hi, Outcome.mapErr_ok,
      Outcome.ok_bind]
    simp only [List.length_cons]
    rcases hdata with ⟨hnil, rfl⟩ | hd
    · have hlen : q.length ≤ n := List.drop_eq_nil_iff.mp hnil
      rw [if_neg (by omega)]
    · have hpos : 0 < (q.drop n).length := by
        rcases hq : q.drop n with _ | ⟨x, l⟩
        · rw [hq, decodeJsonValue_nil] at hd
          exact absurd hd (by simp)
        · simp
      rw [List.length_drop] at hpos
      rw [if_pos (by omega), sliceFrom_cons hn, Outcome.ok_bind, hd, Outcome.mapErr_ok, Outcome.ok_bind]
      simp only [List.length_drop]
      rw [if_neg (by omega)]

theorem parseNdaRequestInplace_eq_ok {r : NdaRequestRef} :
    parseNdaRequestInplace cfg f = .ok r ↔
      ∃ enc m q n, framePayload cfg f = .ok (enc, m :: q) ∧ skipTlvValue q = .ok n ∧
        r = ⟨methodOf enc m, q.take n, q.drop n⟩ := by
  rw [parseNdaRequestInplace, Outcome.bind_eq_ok]
  constructor
  · rintro ⟨⟨enc, payload⟩, hframe, h⟩
    cases payload with
    | nil => exact absurd h (by simp)
    | cons m q =>
      simp only at h
      split_ifs at h with hlt
      rw [byteAt_cons_zero, Outcome.ok_bind, sliceFrom_cons_one, Outcome.ok_bind] at h
      obtain ⟨n, hn, h⟩ := Outcome.bind_eq_ok.mp h
      have hn := Outcome.mapErr_eq_ok.mp hn
      have hle : n ≤ q.length := skip_le hn
      rw [slice_cons hle, Outcome.ok_bind, sliceFrom_cons hle, Outcome.ok_bind, Outcome.ok.injEq] at h
      exact ⟨enc, m, q, n, hframe, hn, h.symm⟩
  · rintro ⟨enc, m, q, n, hframe, hn, rfl⟩
    have hle : n ≤ q.length := skip_le hn
    have hpos : 0 < q.length := by
      rcases q with _ | ⟨x, l⟩
      · rw [skipTlvValue_nil] at hn
        exact absurd hn (by simp)
      · simp
    refine ⟨(enc, m :: q), hframe, ?_⟩
    simp only
    rw [if_neg (by simp only [List.length_cons]; omega), byteAt_cons_zero, Outcome.ok_bind,
      sliceFrom_cons_one, Outcome.ok_bind, hn, Outcome.mapErr_ok, Outcome.ok_bind, slice_cons hle,
      Outcome.ok_bind, sliceFrom_cons hle, Outcome.ok_bind]

theorem decodeReqData_eq_ok {data : Bytes} {d : Value} :
    decodeReqData data = .ok d ↔ (data = [] ∧ d = .null) ∨ ∃ n, decodeJsonValue data = .ok (d, n) := by
  rw [decodeReqData]
  split_ifs with h
  · subst h
    rw [decodeJsonValue_nil]
    simp [eq_comm]
  · rw [Outcome.bind_eq_ok]
    constructor
    · rintro ⟨⟨v, n⟩, hv, hd⟩
      obtain rfl := Outcome.ok.inj hd
      exact Or.inr ⟨n, hv⟩
    · rintro (⟨hnil, -⟩ | ⟨n, hn⟩)
      · exact absurd hnil h
      · exact ⟨(d, n), hn, rfl⟩

end Accept

/-! ## The two parsers on plaintext frames -/

section Plaintext

variable {cfg} {f p : Bytes}

theorem methodOf_eq_self_iff {unflag : Bool} {m : UInt8} :
    methodOf unflag m = m ↔ ¬ (unflag ∧ flagEncrypted ≤ m) := by
  have h : m &&& ~~~flagEncrypted = m ↔ ¬ flagEncrypted ≤ m := by
    obtain ⟨⟨m⟩⟩ := m
    revert m
    decide +kernel
  cases unflag with
  | false => simp [methodOf]
  | true => simpa [methodOf] using h

variable (cfg) in
/-- The Merkle field of a frame is the hash of its payload, where that is checked. -/
def MerkleMatches (f : Bytes) : Prop :=
  cfg.merkleEnabled → (f.drop 4).take 32 = cfg.sha256 (f.drop frameHeaderSize)

theorem framePayload_of_magic (hmagic : f.take 4 = ndaMagic) {e : Bool} :
    framePayload cfg f = .ok (e, p) ↔
      e = false ∧ frameHeaderSize ≤ f.length ∧ p = f.drop frameHeaderSize ∧ MerkleMatches cfg f := by
  have hsize : frameHeaderSize = 36 := rfl
  rw [framePayload]
  by_cases hlen : f.length < frameHeaderSize
  · rw [if_pos hlen]
    refine ⟨fun h => absurd h (by simp), ?_⟩
    rintro ⟨-, hle, -⟩
    exact absurd hlen (not_lt.mpr hle)
  · have h₁ : slice (ε := ParseError) f 0 4 = .ok ndaMagic := by
      rw [slice_of_le (by omega) (by omega), List.drop_zero, hmagic]
    rw [if_neg hlen, h₁, slice_of_le (by omega) (by omega), Outcome.ok_bind, Outcome.ok_bind,
      if_neg (by decide), if_neg (by decide), sliceFrom_of_le (by omega), Outcome.ok_bind]
    split_ifs with hm
    · refine ⟨fun h => absurd h (by simp), ?_⟩
      rintro ⟨-, -, -, h⟩
      exact absurd (h hm.1) hm.2
    · constructor
      · intro h
        obtain ⟨rfl, rfl⟩ := Outcome.ok_pair_inj h
        exact ⟨rfl, not_lt.mp hlen, rfl, fun he => by_contra fun hne => hm ⟨he, hne⟩⟩
      · rintro ⟨rfl, -, rfl, -⟩
        rfl

variable (cfg) in
/-- A frame with a complete id, a complete data value, and further bytes after it. -/
def TrailingData (f : Bytes) : Prop :=
  frameHeaderSize ≤ f.length ∧ MerkleMatches cfg f ∧ ∃ m id data extra i d,
    f.drop frameHeaderSize = m :: (id ++ (data ++ extra)) ∧
      decodeJsonValue id = .ok (i, id.length) ∧ decodeJsonValue data = .ok (d, data.length) ∧ extra ≠ []

variable (cfg) in
/-- A well-formed frame whose method byte carries the flag bit, in a build with the `oauth2` feature. -/
def FlaggedMethod (f : Bytes) : Prop :=
  cfg.oauth2 ∧ frameHeaderSize ≤ f.length ∧ MerkleMatches cfg f ∧ ∃ m id data i d,
    f.drop frameHeaderSize = m :: (id ++ data) ∧ flagEncrypted ≤ m ∧
      decodeJsonValue id = .ok (i, id.length) ∧ WholeValue data d

theorem lazy_eq_ok (hmagic : f.take 4 = ndaMagic) {m : UInt8} {i d : Value} :
    (∃ r, parseNdaRequestInplace cfg f = .ok r ∧ r.method = m ∧
        decodeJsonValue r.idTlv = .ok (i, r.idTlv.length) ∧ decodeReqData r.data = .ok d) ↔
      ∃ q n, framePayload cfg f = .ok (false, m :: q) ∧ decodeJsonValue q = .ok (i, n) ∧
        ((q.drop n = [] ∧ d = .null) ∨ ∃ k, decodeJsonValue (q.drop n) = .ok (d, k)) := by
  constructor
  · rintro ⟨r, hr, rfl, hid, hdata⟩
    obtain ⟨enc, m, q, n, hframe, hn, rfl⟩ := parseNdaRequestInplace_eq_ok.mp hr
    obtain rfl := ((framePayload_of_magic hmagic).mp hframe).1
    have hle : n ≤ q.length := skip_le hn
    have hlen : (q.take n).length = n := by rw [List.length_take]; omega
    simp only [hlen] at hid hdata
    have hq := decodeJsonValue_append hid (q.drop n)
    rw [List.take_append_drop] at hq
    exact ⟨q, n, hframe, hq, decodeReqData_eq_ok.mp hdata⟩
  · rintro ⟨q, n, hframe, hq, hdata⟩
    have hle : n ≤ q.length := decode_le hq
    have hlen : (q.take n).length = n := by rw [List.length_take]; omega
    refine ⟨⟨m, q.take n, q.drop n⟩, ?_, rfl, ?_, decodeReqData_eq_ok.mpr hdata⟩
    · exact parseNdaRequestInplace_eq_ok.mpr ⟨false, m, q, n, hframe, skip_of_decode hq, rfl⟩
    · show decodeJsonValue (q.take n) = .ok (i, (q.take n).length)
      rw [hlen]
      exact decodeJsonValue_take hq

theorem eager_eq_ok (hmagic : f.take 4 = ndaMagic) {m : UInt8} {i d : Value} :
    parseNdaRequest cfg f = .ok ⟨m, i, d⟩ ↔
      ∃ first q n, framePayload cfg f = .ok (false, first :: q) ∧ m = methodOf cfg.oauth2 first ∧
        decodeJsonValue q = .ok (i, n) ∧ WholeValue (q.drop n) d := by
  rw [parseNdaRequest_eq_ok]
  constructor
  · rintro ⟨enc, first, q, n, hframe, hi, hm, hd⟩
    obtain rfl := ((framePayload_of_magic hmagic).mp hframe).1
    exact ⟨first, q, n, hframe, hm, hi, hd⟩
  · rintro ⟨first, q, n, hframe, hm, hi, hd⟩
    exact ⟨false, first, q, n, hframe, hi, hm, hd⟩

/-- **When the two parsers agree**: on every plaintext frame but those with bytes after the data value,
which only the allocating parser rejects, and, with the `oauth2` feature, those whose method byte has the
flag bit, which only the allocating parser clears. -/
theorem parseNdaRequest_iff_inplace (hmagic : f.take 4 = ndaMagic) :
    (∀ m i d, parseNdaRequest cfg f = .ok ⟨m, i, d⟩ ↔
        ∃ r, parseNdaRequestInplace cfg f = .ok r ∧ r.method = m ∧
          decodeJsonValue r.idTlv = .ok (i, r.idTlv.length) ∧ decodeReqData r.data = .ok d) ↔
      ¬ TrailingData cfg f ∧ ¬ FlaggedMethod cfg f := by
  simp only [lazy_eq_ok hmagic, eager_eq_ok hmagic]
  constructor
  · intro hagree
    constructor
    · -- with bytes left over only the lazy parser accepts
      rintro ⟨hlen, hmerkle, m, id, data, extra, i, d, hp, hid, hdata, hextra⟩
      have hframe := (framePayload_of_magic hmagic (e := false)).mpr ⟨rfl, hlen, hp.symm, hmerkle⟩
      have hi := decodeJsonValue_append hid (data ++ extra)
      have hd := decodeJsonValue_append hdata extra
      have hlazy : (id ++ (data ++ extra)).drop id.length = data ++ extra := List.drop_left
      obtain ⟨first, q, n, hframe', -, hi', hwhole⟩ :=
        (hagree m i d).mpr ⟨_, _, hframe, hi, Or.inr ⟨_, by rw [hlazy]; exact hd⟩⟩
      obtain ⟨-, hq⟩ := Outcome.ok_pair_inj (hframe.symm.trans hframe')
      obtain ⟨-, rfl⟩ := List.cons.inj hq
      obtain ⟨-, rfl⟩ := Outcome.ok_pair_inj (hi.symm.trans hi')
      rw [hlazy] at hwhole
      rcases hwhole with ⟨hnil, -⟩ | hwhole
      · exact hextra (List.append_eq_nil_iff.mp hnil).2
      · obtain ⟨-, hk⟩ := Outcome.ok_pair_inj (hd.symm.trans hwhole)
        rw [List.length_append] at hk
        exact hextra (List.length_eq_zero_iff.mp (by omega))
    · -- a method with the flag is another method for the eager parser
      rintro ⟨hoauth, hlen, hmerkle, m, id, data, i, d, hp, hflag, hid, hdata⟩
      have hframe := (framePayload_of_magic hmagic (e := false)).mpr ⟨rfl, hlen, hp.symm, hmerkle⟩
      have hi := decodeJsonValue_append hid data
      obtain ⟨q, n, hframe', -⟩ := (hagree _ i d).mp
        ⟨m, _, _, hframe, rfl, hi, by rw [List.drop_left]; exact hdata⟩
      obtain ⟨-, hq⟩ := Outcome.ok_pair_inj (hframe.symm.trans hframe')
      obtain ⟨hm, -⟩ := List.cons.inj hq
      exact methodOf_eq_self_iff.mp hm.symm ⟨hoauth, hflag⟩
  · rintro ⟨htrail, hflagged⟩ m i d
    have hparts : ∀ {first : UInt8} {q : Bytes} {n : ℕ}, framePayload cfg f = .ok (false, first :: q) →
        frameHeaderSize ≤ f.length ∧ MerkleMatches cfg f ∧
          f.drop frameHeaderSize = first :: (q.take n ++ q.drop n) := fun hframe => by
      obtain ⟨-, hlen, hp, hmerkle⟩ := (framePayload_of_magic hmagic).mp hframe
      exact ⟨hlen, hmerkle, by rw [List.take_append_drop, hp]⟩
    have hid : ∀ {q : Bytes} {n : ℕ}, decodeJsonValue q = .ok (i, n) →
        decodeJsonValue (q.take n) = .ok (i, (q.take n).length) := fun hq => by
      have hle := decode_le hq
      rw [List.length_take, Nat.min_eq_left hle]
      exact decodeJsonValue_take hq
    have hmethod : ∀ {first : UInt8} {q : Bytes} {n : ℕ}, framePayload cfg f = .ok (false, first :: q) →
        decodeJsonValue q = .ok (i, n) → WholeValue (q.drop n) d → methodOf cfg.oauth2 first = first :=
      fun hframe hq hd => methodOf_eq_self_iff.mpr fun ⟨hoauth, hflag⟩ => by
        obtain ⟨hlen, hmerkle, hp⟩ := hparts hframe
        exact hflagged ⟨hoauth, hlen, hmerkle, _, _, _, i, d, hp, hflag, hid hq, hd⟩
    constructor
    · rintro ⟨first, q, n, hframe, rfl, hq, hd⟩
      rw [hmethod hframe hq hd]
      exact ⟨q, n, hframe, hq, hd.imp_right fun h => ⟨_, h⟩⟩
    · rintro ⟨q, n, hframe, hq, hd⟩
      -- what the lazy parser decodes is all there is, or there would be bytes left over
      have hwhole : WholeValue (q.drop n) d := by
        rcases hd with hd | ⟨k, hk⟩
        · exact Or.inl hd
        · have hle : k ≤ (q.drop n).length := decode_le hk
          by_cases hlt : k = (q.drop n).length
          · exact Or.inr (hlt ▸ hk)
          · obtain ⟨hlen, hmerkle, hp⟩ := hparts hframe
            refine absurd ⟨hlen, hmerkle, m, q.take n, (q.drop n).take k, (q.drop n).drop k, i, d, ?_, hid hq,
              ?_, ?_⟩ htrail
            · rw [List.take_append_drop k]
              exact hp
            · rw [List.length_take, Nat.min_eq_left hle]
              exact decodeJsonValue_take hk
            · rw [Ne, List.drop_eq_nil_iff]
              omega
      exact ⟨m, q, n, hframe, (hmethod hframe hq hwhole).symm, hq, hwhole⟩

end Plaintext

/-! ### A frame they disagree on -/

/-- `resources/list`, id 1, data `{}`, and one byte more. -/
def trailingPayload : Bytes := [0x07, 0x02, 0, 0, 0, 0, 0, 0, 0, 1, 0x06, 0, 0, 0, 0, 0x04]

/-- The SHA-256 digest of `trailingPayload`. -/
def trailingDigest : Bytes := [0xf7, 0x2c, 0xb9, 0x92, 0xb6, 0xc1, 0x6a, 0x82, 0xb6, 0x7a, 0xe9,
  0xd4, 0x79, 0x77, 0x6d, 0x97, 0x9f, 0x9c, 0xea, 0xd4, 0x27, 0x3c,
  0xd4, 0x00, 0x44, 0x0a, 0xee, 0xbf, 0xd6, 0xff, 0x98, 0x58]

def trailingFrame : Bytes := ndaMagic ++ (trailingDigest ++ trailingPayload)

def defaultConfig : Config where
  oauth2 := false
  merkleEnabled := true
  sha256 := fun _ => trailingDigest
  sessionKey := none
  aeadDecrypt := fun _ _ _ => .error "aead::Error"

/-- The frame with a byte behind its data is rejected by the one parser only. -/
theorem trailingFrame_disagree :
    ¬ ∀ m i d, parseNdaRequest defaultConfig trailingFrame = .ok ⟨m, i, d⟩ ↔
      ∃ r, parseNdaRequestInplace defaultConfig trailingFrame = .ok r ∧ r.method = m ∧
        decodeJsonValue r.idTlv = .ok (i, r.idTlv.length) ∧ decodeReqData r.data = .ok d := by
  intro h
  have hlazy := (h 7 (.number (.posInt 1)) (.object [])).mpr
    ⟨⟨7, [0x02, 0, 0, 0, 0, 0, 0, 0, 1], [0x06, 0, 0, 0, 0, 0x04]⟩, by decide, rfl, by decide, by decide⟩
  exact absurd hlazy (by decide)

/-- The condition fails for that frame, too. -/
theorem parseNdaRequest_iff_inplace_trailing :
    trailingFrame.take 4 = ndaMagic ∧
      ((∀ m i d, parseNdaRequest defaultConfig trailingFrame = .ok ⟨m, i, d⟩ ↔
          ∃ r, parseNdaRequestInplace defaultConfig trailingFrame = .ok r ∧ r.method = m ∧
            decodeJsonValue r.idTlv = .ok (i, r.idTlv.length) ∧ decodeReqData r.data = .ok d) ↔
        ¬ TrailingData defaultConfig trailingFrame ∧ ¬ FlaggedMethod defaultConfig trailingFrame) :=
  ⟨rfl, parseNdaRequest_iff_inplace rfl⟩

/-! ## Routing in the shared-memory loop -/

/-- Where `run_shmem_loop_inner` takes a raw input: to `handle_nda_native`, to `handle_json_shmem`, or, if
it is no string for the latter, to the JSON-RPC answer -32700 "Invalid UTF-8 in request". -/
inductive Branch where
  | nda
  | json (input : String)
  | invalidUtf8
deriving DecidableEq, Repr

/-- Which handler of the shared-memory loop gets an input. -/
def route (raw : Bytes) : Branch :=
  if isNdaFrame raw then .nda
  else match fromUtf8 raw with
    | some input => .json input
    | none => .invalidUtf8

section Route

variable {cfg} {f : Bytes}

theorem isNdaFrame_iff : isNdaFrame f = true ↔ f.take 4 = ndaMagic := by
  rw [isNdaFrame, Bool.and_eq_true, decide_eq_true_eq, beq_iff_eq]
  refine ⟨fun h => h.2, fun h => ⟨?_, h⟩⟩
  have hlen : (f.take 4).length = 4 := by rw [h]; rfl
  rw [List.length_take] at hlen
  omega

theorem magic_of_framePayload {e : Bool} {p : Bytes} (h : framePayload cfg f = .ok (e, p)) :
    f.take 4 = ndaEncryptedMagic ∨ f.take 4 = ndaMagic := by
  rw [framePayload] at h
  by_cases hlen : f.length < frameHeaderSize
  · rw [if_pos hlen] at h
    exact absurd h (by simp)
  · have hsize : frameHeaderSize = 36 := rfl
    rw [if_neg hlen, slice_of_le (by omega) (by omega), Outcome.ok_bind,
      slice_of_le (by omega) (by omega), Outcome.ok_bind, List.drop_zero] at h
    by_contra hne
    rw [not_or] at hne
    rw [if_pos hne] at h
    exact absurd h (by simp)

theorem route_eq_nda_iff : route f = .nda ↔ f.take 4 = ndaMagic := by
  rw [← isNdaFrame_iff, route]
  by_cases h : isNdaFrame f = true
  · simp only [h, if_true]
  · simp only [h]
    cases fromUtf8 f <;> simp

/-- Without the magic of a plaintext frame, what is a string goes to the JSON-RPC handler, and nothing else. -/
theorem route_eq_json_iff (h : f.take 4 ≠ ndaMagic) : (∃ input, route f = .json input) ↔ (fromUtf8 f).isSome := by
  rw [route, if_neg (mt isNdaFrame_iff.mp h)]
  cases fromUtf8 f <;> simp

variable (cfg) in
/-- A frame the in-place parser accepts goes to the NDA handler; an input with neither magic goes to the handler of
JSON-RPC. -/
def RoutedRight (f : Bytes) : Prop :=
  (∀ r, parseNdaRequestInplace cfg f = .ok r → route f = .nda) ∧
    (f.take 4 ≠ ndaMagic → f.take 4 ≠ ndaEncryptedMagic → ∃ input, route f = .json input)

/-- **When routing is right**: on every input but the encrypted frames the parser accepts, and what starts with
neither magic and is no UTF-8. -/
theorem routedRight_iff :
    RoutedRight cfg f ↔
      ¬ (f.take 4 = ndaEncryptedMagic ∧ ∃ r, parseNdaRequestInplace cfg f = .ok r) ∧
        (f.take 4 = ndaMagic ∨ f.take 4 = ndaEncryptedMagic ∨ (fromUtf8 f).isSome) := by
  have hne : ndaEncryptedMagic ≠ ndaMagic := by decide
  refine and_congr ⟨fun hnda => ?_, fun hnot r hr => ?_⟩ ⟨fun hjson => ?_, fun h hplain hsealed => ?_⟩
  · rintro ⟨hmagic, r, hr⟩
    exact hne (hmagic.symm.trans (route_eq_nda_iff.mp (hnda r hr)))
  · obtain ⟨e, m, q, n, hframe, -⟩ := parseNdaRequestInplace_eq_ok.mp hr
    rcases magic_of_framePayload hframe with hmagic | hmagic
    · exact absurd ⟨hmagic, r, hr⟩ hnot
    · exact route_eq_nda_iff.mpr hmagic
  · by_cases hplain : f.take 4 = ndaMagic
    · exact .inl hplain
    by_cases hsealed : f.take 4 = ndaEncryptedMagic
    · exact .inr (.inl hsealed)
    · exact .inr (.inr ((route_eq_json_iff hplain).mp (hjson hplain hsealed)))
  · rcases h with h | h | h
    · exact absurd h hplain
    · exact absurd h hsealed
    · exact (route_eq_json_iff hplain).mpr h

end Route

/-! ### An encrypted frame -/

/-- `ping`, id 1. -/
def pingPayload : Bytes := [0x04, 0x02, 0, 0, 0, 0, 0, 0, 0, 1]

/-- The SHA-256 digest of `pingPayload`. -/
def pingDigest : Bytes :=
  [0xe6, 0x29, 0x1b, 0x98, 0xbc, 0x63, 0x7e, 0x7e, 0x46, 0xb2, 0x81, 0xf9, 0xd2, 0x60, 0x2f, 0xcb,
   0xf5, 0x90, 0xbc, 0x39, 0xc4, 0x17, 0x6e, 0x1e, 0xa3, 0x34, 0x1b, 0xc7, 0x90, 0xee, 0x19, 0xda]

/-- `pingPayload` under AES-256-GCM with key and nonce zero, followed by the tag. -/
def pingCiphertext : Bytes :=
  [0xca, 0xa5, 0x40, 0x3d, 0x4d, 0x60, 0x6b, 0x6e, 0x07, 0x4f, 0x09, 0xd6, 0x23, 0x8b, 0xd3, 0x5b,
   0x8d, 0x0c, 0xeb, 0xc8, 0x86, 0xed, 0x9b, 0x18, 0x7e, 0xa0]

def encryptedPing : Bytes :=
  ndaEncryptedMagic ++ (pingDigest ++ (List.replicate 12 0 ++ pingCiphertext))

/-- A build with the `oauth2` feature and a session key. -/
def encryptedConfig : Config where
  oauth2 := true
  merkleEnabled := true
  sha256 := fun _ => pingDigest
  sessionKey := some (List.replicate 32 0)
  aeadDecrypt := fun key nonce ciphertext =>
    if key = List.replicate 32 0 ∧ nonce = List.replicate 12 0 ∧ ciphertext = pingCiphertext then
      .ok pingPayload
    else .error "aead::Error"

/-- An encrypted ping is parsed, but not routed to the handler of frames. -/
theorem encryptedPing_misrouted :
    parseNdaRequestInplace encryptedConfig encryptedPing =
        .ok ⟨0x04, [0x02, 0, 0, 0, 0, 0, 0, 0, 1], []⟩ ∧
      route encryptedPing ≠ .nda ∧ ¬ RoutedRight encryptedConfig encryptedPing := by
  have hparse : parseNdaRequestInplace encryptedConfig encryptedPing =
      .ok ⟨0x04, [0x02, 0, 0, 0, 0, 0, 0, 0, 1], []⟩ := by decide +kernel
  have hroute : route encryptedPing ≠ .nda := by decide +kernel
  exact ⟨hparse, hroute, fun h => hroute (h.1 _ hparse)⟩

end VelocityMcp.NdaNative
