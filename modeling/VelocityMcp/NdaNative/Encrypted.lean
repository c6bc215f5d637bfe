import VelocityMcp.NdaNative.Frame

/-!
# NdaNative.Encrypted — building an encrypted frame, and what the two parsers make of it (`nda_native.rs`)

`encryptedFrame_roundTrip`: both parsers give the request back, and reject the frame once it is tampered with.
-/

namespace VelocityMcp.NdaNative

open Lib

/-! ## The builder -/

/-- The plaintext of a request: the method with its flag, the id, and the data unless it is null. -/
def requestPlaintext (method : UInt8) (requestId data : Value) : Outcome String Bytes :=
  ((Emit.put [method ||| flagEncrypted]).andThen ((encodeJsonValue requestId).andThen
    (if data = .null then .put [] else encodeJsonValue data))).toOutcome

/-- `build_nda_encrypted_frame`, of AES-256-GCM encryption (of key, nonce and plaintext) and the nonce drawn. -/
def buildNdaEncryptedFrame (cfg : Config) (encrypt : Bytes → Bytes → Bytes → Except String Bytes)
    (nonce : Bytes) (method : UInt8) (requestId data : Value) : Outcome String Bytes := do
  let plaintext ← requestPlaintext method requestId data
  let merkle := if cfg.merkleEnabled then cfg.sha256 plaintext else List.replicate 32 0
  match cfg.sessionKey with
  | none => .err "Session encryption key not set. Call set_session_encryption_key() first."
  | some key => match encrypt key nonce plaintext with
    | .error e => .err s!"Failed to encrypt payload: {e}"
    | .ok ciphertext => .ok (ndaEncryptedMagic ++ (merkle ++ (nonce ++ ciphertext)))

/-- **The assumptions on the AEAD**: opening undoes sealing under the same key and nonce, and rejects everything that
sealing under them never gives. -/
structure Aead (encrypt decrypt : Bytes → Bytes → Bytes → Except String Bytes) : Prop where
  opens : ∀ {key nonce plaintext ciphertext}, encrypt key nonce plaintext = .ok ciphertext →
    decrypt key nonce ciphertext = .ok plaintext
  rejects : ∀ {key nonce ciphertext}, (∀ plaintext, encrypt key nonce plaintext ≠ .ok ciphertext) →
    ∃ e, decrypt key nonce ciphertext = .error e

/-- What stands behind the header of `f` as nonce and ciphertext has not been sealed under the key. -/
def Unsealed (encrypt : Bytes → Bytes → Bytes → Except String Bytes) (key f : Bytes) : Prop :=
  ∀ plaintext, encrypt key ((f.drop frameHeaderSize).take 12) plaintext ≠ .ok (f.drop (frameHeaderSize + 12))

def dataBytes (data : Value) : Bytes := if data = .null then [] else (Tlv.ofValue data).bytes

theorem wholeValue_dataBytes {d : Value} (h : WithinLimits d) : WholeValue (dataBytes d) d := by
  rw [dataBytes]
  by_cases hd : d = .null
  · rw [if_pos hd]
    exact Or.inl ⟨rfl, hd⟩
  · rw [if_neg hd]
    have := h.decode []
    rw [List.append_nil] at this
    exact Or.inr this

theorem decodeReqData_dataBytes {d : Value} (h : WithinLimits d) : decodeReqData (dataBytes d) = .ok d :=
  decodeReqData_eq_ok.mpr ((wholeValue_dataBytes h).imp_right fun h => ⟨_, h⟩)

theorem requestPlaintext_of_keysLe (m : UInt8) {i d : Value} (hi : i.All (Value.KeysLe 65535))
    (hd : d.All (Value.KeysLe 65535)) :
    requestPlaintext m i d = .ok ((m ||| flagEncrypted) :: ((Tlv.ofValue i).bytes ++ dataBytes d)) := by
  rw [requestPlaintext, encodeJsonValue_of_keysLe hi, dataBytes]
  by_cases hnull : d = .null
  · rw [if_pos hnull, if_pos hnull]
    rfl
  · rw [if_neg hnull, if_neg hnull, encodeJsonValue_of_keysLe hd]
    rfl

/-! ## The parsers on encrypted frames -/

section Encrypted

variable {cfg : Config} {f p : Bytes}

theorem parse_of_framePayload_err {e : ParseError} (h : framePayload cfg f = .err e) :
    parseNdaRequest cfg f = .err e ∧ parseNdaRequestInplace cfg f = .err e := by
  rw [parseNdaRequest, parseNdaRequestInplace, h]
  exact ⟨rfl, rfl⟩

theorem methodOf_flagged {m : UInt8} (hm : m < flagEncrypted) : methodOf true (m ||| flagEncrypted) = m := by
  have h : ∀ m : UInt8, m < flagEncrypted → (m ||| flagEncrypted) &&& ~~~flagEncrypted = m := by
    rintro ⟨⟨m⟩⟩
    revert m
    decide +kernel
  exact h m hm

variable {key : Bytes}

theorem framePayload_encrypted (hoauth : cfg.oauth2 = true) (hkey : cfg.sessionKey = some key)
    (hmagic : f.take 4 = ndaEncryptedMagic) (hlen : frameHeaderSize + 12 ≤ f.length) :
    framePayload cfg f =
      match cfg.aeadDecrypt key ((f.drop frameHeaderSize).take 12) (f.drop (frameHeaderSize + 12)) with
      | .error e => .err (.decryption s!"Failed to decrypt payload: {e}")
      | .ok plaintext =>
        if cfg.merkleEnabled ∧ (f.drop 4).take 32 ≠ cfg.sha256 plaintext then .err .merkleMismatchDecrypted
        else .ok (true, plaintext) := by
  have hsize : frameHeaderSize = 36 := rfl
  have hfirst : ∀ ε : Type, slice (ε := ε) f 0 4 = .ok ndaEncryptedMagic := fun ε => by
    rw [slice_of_le (by omega) (by omega), List.drop_zero, hmagic]
  rw [framePayload, if_neg (by omega), hfirst, slice_of_le (by omega) (by omega), Outcome.ok_bind, Outcome.ok_bind,
    if_neg (by simp), if_pos rfl, if_neg (by simp [hoauth]), decryptNdaFramePayload, if_neg (by omega), hfirst,
    Outcome.ok_bind, if_neg (by simp), slice_of_le (by omega) (by omega), Outcome.ok_bind,
    sliceFrom_of_le (by omega), Outcome.ok_bind, hkey, Nat.add_sub_cancel_left]
  cases hopen : cfg.aeadDecrypt key ((f.drop frameHeaderSize).take 12) (f.drop (frameHeaderSize + 12)) with
  | error e => simp only [hopen, Outcome.mapErr_err, Outcome.err_bind]
  | ok plaintext => simp only [hopen, Outcome.mapErr_ok, Outcome.ok_bind]

theorem framePayload_encrypted_short (hoauth : cfg.oauth2 = true) (hmagic : f.take 4 = ndaEncryptedMagic)
    (hlen : frameHeaderSize ≤ f.length) (hshort : f.length < frameHeaderSize + 12) :
    framePayload cfg f = .err (.decryption "Encrypted frame too short") := by
  have hsize : frameHeaderSize = 36 := rfl
  rw [framePayload, if_neg (by omega), slice_of_le (by omega) (by omega), List.drop_zero, hmagic,
    slice_of_le (by omega) (by omega), Outcome.ok_bind, Outcome.ok_bind, if_neg (by simp), if_pos rfl,
    if_neg (by simp [hoauth]), decryptNdaFramePayload, if_pos hshort]
  rfl

theorem parse_requestPayload (hoauth : cfg.oauth2 = true) {m : UInt8} (hm : m < 0x80) {i d : Value}
    (hi : WithinLimits i) (hd : WithinLimits d)
    (h : framePayload cfg f = .ok (true, (m ||| flagEncrypted) :: ((Tlv.ofValue i).bytes ++ dataBytes d))) :
    parseNdaRequest cfg f = .ok ⟨m, i, d⟩ ∧
      ∃ r, parseNdaRequestInplace cfg f = .ok r ∧ r.method = m ∧
        decodeJsonValue r.idTlv = .ok (i, r.idTlv.length) ∧ decodeReqData r.data = .ok d := by
  have hid := hi.decode (dataBytes d)
  have hid' : decodeJsonValue (Tlv.ofValue i).bytes = .ok (i, (Tlv.ofValue i).bytes.length) := by
    have := hi.decode []
    rwa [List.append_nil] at this
  have hrest : ((Tlv.ofValue i).bytes ++ dataBytes d).drop (Tlv.ofValue i).bytes.length = dataBytes d :=
    List.drop_left
  constructor
  · refine parseNdaRequest_eq_ok.mpr ⟨true, _, _, _, h, hid, ?_, ?_⟩
    · rw [hoauth]
      exact (methodOf_flagged hm).symm
    · rw [hrest]
      exact wholeValue_dataBytes hd
  · refine ⟨⟨m, (Tlv.ofValue i).bytes, dataBytes d⟩, ?_, rfl, hid', decodeReqData_dataBytes hd⟩
    refine parseNdaRequestInplace_eq_ok.mpr ⟨true, _, _, _, h, skip_of_decode hid, ?_⟩
    rw [methodOf_flagged hm, List.take_left, hrest]

variable {merkle nonce plaintext ciphertext : Bytes} {encrypt : Bytes → Bytes → Bytes → Except String Bytes}

def encryptedHeader (merkle : Bytes) : Bytes := ndaEncryptedMagic ++ merkle

theorem length_encryptedHeader (h : merkle.length = 32) : (encryptedHeader merkle).length = frameHeaderSize := by
  rw [encryptedHeader, List.length_append, h]
  rfl

theorem take_magic_of_header (hf : f.take frameHeaderSize = encryptedHeader merkle) :
    f.take 4 = ndaEncryptedMagic := by
  have h : f.take 4 = (f.take frameHeaderSize).take 4 := by
    rw [List.take_take]
    rfl
  rw [h, hf]
  rfl

theorem framePayload_sealed (hoauth : cfg.oauth2 = true) (hkey : cfg.sessionKey = some key)
    (hnonce : nonce.length = 12) (hlen : merkle.length = 32)
    (hmerkle : cfg.merkleEnabled = true → merkle = cfg.sha256 plaintext)
    (hopen : cfg.aeadDecrypt key nonce ciphertext = .ok plaintext) :
    framePayload cfg (encryptedHeader merkle ++ (nonce ++ ciphertext)) = .ok (true, plaintext) := by
  have hheader := length_encryptedHeader hlen
  have htake : (encryptedHeader merkle ++ (nonce ++ ciphertext)).take frameHeaderSize = encryptedHeader merkle := by
    rw [← hheader, List.take_left]
  have hdrop : (encryptedHeader merkle ++ (nonce ++ ciphertext)).drop frameHeaderSize = nonce ++ ciphertext := by
    rw [← hheader, List.drop_left]
  have hstored : ((encryptedHeader merkle ++ (nonce ++ ciphertext)).drop 4).take 32 = merkle := by
    rw [encryptedHeader, List.append_assoc, show (4 : ℕ) = ndaEncryptedMagic.length from rfl, List.drop_left,
      ← hlen, List.take_left]
  have hsize : frameHeaderSize + 12 ≤ (encryptedHeader merkle ++ (nonce ++ ciphertext)).length := by
    simp only [List.length_append, hheader, hnonce]
    omega
  rw [framePayload_encrypted hoauth hkey (take_magic_of_header htake) hsize, ← List.drop_drop, hdrop, ← hnonce,
    List.take_left, List.drop_left, hopen]
  simp only
  rw [if_neg]
  rintro ⟨hon, hne⟩
  exact hne (hstored.trans (hmerkle hon))

theorem framePayload_tampered (hoauth : cfg.oauth2 = true) (hkey : cfg.sessionKey = some key)
    (hlen : merkle.length = 32) (haead : Aead encrypt cfg.aeadDecrypt)
    (hf : f.take frameHeaderSize = encryptedHeader merkle) (hunsealed : Unsealed encrypt key f) :
    ∃ e, framePayload cfg f = .err e := by
  have hlen' : frameHeaderSize ≤ f.length := by
    have h := congrArg List.length hf
    rw [List.length_take, length_encryptedHeader hlen] at h
    omega
  by_cases hshort : f.length < frameHeaderSize + 12
  · exact ⟨_, framePayload_encrypted_short hoauth (take_magic_of_header hf) hlen' hshort⟩
  · obtain ⟨e, he⟩ := haead.rejects hunsealed
    rw [framePayload_encrypted hoauth hkey (take_magic_of_header hf) (not_lt.mp hshort), he]
    exact ⟨_, rfl⟩

/-- **The encrypted round trip.**  Both parsers give back the request a frame was built from.  With any
change behind its header (to a nonce, ciphertext or tag byte, or to their number), both fail, unless it makes
another sealed frame of it. -/
theorem encryptedFrame_roundTrip {m : UInt8} {i d : Value} (hoauth : cfg.oauth2 = true)
    (hkey : cfg.sessionKey = some key) (hsha : ∀ b, (cfg.sha256 b).length = 32) (hnonce : nonce.length = 12)
    (hm : m < 0x80) (hi : WithinLimits i) (hd : WithinLimits d) (hplain : requestPlaintext m i d = .ok plaintext)
    (haead : Aead encrypt cfg.aeadDecrypt) (hsealed : encrypt key nonce plaintext = .ok ciphertext) :
    ∃ frame, buildNdaEncryptedFrame cfg encrypt nonce m i d = .ok frame ∧
      parseNdaRequest cfg frame = .ok ⟨m, i, d⟩ ∧
      (∃ r, parseNdaRequestInplace cfg frame = .ok r ∧ r.method = m ∧
        decodeJsonValue r.idTlv = .ok (i, r.idTlv.length) ∧ decodeReqData r.data = .ok d) ∧
      ∀ f, f.take frameHeaderSize = frame.take frameHeaderSize → Unsealed encrypt key f →
        (∃ e, parseNdaRequest cfg f = .err e) ∧ ∃ e, parseNdaRequestInplace cfg f = .err e := by
  obtain ⟨merkle, hmerkle⟩ : ∃ merkle, merkle =
      if cfg.merkleEnabled then cfg.sha256 plaintext else List.replicate 32 0 := ⟨_, rfl⟩
  have hlen : merkle.length = 32 := by
    rw [hmerkle]
    split_ifs
    · exact hsha plaintext
    · exact List.length_replicate
  have hbuild : buildNdaEncryptedFrame cfg encrypt nonce m i d =
      .ok (encryptedHeader merkle ++ (nonce ++ ciphertext)) := by
    rw [buildNdaEncryptedFrame, hplain, Outcome.ok_bind, hkey]
    simp only [hsealed]
    rw [← hmerkle, encryptedHeader, List.append_assoc]
  have hpayload := framePayload_sealed hoauth hkey hnonce hlen (fun hon => by rw [hmerkle, if_pos hon])
    (haead.opens hsealed)
  obtain rfl := Outcome.ok.inj (hplain.symm.trans (requestPlaintext_of_keysLe m hi.keys hd.keys))
  obtain ⟨heager, hlazy⟩ := parse_requestPayload hoauth hm hi hd hpayload
  refine ⟨_, hbuild, heager, hlazy, fun f hf hunsealed => ?_⟩
  rw [← length_encryptedHeader hlen, List.take_left, length_encryptedHeader hlen] at hf
  obtain ⟨e, he⟩ := framePayload_tampered hoauth hkey hlen haead hf hunsealed
  exact ⟨⟨e, (parse_of_framePayload_err he).1⟩, e, (parse_of_framePayload_err he).2⟩

end Encrypted

/-! ### The frame of a `ping` -/

/-- `ping`, flagged, with id 1. -/
def flaggedPing : Bytes := [0x84, 0x02, 0, 0, 0, 0, 0, 0, 0, 1]

/-- `flaggedPing` under AES-256-GCM with key and nonce zero, followed by the tag. -/
def flaggedCiphertext : Bytes :=
  [0x4a, 0xa5, 0x40, 0x3d, 0x4d, 0x60, 0x6b, 0x6e, 0x07, 0x4f, 0xce, 0x14, 0x5d, 0x08, 0x9c, 0x45,
   0xb4, 0x30, 0xc1, 0x4a, 0x57, 0xd5, 0x55, 0x8a, 0x1f, 0x17]

/-- The SHA-256 digest of `flaggedPing`. -/
def flaggedDigest : Bytes :=
  [0xda, 0xe9, 0x46, 0xff, 0x9d, 0x12, 0xf9, 0xe9, 0x84, 0xaa, 0xf0, 0xaa, 0x5a, 0x90, 0x4a, 0x5e,
   0x1f, 0xeb, 0xe5, 0xcf, 0xf1, 0xb4, 0xaa, 0x43, 0x0d, 0x87, 0x6d, 0x8f, 0xd5, 0x59, 0x46, 0x1f]

def flaggedConfig : Config where
  oauth2 := true
  merkleEnabled := true
  sha256 := fun _ => flaggedDigest
  sessionKey := some (List.replicate 32 0)
  aeadDecrypt := fun key nonce ciphertext =>
    if (key, nonce, ciphertext) = (List.replicate 32 0, List.replicate 12 0, flaggedCiphertext) then .ok flaggedPing
    else .error "aead::Error"

/-- The cipher, where `flaggedConfig` knows it. -/
def flaggedEncrypt (key nonce plaintext : Bytes) : Except String Bytes :=
  if (key, nonce, plaintext) = (List.replicate 32 0, List.replicate 12 0, flaggedPing) then .ok flaggedCiphertext
  else .error "aead::Error"

theorem aead_flagged : Aead flaggedEncrypt flaggedConfig.aeadDecrypt where
  opens := by
    intro key nonce plaintext ciphertext h
    rw [flaggedEncrypt] at h
    split_ifs at h with heq
    obtain ⟨rfl, rfl, rfl⟩ := heq
    obtain rfl := Except.ok.inj h
    simp only [flaggedConfig, if_true]
  rejects := by
    intro key nonce ciphertext h
    refine ⟨"aead::Error", if_neg ?_⟩
    rintro ⟨⟩
    exact h flaggedPing (if_pos rfl)

/-- A ping, sealed and opened again. -/
theorem encryptedFrame_roundTrip_ping :
    ∃ frame, buildNdaEncryptedFrame flaggedConfig flaggedEncrypt (List.replicate 12 0) 0x04
        (.number (.posInt 1)) .null = .ok frame ∧
      parseNdaRequest flaggedConfig frame = .ok ⟨0x04, .number (.posInt 1), .null⟩ ∧
      (∃ r, parseNdaRequestInplace flaggedConfig frame = .ok r ∧ r.method = 0x04 ∧
        decodeJsonValue r.idTlv = .ok (.number (.posInt 1), r.idTlv.length) ∧ decodeReqData r.data = .ok .null) ∧
      ∀ f, f.take frameHeaderSize = frame.take frameHeaderSize → Unsealed flaggedEncrypt (List.replicate 32 0) f →
        (∃ e, parseNdaRequest flaggedConfig f = .err e) ∧ ∃ e, parseNdaRequestInplace flaggedConfig f = .err e := by
  have hid : WithinLimits (.number (.posInt 1)) :=
    ⟨trivial, by decide, trivial, trivial, trivial, show (1 : UInt64) ≤ Number.i64Max by decide⟩
  have hnull : WithinLimits .null := ⟨trivial, by decide, trivial, trivial, trivial, trivial⟩
  exact encryptedFrame_roundTrip rfl rfl (fun _ => rfl) rfl (by decide) hid hnull (by decide +kernel) aead_flagged
    (if_pos rfl)

end VelocityMcp.NdaNative
