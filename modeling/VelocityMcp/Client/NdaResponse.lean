import VelocityMcp.Client.NdaCodec
import VelocityMcp.NdaNative.Reply

/-!
# Client.NdaResponse — how the client reads a binary reply (`nda_codec.rs`)

`IsTlv`: the encodings the client's decoder reads to their end.
-/

namespace VelocityMcp.Client

open Lib NdaNative

structure NdaResponse where
  status : UInt8
  requestId : Value
  result : Value
deriving DecidableEq

variable (sha256 : Bytes → Bytes)

/-- `parse_nda_response`, and the offset in the payload at which it is done. -/
def parseNdaResponseAt (frame : Bytes) : Outcome Error (NdaResponse × ℕ) :=
  if frame.length < frameHeaderSize + 1 then nda s!"NDA response too small ({frame.length} bytes)"
  else do
    let magic ← slice frame 0 4
    if magic ≠ ndaMagic then nda "bad NDA magic"
    else do
      let payload ← sliceFrom frame frameHeaderSize
      let merkleField ← slice frame 4 36
      if (∃ b ∈ merkleField, b ≠ 0) ∧ merkleField ≠ sha256 payload then nda "NDA Merkle root mismatch"
      else do
        let status ← byteAt payload 0
        let rest ← sliceFrom payload 1
        let (requestId, consumed) ← decodeTlvValue rest
        let offset := 1 + consumed
        if offset < payload.length then do
          let rest ← sliceFrom payload offset
          let (val, n) ← decodeTlvValue rest
          .ok (⟨status, requestId, val⟩, offset + n)
        else .ok (⟨status, requestId, .object []⟩, offset)

/-- The parser, without where it stopped reading. -/
def parseNdaResponse (frame : Bytes) : Outcome Error NdaResponse := do
  let (r, _) ← parseNdaResponseAt sha256 frame
  .ok r

/-- The encoding of one wire tree whose texts are all UTF-8. -/
def IsTlv (b : Bytes) : Prop := ∃ (t : Tlv) (v : Value), t.Fits ∧ t.value = .ok v ∧ b = t.bytes

section Parse

variable {sha256} {b : Bytes} {status : UInt8} {t : Tlv}

theorem isTlv_iff : IsTlv b ↔ ∃ v, decodeTlvValue b = .ok (v, b.length) := by
  constructor
  · rintro ⟨t, v, hfits, hv, rfl⟩
    have hat : At t.bytes 0 t.bytes := by simpa using at_zero t.bytes []
    exact ⟨v, by rw [decodeTlvValue_of_at hfits hat, hv, ofWire_ok, Outcome.ok_bind]⟩
  · rintro ⟨v, hv⟩
    obtain ⟨t, hfits, ⟨p, q, hb, hp⟩, hlen, hval⟩ := decodeTlvFuel_sound hv
    obtain rfl := List.length_eq_zero_iff.mp hp
    have hq : q = [] := by
      rw [hb] at hlen
      simpa using hlen
    exact ⟨t, v, hfits, hval, by rw [hb, hq]; simp⟩

/-- The parser on a frame that the server builds. -/
theorem parse_replyFrame (ht : t.Fits) (hb : b ≠ []) :
    parseNdaResponseAt sha256 (replyFrame status t.bytes b) =
      ofWire t.value >>= fun i => decodeTlvValue b >>= fun (v, n) =>
        .ok (⟨status, i, v⟩, 1 + t.bytes.length + n) := by
  have hpos := List.length_pos_iff.mpr hb
  set payload := status :: (t.bytes ++ b) with hpayload
  have hframe : replyFrame status t.bytes b = ndaMagic ++ (List.replicate 32 0 ++ payload) := rfl
  have hlen : (replyFrame status t.bytes b).length = 36 + payload.length := by
    rw [hframe]
    simp [ndaMagic]
    omega
  have hmagic : slice (ε := Error) (replyFrame status t.bytes b) 0 4 = .ok ndaMagic :=
    At.slice (at_zero ndaMagic _) rfl
  have hrest : At (replyFrame status t.bytes b) 4 (List.replicate 32 0 ++ payload) :=
    ⟨ndaMagic, [], by rw [hframe, List.append_nil], rfl⟩
  have hzeros : slice (ε := Error) (replyFrame status t.bytes b) 4 36 = .ok (List.replicate 32 0) :=
    (at_append_iff.mp hrest).1.slice rfl
  have hdrop : (replyFrame status t.bytes b).drop frameHeaderSize = payload := by
    rw [hframe, ← List.append_assoc]
    exact List.drop_left' rfl
  have hnozero : ¬ ∃ x ∈ List.replicate 32 (0 : UInt8), x ≠ 0 := by simp
  have hplen : payload.length = 1 + (t.bytes.length + b.length) := by
    rw [hpayload, List.length_cons, List.length_append]
    omega
  have hat : At (t.bytes ++ b) 0 t.bytes := at_zero _ _
  rw [parseNdaResponseAt, if_neg (by rw [hlen, frameHeaderSize]; omega), hmagic, Outcome.ok_bind,
    if_neg (by simp), sliceFrom_of_le (by rw [hlen, frameHeaderSize]; omega), Outcome.ok_bind, hdrop,
    hzeros, Outcome.ok_bind, if_neg (fun h => hnozero h.1), hpayload, byteAt_cons_zero,
    Outcome.ok_bind, sliceFrom_cons_one, Outcome.ok_bind, decodeTlvValue_of_at ht hat]
  cases t.value with
  | error e => rfl
  | ok i =>
    simp only [ofWire_ok, Outcome.ok_bind]
    rw [if_pos (by simp only [List.length_cons, List.length_append]; omega),
      sliceFrom_cons (by rw [List.length_append]; omega), Outcome.ok_bind, List.drop_left]

end Parse

end VelocityMcp.Client
