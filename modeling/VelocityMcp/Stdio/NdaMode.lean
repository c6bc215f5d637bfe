import VelocityMcp.NdaNative.Answers
import VelocityMcp.Stdio.JsonMode

/-!
# Stdio.NdaMode — binary frames on the standard input (`run_stdio_nda_mode` of `json_rpc.rs`)

`served_iff`: which streams are served as what they are.
-/

namespace VelocityMcp.Stdio

open Lib NdaNative

/-! ## The process -/

def handleNdaFrame (srv : Server) (raw : Bytes) : Outcome String Bytes :=
  match dispatchNdaRequest srv raw with
  | .ok frame => .ok frame
  | .err e => buildNdaError .null s!"Parse error: {e}"
  | .panic => .panic

/-- A frame behind its length. -/
def prefixed (frame : Bytes) : Bytes := beBytes 4 frame.length ++ frame

def maxFrame : ℕ := 10 * 1024 * 1024

/-- `run_stdio_nda_mode`: what is written, and how it ends.  The `n`-th frame finds the server `srv n`. -/
def runNdaMode (srv : ℕ → Server) (n frameLen : ℕ) (input : Bytes) : Bytes × Outcome String Unit :=
  if input.length < frameLen then ([], .ok ())
  else match handleNdaFrame (srv n) (input.take frameLen) with
    | .err e => ([], .err e)
    | .panic => ([], .panic)
    | .ok response =>
      let rest := input.drop frameLen
      if _h : rest.length < 4 then (prefixed response, .ok ())
      else if beNat (rest.take 4) > maxFrame then (prefixed response, .ok ())
      else
        let more := runNdaMode srv (n + 1) (beNat (rest.take 4)) (rest.drop 4)
        (prefixed response ++ more.1, more.2)
termination_by input.length
decreasing_by
  have hlen : ¬ (input.drop frameLen).length < 4 := _h
  simp only [List.length_drop] at *
  omega

/-- What a process does with its input. -/
inductive Run where
  | nda (written : Bytes) (result : Outcome String Unit)
  | json (requests : List Request)

/-- `run_stdio_loop`, when the first read gives `peeked` bytes of the content. -/
def runStdioLoop (srv : ℕ → Server) (content : Bytes) (peeked : ℕ) : Run :=
  match ndaLength (content.take peeked) with
  | some frameLen =>
    let r := runNdaMode srv 0 frameLen (content.drop peeked)
    .nda r.1 r.2
  | none => .json (handled maxRequestSize content peeked)

/-! ## The dispatcher returns -/

section Dispatcher

variable {cfg : Config} {f : Bytes} {srv : Server}

theorem decrypt_ne_panic : decryptNdaFramePayload cfg f ≠ .panic := by
  unfold decryptNdaFramePayload
  by_cases hshort : f.length < frameHeaderSize + 12
  · rw [if_pos hshort]
    simp
  · rw [if_neg hshort]
    have hheader : frameHeaderSize = 36 := rfl
    refine Outcome.bind_ne_panic (slice_ne_panic (by omega) (by omega)) fun magic _ => ?_
    split_ifs
    · simp
    · refine Outcome.bind_ne_panic (slice_ne_panic (by omega) (by omega)) fun nonce _ => ?_
      refine Outcome.bind_ne_panic (sliceFrom_ne_panic (by omega)) fun ciphertext _ => ?_
      cases cfg.sessionKey with
      | none => simp
      | some key =>
        simp only
        split <;> simp

theorem framePayload_ne_panic : framePayload cfg f ≠ .panic := by
  unfold framePayload
  by_cases hshort : f.length < frameHeaderSize
  · rw [if_pos hshort]
    simp
  · rw [if_neg hshort]
    have hheader : frameHeaderSize = 36 := rfl
    refine Outcome.bind_ne_panic (slice_ne_panic (by omega) (by omega)) fun magic _ => ?_
    refine Outcome.bind_ne_panic (slice_ne_panic (by omega) (by omega)) fun stored _ => ?_
    by_cases hmagic : magic ≠ ndaEncryptedMagic ∧ magic ≠ ndaMagic
    · rw [if_pos hmagic]
      simp
    · rw [if_neg hmagic]
      by_cases henc : magic = ndaEncryptedMagic
      · rw [if_pos henc]
        by_cases hoauth : (!cfg.oauth2) = true
        · rw [if_pos hoauth]
          simp
        · rw [if_neg hoauth]
          refine Outcome.bind_ne_panic (mt Outcome.mapErr_eq_panic.mp decrypt_ne_panic) fun plaintext _ => ?_
          split_ifs <;> simp
      · rw [if_neg henc]
        refine Outcome.bind_ne_panic (sliceFrom_ne_panic (by omega)) fun payload _ => ?_
        split_ifs <;> simp

theorem parse_ne_panic : parseNdaRequestInplace cfg f ≠ .panic := by
  unfold parseNdaRequestInplace
  refine Outcome.bind_ne_panic framePayload_ne_panic fun p _ => ?_
  obtain ⟨encrypted, payload⟩ := p
  simp only
  by_cases hlen : payload.length < 2
  · rw [if_pos hlen]
    simp
  · rw [if_neg hlen]
    refine Outcome.bind_ne_panic (byteAt_ne_panic (by omega)) fun first _ => ?_
    rw [sliceFrom_of_le (by omega), Outcome.ok_bind]
    refine Outcome.bind_ne_panic (mt Outcome.mapErr_eq_panic.mp (skip_ne_panic _ _)) fun idLen hid => ?_
    have hle := skip_le (Outcome.mapErr_eq_ok.mp hid)
    rw [List.length_drop] at hle
    refine Outcome.bind_ne_panic (slice_ne_panic (by omega) (by omega)) fun idTlv _ => ?_
    exact Outcome.bind_ne_panic (sliceFrom_ne_panic (by omega)) fun _ _ => by simp

theorem frame_ne_panic {idTlv : Bytes} {c : Content} (h : c.Sound) : c.frame idTlv ≠ .panic := by
  cases c with
  | value v =>
    refine Outcome.bind_ne_panic ?_ fun tlv _ => by simp
    unfold Emit.toOutcome
    split <;> simp
  | panic => exact h.elim
  | _ => simp [Content.frame]

/-- **The dispatcher never panics.** -/
theorem dispatch_ne_panic (srv : Server) (f : Bytes) : dispatchNdaRequest srv f ≠ .panic := by
  cases hparse : parseNdaRequestInplace srv.cfg f with
  | ok req =>
    rw [dispatchNdaRequest_of_parse hparse]
    exact frame_ne_panic (sound_contentOf srv req)
  | err e =>
    rw [dispatchNdaRequest, hparse]
    simp
  | panic => exact absurd hparse parse_ne_panic

/-- The reply to a frame: the dispatcher's, or an error frame. -/
def replyTo (srv : Server) (raw : Bytes) : Bytes :=
  match dispatchNdaRequest srv raw with
  | .ok frame => frame
  | .err e => replyFrame statusError [0x04] (textTlv s!"Parse error: {e}")
  | .panic => []

theorem handleNdaFrame_eq (srv : Server) (raw : Bytes) : handleNdaFrame srv raw = .ok (replyTo srv raw) := by
  rw [handleNdaFrame, replyTo]
  cases hdispatch : dispatchNdaRequest srv raw with
  | ok frame => rfl
  | err e => exact buildNdaError_null _
  | panic => exact absurd hdispatch (dispatch_ne_panic srv raw)

end Dispatcher

/-! ## Streams -/

structure ClientFrame where
  bytes : Bytes
  ge : 37 ≤ bytes.length
  le : bytes.length ≤ maxFrame

/-- What may stand behind the last frame: nothing, or a part of another one. -/
def Incomplete (tail : Bytes) : Prop := tail.length < 4 ∨ tail.length < 4 + beNat (tail.take 4)

/-- The first bytes of JSON texts: blanks, braces, brackets, quotes, signs, digits and the letters of the constants. -/
def startsJson (x : UInt8) : Bool :=
  x ∈ ([0x09, 0x0a, 0x0d, 0x20, 0x7b, 0x5b, 0x22, 0x2d, 0x74, 0x66, 0x6e] : Bytes) || (0x30 ≤ x && x ≤ 0x39)

/-- What a client may send: frames, or JSON text. -/
inductive ClientStream where
  | frames (first : ClientFrame) (more : List ClientFrame) (tail : Bytes) (incomplete : Incomplete tail)
  | json (first : UInt8) (text : Bytes) (starts : startsJson first)

/-- What a client writes to the pipe. -/
def ClientStream.bytes : ClientStream → Bytes
  | .frames first more tail _ => prefixed first.bytes ++ (more.flatMap (fun f => prefixed f.bytes) ++ tail)
  | .json first text _ => first :: text

/-- The replies to frames, of which the first finds the server `srv n`. -/
def repliesFrom (srv : ℕ → Server) : ℕ → List ClientFrame → List Bytes
  | _, [] => []
  | n, f :: fs => replyTo (srv n) f.bytes :: repliesFrom srv (n + 1) fs

/-- A stream is served as what it is: for frames, exactly one reply each is written, behind its length and in order. -/
def Served (srv : ℕ → Server) (peeked : ℕ) : ClientStream → Prop
  | .frames first more tail incomplete =>
    (∀ r ∈ repliesFrom srv 0 (first :: more), r.length < 256 ^ 4) ∧
    runStdioLoop srv (ClientStream.frames first more tail incomplete).bytes peeked =
      .nda ((repliesFrom srv 0 (first :: more)).flatMap prefixed) (.ok ())
  | .json first text starts =>
    ∃ requests, runStdioLoop srv (ClientStream.json first text starts).bytes peeked = .json requests

/-- Frames: the first read gives the whole length of the first frame, which is not the largest one, and no reply is
too long for its length field. -/
def Servable (srv : ℕ → Server) (peeked : ℕ) : ClientStream → Prop
  | .frames first more _ _ => peeked = 4 ∧ first.bytes.length ≠ maxFrame ∧
      ∀ r ∈ repliesFrom srv 0 (first :: more), r.length < 256 ^ 4
  | .json _ _ _ => True

section Streams

variable {srv : ℕ → Server} {peeked : ℕ} {f : Bytes}

theorem maxFrame_lt : maxFrame < 256 ^ 4 := by decide

theorem take_prefixed (f rest : Bytes) : (prefixed f ++ rest).take 4 = beBytes 4 f.length := by
  rw [prefixed, List.append_assoc]
  exact List.take_left' (length_beBytes 4 _)

theorem drop_prefixed (f rest : Bytes) : (prefixed f ++ rest).drop 4 = f ++ rest := by
  rw [prefixed, List.append_assoc]
  exact List.drop_left' (length_beBytes 4 _)

theorem beNat_length (hf : f.length ≤ maxFrame) : beNat (beBytes 4 f.length) = f.length := by
  rw [beNat_beBytes]
  exact Nat.mod_eq_of_lt (lt_of_le_of_lt hf maxFrame_lt)

theorem runNdaMode_tail {tail : Bytes} (h : Incomplete tail) (n : ℕ) (f : ClientFrame) :
    runNdaMode srv n f.bytes.length (f.bytes ++ tail) = (prefixed (replyTo (srv n) f.bytes), .ok ()) := by
  rw [runNdaMode, if_neg (by rw [List.length_append]; omega), List.take_left, handleNdaFrame_eq]
  simp only [List.drop_left]
  by_cases hshort : tail.length < 4
  · rw [dif_pos hshort]
  · rw [dif_neg hshort]
    by_cases hlarge : beNat (tail.take 4) > maxFrame
    · rw [if_pos hlarge]
    · have hcut := h.resolve_left hshort
      rw [if_neg hlarge, runNdaMode, if_pos (by rw [List.length_drop]; omega), List.append_nil]

theorem runNdaMode_frames {tail : Bytes} (h : Incomplete tail) (n : ℕ) (f : ClientFrame) (more : List ClientFrame) :
    runNdaMode srv n f.bytes.length (f.bytes ++ (more.flatMap (fun f => prefixed f.bytes) ++ tail)) =
      ((repliesFrom srv n (f :: more)).flatMap prefixed, .ok ()) := by
  induction more generalizing n f with
  | nil =>
    rw [List.flatMap_nil, List.nil_append, runNdaMode_tail h]
    simp [repliesFrom]
  | cons g more ih =>
    have hrest := ih (n + 1) g
    rw [List.flatMap_cons, List.append_assoc]
    set rest := more.flatMap (fun f => prefixed f.bytes) ++ tail
    have hlen : ¬ (prefixed g.bytes ++ rest).length < 4 := by
      rw [prefixed, List.length_append, List.length_append, length_beBytes]
      omega
    rw [runNdaMode, if_neg (by rw [List.length_append]; omega), List.take_left, handleNdaFrame_eq]
    simp only [List.drop_left]
    rw [dif_neg hlen, take_prefixed, drop_prefixed, beNat_length g.le, if_neg (by have := g.le; omega), hrest]
    rfl

theorem ndaLength_of_length_ne {b : Bytes} (h : b.length ≠ 4) : ndaLength b = none := by
  rw [ndaLength, if_neg h]

theorem ndaLength_prefixed (f : ClientFrame) (rest : Bytes) (hpeeked : peeked ≤ 4) :
    ndaLength ((prefixed f.bytes ++ rest).take peeked) =
      if peeked = 4 ∧ f.bytes.length ≠ maxFrame then some f.bytes.length else none := by
  have hge := f.ge
  have hle := f.le
  by_cases hfour : peeked = 4
  · subst hfour
    rw [take_prefixed, ndaLength, if_pos (length_beBytes 4 _), beNat_length hle]
    unfold maxFrame at *
    by_cases hlarge : f.bytes.length = 10 * 1024 * 1024
    · rw [if_neg (by omega), if_neg (by omega)]
    · rw [if_pos (by omega), if_pos (by omega)]
  · rw [if_neg (fun h => hfour h.1)]
    refine ndaLength_of_length_ne ?_
    rw [List.length_take, prefixed, List.length_append, List.length_append, length_beBytes]
    omega

theorem nine_le_of_startsJson {x : UInt8} (h : startsJson x) : 9 ≤ x.toNat := by
  rw [startsJson, Bool.or_eq_true, decide_eq_true_eq, Bool.and_eq_true, decide_eq_true_eq] at h
  rcases h with h | h
  · have hall : ([0x09, 0x0a, 0x0d, 0x20, 0x7b, 0x5b, 0x22, 0x2d, 0x74, 0x66, 0x6e] : Bytes).all
        fun y => 9 ≤ y.toNat := by decide
    simpa using List.all_eq_true.mp hall x h
  · have hle := UInt8.le_iff_toNat_le.mp h.1
    have hzero : (0x30 : UInt8).toNat = 48 := rfl
    omega

theorem ndaLength_json {x : UInt8} (hx : startsJson x) (text : Bytes) (peeked : ℕ) :
    ndaLength ((x :: text).take peeked) = none := by
  by_cases hlen : ((x :: text).take peeked).length = 4
  · obtain ⟨y, z, w, hbytes⟩ : ∃ y z w, (x :: text).take peeked = [x, y, z, w] := by
      cases peeked with
      | zero => cases hlen
      | succ n =>
        rw [List.take_succ_cons, List.length_cons] at hlen
        obtain ⟨y, z, w, hmore⟩ := List.length_eq_three.mp (Nat.succ.inj hlen)
        exact ⟨y, z, w, by rw [List.take_succ_cons, hmore]⟩
    have hnine := nine_le_of_startsJson hx
    have hnat : beNat [x, y, z, w] = w.toNat + 256 * (z.toNat + 256 * (y.toNat + 256 * x.toNat)) := rfl
    have hfour : [x, y, z, w].length = 4 := rfl
    rw [hbytes, ndaLength, if_pos hfour, if_neg]
    rw [hnat]
    omega
  · exact ndaLength_of_length_ne hlen

/-- **Framing and the choice of the mode**: JSON text is always taken for text; frames are served exactly if the
first read gives the first length whole, and it is not that of the largest frame. -/
theorem served_iff {stream : ClientStream} (hread : FirstRead stream.bytes peeked) :
    Served srv peeked stream ↔ Servable srv peeked stream := by
  cases stream with
  | json first text starts =>
    refine iff_of_true ⟨handled maxRequestSize (first :: text) peeked, ?_⟩ trivial
    show runStdioLoop srv (first :: text) peeked = _
    rw [runStdioLoop, ndaLength_json starts]
  | frames first more tail incomplete =>
    have hmode := ndaLength_prefixed first (more.flatMap (fun f => prefixed f.bytes) ++ tail) hread.le_four
    show (_ ∧ runStdioLoop srv (prefixed first.bytes ++ (more.flatMap (fun f => prefixed f.bytes) ++ tail)) peeked =
      _) ↔ _
    rw [runStdioLoop, hmode, Servable]
    by_cases hnda : peeked = 4 ∧ first.bytes.length ≠ maxFrame
    · rw [if_pos hnda, hnda.1, drop_prefixed]
      simp only [runNdaMode_frames incomplete]
      exact ⟨fun h => ⟨trivial, hnda.2, h.1⟩, fun h => ⟨h.2.2, trivial⟩⟩
    · rw [if_neg hnda]
      refine iff_of_false (fun h => ?_) fun h => hnda ⟨h.1, h.2.1⟩
      cases h.2

end Streams

def zeroFrame : ClientFrame := ⟨List.replicate 37 0, by decide, by decide⟩

def zeroStream : ClientStream := .frames zeroFrame [] [] (Or.inl (by decide))

/-- A frame of 37 zero bytes, and then the end. -/
theorem served_iff_zeroStream : Served (fun _ => bareServer) 4 zeroStream :=
  (served_iff ⟨by decide, by decide, by decide⟩).mpr ⟨rfl, by decide, by decide +kernel⟩

/-- When the first read gives only a part of the first length, the frames are taken for text. -/
theorem short_read_not_served :
    FirstRead zeroStream.bytes 2 ∧ ¬ Served (fun _ => bareServer) 2 zeroStream := by
  refine ⟨⟨by decide, by decide, by decide⟩, fun h => ?_⟩
  have hrun : runStdioLoop (fun _ => bareServer) zeroStream.bytes 2 =
      .json (handled maxRequestSize zeroStream.bytes 2) := rfl
  cases hrun.symm.trans h.2

end VelocityMcp.Stdio
