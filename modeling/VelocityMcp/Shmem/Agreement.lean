import VelocityMcp.Shmem.Protocol

/-!
# Shmem.Agreement — when a response belongs to its request

`agreement_of_postsFresh`: in every run whose requests are posted to a server that is at work on nothing else.
-/

namespace VelocityMcp.Shmem

open Lib NdaNative

/-! ## The two areas of the buffer -/

def InputArea (a : ℕ) : Prop := 1 ≤ a ∧ a < 5 ∨ 9 ≤ a ∧ a < 13 ∨ 16 ≤ a ∧ a < 4096

def OutputArea (a : ℕ) : Prop := 5 ≤ a ∧ a < 9 ∨ 4096 ≤ a

/-- The request's length and bytes. -/
structure InputStored (m : Mem) (data : Bytes) : Prop where
  le : data.length ≤ maxInput
  len : Holds m inputLenOffset (leBytes 4 data.length)
  bytes : Holds m inputBufferOffset data

/-- The response's length and bytes. -/
structure OutputStored (m : Mem) (output : Bytes) : Prop where
  le : output.length ≤ maxOutput
  len : Holds m outputLenOffset (leBytes 4 output.length)
  bytes : Holds m outputBufferOffset output

section Areas

variable {m m' : Mem} {data output : Bytes}

theorem maxInput_eq : maxInput = 4080 := rfl

theorem maxOutput_eq : maxOutput = 61440 := rfl

theorem not_inputArea_of_outputArea {a : ℕ} (h : OutputArea a) : ¬ InputArea a := by
  unfold OutputArea at h
  unfold InputArea
  omega

theorem not_outputArea_of_inputArea {a : ℕ} (h : InputArea a) : ¬ OutputArea a :=
  fun ho => not_inputArea_of_outputArea ho h

theorem not_inputArea_state : ¬ InputArea stateOffset := by simp [InputArea, stateOffset]

theorem not_outputArea_state : ¬ OutputArea stateOffset := by simp [OutputArea, stateOffset]

theorem ne_state_of_outputArea {a : ℕ} (h : OutputArea a) : stateOffset ≠ a :=
  fun hs => not_outputArea_state (hs ▸ h)

theorem InputStored.congr (h : InputStored m data) (hm : ∀ a, InputArea a → m' a = m a) :
    InputStored m' data := by
  have hle := h.le
  rw [maxInput_eq] at hle
  refine ⟨h.le, h.len.congr fun c h₁ h₂ => hm c ?_, h.bytes.congr fun c h₁ h₂ => hm c ?_⟩
  · rw [length_leBytes] at h₂
    unfold InputArea inputLenOffset at *
    omega
  · unfold InputArea inputBufferOffset at *
    omega

theorem OutputStored.congr (h : OutputStored m output) (hm : ∀ a, OutputArea a → m' a = m a) :
    OutputStored m' output := by
  refine ⟨h.le, h.len.congr fun c h₁ h₂ => hm c ?_, h.bytes.congr fun c h₁ h₂ => hm c ?_⟩
  · rw [length_leBytes] at h₂
    unfold OutputArea outputLenOffset at *
    omega
  · unfold OutputArea outputBufferOffset at *
    omega

theorem store_off {A : ℕ → Prop} {b : ℕ} (hb : ¬ A b) (x : UInt8) (a : ℕ) (ha : A a) :
    m.store b x a = m a :=
  m.store_of_ne x fun hab => hb (hab ▸ ha)

theorem requestStores_inputArea (hle : data.length ≤ maxInput) (seq : UInt32) :
    ∀ p ∈ requestStores data seq, InputArea p.1 := by
  intro p hp
  rw [maxInput_eq] at hle
  unfold InputArea
  rcases List.mem_append.mp hp with h | h
  · have := mem_storesAt h
    rw [length_leBytes, inputLenOffset] at this
    omega
  · rcases List.mem_append.mp h with h | h
    · have := mem_storesAt h
      rw [inputBufferOffset] at this
      omega
    · have := mem_storesAt h
      rw [length_leBytes, requestSeqOffset] at this
      omega

theorem inputStored_requestStores (hle : data.length ≤ maxInput) (m : Mem) (seq : UInt32) :
    InputStored (runStores m (requestStores data seq)) data := by
  have hle' := hle
  rw [maxInput_eq] at hle'
  rw [requestStores, runStores_append, runStores_append]
  refine ⟨hle, ?_, ?_⟩
  · refine ((holds_storesAt m _ _).runStores fun p hp => ?_).runStores fun p hp => ?_
    · have := mem_storesAt hp
      rw [length_leBytes]
      unfold inputLenOffset inputBufferOffset at *
      omega
    · have := mem_storesAt hp
      rw [length_leBytes] at *
      unfold inputLenOffset requestSeqOffset at *
      omega
  · refine (holds_storesAt _ _ _).runStores fun p hp => ?_
    have := mem_storesAt hp
    rw [length_leBytes] at this
    unfold inputBufferOffset requestSeqOffset at *
    omega

theorem outputStores_outputArea (output : Bytes) : ∀ p ∈ outputStores output, OutputArea p.1 := by
  intro p hp
  unfold OutputArea
  unfold outputStores at hp
  split at hp
  · have := mem_storesAt hp
    rw [length_leBytes, outputLenOffset] at this
    omega
  · rcases List.mem_append.mp hp with h | h
    · have := mem_storesAt h
      rw [outputBufferOffset] at this
      omega
    · have := mem_storesAt h
      rw [length_leBytes, outputLenOffset] at this
      omega

theorem outputStored_outputStores (hle : output.length ≤ maxOutput) (m : Mem) :
    OutputStored (runStores m (outputStores output)) output := by
  rw [outputStores, if_neg (by omega), runStores_append]
  refine ⟨hle, holds_storesAt _ _ _, (holds_storesAt _ _ _).runStores fun p hp => ?_⟩
  have := mem_storesAt hp
  rw [length_leBytes] at this
  unfold outputBufferOffset outputLenOffset at *
  omega

end Areas

/-! ## What one step does -/

/-- All that one step of the client can do. -/
inductive ClientMove (s : State) : State → Prop where
  | stored {p : ℕ × UInt8} {todo : List (ℕ × UInt8)} (hc : s.client = .writing (p :: todo)) :
      ClientMove s { s with mem := s.mem.store p.1 p.2, client := .writing todo }
  | posted (hc : s.client = .writing []) :
      ClientMove s { s with mem := s.mem.store stateOffset stateReqReady, client := .waiting }
  | waits (hc : s.client = .waiting) : ClientMove s s
  | seen (hc : s.client = .waiting) (hdone : s.state = stateResReady ∨ s.state = stateError) :
      ClientMove s { s with client := .ready }
  | cleaned {e : Client.Error} (hc : s.client = .cleanup e) :
      ClientMove s (State.finish { s with mem := s.mem.store stateOffset stateIdle } (.error e))
  | refused (hc : s.client = .ready) (herr : s.state = stateError) : ClientMove s { s with client := .failing }
  | accepted (hc : s.client = .ready) (herr : s.state ≠ stateError) : ClientMove s { s with client := .taking }
  | tookError (hc : s.client = .failing) :
      ClientMove s { s with mem := s.mem.store stateOffset stateIdle, client := .errorLen [] }
  | errorLenByte {got : Bytes} (hc : s.client = .errorLen got) (hl : got.length < 4) :
      ClientMove s { s with client := .errorLen (got ++ [s.mem (outputLenOffset + got.length)]) }
  | errorLenRead {got : Bytes} (hc : s.client = .errorLen got) (hl : ¬ got.length < 4)
      (hlen : 0 < leNat got ∧ leNat got ≤ maxOutput) : ClientMove s { s with client := .errorText (leNat got) [] }
  | errorTextByte {len : ℕ} {got : Bytes} (hc : s.client = .errorText len got) (hl : got.length < len) :
      ClientMove s { s with client := .errorText len (got ++ [s.mem (outputBufferOffset + got.length)]) }
  | took (hc : s.client = .taking) :
      ClientMove s { s with mem := s.mem.store stateOffset stateIdle, client := .readLen [] }
  | lenByte {got : Bytes} (hc : s.client = .readLen got) (hl : got.length < 4) :
      ClientMove s { s with client := .readLen (got ++ [s.mem (outputLenOffset + got.length)]) }
  | lenRead {got : Bytes} (hc : s.client = .readLen got) (hl : ¬ got.length < 4) (hle : ¬ maxOutput < leNat got)
      (hne : leNat got ≠ 0) : ClientMove s { s with client := .readSeq (leNat got) [] }
  | seqByte {len : ℕ} {got : Bytes} (hc : s.client = .readSeq len got) (hl : got.length < 4) :
      ClientMove s { s with client := .readSeq len (got ++ [s.mem (requestSeqOffset + got.length)]) }
  | seqRead {len : ℕ} {got : Bytes} (hc : s.client = .readSeq len got) (hl : ¬ got.length < 4)
      (heq : leNat got = s.sentSeq.toNat) : ClientMove s { s with client := .readOut len [] }
  | stale {len : ℕ} {got : Bytes} (hc : s.client = .readSeq len got) (hl : ¬ got.length < 4)
      (hne : leNat got ≠ s.sentSeq.toNat) : ClientMove s (s.finish
        (.error (.staleResponse s!"Expected seq {s.sentSeq.toNat}, got {leNat got}")))
  | outByte {len : ℕ} {got : Bytes} (hc : s.client = .readOut len got) (hl : got.length < len) :
      ClientMove s { s with client := .readOut len (got ++ [s.mem (outputBufferOffset + got.length)]) }
  | responded {len : ℕ} {got : Bytes} (hc : s.client = .readOut len got) (hl : ¬ got.length < len) :
      ClientMove s (s.finish (.ok got))
  /-- The server's error was read, or the length of the response is out of bounds. -/
  | failed (text : String) : ClientMove s (s.finish (.error (.sharedMemory text)))

/-- A step of the server, while its handlers are not at work. -/
inductive ServerMove (s : State) : State → Prop where
  | polls (hc : s.server = .polling) (hreq : s.state ≠ stateReqReady) : ServerMove s s
  | seen (hc : s.server = .polling) (hreq : s.state = stateReqReady) : ServerMove s { s with server := .starting }
  | started (hc : s.server = .starting) :
      ServerMove s { s with mem := s.mem.store stateOffset stateProcessing, server := .readLen [] }
  | lenByte {got : Bytes} (hc : s.server = .readLen got) (hl : got.length < 4) : ServerMove s { s with
      server := .readLen (got ++ [s.mem (inputLenOffset + got.length)])
      readAt := if got = [] then s.sends else s.readAt }
  | lenLong {got : Bytes} (hc : s.server = .readLen got) (hl : ¬ got.length < 4) (hlong : maxInput < leNat got) :
      ServerMove s { s with server := .computing none }
  | lenRead {got : Bytes} (hc : s.server = .readLen got) (hl : ¬ got.length < 4) (hle : ¬ maxInput < leNat got) :
      ServerMove s { s with server := .readIn (leNat got) [] }
  | inByte {len : ℕ} {got : Bytes} (hc : s.server = .readIn len got) (hl : got.length < len) :
      ServerMove s { s with server := .readIn len (got ++ [s.mem (inputBufferOffset + got.length)]) }
  | inRead {len : ℕ} {got : Bytes} (hc : s.server = .readIn len got) (hl : ¬ got.length < len) :
      ServerMove s { s with server := .computing (some got) }
  | stored {raw : Option Bytes} {p : ℕ × UInt8} {todo : List (ℕ × UInt8)} {final : UInt8}
      (hc : s.server = .writing raw (p :: todo) final) :
      ServerMove s { s with mem := s.mem.store p.1 p.2, server := .writing raw todo final }
  | posted {raw : Option Bytes} {final : UInt8} (hc : s.server = .writing raw [] final) :
      ServerMove s { s with mem := s.mem.store stateOffset final, server := .polling }

section Moves

variable {s s' : State}

theorem State.clientMove (hs : s.clientStep = some s') : ClientMove s s' := by
  unfold State.clientStep at hs
  cases hc : s.client with
  | idle => simp [hc] at hs
  | writing todo =>
    cases todo with
    | nil =>
      simp only [hc, Option.some.injEq] at hs
      exact hs ▸ .posted hc
    | cons p todo =>
      simp only [hc, Option.some.injEq] at hs
      exact hs ▸ .stored hc
  | waiting =>
    simp only [hc] at hs
    split_ifs at hs with hdone
    · cases hs
      exact .seen hc hdone
    · cases hs
      exact .waits hc
  | cleanup e =>
    simp only [hc, Option.some.injEq] at hs
    exact hs ▸ .cleaned hc
  | ready =>
    simp only [hc, Option.some.injEq] at hs
    subst hs
    by_cases herr : s.state = stateError
    · rw [if_pos herr]
      exact .refused hc herr
    · rw [if_neg herr]
      exact .accepted hc herr
  | failing =>
    simp only [hc, Option.some.injEq] at hs
    exact hs ▸ .tookError hc
  | errorLen got =>
    simp only [hc] at hs
    split_ifs at hs with hl hlen
    · cases hs
      exact .errorLenByte hc hl
    · cases hs
      exact .errorLenRead hc hl hlen
    · cases hs
      exact .failed _
  | errorText len got =>
    simp only [hc] at hs
    split_ifs at hs with hl
    · cases hs
      exact .errorTextByte hc hl
    · cases hs
      exact .failed _
  | taking =>
    simp only [hc, Option.some.injEq] at hs
    exact hs ▸ .took hc
  | readLen got =>
    simp only [hc] at hs
    split_ifs at hs with hl hle hne
    · cases hs
      exact .lenByte hc hl
    · cases hs
      exact .failed _
    · cases hs
      exact .failed _
    · cases hs
      exact .lenRead hc hl hle hne
  | readSeq len got =>
    simp only [hc] at hs
    split_ifs at hs with hl hne
    · cases hs
      exact .seqByte hc hl
    · cases hs
      exact .stale hc hl hne
    · cases hs
      exact .seqRead hc hl (not_not.mp hne)
  | readOut len got =>
    simp only [hc] at hs
    split_ifs at hs with hl
    · cases hs
      exact .outByte hc hl
    · cases hs
      exact .responded hc hl

theorem State.serverMove (hs : s.serverStep = some s') : ServerMove s s' := by
  unfold State.serverStep at hs
  cases hc : s.server with
  | computing raw => simp [hc] at hs
  | polling =>
    simp only [hc, Option.some.injEq] at hs
    by_cases hreq : s.state = stateReqReady
    · rw [if_pos hreq] at hs
      exact hs ▸ .seen hc hreq
    · rw [if_neg hreq, ← hc] at hs
      exact hs ▸ .polls hc hreq
  | starting =>
    simp only [hc, Option.some.injEq] at hs
    exact hs ▸ .started hc
  | readLen got =>
    simp only [hc] at hs
    by_cases hl : got.length < 4
    · rw [if_pos hl, Option.some.injEq] at hs
      exact hs ▸ .lenByte hc hl
    · rw [if_neg hl] at hs
      split_ifs at hs with hlong
      · cases hs
        exact .lenLong hc hl hlong
      · cases hs
        exact .lenRead hc hl hlong
  | readIn len got =>
    simp only [hc] at hs
    split_ifs at hs with hl
    · cases hs
      exact .inByte hc hl
    · cases hs
      exact .inRead hc hl
  | writing raw todo final =>
    cases todo with
    | nil =>
      simp only [hc, Option.some.injEq] at hs
      exact hs ▸ .posted hc
    | cons p todo =>
      simp only [hc, Option.some.injEq] at hs
      exact hs ▸ .stored hc

end Moves

/-! ## The invariant -/

/-- Each side copies to its own area. -/
structure Areas (s : State) : Prop where
  client : ∀ todo, s.client = .writing todo → ∀ p ∈ todo, InputArea p.1
  server : ∀ raw todo final, s.server = .writing raw todo final → ∀ p ∈ todo, OutputArea p.1

def ServerInv (s : State) : Prop :=
  ∀ raw todo final, s.server = .writing raw todo final → final = stateError ∨
    final = stateResReady ∧ ∃ input output, raw = some input ∧
      ⟨s.readAt, input, output⟩ ∈ s.log ∧ OutputStored (runStores s.mem todo) output

/-- The output computed from the client's request lies in the buffer. -/
def OutputReady (s : State) (output : Bytes) : Prop :=
  ⟨s.sends, s.data, output⟩ ∈ s.log ∧ OutputStored s.mem output

/-- The server has not answered the client's request yet. -/
structure InFlight (s : State) : Prop where
  ne_resReady : s.state ≠ stateResReady
  ne_error : s.state ≠ stateError
  fresh : s.Fresh

structure Answered (s : State) : Prop where
  polling : s.server = .polling
  answer : s.state = stateError ∨ s.state = stateResReady ∧ ∃ output, OutputReady s output

structure Reading (s : State) (output : Bytes) : Prop where
  polling : s.server = .polling
  state : s.state = stateIdle
  ready : OutputReady s output

/-- Of the client, as far as it is on the way to returning bytes. -/
def ClientInv (s : State) : Prop :=
  match s.client with
  | .writing todo => InputStored (runStores s.mem todo) s.data
  | .waiting => InputStored s.mem s.data ∧ (InFlight s ∨ Answered s)
  | .ready => Answered s
  | .taking => Answered s ∧ s.state = stateResReady
  | .readLen got => ∃ output, Reading s output ∧ got <+: leBytes 4 output.length
  | .readSeq len _ => ∃ output, Reading s output ∧ len = output.length
  | .readOut len got => ∃ output, Reading s output ∧ len = output.length ∧ got <+: output
  | _ => True

/-- What holds between the two sides as long as every request is posted to a server that is at work on nothing else. -/
structure Inv (s : State) : Prop where
  areas : Areas s
  server : ServerInv s
  client : ClientInv s
  agreement : Agreement s

/-! ## What one side leaves to the other -/

/-- A step of the client, as the server sees it. -/
structure ClientFrame (s s' : State) : Prop where
  server : s'.server = s.server
  readAt : s'.readAt = s.readAt
  log : s'.log = s.log
  mem : ∀ a, OutputArea a → s'.mem a = s.mem a

/-- A step of the server, as the client sees it. -/
structure ServerFrame (s s' : State) : Prop where
  client : s'.client = s.client
  sends : s'.sends = s.sends
  data : s'.data = s.data
  log : s'.log = s.log
  sentSeq : s'.sentSeq = s.sentSeq
  returned : s'.returned = s.returned
  mem : ∀ a, InputArea a → s'.mem a = s.mem a

section Frames

variable {s s' : State}

theorem clientFrame_send (s : State) (data : Bytes) : ClientFrame s (s.send data) := by
  unfold State.send
  split
  · exact ⟨rfl, rfl, rfl, fun _ _ => rfl⟩
  · exact ⟨rfl, rfl, rfl, fun _ _ => rfl⟩

theorem ClientMove.frame (h : Areas s) (hm : ClientMove s s') : ClientFrame s s' := by
  cases hm with
  | @stored p todo hc =>
    have hp : ¬ OutputArea p.1 := not_outputArea_of_inputArea (h.client _ hc p List.mem_cons_self)
    exact ⟨rfl, rfl, rfl, store_off hp _⟩
  | posted _ | cleaned _ | tookError _ | took _ => exact ⟨rfl, rfl, rfl, store_off not_outputArea_state _⟩
  | _ => exact ⟨rfl, rfl, rfl, fun _ _ => rfl⟩

theorem ServerMove.frame (h : Areas s) (hm : ServerMove s s') : ServerFrame s s' := by
  cases hm with
  | @stored raw p todo final hc =>
    have hp : ¬ InputArea p.1 := not_inputArea_of_outputArea (h.server raw _ final hc p List.mem_cons_self)
    exact ⟨rfl, rfl, rfl, rfl, rfl, rfl, store_off hp _⟩
  | started _ | posted _ => exact ⟨rfl, rfl, rfl, rfl, rfl, rfl, store_off not_inputArea_state _⟩
  | _ => exact ⟨rfl, rfl, rfl, rfl, rfl, rfl, fun _ _ => rfl⟩

theorem ServerInv.frame (h : ServerInv s) (hf : ClientFrame s s') : ServerInv s' := by
  intro raw todo final hw
  refine (h raw todo final (hf.server ▸ hw)).imp_right fun ⟨hr, input, output, hraw, hlog, hout⟩ => ?_
  rw [hf.readAt, hf.log]
  exact ⟨hr, input, output, hraw, hlog, hout.congr fun a ha => runStores_congr (hf.mem a ha)⟩

end Frames

/-! ## Steps of the client -/

section Client

variable {s s' : State}

theorem agreement_finish_error (h : Agreement s) (e : Client.Error) :
    Agreement (s.finish (.error e)) := by
  intro r hr bytes hres
  rcases List.mem_append.mp hr with hr | hr
  · exact h r hr bytes hres
  · rw [List.mem_singleton.mp hr] at hres
    cases hres

theorem agreement_finish_ok (h : Agreement s) {bytes : Bytes}
    (hlog : ⟨s.sends, s.data, bytes⟩ ∈ s.log) : Agreement (s.finish (.ok bytes)) := by
  intro r hr bytes' hres
  rcases List.mem_append.mp hr with hr | hr
  · exact h r hr bytes' hres
  · rw [List.mem_singleton.mp hr] at hres ⊢
    rw [← Except.ok.inj hres]
    exact hlog

theorem agreement_send (h : Agreement s) (data : Bytes) : Agreement (s.send data) := by
  unfold State.send
  split
  · exact agreement_finish_error (s := { s with sends := s.sends + 1, data := data }) h _
  · exact h

theorem clientInv_send (s : State) (data : Bytes) : ClientInv (s.send data) := by
  unfold State.send
  split
  · trivial
  · rename_i hle
    exact inputStored_requestStores (by omega) _ _

theorem Reading.of_answered (h : Answered s) (hs : s.state = stateResReady) :
    ∃ output, Reading { s with mem := s.mem.store stateOffset stateIdle, client := .readLen [] } output := by
  obtain ⟨hpoll, herr | ⟨-, output, hlog, hout⟩⟩ := h
  · rw [hs] at herr
    exact absurd herr (by decide)
  · exact ⟨output, hpoll, by simp [State.state], hlog,
      hout.congr (store_off not_outputArea_state _)⟩

theorem leNat_of_got {got : Bytes} {n : ℕ} (hp : got <+: leBytes 4 n) (hl : ¬ got.length < 4)
    (hn : n ≤ maxOutput) : got = leBytes 4 n ∧ leNat got = n := by
  have heq : got = leBytes 4 n := by
    refine hp.eq_of_length_le ?_
    rw [length_leBytes]
    omega
  rw [maxOutput_eq] at hn
  exact ⟨heq, by rw [heq, leNat_leBytes, Nat.mod_eq_of_lt (by omega)]⟩

theorem ClientInv.move (h : ClientInv s) (hfresh : s.client = .writing [] → s.Fresh) (hm : ClientMove s s') :
    ClientInv s' := by
  unfold ClientInv at h
  cases hm with
  | stored hc =>
    rw [hc] at h
    exact h
  | posted hc =>
    -- The one step for which the restriction on the run is needed.
    rw [hc] at h
    refine ⟨h.congr (store_off not_inputArea_state _), Or.inl ⟨?_, ?_, hfresh hc⟩⟩
    · simp [State.state, stateReqReady, stateResReady]
    · simp [State.state, stateReqReady, stateError]
  | waits _ => exact h
  | seen hc hdone =>
    rw [hc] at h
    rcases h.2 with hf | ha
    · exact (hdone.elim hf.ne_resReady hf.ne_error).elim
    · exact ⟨ha.polling, ha.answer⟩
  | accepted hc herr =>
    rw [hc] at h
    exact ⟨⟨h.polling, h.answer⟩, (h.answer.resolve_left herr).1⟩
  | took hc =>
    rw [hc] at h
    obtain ⟨output, hr⟩ := Reading.of_answered h.1 h.2
    exact ⟨output, hr, List.nil_prefix⟩
  | lenByte hc hl =>
    rw [hc] at h
    obtain ⟨output, hr, hp⟩ := h
    exact ⟨output, ⟨hr.polling, hr.state, hr.ready⟩, hr.ready.2.len.snoc hp (by rwa [length_leBytes])⟩
  | lenRead hc hl _ _ =>
    rw [hc] at h
    obtain ⟨output, hr, hp⟩ := h
    exact ⟨output, ⟨hr.polling, hr.state, hr.ready⟩, (leNat_of_got hp hl hr.ready.2.le).2⟩
  | seqByte hc _ =>
    rw [hc] at h
    obtain ⟨output, hr, hlen⟩ := h
    exact ⟨output, ⟨hr.polling, hr.state, hr.ready⟩, hlen⟩
  | seqRead hc _ _ =>
    rw [hc] at h
    obtain ⟨output, hr, hlen⟩ := h
    exact ⟨output, ⟨hr.polling, hr.state, hr.ready⟩, hlen, List.nil_prefix⟩
  | outByte hc hl =>
    rw [hc] at h
    obtain ⟨output, hr, hlen, hp⟩ := h
    exact ⟨output, ⟨hr.polling, hr.state, hr.ready⟩, hlen, hr.ready.2.bytes.snoc hp (by rwa [← hlen])⟩
  | _ => trivial

theorem Agreement.move (h : Agreement s) (hinv : ClientInv s) (hm : ClientMove s s') : Agreement s' := by
  cases hm with
  | @cleaned e _ => exact agreement_finish_error (s := { s with mem := s.mem.store stateOffset stateIdle }) h e
  | stale _ _ _ | failed _ => exact agreement_finish_error h _
  | responded hc hl =>
    unfold ClientInv at hinv
    rw [hc] at hinv
    obtain ⟨output, hr, hlen, hp⟩ := hinv
    -- All of the output has been read.
    have hgot := hp.eq_of_length_le (by omega)
    exact agreement_finish_ok h (hgot ▸ hr.ready.1)
  | _ => exact h

end Client

/-! ## Steps of the server -/

section Server

variable {s s' : State}

theorem ServerMove.polling (hp : s.server = .polling) (hst : s.state ≠ stateReqReady) (hm : ServerMove s s') :
    s' = s := by
  cases hm with
  | polls _ _ => rfl
  | seen _ hreq => exact absurd hreq hst
  | started hc | lenByte hc _ | lenLong hc _ _ | lenRead hc _ _ | inByte hc _ | inRead hc _ | stored hc | posted hc =>
    cases hp.symm.trans hc

theorem Answered.serverMove (h : Answered s) (hm : ServerMove s s') : s' = s := by
  refine hm.polling h.polling ?_
  rcases h.answer with he | ⟨hr, -⟩
  · rw [he]
    decide
  · rw [hr]
    decide

theorem Reading.serverMove {output : Bytes} (h : Reading s output) (hm : ServerMove s s') : s' = s := by
  refine hm.polling h.polling ?_
  rw [h.state]
  decide

/-- **The server at work on the request** stays so, until it has answered it. -/
theorem InFlight.serverMove (h : InFlight s) (ha : Areas s) (hinv : ServerInv s) (hin : InputStored s.mem s.data)
    (hm : ServerMove s s') : InFlight s' ∨ Answered s' := by
  obtain ⟨hres, herr, hfresh⟩ := h
  have hle := hin.le
  rw [maxInput_eq] at hle
  unfold State.Fresh at hfresh
  cases hm with
  | polls _ _ => exact Or.inl ⟨hres, herr, hfresh⟩
  | seen _ _ => exact Or.inl ⟨hres, herr, trivial⟩
  | started _ =>
    refine Or.inl ⟨?_, ?_, Or.inl rfl⟩
    · simp [State.state, stateProcessing, stateResReady]
    · simp [State.state, stateProcessing, stateError]
  | @lenByte got hc hl =>
    rw [hc] at hfresh
    refine Or.inl ⟨hres, herr, Or.inr ⟨?_, ?_⟩⟩
    · by_cases hg : got = []
      · exact if_pos hg
      · exact (if_neg hg).trans (hfresh.resolve_left hg).1
    · have hp : got <+: leBytes 4 s.data.length := by
        rcases hfresh with rfl | ⟨-, hp⟩
        · exact List.nil_prefix
        · exact hp
      exact hin.len.snoc hp (by rwa [length_leBytes])
  | @lenLong got hc hl hlong =>
    -- The length that was read is the request's, and that is in bounds.
    rw [hc] at hfresh
    have hne : got ≠ [] := fun hg => hl (by rw [hg]; decide)
    have hlen := (leNat_of_got (hfresh.resolve_left hne).2 hl (by rw [maxOutput_eq]; omega)).2
    rw [hlen, maxInput_eq] at hlong
    omega
  | @lenRead got hc hl _ =>
    rw [hc] at hfresh
    have hne : got ≠ [] := fun hg => hl (by rw [hg]; decide)
    obtain ⟨hat, hp⟩ := hfresh.resolve_left hne
    have hlen := (leNat_of_got hp hl (by rw [maxOutput_eq]; omega)).2
    exact Or.inl ⟨hres, herr, hat, hlen, List.nil_prefix⟩
  | inByte hc hl =>
    rw [hc] at hfresh
    obtain ⟨hat, hlen, hp⟩ := hfresh
    exact Or.inl ⟨hres, herr, hat, hlen, hin.bytes.snoc hp (by omega)⟩
  | inRead hc hl =>
    rw [hc] at hfresh
    obtain ⟨hat, hlen, hp⟩ := hfresh
    have hgot := hp.eq_of_length_le (by omega)
    exact Or.inl ⟨hres, herr, hat, congrArg some hgot⟩
  | @stored raw p todo final hc =>
    rw [hc] at hfresh
    obtain ⟨hat, hraw⟩ := hfresh
    have hstate : (s.mem.store p.1 p.2) stateOffset = s.mem stateOffset :=
      s.mem.store_of_ne _ (ne_state_of_outputArea (ha.server raw _ final hc p List.mem_cons_self))
    refine Or.inl ⟨?_, ?_, hat, hraw⟩
    · exact fun hr => hres (hstate.symm.trans hr)
    · exact fun he => herr (hstate.symm.trans he)
  | @posted raw final hc =>
    rw [hc] at hfresh
    obtain ⟨hat, hraw⟩ := hfresh
    refine Or.inr ⟨rfl, ?_⟩
    rcases hinv raw [] final hc with he | ⟨hr, input, output, hinput, hlog, hout⟩
    · exact Or.inl (by simp [State.state, he])
    · obtain rfl : s.data = input := Option.some.inj (hraw.symm.trans hinput)
      refine Or.inr ⟨by simp [State.state, hr], output, ?_, hout.congr ?_⟩
      · exact hat ▸ hlog
      · exact store_off not_outputArea_state _

theorem ClientInv.serverMove (h : ClientInv s) (ha : Areas s) (hinv : ServerInv s) (hm : ServerMove s s') :
    ClientInv s' := by
  have hf := hm.frame ha
  cases hc : s.client with
  | writing todo =>
    simp only [ClientInv, hf.client, hc, hf.data] at h ⊢
    exact h.congr fun a ha => runStores_congr (hf.mem a ha)
  | waiting =>
    simp only [ClientInv, hf.client, hc, hf.data] at h ⊢
    obtain ⟨hin, hfl | han⟩ := h
    · exact ⟨hin.congr hf.mem, hfl.serverMove ha hinv hin hm⟩
    · exact ⟨hin.congr hf.mem, Or.inr (han.serverMove hm ▸ han)⟩
  | ready =>
    simp only [ClientInv, hf.client, hc] at h ⊢
    exact h.serverMove hm ▸ h
  | taking =>
    simp only [ClientInv, hf.client, hc] at h ⊢
    exact h.1.serverMove hm ▸ h
  | readLen got =>
    have h' := h
    simp only [ClientInv, hc] at h'
    obtain ⟨output, hr, -⟩ := h'
    exact hr.serverMove hm ▸ h
  | readSeq len got =>
    have h' := h
    simp only [ClientInv, hc] at h'
    obtain ⟨output, hr, -⟩ := h'
    exact hr.serverMove hm ▸ h
  | readOut len got =>
    have h' := h
    simp only [ClientInv, hc] at h'
    obtain ⟨output, hr, -⟩ := h'
    exact hr.serverMove hm ▸ h
  | _ => simp only [ClientInv, hf.client, hc]

/-! ### The handlers' reply -/

theorem reply_eq_some {r : Reply} (hs : s.reply r = some s') :
    ∃ raw, s.server = .computing raw ∧ s' = { s with
      server := .writing raw r.stores.1 r.stores.2
      log := s.log ++ served s.readAt raw r } := by
  unfold State.reply at hs
  cases hc : s.server with
  | computing raw =>
    rw [hc] at hs
    exact ⟨raw, rfl, (Option.some.inj hs).symm⟩
  | _ => simp [hc] at hs

theorem serverInv_reply {h : Handlers} {r : Reply} (hok : Allowed h s (.reply r))
    (hs : s.reply r = some s') : ServerInv s' := by
  obtain ⟨raw, hc, rfl⟩ := reply_eq_some hs
  intro raw' todo final hw
  cases hw
  cases r with
  | fail => exact Or.inl rfl
  | refuse output => exact Or.inl rfl
  | respond output =>
    by_cases hle : maxOutput < output.length
    · exact Or.inl (if_pos hle)
    · refine Or.inr ⟨if_neg hle, ?_⟩
      cases raw with
      | none => cases hok none hc
      | some input =>
        refine ⟨input, output, rfl, ?_, outputStored_outputStores (by omega) _⟩
        exact List.mem_append_right s.log (by simp [served, Reply.output])

theorem clientInv_reply {r : Reply} (h : ClientInv s) (hs : s.reply r = some s') : ClientInv s' := by
  obtain ⟨raw, hc, rfl⟩ := reply_eq_some hs
  have hpoll : s.server ≠ .polling := by simp [hc]
  cases hcl : s.client with
  | writing todo =>
    simp only [ClientInv, hcl] at h ⊢
    exact h
  | waiting =>
    simp only [ClientInv, hcl] at h ⊢
    obtain ⟨hin, ⟨hres, herr, hfresh⟩ | ha⟩ := h
    · simp only [State.Fresh, hc] at hfresh
      exact ⟨hin, Or.inl ⟨hres, herr, hfresh⟩⟩
    · exact absurd ha.polling hpoll
  | ready =>
    simp only [ClientInv, hcl] at h
    exact absurd h.polling hpoll
  | taking =>
    simp only [ClientInv, hcl] at h
    exact absurd h.1.polling hpoll
  | readLen got =>
    simp only [ClientInv, hcl] at h
    exact absurd h.choose_spec.1.polling hpoll
  | readSeq len got =>
    simp only [ClientInv, hcl] at h
    exact absurd h.choose_spec.1.polling hpoll
  | readOut len got =>
    simp only [ClientInv, hcl] at h
    exact absurd h.choose_spec.1.polling hpoll
  | _ => simp only [ClientInv]

theorem agreement_reply {r : Reply} (h : Agreement s) (hs : s.reply r = some s') : Agreement s' := by
  obtain ⟨raw, -, rfl⟩ := reply_eq_some hs
  exact fun ret hret bytes hres => List.mem_append_left _ (h ret hret bytes hres)

end Server

/-! ## The areas are kept -/

section AreasStep

variable {s s' : State} {a : Action}

theorem ClientMove.writing {todo : List (ℕ × UInt8)} (hm : ClientMove s s') (hw : s'.client = .writing todo) :
    ∃ p, s.client = .writing (p :: todo) := by
  cases hm with
  | @stored p _ hc =>
    cases hw
    exact ⟨p, hc⟩
  | waits hc => cases hc.symm.trans hw
  | _ => cases hw

theorem ServerMove.writing {raw : Option Bytes} {todo : List (ℕ × UInt8)} {final : UInt8} (hm : ServerMove s s')
    (hw : s'.server = .writing raw todo final) :
    s'.readAt = s.readAt ∧ s'.log = s.log ∧ ∃ a x, s.server = .writing raw ((a, x) :: todo) final ∧
      s'.mem = s.mem.store a x := by
  cases hm with
  | @stored _ p _ _ hc =>
    cases hw
    exact ⟨rfl, rfl, p.1, p.2, hc, rfl⟩
  | polls hc _ => cases hc.symm.trans hw
  | _ => cases hw

theorem ServerInv.serverMove (h : ServerInv s) (hm : ServerMove s s') : ServerInv s' := by
  intro raw todo final hw
  obtain ⟨hat, hlog, a, x, hw', hmem⟩ := hm.writing hw
  rw [hat, hlog, hmem]
  exact h raw _ final hw'

theorem areas_send (h : Areas s) (data : Bytes) : Areas (s.send data) := by
  refine ⟨fun todo hw => ?_, fun raw todo final hw =>
    h.server raw todo final ((clientFrame_send s data).server ▸ hw)⟩
  unfold State.send at hw
  split at hw
  · cases hw
  · rename_i hle
    cases hw
    exact requestStores_inputArea (by omega) _

theorem Areas.step (h : Areas s) (hs : step s a = some s') : Areas s' := by
  cases a with
  | send data =>
    simp only [Shmem.step] at hs
    split_ifs at hs
    cases hs
    exact areas_send h data
  | client =>
    refine ⟨fun todo hw p hp => ?_, fun raw todo final hw =>
      h.server raw todo final (((State.clientMove hs).frame h).server ▸ hw)⟩
    obtain ⟨q, hq⟩ := (State.clientMove hs).writing hw
    exact h.client _ hq p (List.mem_cons_of_mem q hp)
  | giveUp e =>
    simp only [Shmem.step] at hs
    split_ifs at hs
    cases hs
    exact ⟨fun todo hw => ClientPc.noConfusion hw, h.server⟩
  | server =>
    refine ⟨fun todo hw =>
      h.client todo (((State.serverMove hs).frame h).client ▸ hw), fun raw todo final hw p hp => ?_⟩
    obtain ⟨-, -, b, x, hb, -⟩ := (State.serverMove hs).writing hw
    exact h.server raw _ final hb p (List.mem_cons_of_mem _ hp)
  | reply r =>
    obtain ⟨raw', -, rfl⟩ := reply_eq_some hs
    refine ⟨h.client, fun raw todo final hw => ?_⟩
    cases hw
    cases r with
    | fail => exact fun p hp => absurd hp List.not_mem_nil
    | respond output => exact outputStores_outputArea output
    | refuse output => exact outputStores_outputArea output

end AreasStep

/-! ## Whole runs -/

section Runs

variable {h : Handlers} {s s' : State} {a : Action}

theorem areas_initial (hs : Initial s) : Areas s where
  client := fun todo hw => by simp [hs.client] at hw
  server := fun raw todo final hw => by simp [hs.server] at hw

theorem inv_initial (hs : Initial s) : Inv s where
  areas := areas_initial hs
  server := fun raw todo final hw => by simp [hs.server] at hw
  client := by simp only [ClientInv, hs.client]
  agreement := fun r hr => by simp [hs.returned] at hr

theorem Inv.step (hinv : Inv s) (hok : Allowed h s a) (hfresh : PostsFresh s a)
    (hs : step s a = some s') : Inv s' := by
  have hareas := hinv.areas.step hs
  obtain ⟨ha, hserver, hclient, hagree⟩ := hinv
  cases a with
  | send data =>
    simp only [Shmem.step] at hs
    split_ifs at hs
    cases hs
    exact ⟨hareas, hserver.frame (clientFrame_send s data), clientInv_send s data,
      agreement_send hagree data⟩
  | client =>
    have hm : ClientMove s s' := State.clientMove hs
    exact ⟨hareas, hserver.frame (hm.frame ha), hclient.move (hfresh rfl) hm, hagree.move hclient hm⟩
  | giveUp e =>
    simp only [Shmem.step] at hs
    split_ifs at hs
    cases hs
    exact ⟨hareas, hserver.frame ⟨rfl, rfl, rfl, fun _ _ => rfl⟩, trivial, hagree⟩
  | server =>
    have hm : ServerMove s s' := State.serverMove hs
    have hf := hm.frame ha
    refine ⟨hareas, hserver.serverMove hm, hclient.serverMove ha hserver hm, ?_⟩
    unfold Agreement
    rw [hf.returned, hf.log]
    exact hagree
  | reply r =>
    exact ⟨hareas, serverInv_reply hok hs, clientInv_reply hclient hs, agreement_reply hagree hs⟩

/-- **Responses belong to their requests**, in every run in which each request is posted to a server that is
at work on nothing else. -/
theorem agreement_of_postsFresh (h : Handlers) (s : State) (hs : Reachable h PostsFresh s) :
    Agreement s :=
  (hs.invariant (fun _ => inv_initial) fun _ _ _ hinv hok => hinv.step hok.1 hok.2).agreement

end Runs

/-! ### Two pings -/

section Pings

/-- A ping with an integer id, without a Merkle root. -/
def pingFrame (id : UInt8) : Bytes :=
  ndaMagic ++ (List.replicate 32 0 ++ ([0x04] ++ (0x02 :: beBytes 8 id.toNat)))

def pongFrame (id : UInt8) : Bytes := replyFrame statusOk (0x02 :: beBytes 8 id.toNat) emptyObjectTlv

def pingHandlers : Handlers where
  dispatchNdaRequest raw res := ∃ id, raw = pingFrame id ∧ res = .ok (pongFrame id)
  handleJsonShmem _ _ := False

def pingStart : State where
  mem _ := 0
  sends := 0
  data := []
  sentSeq := 0
  nextSeq := 1
  client := .idle
  server := .polling
  readAt := 0
  log := []
  returned := []

/-- A check under which a run is one of `pingHandlers`: they answer the first two pings. -/
def pingAllowed (s : State) : Action → Bool
  | .giveUp e => e = .timeout
  | .reply r => [1, 2].any fun id => s.server = .computing (some (pingFrame id)) ∧ r = .respond (pongFrame id)
  | _ => true

/-- In addition, the client moves only while the server polls. -/
def pingInTurn (s : State) (a : Action) : Bool := pingAllowed s a && (a ≠ .client || s.server = .polling)

theorem allowed_of_pingAllowed (s : State) (a : Action) (ha : pingAllowed s a = true) :
    Allowed pingHandlers s a := by
  cases a with
  | giveUp e => exact Or.inl (of_decide_eq_true ha)
  | reply r =>
    obtain ⟨id, -, hid⟩ := List.any_eq_true.mp ha
    obtain ⟨hc, rfl⟩ := of_decide_eq_true hid
    intro raw hraw
    obtain rfl : some (pingFrame id) = raw := ServerPc.computing.inj (hc.symm.trans hraw)
    exact ⟨.ok (pongFrame id), ⟨id, rfl, rfl⟩, rfl⟩
  | _ => trivial

theorem postsFresh_of_pingInTurn (s : State) (a : Action) (ha : pingInTurn s a = true) :
    Allowed pingHandlers s a ∧ PostsFresh s a := by
  rw [pingInTurn, Bool.and_eq_true] at ha
  refine ⟨allowed_of_pingAllowed s a ha.1, fun hclient _ => ?_⟩
  have hpoll : s.server = .polling := by simpa [hclient] using ha.2
  simp [State.Fresh, hpoll]

theorem initial_pingStart : Initial pingStart := ⟨rfl, rfl, rfl, rfl, rfl, rfl⟩

def ping (id : UInt8) : List Action :=
  .send (pingFrame id) :: (List.replicate 55 .client ++ List.replicate 54 .server)

def pong (id : UInt8) : List Action := .reply (.respond (pongFrame id)) :: List.replicate 56 .server

def takePong : List Action := List.replicate 65 .client

/-- The first ping is given up while the server works on it; then the second one is posted. -/
def staleRun : List Action :=
  ping 1 ++ (.giveUp .timeout :: .client :: .send (pingFrame 2) ::
    (List.replicate 55 .client ++ (pong 1 ++ takePong)))

/-- What the calls returned. -/
def results (s : State) : List (ℕ × Bytes × Option Bytes) :=
  s.returned.map fun r => (r.request, r.data, r.result.toOption)

/-- Two pings, one after the other, each answered by its own pong. -/
theorem agreement_of_postsFresh_ping : ∃ s, Reachable pingHandlers PostsFresh s ∧
    results s = [(1, pingFrame 1, some (pongFrame 1)), (2, pingFrame 2, some (pongFrame 2))] ∧ Agreement s := by
  have hrun : (runActions step pingInTurn pingStart
      (ping 1 ++ (pong 1 ++ (takePong ++ (ping 2 ++ (pong 2 ++ takePong)))))).map results =
      some [(1, pingFrame 1, some (pongFrame 1)), (2, pingFrame 2, some (pongFrame 2))] := by decide +kernel
  obtain ⟨s, hs, hres⟩ := Option.map_eq_some_iff.mp hrun
  have hreach : Reachable pingHandlers PostsFresh s :=
    ReachableWhen.runActions postsFresh_of_pingInTurn (.init initial_pingStart) hs
  exact ⟨s, hreach, hres, agreement_of_postsFresh pingHandlers s hreach⟩

/-- **A stale response is returned**: the server's answer to the first ping, for the second. -/
theorem agreement_fails :
    ¬ ∀ (h : Handlers) (s : State), Reachable h (fun _ _ => True) s → Agreement s := by
  intro hall
  have hrun : (runActions step pingAllowed pingStart staleRun).map results =
      some [(1, pingFrame 1, none), (2, pingFrame 2, some (pongFrame 1))] := by decide +kernel
  have hserved : (runActions step pingAllowed pingStart staleRun).map (fun s => s.log.map Served.request) =
      some [1] := by decide +kernel
  obtain ⟨s, hs, hret⟩ := Option.map_eq_some_iff.mp hrun
  rw [hs, Option.map_some, Option.some.injEq] at hserved
  have hagree := hall pingHandlers s (ReachableWhen.runActions
    (fun s a ha => ⟨allowed_of_pingAllowed s a ha, trivial⟩) (.init initial_pingStart) hs)
  have hmem : (2, pingFrame 2, some (pongFrame 1)) ∈ results s := by simp [hret]
  obtain ⟨r, hr, hval⟩ := List.mem_map.mp hmem
  simp only [Prod.mk.injEq] at hval
  obtain ⟨hreq, -, hpong⟩ := hval
  cases hval : r.result with
  | error e => simp [hval, Except.toOption] at hpong
  | ok bytes =>
    -- The server has computed nothing for the second ping.
    have hmem : r.request ∈ s.log.map Served.request := List.mem_map_of_mem (hagree r hr bytes hval)
    rw [hserved, List.mem_singleton, hreq] at hmem
    omega

end Pings

/-! ## The sequence check -/

section Sequence

variable {h : Handlers} {s s' : State} {a : Action}

/-- The client's own sequence number lies where the client will look for the server's. -/
def SeqStored (s : State) : Prop :=
  match s.client with
  | .writing todo => Holds (runStores s.mem todo) requestSeqOffset (leBytes 4 s.sentSeq.toNat)
  | .waiting | .ready | .taking | .readLen _ =>
    Holds s.mem requestSeqOffset (leBytes 4 s.sentSeq.toNat)
  | .readSeq _ got => Holds s.mem requestSeqOffset (leBytes 4 s.sentSeq.toNat) ∧
    got <+: leBytes 4 s.sentSeq.toNat
  | .cleanup e => ∀ text, e ≠ .staleResponse text
  | _ => True

/-- No call has been told that its response is stale. -/
def NeverStale (s : State) : Prop :=
  ∀ r ∈ s.returned, ∀ text, r.result ≠ .error (.staleResponse text)

theorem holds_seq_congr {m m' : Mem} {seq : ℕ} (hh : Holds m requestSeqOffset (leBytes 4 seq))
    (hm : ∀ a, InputArea a → m' a = m a) : Holds m' requestSeqOffset (leBytes 4 seq) :=
  hh.congr fun c h₁ h₂ => hm c <| by
    rw [length_leBytes] at h₂
    unfold InputArea requestSeqOffset at *
    omega

theorem seqStored_send (s : State) (data : Bytes) : SeqStored (s.send data) := by
  unfold State.send
  split
  · trivial
  · change Holds (runStores s.mem (requestStores data s.nextSeq)) _ _
    rw [requestStores, runStores_append, runStores_append]
    exact holds_storesAt _ _ _

/-- The server leaves it alone. -/
theorem SeqStored.frame (hseq : SeqStored s) (hclient : s'.client = s.client)
    (hsent : s'.sentSeq = s.sentSeq) (hmem : ∀ a, InputArea a → s'.mem a = s.mem a) :
    SeqStored s' := by
  unfold SeqStored at hseq ⊢
  rw [hclient, hsent]
  cases hc : s.client with
  | writing todo =>
    rw [hc] at hseq
    exact holds_seq_congr hseq fun a ha => runStores_congr (hmem a ha)
  | readSeq len got =>
    rw [hc] at hseq
    exact ⟨holds_seq_congr hseq.1 hmem, hseq.2⟩
  | cleanup e =>
    rw [hc] at hseq
    exact hseq
  | waiting =>
    rw [hc] at hseq
    exact holds_seq_congr hseq hmem
  | ready =>
    rw [hc] at hseq
    exact holds_seq_congr hseq hmem
  | taking =>
    rw [hc] at hseq
    exact holds_seq_congr hseq hmem
  | readLen got =>
    rw [hc] at hseq
    exact holds_seq_congr hseq hmem
  | _ => trivial

theorem SeqStored.move (hseq : SeqStored s) (hm : ClientMove s s') : SeqStored s' := by
  unfold SeqStored at hseq
  cases hm with
  | stored hc | seen hc _ | accepted hc _ | lenByte hc _ =>
    rw [hc] at hseq
    exact hseq
  | posted hc | took hc =>
    rw [hc] at hseq
    exact holds_seq_congr hseq (store_off not_inputArea_state _)
  | waits _ => exact hseq
  | lenRead hc _ _ _ =>
    rw [hc] at hseq
    exact ⟨hseq, List.nil_prefix⟩
  | seqByte hc hl =>
    rw [hc] at hseq
    exact ⟨hseq.1, hseq.1.snoc hseq.2 (by rwa [length_leBytes])⟩
  | _ => trivial

theorem neverStale_finish (hn : NeverStale s) {result : Except Client.Error Bytes}
    (hr : ∀ text, result ≠ .error (.staleResponse text)) : NeverStale (s.finish result) := by
  intro r hmem
  rcases List.mem_append.mp hmem with hmem | hmem
  · exact hn r hmem
  · rw [List.mem_singleton.mp hmem]
    exact hr

theorem NeverStale.move (hn : NeverStale s) (hseq : SeqStored s) (hm : ClientMove s s') : NeverStale s' := by
  unfold SeqStored at hseq
  cases hm with
  | cleaned hc =>
    rw [hc] at hseq
    refine neverStale_finish (s := { s with mem := s.mem.store stateOffset stateIdle }) hn ?_
    exact fun text he => hseq text (Except.error.inj he)
  | stale hc hl hne =>
    -- What was read back is the number that was sent.
    rw [hc] at hseq
    have hgot := hseq.2.eq_of_length_le (by rw [length_leBytes]; omega)
    have hlt := s.sentSeq.toNat_lt
    rw [hgot, leNat_leBytes] at hne
    omega
  | responded _ _ | failed _ => exact neverStale_finish hn (by simp)
  | _ => exact hn

theorem neverStale_send (hn : NeverStale s) (data : Bytes) : NeverStale (s.send data) := by
  unfold State.send
  split
  · exact neverStale_finish (s := { s with sends := s.sends + 1, data := data }) hn
      (by simp)
  · exact hn

theorem not_stale_of_waitError {e : Client.Error} (he : WaitError e) (text : String) :
    e ≠ .staleResponse text := by
  rcases he with rfl | ⟨rc, error, rfl⟩
  · simp
  · simp

/-- **The sequence check rejects nothing**, in any run: what the client compares with the number it sent is
that number. -/
theorem not_staleResponse (hs : Reachable h (fun _ _ => True) s) : NeverStale s := by
  refine (hs.invariant (I := fun s => Areas s ∧ SeqStored s ∧ NeverStale s) (fun s hs => ?_)
    fun s a s' ⟨ha, hseq, hn⟩ ⟨hok, _⟩ hstep => ⟨ha.step hstep, ?_⟩).2.2
  · refine ⟨areas_initial hs, by simp only [SeqStored, hs.client], fun r hr => ?_⟩
    simp [hs.returned] at hr
  · cases a with
    | send data =>
      simp only [Shmem.step] at hstep
      split_ifs at hstep
      cases hstep
      exact ⟨seqStored_send s data, neverStale_send hn data⟩
    | client => exact ⟨hseq.move (State.clientMove hstep), hn.move hseq (State.clientMove hstep)⟩
    | giveUp e =>
      simp only [Shmem.step] at hstep
      split_ifs at hstep
      cases hstep
      exact ⟨not_stale_of_waitError hok, hn⟩
    | server =>
      have hf := (State.serverMove hstep).frame ha
      refine ⟨hseq.frame hf.client hf.sentSeq hf.mem, ?_⟩
      unfold NeverStale
      rw [hf.returned]
      exact hn
    | reply r =>
      obtain ⟨raw, -, rfl⟩ := reply_eq_some hstep
      exact ⟨hseq.frame rfl rfl fun _ _ => rfl, hn⟩

/-- The second ping gets the answer to the first, and nothing stale is reported. -/
theorem not_staleResponse_staleRun : ∃ s, Reachable pingHandlers (fun _ _ => True) s ∧
    results s = [(1, pingFrame 1, none), (2, pingFrame 2, some (pongFrame 1))] ∧ NeverStale s := by
  have hrun : (runActions step pingAllowed pingStart staleRun).map results =
      some [(1, pingFrame 1, none), (2, pingFrame 2, some (pongFrame 1))] := by decide +kernel
  obtain ⟨s, hs, hresults⟩ := Option.map_eq_some_iff.mp hrun
  have hreach : Reachable pingHandlers (fun _ _ => True) s :=
    ReachableWhen.runActions (fun s a ha => ⟨allowed_of_pingAllowed s a ha, trivial⟩) (.init initial_pingStart) hs
  exact ⟨s, hreach, hresults, not_staleResponse hreach⟩

end Sequence

end VelocityMcp.Shmem
