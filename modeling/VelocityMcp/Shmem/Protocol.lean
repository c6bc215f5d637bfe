import VelocityMcp.Client.Error
import VelocityMcp.Lib.Machine
import VelocityMcp.Lib.Memory
import VelocityMcp.NdaNative.Reply

/-!
# Shmem.Protocol — the shared-memory transport, both sides, store by store

The client's `send_raw` (`client/src/transport/shmem.rs`) and the server's `run_shmem_loop_inner`
(`nmcp_binary.rs`) over one buffer (`ipc/shmem.rs`).  Copies into the buffer and out of it take one step a
byte, so that the other side can move in between; the loads and stores of the state byte are steps of their
own.  The events are left out: on both sides the state byte decides, and a wake-up without a change of it
does nothing.

What the two sides do not keep, but the theorems speak of: `sends` counts the calls of `send_raw`, `readAt`
is that count when the server began to read the input it is working on, `log` has what the server computed
from which input, and `returned` what each call gave back.
-/

namespace VelocityMcp.Shmem

open Lib NdaNative

/-! ## The buffer -/

def stateOffset : ℕ := 0

def inputLenOffset : ℕ := 1

def outputLenOffset : ℕ := 5

def requestSeqOffset : ℕ := 9

def inputBufferOffset : ℕ := 16

def outputBufferOffset : ℕ := 4096

def totalBufferSize : ℕ := 65536

/-- `OUTPUT_BUFFER_OFFSET - INPUT_BUFFER_OFFSET`. -/
def maxInput : ℕ := outputBufferOffset - inputBufferOffset

/-- `TOTAL_BUFFER_SIZE - OUTPUT_BUFFER_OFFSET`. -/
def maxOutput : ℕ := totalBufferSize - outputBufferOffset

def stateIdle : UInt8 := 0

def stateReqReady : UInt8 := 1

def stateProcessing : UInt8 := 2

def stateResReady : UInt8 := 3

def stateError : UInt8 := 4

/-! ## The states of the two sides -/

/-- Where the client is in `send_raw`. -/
inductive ClientPc where
  | idle
  /-- the request's bytes not yet stored; then the state byte -/
  | writing (todo : List (ℕ × UInt8))
  /-- `wait_for_response` -/
  | waiting
  /-- `cleanup_after_timeout`, for the error of the wait -/
  | cleanup (e : Client.Error)
  /-- the wait is over; the state byte is loaded once more -/
  | ready
  /-- it was `STATE_ERROR`; then the error's length and text are read -/
  | failing
  | errorLen (got : Bytes)
  | errorText (len : ℕ) (got : Bytes)
  /-- it was not; then the response's length, the sequence number and the response are read -/
  | taking
  | readLen (got : Bytes)
  | readSeq (len : ℕ) (got : Bytes)
  | readOut (len : ℕ) (got : Bytes)
deriving DecidableEq

inductive ServerPc where
  | polling
  /-- `STATE_REQ_READY` was seen -/
  | starting
  /-- `read_input_raw` -/
  | readLen (got : Bytes)
  | readIn (len : ℕ) (got : Bytes)
  /-- the handlers work on the input; there is none if its length was out of bounds -/
  | computing (raw : Option Bytes)
  /-- the reply's bytes not yet stored; then the state byte -/
  | writing (raw : Option Bytes) (todo : List (ℕ × UInt8)) (final : UInt8)
deriving DecidableEq, Repr

/-- An output, the input it was computed from, and the request at which the server began to read. -/
structure Served where
  request : ℕ
  input : Bytes
  output : Bytes
deriving DecidableEq, Repr

/-- What a call of `send_raw` returned. -/
structure Returned where
  request : ℕ
  data : Bytes
  result : Except Client.Error Bytes

/-- The shared memory, the counters of both sides, and where each of the two is. -/
structure State where
  mem : Mem
  sends : ℕ
  data : Bytes
  sentSeq : UInt32
  nextSeq : UInt32
  client : ClientPc
  server : ServerPc
  readAt : ℕ
  log : List Served
  returned : List Returned

def State.state (s : State) : UInt8 := s.mem stateOffset

/-- After `create_or_open` on the one side and `open` on the other. -/
structure Initial (s : State) : Prop where
  state : s.state = stateIdle
  nextSeq : s.nextSeq = 1
  client : s.client = .idle
  server : s.server = .polling
  log : s.log = []
  returned : s.returned = []

/-! ## The client -/

/-- `send_raw` returns. -/
def State.finish (s : State) (result : Except Client.Error Bytes) : State :=
  { s with client := .idle, returned := s.returned ++ [⟨s.sends, s.data, result⟩] }

def requestStores (data : Bytes) (seq : UInt32) : List (ℕ × UInt8) :=
  storesAt inputLenOffset (leBytes 4 data.length) ++
    (storesAt inputBufferOffset data ++ storesAt requestSeqOffset (leBytes 4 seq.toNat))

/-- `send_raw(data)` is called. -/
def State.send (s : State) (data : Bytes) : State :=
  if maxInput < data.length then
    State.finish { s with sends := s.sends + 1, data := data }
      (.error (.sharedMemory
        s!"Request {data.length} bytes exceeds input buffer limit {maxInput}"))
  else
    { s with
      sends := s.sends + 1
      data := data
      sentSeq := s.nextSeq
      nextSeq := s.nextSeq + 1
      client := .writing (requestStores data s.nextSeq) }

def serverErrorText (got : Bytes) : String :=
  match fromUtf8 got with
  | some errStr => s!"Server error: {errStr}"
  | none => "Server returned STATE_ERROR"

def State.clientStep (s : State) : Option State :=
  match s.client with
  | .idle => none
  | .writing ((a, x) :: todo) => some { s with mem := s.mem.store a x, client := .writing todo }
  | .writing [] => some { s with mem := s.mem.store stateOffset stateReqReady, client := .waiting }
  | .waiting =>
    if s.state = stateResReady ∨ s.state = stateError then some { s with client := .ready } else some s
  | .cleanup e => some (State.finish { s with mem := s.mem.store stateOffset stateIdle } (.error e))
  | .ready => some { s with client := if s.state = stateError then .failing else .taking }
  | .failing => some { s with mem := s.mem.store stateOffset stateIdle, client := .errorLen [] }
  | .errorLen got =>
    if got.length < 4 then
      some { s with client := .errorLen (got ++ [s.mem (outputLenOffset + got.length)]) }
    else if 0 < leNat got ∧ leNat got ≤ maxOutput then
      some { s with client := .errorText (leNat got) [] }
    else some (s.finish (.error (.sharedMemory "Server returned STATE_ERROR")))
  | .errorText len got =>
    if got.length < len then
      some { s with client := .errorText len (got ++ [s.mem (outputBufferOffset + got.length)]) }
    else some (s.finish (.error (.sharedMemory (serverErrorText got))))
  | .taking => some { s with mem := s.mem.store stateOffset stateIdle, client := .readLen [] }
  | .readLen got =>
    if got.length < 4 then
      some { s with client := .readLen (got ++ [s.mem (outputLenOffset + got.length)]) }
    else if maxOutput < leNat got then
      some (s.finish (.error (.sharedMemory s!"Response length {leNat got} exceeds output buffer")))
    else if leNat got = 0 then
      some (s.finish (.error (.sharedMemory "Server returned empty response (out_len=0)")))
    else some { s with client := .readSeq (leNat got) [] }
  | .readSeq len got =>
    if got.length < 4 then
      some { s with client := .readSeq len (got ++ [s.mem (requestSeqOffset + got.length)]) }
    else if leNat got ≠ s.sentSeq.toNat then
      some (s.finish (.error (.staleResponse s!"Expected seq {s.sentSeq.toNat}, got {leNat got}")))
    else some { s with client := .readOut len [] }
  | .readOut len got =>
    if got.length < len then
      some { s with client := .readOut len (got ++ [s.mem (outputBufferOffset + got.length)]) }
    else some (s.finish (.ok got))

/-- The errors with which `wait_for_response` gives up. -/
def WaitError (e : Client.Error) : Prop :=
  e = .timeout ∨
    ∃ rc error : UInt32, e = .sharedMemory s!"WaitForSingleObject failed (rc={rc}, error={error})"

/-! ## The server -/

/-- What a handler leaves behind: an output for `STATE_RES_READY`, one for `STATE_ERROR`, or an error before
it wrote any. -/
inductive Reply where
  | respond (output : Bytes)
  | refuse (output : Bytes)
  | fail
deriving DecidableEq, Repr

/-- What `dispatch_nda_request` may return on a frame, and `handle_json_shmem` answer to a text. -/
structure Handlers where
  dispatchNdaRequest : Bytes → Except String Bytes → Prop
  handleJsonShmem : String → Reply → Prop

/-- The reply to an input that could not be read. -/
def inputLengthText : String :=
  "\x7b\"error\":\x7b\"code\":-32603,\"message\":\"Internal memory error: Input length exceeds buffer limit\"\x7d," ++
    "\"id\":null,\"jsonrpc\":\"2.0\"\x7d"

/-- The reply to an input that is neither a frame nor a text. -/
def invalidUtf8Text : String :=
  "\x7b\"error\":\x7b\"code\":-32700,\"message\":\"Invalid UTF-8 in request\"\x7d,\"id\":null,\"jsonrpc\":\"2.0\"\x7d"

/-- `handle_nda_native`, up to the write. -/
def ndaReply : Except String Bytes → Reply
  | .ok frame => .respond frame
  | .error e => .refuse <|
    let errMsg := s!"Parse error: {e}"
    match buildNdaError .null errMsg with
    | .ok errFrame => errFrame
    | _ => buildNdaErrorRaw [] errMsg

/-- What the loop may reply to what it has read. -/
def Handlers.Answers (h : Handlers) : Option Bytes → Reply → Prop
  | none, r => r = .refuse (utf8 inputLengthText)
  | some raw, r =>
    if isNdaFrame raw then ∃ res, h.dispatchNdaRequest raw res ∧ r = ndaReply res
    else match fromUtf8 raw with
      | none => r = .refuse (utf8 invalidUtf8Text)
      | some inputStr => h.handleJsonShmem inputStr r

/-- `write_output`, `write_output_raw`: the stores for an output, or for one that is too long. -/
def outputStores (output : Bytes) : List (ℕ × UInt8) :=
  if maxOutput < output.length then storesAt outputLenOffset (leBytes 4 0)
  else storesAt outputBufferOffset output ++ storesAt outputLenOffset (leBytes 4 output.length)

/-- What a reply makes the loop store, last the state byte. -/
def Reply.stores : Reply → List (ℕ × UInt8) × UInt8
  | .respond output => (outputStores output, if maxOutput < output.length then stateError else stateResReady)
  | .refuse output => (outputStores output, stateError)
  | .fail => ([], stateError)

def Reply.output : Reply → Option Bytes
  | .respond output => some output
  | .refuse output => some output
  | .fail => none

/-- The entry of a reply. -/
def served (request : ℕ) : Option Bytes → Reply → List Served
  | some input, r => (r.output.map fun output => ⟨request, input, output⟩).toList
  | none, _ => []

/-- The handlers are done. -/
def State.reply (s : State) (r : Reply) : Option State :=
  match s.server with
  | .computing raw => some { s with
      server := .writing raw r.stores.1 r.stores.2
      log := s.log ++ served s.readAt raw r }
  | _ => none

def State.serverStep (s : State) : Option State :=
  match s.server with
  | .polling => some { s with server := if s.state = stateReqReady then .starting else .polling }
  | .starting => some { s with mem := s.mem.store stateOffset stateProcessing, server := .readLen [] }
  | .readLen got =>
    if got.length < 4 then
      some { s with
        server := .readLen (got ++ [s.mem (inputLenOffset + got.length)])
        readAt := if got = [] then s.sends else s.readAt }
    else if maxInput < leNat got then some { s with server := .computing none }
    else some { s with server := .readIn (leNat got) [] }
  | .readIn len got =>
    if got.length < len then
      some { s with server := .readIn len (got ++ [s.mem (inputBufferOffset + got.length)]) }
    else some { s with server := .computing (some got) }
  | .computing _ => none
  | .writing raw ((a, x) :: todo) final =>
    some { s with mem := s.mem.store a x, server := .writing raw todo final }
  | .writing _ [] final => some { s with mem := s.mem.store stateOffset final, server := .polling }

/-! ## The machine -/

/-- A step of the client or of the server. -/
inductive Action where
  | send (data : Bytes)
  | client
  /-- the wait ends in an error -/
  | giveUp (e : Client.Error)
  | server
  | reply (r : Reply)
deriving DecidableEq

def step (s : State) : Action → Option State
  | .send data => if s.client = .idle then some (s.send data) else none
  | .client => s.clientStep
  | .giveUp e => if s.client = .waiting then some { s with client := .cleanup e } else none
  | .server => s.serverStep
  | .reply r => s.reply r

/-- What the wait and the handlers may bring. -/
def Allowed (h : Handlers) (s : State) : Action → Prop
  | .giveUp e => WaitError e
  | .reply r => ∀ raw, s.server = .computing raw → h.Answers raw r
  | _ => True

/-- The states of the runs in which `Ok` holds of every action. -/
def Reachable (h : Handlers) (Ok : State → Action → Prop) : State → Prop :=
  ReachableWhen Initial step fun s a => Allowed h s a ∧ Ok s a

/-- **Agreement**: bytes that a call returned are what the server computed from that call's data, having begun
to read when it was the latest call. -/
def Agreement (s : State) : Prop :=
  ∀ r ∈ s.returned, ∀ bytes, r.result = .ok bytes → ⟨r.request, r.data, bytes⟩ ∈ s.log

/-- The server is not at work on anything but the client's latest request: it has read nothing yet, or began
after the call, and all it has read are bytes of this request. -/
def State.Fresh (s : State) : Prop :=
  match s.server with
  | .polling | .starting => True
  | .readLen got => got = [] ∨ s.readAt = s.sends ∧ got <+: leBytes 4 s.data.length
  | .readIn len got => s.readAt = s.sends ∧ len = s.data.length ∧ got <+: s.data
  | .computing raw => s.readAt = s.sends ∧ raw = some s.data
  | .writing raw _ _ => s.readAt = s.sends ∧ raw = some s.data

/-- The action is not the client's `STATE_REQ_READY` store, or the server is at work on nothing else. -/
def PostsFresh (s : State) (a : Action) : Prop := a = .client → s.client = .writing [] → s.Fresh

end VelocityMcp.Shmem
