import VelocityMcp.Client.McpClient
import VelocityMcp.Client.NdaResponse
import VelocityMcp.JsonShmem
import VelocityMcp.NdaNative.Dispatch
import VelocityMcp.Shmem.Protocol

/-!
# Client.Transports — the two shared-memory transports, and the server behind them

`serve` (`run_shmem_loop_inner`): what the server does with one input.
-/

namespace VelocityMcp.Client

open Lib NdaNative Shmem

/-! ## The text of JSON -/

/-- What `serde_json` does: the text of a request and of a value, reading one, or the text of an error, and the
text of an id in a message. -/
structure JsonText where
  ofRequest : JsonRpcRequest → String
  ofValue : Value → String
  parse : String → Except String Value
  debug : Option Value → String

structure JsonText.CarriesRequest (text : JsonText) (r : JsonRpcRequest) : Prop where
  parse : text.parse (text.ofRequest r) = .ok r.toValue
  brace : (utf8 (text.ofRequest r)).head? = some 0x7b

structure JsonText.CarriesValue (text : JsonText) (v : Value) : Prop where
  parse : text.parse (text.ofValue v) = .ok v
  nonempty : utf8 (text.ofValue v) ≠ []

/-! ## The server -/

/-- How an input is served: with an output, or with `STATE_ERROR` and what the output area then holds. -/
inductive Handled where
  | reply (output : Bytes)
  | failed (output : Bytes)

/-- `write_output_raw`, and the state that follows: an output that does not fit leaves the area empty. -/
def writeOutput (served : Bytes → Handled) (output : Bytes) : Handled :=
  if maxOutput < output.length then .failed [] else served output

/-- `json!({"jsonrpc": "2.0", "error": {...}, "id": null})` for an input that is not parsed. -/
def parseFailure (message : String) : Value := rpcError .null (-32700) message

def handleNdaNative (srv : Server) (raw : Bytes) : Handled :=
  match dispatchNdaRequest srv raw with
  | .ok frame => writeOutput .reply frame
  | .err e => match buildNdaError .null s!"Parse error: {e}" with
    | .ok frame => writeOutput .failed frame
    | _ => writeOutput .failed (buildNdaErrorRaw [] s!"Parse error: {e}")
  | .panic => .failed []

def handleJsonShmem (text : JsonText) (srv : Server) (input : String) : Handled :=
  match text.parse input with
  | .error e => writeOutput .failed (utf8 (text.ofValue (parseFailure s!"Parse error: {e}")))
  | .ok request => writeOutput .reply (utf8 (text.ofValue (handleJsonRequest srv request)))

/-- What `run_shmem_loop_inner` does with one input. -/
def serve (text : JsonText) (srv : Server) (raw : Bytes) : Handled :=
  match route raw with
  | .nda => handleNdaNative srv raw
  | .json input => handleJsonShmem text srv input
  | .invalidUtf8 => writeOutput .failed (utf8 (text.ofValue (parseFailure "Invalid UTF-8 in request")))

/-! ## The client -/

/-- One exchange, with nobody else at the buffer and in time. -/
def sendRaw (server : Bytes → Handled) (data : Bytes) : Outcome Error Bytes :=
  if maxInput < data.length then
    .err (.sharedMemory s!"Request {data.length} bytes exceeds input buffer limit {maxInput}")
  else match server data with
    | .failed output =>
      match if output = [] then none else fromUtf8 output with
      | some s => .err (.sharedMemory s!"Server error: {s}")
      | none => .err (.sharedMemory "Server returned STATE_ERROR")
    | .reply output =>
      if output = [] then .err (.sharedMemory "Server returned empty response (out_len=0)")
      else .ok output

def methodToCode (method : String) : Option UInt8 :=
  if method = "initialize" then some methodInitialize
  else if method = "tools/list" then some methodToolsList
  else if method = "tools/call" then some methodToolsCall
  else if method = "ping" then some methodPing
  else if method = "logging/setLevel" then some methodLoggingSetLevel
  else if method = "health/check" then some methodHealthCheck
  else if method = "resources/list" then some methodResourcesList
  else if method = "resources/read" then some methodResourcesRead
  else if method = "resources/templates/list" then some methodResourceTemplatesList
  else if method = "prompts/list" then some methodPromptsList
  else if method = "prompts/get" then some methodPromptsGet
  else if method = "sampling/createMessage" then some methodSamplingCreate
  else if method = "notifications/initialized" then some notifInitialized
  else if method = "notifications/cancelled" then some notifCancelled
  else none

section Nda

variable (sha256 : Bytes → Bytes)

def buildNdaFrame (payload : Bytes) : Bytes := ndaMagic ++ (sha256 payload ++ payload)

def buildNdaRequest (method : UInt8) (requestId data : Value) : Outcome Error Bytes := do
  let payload ← ((Emit.put [method]).andThen ((encodeTlvValue requestId).andThen
    (if data = .null then .put [] else encodeTlvValue data))).toOutcome
  .ok (buildNdaFrame sha256 payload)

/-- `ShmemTransport::send`. -/
def shmemTransport (closed : Bool) (exchange : Bytes → Outcome Error Bytes) : Transport := fun request =>
  if closed then .err .connectionClosed
  else match methodToCode request.method with
    | none => .err (.ndaProtocol s!"Unsupported method for NDA transport: {request.method}")
    | some code => do
      let frame ← buildNdaRequest sha256 code (request.id.getD .null) (request.params.getD (.object []))
      let response ← exchange frame
      if request.id = none then .ok ⟨"2.0", some (.object []), none, none⟩
      else do
        let reply ← parseNdaResponse sha256 response
        if reply.status = statusError then
          .ok ⟨"2.0", none, some ⟨-1, reply.result.asStr.getD "Unknown NDA error", none⟩,
            some reply.requestId⟩
        else .ok ⟨"2.0", some reply.result, none, some reply.requestId⟩

end Nda

/-- `JsonShmemTransport::send`. -/
def jsonShmemTransport (text : JsonText) (closed : Bool) (exchange : Bytes → Outcome Error Bytes) :
    Transport := fun request =>
  if closed then .err .connectionClosed
  else do
    let response ← exchange (utf8 (text.ofRequest request))
    match fromUtf8 response with
    | none => .err (.sharedMemory s!"Invalid UTF-8 in response: {utf8ErrorText response}")
    | some s => match text.parse s with
      | .error _ => .err .json
      | .ok v => match JsonRpcResponse.fromValue v with
        | none => .err .json
        | some response =>
          if response.jsonrpc ≠ "2.0" then
            .err (.sharedMemory s!"Invalid JSON-RPC version: expected '2.0', got '{response.jsonrpc}'")
          else if response.result = none ∧ response.error = none then
            .err (.sharedMemory "Response has neither 'result' nor 'error'")
          else if response.result ≠ none ∧ response.error ≠ none then
            .err (.sharedMemory "Response has both 'result' and 'error'")
          else if request.id ≠ none ∧ response.id ≠ request.id then
            .err (.staleResponse
              s!"Response ID {text.debug response.id} does not match request ID {text.debug request.id}")
          else .ok response

end VelocityMcp.Client
