import VelocityMcp.NdaNative.Extract
import VelocityMcp.Server

/-!
# NdaNative.Dispatch — the dispatcher of binary requests (`nmcp_binary.rs`)

Log lines, the audit log and the progress handler take nothing from the reply and are left out.
-/

namespace VelocityMcp.NdaNative

open Lib

/-! ## Methods -/

def methodInitialize : UInt8 := 0x01

def methodToolsList : UInt8 := 0x02

def methodToolsCall : UInt8 := 0x03

def methodPing : UInt8 := 0x04

def methodLoggingSetLevel : UInt8 := 0x05

def methodHealthCheck : UInt8 := 0x06

def methodResourcesList : UInt8 := 0x07

def methodResourcesRead : UInt8 := 0x08

def methodResourceTemplatesList : UInt8 := 0x09

def methodPromptsList : UInt8 := 0x0A

def methodPromptsGet : UInt8 := 0x0B

def methodSamplingCreate : UInt8 := 0x0C

def notifInitialized : UInt8 := 0x10

def notifCancelled : UInt8 := 0x11

def notifProgress : UInt8 := 0x12

/-! ## The arms -/

/-- `health_result_tlv`: what was written, whatever the encoder returned. -/
def healthResultTlv : Bytes := (encodeJsonValue (healthResult "shmem-nda")).bytes

def buildResponseValue (idTlv : Bytes) (result : Value) : Outcome String Bytes := do
  let tlv ← (encodeJsonValue result).toOutcome
  .ok (buildNdaResponseRaw statusOk idTlv tlv)

/-- What the arms of the registries do with the request's data. -/
def withReqData (req : NdaRequestRef) (k : Value → Outcome String Bytes) : Outcome String Bytes :=
  match decodeReqData req.data with
  | .ok data => k data
  | .err e => .ok (buildNdaErrorRaw req.idTlv s!"Invalid request data: {e.text}")
  | .panic => .panic

/-- What they do with a result that may be an error. -/
def buildResponseResult (srv : Server) (idTlv : Bytes) : Except String Value → Outcome String Bytes
  | .ok result => buildResponseValue idTlv result
  | .error e => .ok (buildNdaErrorRaw idTlv (srv.sanitizeError e))

/-- `data.get("cursor")`, if it is a string. -/
def cursorOf (data : Value) : Option String := (data.get "cursor").bind Value.asStr

/-- `data[key]`, or nothing if it is no string. -/
def stringAt (data : Value) (key : String) : String := (data.index key).asStr.getD ""

/-- The call itself: the binary protocol, unless there are no arguments. -/
def callToolFrom (srv : Server) (name : String) (argsSlice : Option Bytes) : Except String String :=
  match argsSlice with
  | some argsTlv => srv.callToolBinary name argsTlv
  | none => srv.callTool name .null

def dispatchToolsCall (srv : Server) (req : NdaRequestRef) : Outcome String Bytes :=
  match extractToolsCallFields req.data with
  | .err e => .ok (buildNdaErrorRaw req.idTlv s!"Malformed tools/call payload: {e.text}")
  | .panic => .panic
  | .ok (nameSlice, argsSlice) =>
    let name := nameSlice.getD ""
    if !srv.checkRateLimit then .ok (buildNdaErrorRaw req.idTlv (rateLimitText name))
    else
      match callToolFrom srv name argsSlice with
      | .ok res => .ok (buildNdaResponseRawText statusOk req.idTlv res)
      | .error e => .ok (buildNdaErrorRaw req.idTlv (srv.toolErrorText name e))

def dispatchInitialize (idTlv : Bytes) : Outcome String Bytes :=
  match (encodeJsonValue (buildInitializeResponse false)).toOutcome with
  | .ok resultTlv => .ok (buildNdaResponseRaw statusOk idTlv resultTlv)
  | .err e => .ok (buildNdaErrorRaw idTlv s!"Encoding error: {e}")
  | .panic => .panic

/-- The `match` on the method. -/
def dispatchMethod (srv : Server) (req : NdaRequestRef) : Outcome String Bytes :=
  if req.method = methodPing then .ok (buildNdaResponseRaw statusOk req.idTlv emptyObjectTlv)
  else if req.method = methodInitialize then dispatchInitialize req.idTlv
  else if req.method = notifInitialized then .ok (buildNdaResponseRaw statusOk req.idTlv emptyObjectTlv)
  else if req.method = methodLoggingSetLevel then
    .ok (buildNdaResponseRaw statusOk req.idTlv emptyObjectTlv)
  else if req.method = methodToolsList then
    .ok (buildNdaResponseFrame ([statusOk] ++ (req.idTlv ++ srv.encodedToolsListResult)))
  else if req.method = methodToolsCall then dispatchToolsCall srv req
  else if req.method = methodHealthCheck then .ok (buildNdaResponseRaw statusOk req.idTlv healthResultTlv)
  else if req.method = methodResourcesList then
    withReqData req fun data => buildResponseValue req.idTlv (srv.handleResourcesList (cursorOf data))
  else if req.method = methodResourcesRead then
    withReqData req fun data =>
      buildResponseResult srv req.idTlv (srv.handleResourcesRead (stringAt data "uri"))
  else if req.method = methodResourceTemplatesList then
    withReqData req fun data => buildResponseValue req.idTlv (srv.handleResourceTemplatesList (cursorOf data))
  else if req.method = methodPromptsList then
    withReqData req fun data => buildResponseValue req.idTlv (srv.handlePromptsList (cursorOf data))
  else if req.method = methodPromptsGet then
    withReqData req fun data =>
      buildResponseResult srv req.idTlv (srv.handlePromptsGet (stringAt data "name") (data.index "arguments"))
  else if req.method = methodSamplingCreate then
    withReqData req fun data => buildResponseResult srv req.idTlv (srv.sampling data)
  else if req.method = notifCancelled then .ok (buildNdaResponseRaw statusOk req.idTlv emptyObjectTlv)
  else if req.method = notifProgress then .ok (buildNdaResponseRaw statusOk req.idTlv emptyObjectTlv)
  else .ok (buildNdaErrorRaw req.idTlv s!"Unknown method: 0x{hex02 req.method}")

/-- One arm for each method. -/
def dispatchNdaRequest (srv : Server) (raw : Bytes) : Outcome String Bytes := do
  let req ← (parseNdaRequestInplace srv.cfg raw).mapErr ParseError.text
  dispatchMethod srv req

/-! ## What the arms have to say -/

/-- What an arm replies with: an empty object, the tool list, a text, an error's text, or a value that a registry
has given; or nothing, if it panics. -/
inductive Content where
  | empty
  | tools (ts : List Tool)
  | text (s : String)
  | error (s : String)
  | value (v : Value)
  | panic

/-- The reply for a content.  The tool list is what was written, whatever the encoder returned. -/
def Content.frame (idTlv : Bytes) : Content → Outcome String Bytes
  | .empty => .ok (replyFrame statusOk idTlv emptyObjectTlv)
  | .tools ts => .ok (replyFrame statusOk idTlv (encodeToolsListResult ts).bytes)
  | .text s => .ok (replyFrame statusOk idTlv (textTlv s))
  | .error s => .ok (replyFrame statusError idTlv (textTlv s))
  | .value v => (encodeJsonValue v).toOutcome >>= fun tlv => .ok (replyFrame statusOk idTlv tlv)
  | .panic => .panic

def contentOfResult (srv : Server) : Except String Value → Content
  | .ok v => .value v
  | .error e => .error (srv.sanitizeError e)

def contentOfData (data : Bytes) (k : Value → Content) : Content :=
  match decodeReqData data with
  | .ok d => k d
  | .err e => .error s!"Invalid request data: {e.text}"
  | .panic => .panic

def contentOfToolsCall (srv : Server) (data : Bytes) : Content :=
  match extractToolsCallFields data with
  | .err e => .error s!"Malformed tools/call payload: {e.text}"
  | .panic => .panic
  | .ok (nameSlice, argsSlice) =>
    let name := nameSlice.getD ""
    if !srv.checkRateLimit then .error (rateLimitText name)
    else
      match callToolFrom srv name argsSlice with
      | .ok res => .text res
      | .error e => .error (srv.toolErrorText name e)

/-- What the binary dispatcher puts in its reply, by the method. -/
def contentOf (srv : Server) (req : NdaRequestRef) : Content :=
  if req.method = methodPing then .empty
  else if req.method = methodInitialize then .value (buildInitializeResponse false)
  else if req.method = notifInitialized then .empty
  else if req.method = methodLoggingSetLevel then .empty
  else if req.method = methodToolsList then .tools srv.listedTools
  else if req.method = methodToolsCall then contentOfToolsCall srv req.data
  else if req.method = methodHealthCheck then .value (healthResult "shmem-nda")
  else if req.method = methodResourcesList then
    contentOfData req.data fun data => .value (srv.handleResourcesList (cursorOf data))
  else if req.method = methodResourcesRead then
    contentOfData req.data fun data => contentOfResult srv (srv.handleResourcesRead (stringAt data "uri"))
  else if req.method = methodResourceTemplatesList then
    contentOfData req.data fun data => .value (srv.handleResourceTemplatesList (cursorOf data))
  else if req.method = methodPromptsList then
    contentOfData req.data fun data => .value (srv.handlePromptsList (cursorOf data))
  else if req.method = methodPromptsGet then
    contentOfData req.data fun data =>
      contentOfResult srv (srv.handlePromptsGet (stringAt data "name") (data.index "arguments"))
  else if req.method = methodSamplingCreate then
    contentOfData req.data fun data => contentOfResult srv (srv.sampling data)
  else if req.method = notifCancelled then .empty
  else if req.method = notifProgress then .empty
  else .error s!"Unknown method: 0x{hex02 req.method}"

section Content

variable {srv : Server} {req : NdaRequestRef}

theorem contentOf_resourcesList (idTlv data : Bytes) : contentOf srv ⟨methodResourcesList, idTlv, data⟩ =
    contentOfData data fun data => .value (srv.handleResourcesList (cursorOf data)) := rfl

theorem contentOf_resourcesRead (idTlv data : Bytes) : contentOf srv ⟨methodResourcesRead, idTlv, data⟩ =
    contentOfData data fun data => contentOfResult srv (srv.handleResourcesRead (stringAt data "uri")) := rfl

theorem contentOf_promptsList (idTlv data : Bytes) : contentOf srv ⟨methodPromptsList, idTlv, data⟩ =
    contentOfData data fun data => .value (srv.handlePromptsList (cursorOf data)) := rfl

theorem contentOf_promptsGet (idTlv data : Bytes) : contentOf srv ⟨methodPromptsGet, idTlv, data⟩ =
    contentOfData data fun data =>
      contentOfResult srv (srv.handlePromptsGet (stringAt data "name") (data.index "arguments")) := rfl

theorem buildResponseValue_eq (idTlv : Bytes) (v : Value) :
    buildResponseValue idTlv v = (Content.value v).frame idTlv := rfl

theorem buildResponseResult_eq (idTlv : Bytes) (r : Except String Value) :
    buildResponseResult srv idTlv r = (contentOfResult srv r).frame idTlv := by
  cases r <;> rfl

theorem withReqData_eq {k : Value → Outcome String Bytes} {c : Value → Content}
    (hk : ∀ data, k data = (c data).frame req.idTlv) :
    withReqData req k = (contentOfData req.data c).frame req.idTlv := by
  rw [withReqData, contentOfData]
  cases decodeReqData req.data with
  | ok data => exact hk data
  | err e => rfl
  | panic => rfl

theorem dispatchToolsCall_eq :
    dispatchToolsCall srv req = (contentOfToolsCall srv req.data).frame req.idTlv := by
  unfold dispatchToolsCall contentOfToolsCall
  cases extractToolsCallFields req.data with
  | err e => rfl
  | panic => rfl
  | ok fields =>
    obtain ⟨name, args⟩ := fields
    simp only
    by_cases hrate : (!srv.checkRateLimit) = true
    · rw [if_pos hrate, if_pos hrate]
      rfl
    · rw [if_neg hrate, if_neg hrate]
      cases callToolFrom srv (name.getD "") args <;> rfl

theorem dispatchInitialize_eq (idTlv : Bytes) :
    dispatchInitialize idTlv = (Content.value (buildInitializeResponse false)).frame idTlv := by
  have henc : (encodeJsonValue (buildInitializeResponse false)).error = none := by decide +kernel
  rw [dispatchInitialize, Content.frame, Emit.toOutcome, henc]
  rfl

theorem frame_health (idTlv : Bytes) :
    (Content.value (healthResult "shmem-nda")).frame idTlv =
      .ok (buildNdaResponseRaw statusOk idTlv healthResultTlv) := by
  have henc : (encodeJsonValue (healthResult "shmem-nda")).error = none := by decide +kernel
  rw [Content.frame, Emit.toOutcome, henc]
  rfl

theorem frame_listedTools (idTlv : Bytes) :
    (Content.tools srv.listedTools).frame idTlv =
      .ok (buildNdaResponseFrame ([statusOk] ++ (idTlv ++ srv.encodedToolsListResult))) := by
  rw [srv.encodedToolsListResult_eq]
  rfl

theorem ite_frame {idTlv : Bytes} {p : Prop} [Decidable p] {x y : Outcome String Bytes} {c d : Content}
    (hx : x = c.frame idTlv) (hy : y = d.frame idTlv) :
    (if p then x else y) = (if p then c else d).frame idTlv := by
  by_cases h : p
  · rw [if_pos h, if_pos h, hx]
  · rw [if_neg h, if_neg h, hy]

/-- **Every arm frames its content.** -/
theorem dispatchMethod_eq : dispatchMethod srv req = (contentOf srv req).frame req.idTlv := by
  unfold dispatchMethod contentOf
  refine ite_frame rfl ?_
  refine ite_frame (dispatchInitialize_eq req.idTlv) ?_
  refine ite_frame rfl ?_
  refine ite_frame rfl ?_
  refine ite_frame (frame_listedTools req.idTlv).symm ?_
  refine ite_frame dispatchToolsCall_eq ?_
  refine ite_frame (frame_health req.idTlv).symm ?_
  refine ite_frame (withReqData_eq fun data => buildResponseValue_eq _ _) ?_
  refine ite_frame (withReqData_eq fun data => buildResponseResult_eq _ _) ?_
  refine ite_frame (withReqData_eq fun data => buildResponseValue_eq _ _) ?_
  refine ite_frame (withReqData_eq fun data => buildResponseValue_eq _ _) ?_
  refine ite_frame (withReqData_eq fun data => buildResponseResult_eq _ _) ?_
  refine ite_frame (withReqData_eq fun data => buildResponseResult_eq _ _) ?_
  refine ite_frame rfl ?_
  refine ite_frame rfl ?_
  rfl

theorem dispatchNdaRequest_of_parse {raw : Bytes} (h : parseNdaRequestInplace srv.cfg raw = .ok req) :
    dispatchNdaRequest srv raw = (contentOf srv req).frame req.idTlv := by
  rw [dispatchNdaRequest, h, Outcome.mapErr_ok, Outcome.ok_bind, dispatchMethod_eq]

end Content

end VelocityMcp.NdaNative
