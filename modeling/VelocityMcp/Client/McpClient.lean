import VelocityMcp.Client.Types
import VelocityMcp.Lib.Outcome

/-!
# Client.McpClient — the operations of the client, over any transport (`client/src/client.rs`)

`Transport`: what `send` gives back for a request.
-/

namespace VelocityMcp.Client

open Lib

/-- `Transport::send`. -/
abbrev Transport := JsonRpcRequest → Outcome Error JsonRpcResponse

def protocolVersion : String := "2024-11-05"

/-- `VERSION`, the package's. -/
def version : String := "3.2.1"

variable (transport : Transport) (id : Int64)

/-- What `from_value` or `from_str` gives. -/
def orJson {α : Type} : Option α → Outcome Error α
  | some a => .ok a
  | none => .err .json

/-- `id` is the request counter. -/
def sendRequest (method : String) (params : Option Value) : Outcome Error Value := do
  let response ← transport ⟨method, params, some (.number (.ofI64 id))⟩
  match response.error with
  | some error => .err (.protocol error.code error.message error.data)
  | none => match response.result with
    | some result => .ok result
    | none => .err (.server "No result in response")

def initializeParams : Value :=
  .object [("capabilities", .object []),
    ("client_info", .object [("name", .string "velocity-mcp-client"), ("version", .string version)]),
    ("protocol_version", .string protocolVersion)]

def initializedNotification : JsonRpcRequest := ⟨"notifications/initialized", none, none⟩

/-- `McpClient::initialize`. -/
def initializeConnection : Outcome Error InitializeResult := do
  let result ← sendRequest transport id "initialize" (some initializeParams)
  let initResult ← orJson (InitializeResult.fromValue result)
  let _ ← transport initializedNotification
  .ok initResult

def listTools : Outcome Error (List Tool) := do
  let result ← sendRequest transport id "tools/list" (some (.object []))
  let toolsResult ← orJson (ToolsListResult.fromValue result)
  .ok toolsResult.tools

def contentText (content : List Content) : String :=
  "\n".intercalate (content.filterMap fun c => match c with | .text s => some s | _ => none)

def callTool (name : String) (arguments : Value) : Outcome Error ToolCallResult := do
  let params := .object [("arguments", arguments), ("name", .string name)]
  let result ← sendRequest transport id "tools/call" (some params)
  let toolResult ← orJson (ToolCallResult.fromValue result)
  if toolResult.isError then .err (.toolExecution (contentText toolResult.content))
  else .ok toolResult

def listResources : Outcome Error (List Resource) := do
  let result ← sendRequest transport id "resources/list" (some (.object []))
  let resourcesResult ← orJson (ResourcesListResult.fromValue result)
  .ok resourcesResult.resources

def readResource (uri : String) : Outcome Error (List ResourceContent) := do
  let result ← sendRequest transport id "resources/read" (some (.object [("uri", .string uri)]))
  let resourceResult ← orJson (ResourceReadResult.fromValue result)
  .ok resourceResult.contents

def listPrompts : Outcome Error (List Prompt) := do
  let result ← sendRequest transport id "prompts/list" (some (.object []))
  let promptsResult ← orJson (PromptsListResult.fromValue result)
  .ok promptsResult.prompts

def getPrompt (name : String) (arguments : Value) : Outcome Error PromptGetResult := do
  let params := .object [("arguments", arguments), ("name", .string name)]
  let result ← sendRequest transport id "prompts/get" (some params)
  orJson (PromptGetResult.fromValue result)

def ping : Outcome Error Unit := do
  let _ ← sendRequest transport id "ping" (some (.object []))
  .ok ()

def setLogLevel (level : String) : Outcome Error Unit := do
  let _ ← sendRequest transport id "logging/setLevel" (some (.object [("level", .string level)]))
  .ok ()

/-! ## All of them -/

/-- A call of the client's interface.  The arguments are a `serde_json` value, with its keys in order. -/
inductive Operation where
  | initializeConnection
  | listTools
  | callTool (name : String) (arguments : Value) (wf : arguments.WF)
  | listResources
  | readResource (uri : String)
  | listPrompts
  | getPrompt (name : String) (arguments : Value) (wf : arguments.WF)
  | ping
  | setLogLevel (level : String)

/-- What an operation of the client returns. -/
inductive OperationResult where
  | initialized (result : InitializeResult)
  | tools (tools : List Tool)
  | called (result : ToolCallResult)
  | resources (resources : List Resource)
  | contents (contents : List ResourceContent)
  | prompts (prompts : List Prompt)
  | prompt (result : PromptGetResult)
  | done
deriving DecidableEq

/-- All operations under one type. -/
def Operation.run : Operation → Outcome Error OperationResult
  | .initializeConnection => Client.initializeConnection transport id >>= fun r => .ok (.initialized r)
  | .listTools => Client.listTools transport id >>= fun r => .ok (.tools r)
  | .callTool name arguments _ => Client.callTool transport id name arguments >>= fun r => .ok (.called r)
  | .listResources => Client.listResources transport id >>= fun r => .ok (.resources r)
  | .readResource uri => Client.readResource transport id uri >>= fun r => .ok (.contents r)
  | .listPrompts => Client.listPrompts transport id >>= fun r => .ok (.prompts r)
  | .getPrompt name arguments _ => Client.getPrompt transport id name arguments >>= fun r => .ok (.prompt r)
  | .ping => Client.ping transport id >>= fun _ => .ok .done
  | .setLogLevel level => Client.setLogLevel transport id level >>= fun _ => .ok .done

end VelocityMcp.Client
