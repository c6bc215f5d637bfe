import VelocityMcp.Server

/-!
# JsonShmem — JSON requests in shared memory (`nmcp_binary.rs`, `protocol/mod.rs`)

The audit log, the stored log level and the progress handler take nothing from the response and are left out.
-/

namespace VelocityMcp

open Lib

/-- `json!({"jsonrpc": "2.0", "id": id, "result": result})`. -/
def rpcResult (id result : Value) : Value :=
  .object [("id", id), ("jsonrpc", .string "2.0"), ("result", result)]

/-- `json!({"jsonrpc": "2.0", "id": id, "error": {"code": code, "message": message}})`. -/
def rpcError (id : Value) (code : Int64) (message : String) : Value :=
  .object [("error", .object [("code", .number (.ofI64 code)), ("message", .string message)]),
    ("id", id), ("jsonrpc", .string "2.0")]

/-- The levels that `logging_set_level_response` stores. -/
def logLevels : List String :=
  ["debug", "info", "notice", "warning", "error", "critical", "alert", "emergency"]

/-- The arm that is shared with the stdio dispatcher. -/
def loggingSetLevelResponse (id : Value) (level : String) : Value :=
  if level ∈ logLevels then rpcResult id (.object [])
  else rpcError id (-32602) s!"Invalid log level: '{level}'"

/-- `tools_list_page_response`. -/
def toolsListPageResponse (tools : List Tool) (id : Value) (cursor : Option String) : Value :=
  rpcResult id (listPage "tools" (tools.map Tool.toValue) cursor)

def toolCallResult (text : String) (isError : Bool) : Value :=
  .object [("content", .array [.object [("text", .string text), ("type", .string "text")]]),
    ("isError", .bool isError)]

/-- The response for an answer that may be an error. -/
def rpcAnswer (srv : Server) (id : Value) : Except String Value → Value
  | .ok result => rpcResult id result
  | .error e => rpcError id (-32603) (srv.sanitizeError e)

def jsonToolsCall (srv : Server) (id : Value) (name : String) (arguments : Value) : Value :=
  if !srv.checkRateLimit then rpcResult id (toolCallResult (rateLimitText name) true)
  else
    match srv.callTool name arguments with
    | .ok res => rpcResult id (toolCallResult res false)
    | .error e => rpcResult id (toolCallResult (srv.toolErrorText name e) true)

/-- The `match` of `handle_json_shmem` on the method. -/
def handleJsonRequest (srv : Server) (request : Value) : Value :=
  let method := (request.index "method").asStr.getD ""
  let id := request.index "id"
  let params := request.index "params"
  if method = "initialize" then rpcResult id (buildInitializeResponse true)
  else if method = "notifications/initialized" then rpcResult id (.object [])
  else if method = "ping" then rpcResult id (.object [])
  else if method = "logging/setLevel" then
    loggingSetLevelResponse id ((params.index "level").asStr.getD "info")
  else if method = "tools/list" then toolsListPageResponse srv.tools id (params.index "cursor").asStr
  else if method = "tools/call" then
    jsonToolsCall srv id ((params.index "name").asStr.getD "") (params.index "arguments")
  else if method = "health/check" then rpcResult id (healthResult "shmem")
  else if method = "resources/list" then
    rpcResult id (srv.handleResourcesList (params.index "cursor").asStr)
  else if method = "resources/read" then
    rpcAnswer srv id (srv.handleResourcesRead ((params.index "uri").asStr.getD ""))
  else if method = "resources/templates/list" then
    rpcResult id (srv.handleResourceTemplatesList (params.index "cursor").asStr)
  else if method = "resources/subscribe" then
    rpcAnswer srv id (srv.handleResourcesSubscribe ((params.index "uri").asStr.getD "")
      ((params.index "subscriberId").asStr.getD "default"))
  else if method = "resources/unsubscribe" then
    rpcAnswer srv id (srv.handleResourcesUnsubscribe ((params.index "uri").asStr.getD "")
      ((params.index "subscriberId").asStr.getD "default"))
  else if method = "prompts/list" then rpcResult id (srv.handlePromptsList (params.index "cursor").asStr)
  else if method = "prompts/get" then
    rpcAnswer srv id (srv.handlePromptsGet ((params.index "name").asStr.getD "") (params.index "arguments"))
  else if method = "sampling/createMessage" then rpcAnswer srv id (srv.sampling params)
  else if method = "notifications/cancelled" then rpcResult id (.object [])
  else if method = "notifications/progress" then rpcResult id (.object [])
  else rpcError id (-32601) s!"Method '{method}' not supported"

end VelocityMcp
