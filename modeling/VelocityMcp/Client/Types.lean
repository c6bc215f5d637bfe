import VelocityMcp.Client.Error

/-!
# Client.Types — the client's protocol types, and how they are read from JSON (`client/src/types.rs`)

`structSlots`: what a derived `Deserialize` finds for each field of a struct.
-/

namespace VelocityMcp.Client

open Lib

/-! ## Derived deserialisation -/

/-- What a struct's visitor finds for a field: a value, no key in an object, or no item in an array. -/
inductive Slot where
  | given (v : Value)
  | noKey
  | noItem

/-- The fields of a struct, each under any of its names: an object has at most one of them for each field, and
may have others; an array has the fields in order. -/
def structSlots (fields : List (List String)) : Value → Option (List Slot)
  | .object entries => fields.mapM fun names =>
    match entries.filter fun e => names.contains e.1 with
    | [] => some .noKey
    | [(_, v)] => some (.given v)
    | _ => none
  | .array items =>
    if items.length ≤ fields.length then
      some (items.map .given ++ List.replicate (fields.length - items.length) .noItem)
    else none
  | _ => none

namespace Slot

variable {α : Type}

/-- A field that must be there. -/
def required (read : Value → Option α) : Slot → Option α
  | given v => read v
  | _ => none

/-- A field of type `Option`. -/
def optional (read : Value → Option α) : Slot → Option (Option α)
  | given .null => some none
  | given v => (read v).map some
  | noKey => some none
  | noItem => none

/-- A field with `#[serde(default)]`. -/
def orDefault (read : Value → Option α) (d : α) : Slot → Option α
  | given v => read v
  | _ => some d

end Slot

def readBool : Value → Option Bool
  | .bool b => some b
  | _ => none

/-- An integer that fits an `i32`. -/
def readI32 : Value → Option Int32
  | .number (.float _ _) => none
  | .number n => n.asI64.bind fun i =>
    if Int32.minValue.toInt64 ≤ i ∧ i ≤ Int32.maxValue.toInt64 then some i.toInt32 else none
  | _ => none

def readVec {α : Type} (read : Value → Option α) : Value → Option (List α)
  | .array items => items.mapM read
  | _ => none

/-! ## JSON-RPC -/

/-- A request as the client builds it, without an `id` where it is a notification. -/
structure JsonRpcRequest where
  method : String
  params : Option Value
  id : Option Value
deriving DecidableEq

/-- The object that is sent, with the version `"2.0"`. -/
def JsonRpcRequest.toValue (r : JsonRpcRequest) : Value :=
  .object ((match r.id with | some id => [("id", id)] | none => []) ++
    ([("jsonrpc", .string "2.0"), ("method", .string r.method)] ++
      match r.params with | some params => [("params", params)] | none => []))

structure JsonRpcError where
  code : Int32
  message : String
  data : Option Value
deriving DecidableEq

/-- Nothing where `serde_json` returns an error. -/
def JsonRpcError.fromValue (v : Value) : Option JsonRpcError := do
  let [code, message, data] ← structSlots [["code"], ["message"], ["data"]] v | none
  some ⟨← code.required readI32, ← message.required Value.asStr, ← data.optional some⟩

structure JsonRpcResponse where
  jsonrpc : String
  result : Option Value
  error : Option JsonRpcError
  id : Option Value
deriving DecidableEq

def JsonRpcResponse.fromValue (v : Value) : Option JsonRpcResponse := do
  let [jsonrpc, result, error, id] ← structSlots [["jsonrpc"], ["result"], ["error"], ["id"]] v | none
  some ⟨← jsonrpc.required Value.asStr, ← result.optional some, ← error.optional JsonRpcError.fromValue,
    ← id.optional some⟩

/-! ## Results -/

structure ToolsCapability where
  listChanged : Bool
deriving DecidableEq

def ToolsCapability.fromValue (v : Value) : Option ToolsCapability := do
  let [listChanged] ← structSlots [["listChanged", "list_changed"]] v | none
  some ⟨← listChanged.orDefault readBool false⟩

structure ResourcesCapability where
  subscribe : Bool
  listChanged : Bool
deriving DecidableEq

def ResourcesCapability.fromValue (v : Value) : Option ResourcesCapability := do
  let [subscribe, listChanged] ← structSlots [["subscribe"], ["listChanged", "list_changed"]] v | none
  some ⟨← subscribe.orDefault readBool false, ← listChanged.orDefault readBool false⟩

structure PromptsCapability where
  listChanged : Bool
deriving DecidableEq

def PromptsCapability.fromValue (v : Value) : Option PromptsCapability := do
  let [listChanged] ← structSlots [["listChanged", "list_changed"]] v | none
  some ⟨← listChanged.orDefault readBool false⟩

structure ServerCapabilities where
  tools : Option ToolsCapability
  resources : Option ResourcesCapability
  prompts : Option PromptsCapability
  sampling : Option Value
  logging : Option Value
deriving DecidableEq

def ServerCapabilities.fromValue (v : Value) : Option ServerCapabilities := do
  let [tools, resources, prompts, sampling, logging] ←
    structSlots [["tools"], ["resources"], ["prompts"], ["sampling"], ["logging"]] v | none
  some ⟨← tools.optional ToolsCapability.fromValue, ← resources.optional ResourcesCapability.fromValue,
    ← prompts.optional PromptsCapability.fromValue, ← sampling.optional some, ← logging.optional some⟩

structure ServerInfo where
  name : String
  version : String
deriving DecidableEq

def ServerInfo.fromValue (v : Value) : Option ServerInfo := do
  let [name, version] ← structSlots [["name"], ["version"]] v | none
  some ⟨← name.required Value.asStr, ← version.required Value.asStr⟩

structure InitializeResult where
  protocolVersion : String
  capabilities : ServerCapabilities
  serverInfo : ServerInfo
deriving DecidableEq

def InitializeResult.fromValue (v : Value) : Option InitializeResult := do
  let [protocolVersion, capabilities, serverInfo] ← structSlots
    [["protocolVersion", "protocol_version"], ["capabilities"], ["serverInfo", "server_info"]] v | none
  some ⟨← protocolVersion.required Value.asStr, ← capabilities.required ServerCapabilities.fromValue,
    ← serverInfo.required ServerInfo.fromValue⟩

structure Tool where
  name : String
  description : String
  inputSchema : Value
deriving DecidableEq

def Tool.fromValue (v : Value) : Option Tool := do
  let [name, description, inputSchema] ←
    structSlots [["name"], ["description"], ["inputSchema", "input_schema"]] v | none
  some ⟨← name.required Value.asStr, ← description.required Value.asStr, ← inputSchema.required some⟩

structure ToolsListResult where
  tools : List Tool
  nextCursor : Option String
deriving DecidableEq

def ToolsListResult.fromValue (v : Value) : Option ToolsListResult := do
  let [tools, nextCursor] ← structSlots [["tools"], ["nextCursor", "next_cursor"]] v | none
  some ⟨← tools.required (readVec Tool.fromValue), ← nextCursor.optional Value.asStr⟩

structure ResourceContent where
  uri : String
  mimeType : Option String
  text : Option String
deriving DecidableEq

def ResourceContent.fromValue (v : Value) : Option ResourceContent := do
  let [uri, mimeType, text] ← structSlots [["uri"], ["mimeType", "mime_type"], ["text"]] v | none
  some ⟨← uri.required Value.asStr, ← mimeType.optional Value.asStr, ← text.optional Value.asStr⟩

inductive Content where
  | text (text : String)
  | image (data mimeType : String)
  | resource (resource : ResourceContent)
deriving DecidableEq

/-- The variant that a tag names, from what is left when the tag is taken out. -/
def Content.ofTag (tag : String) (rest : Value) : Option Content :=
  if tag = "text" then do
    let [s] ← structSlots [["text"]] rest | none
    some (.text (← s.required Value.asStr))
  else if tag = "image" then do
    let [data, mimeType] ← structSlots [["data"], ["mimeType", "mime_type"]] rest | none
    some (.image (← data.required Value.asStr) (← mimeType.required Value.asStr))
  else if tag = "resource" then do
    let [r] ← structSlots [["resource"]] rest | none
    some (.resource (← r.required ResourceContent.fromValue))
  else none

def Content.fromValue : Value → Option Content
  | .object entries => do
    let tag ← (getKey "type" entries).bind Value.asStr
    ofTag tag (.object (entries.filter fun e => e.1 ≠ "type"))
  | .array (tag :: rest) => do
    let tag ← tag.asStr
    ofTag tag (.array rest)
  | _ => none

structure ToolCallResult where
  content : List Content
  isError : Bool
deriving DecidableEq

def ToolCallResult.fromValue (v : Value) : Option ToolCallResult := do
  let [content, isError] ← structSlots [["content"], ["isError", "is_error"]] v | none
  some ⟨← content.required (readVec Content.fromValue), ← isError.orDefault readBool false⟩

structure Resource where
  uri : String
  name : String
  description : Option String
  mimeType : Option String
deriving DecidableEq

def Resource.fromValue (v : Value) : Option Resource := do
  let [uri, name, description, mimeType] ←
    structSlots [["uri"], ["name"], ["description"], ["mimeType", "mime_type"]] v | none
  some ⟨← uri.required Value.asStr, ← name.required Value.asStr, ← description.optional Value.asStr,
    ← mimeType.optional Value.asStr⟩

structure ResourcesListResult where
  resources : List Resource
  nextCursor : Option String
deriving DecidableEq

def ResourcesListResult.fromValue (v : Value) : Option ResourcesListResult := do
  let [resources, nextCursor] ← structSlots [["resources"], ["nextCursor", "next_cursor"]] v | none
  some ⟨← resources.required (readVec Resource.fromValue), ← nextCursor.optional Value.asStr⟩

structure ResourceReadResult where
  contents : List ResourceContent
deriving DecidableEq

def ResourceReadResult.fromValue (v : Value) : Option ResourceReadResult := do
  let [contents] ← structSlots [["contents"]] v | none
  some ⟨← contents.required (readVec ResourceContent.fromValue)⟩

structure PromptArgument where
  name : String
  description : Option String
  required : Bool
deriving DecidableEq

def PromptArgument.fromValue (v : Value) : Option PromptArgument := do
  let [name, description, required] ← structSlots [["name"], ["description"], ["required"]] v | none
  some ⟨← name.required Value.asStr, ← description.optional Value.asStr, ← required.orDefault readBool false⟩

structure Prompt where
  name : String
  description : Option String
  arguments : Option (List PromptArgument)
deriving DecidableEq

def Prompt.fromValue (v : Value) : Option Prompt := do
  let [name, description, arguments] ← structSlots [["name"], ["description"], ["arguments"]] v | none
  some ⟨← name.required Value.asStr, ← description.optional Value.asStr,
    ← arguments.optional (readVec PromptArgument.fromValue)⟩

structure PromptsListResult where
  prompts : List Prompt
  nextCursor : Option String
deriving DecidableEq

def PromptsListResult.fromValue (v : Value) : Option PromptsListResult := do
  let [prompts, nextCursor] ← structSlots [["prompts"], ["nextCursor", "next_cursor"]] v | none
  some ⟨← prompts.required (readVec Prompt.fromValue), ← nextCursor.optional Value.asStr⟩

structure PromptMessage where
  role : String
  content : Content
deriving DecidableEq

def PromptMessage.fromValue (v : Value) : Option PromptMessage := do
  let [role, content] ← structSlots [["role"], ["content"]] v | none
  some ⟨← role.required Value.asStr, ← content.required Content.fromValue⟩

structure PromptGetResult where
  description : String
  messages : List PromptMessage
deriving DecidableEq

def PromptGetResult.fromValue (v : Value) : Option PromptGetResult := do
  let [description, messages] ← structSlots [["description"], ["messages"]] v | none
  some ⟨← description.required Value.asStr, ← messages.required (readVec PromptMessage.fromValue)⟩

end VelocityMcp.Client
