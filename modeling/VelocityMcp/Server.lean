import VelocityMcp.NdaNative.ToolsList
import VelocityMcp.Prompts

/-!
# Server — what the dispatchers share

`Server`: the registries, tools and handlers that a request meets.
-/

namespace VelocityMcp

open Lib NdaNative

/-- What a request meets: the settings of the frame parser, the registries and the generation of the tools,
the encoded tool list that is cached with its generation, and the answers of the rate limiter, the tools, the
resource store, its subscriptions and the sampling callback.  `redact` stands for the two patterns of
`sanitize_error`, which put six bytes in the place of at least four, and `order` for the order in which the hash map
of the call at hand is walked. -/
structure Server where
  cfg : Config
  tools : List Tool
  generation : ℕ
  toolsListCache : Option CachedToolsList
  resources : List Resource
  templates : List ResourceTemplate
  prompts : List Prompt
  checkRateLimit : Bool
  callTool : String → Value → Except String String
  callToolBinary : String → Bytes → Except String String
  readResource : String → Except String ResourceReadResult
  subscribeResource : String → String → Except String Unit
  unsubscribeResource : String → String → Except String Unit
  sampling : Value → Except String Value
  redact : String → String
  redact_length : ∀ s, (utf8 (redact s)).length ≤ 2 * (utf8 s).length
  order : List (String × String) → List (String × String)
  order_perm : ∀ l, (order l).Perm l

/-- The server as another call meets it: a new hash map has a random state, and so an order, of its own. -/
def Server.walking (srv : Server) (order : List (String × String) → List (String × String))
    (horder : ∀ l, (order l).Perm l) : Server := { srv with order := order, order_perm := horder }

/-! ## Errors -/

/-- The longest prefix of at most `n` bytes that ends between two characters (`floor_char_boundary`). -/
def takeBytes : ℕ → List Char → List Char
  | _, [] => []
  | n, c :: cs => if c.utf8Size ≤ n then c :: takeBytes (n - c.utf8Size) cs else []

def Server.sanitizeError (srv : Server) (msg : String) : String :=
  srv.redact <| if 500 < (utf8 msg).length then
    String.ofList (takeBytes 500 msg.toList) ++ "... [truncated]" else msg

/-- `str::contains`. -/
def containsText (s part : String) : Bool := (utf8 s).tails.any fun rest => (utf8 part).isPrefixOf rest

def classifyToolError (sanitized : String) : String × String :=
  if containsText sanitized "Compilation failed" || containsText sanitized "Failed to register WASM tool" then
    ("TOOL_BUILD_FAILED", "The tool module could not be compiled or registered on this host. The message above names the cause; a missing build toolchain is fixed by installing it or by loading a prebuilt module path from the manifest.")
  else if ["not found", "No such file", "cannot find"].any (containsText sanitized) then
    ("NOT_FOUND", "Check that the path or resource exists.")
  else if containsText sanitized "Permission denied" || containsText sanitized "access" then
    ("PERMISSION_DENIED", "Check file permissions or run with elevated privileges.")
  else if containsText sanitized "required" || containsText sanitized "missing" then
    ("INVALID_ARGUMENTS", "Check that all required parameters are provided with correct types.")
  else if containsText sanitized "timeout" || containsText sanitized "timed out" then
    ("TIMEOUT", "The operation took too long. Try again or increase timeout.")
  else if containsText sanitized "connection" || containsText sanitized "network" then
    ("NETWORK_ERROR", "A network error occurred. Check connectivity and retry.")
  else ("EXECUTION_ERROR", "Review the error message and adjust inputs accordingly.")

/-- How a failed tool call is told to the client. -/
def Server.toolErrorText (srv : Server) (name err : String) : String :=
  let sanitized := srv.sanitizeError err
  let (errorType, hint) := classifyToolError sanitized
  s!"Error running tool '{name}': {sanitized}\n\nError type: {errorType}\nHint: {hint}"

def rateLimitText (name : String) : String := s!"Rate limit exceeded for tool '{name}'."

/-! ## Constant results -/

def protocolVersion : String := "2024-11-05"

/-- `VERSION`, the package's. -/
def version : String := "3.2.1"

/-- The constant result of `initialize`. -/
def buildInitializeResponse (includeExtra : Bool) : Value :=
  .object [
    ("capabilities", .object ((if includeExtra then [("elicitation", .object [])] else []) ++ [
      ("logging", .object []),
      ("prompts", .object [("listChanged", .bool false)]),
      ("resources", .object [("listChanged", .bool false), ("subscribe", .bool false)]),
      ("sampling", .object []),
      ("tools", .object [("listChanged", .bool true)])])),
    ("protocolVersion", .string protocolVersion),
    ("serverInfo", .object [("name", .string "velocity-mcp-rust-server"), ("version", .string version)])]

/-- The result of `health/check`, for the transport it names. -/
def healthResult (mode : String) : Value :=
  .object [("mode", .string mode), ("status", .string "healthy"), ("version", .string version)]

/-! ## The registries -/

/-- `encoded_tools_list_result`: the cached bytes, or what was written before an error, if there was one. -/
def Server.encodedToolsListResult (srv : Server) : Bytes :=
  match srv.toolsListCache with
  | some cached =>
    if cached.generation = srv.generation then cached.bytes else (encodeToolsListResult srv.tools).bytes
  | none => (encodeToolsListResult srv.tools).bytes

def Server.listedTools (srv : Server) : List Tool :=
  match srv.toolsListCache with
  | some cached => if cached.generation = srv.generation then cached.tools else srv.tools
  | none => srv.tools

theorem Server.encodedToolsListResult_eq (srv : Server) :
    srv.encodedToolsListResult = (encodeToolsListResult srv.listedTools).bytes := by
  unfold encodedToolsListResult listedTools
  cases srv.toolsListCache with
  | none => rfl
  | some cached =>
    simp only
    by_cases hg : cached.generation = srv.generation
    · rw [if_pos hg, if_pos hg, cached.written]
    · rw [if_neg hg, if_neg hg]

def Server.handleResourcesList (srv : Server) (cursor : Option String) : Value :=
  VelocityMcp.handleResourcesList srv.resources cursor

def Server.handleResourcesRead (srv : Server) (uri : String) : Except String Value :=
  VelocityMcp.handleResourcesRead (srv.readResource uri)

def Server.handleResourceTemplatesList (srv : Server) (cursor : Option String) : Value :=
  VelocityMcp.handleResourceTemplatesList srv.templates cursor

def Server.handleResourcesSubscribe (srv : Server) (uri subscriberId : String) : Except String Value :=
  VelocityMcp.handleResourcesSubscribe (srv.subscribeResource uri subscriberId) uri

def Server.handleResourcesUnsubscribe (srv : Server) (uri subscriberId : String) : Except String Value :=
  VelocityMcp.handleResourcesUnsubscribe (srv.unsubscribeResource uri subscriberId) uri

def Server.handlePromptsList (srv : Server) (cursor : Option String) : Value :=
  VelocityMcp.handlePromptsList srv.prompts cursor

def Server.handlePromptsGet (srv : Server) (name : String) (arguments : Value) : Except String Value :=
  VelocityMcp.handlePromptsGet srv.prompts srv.order name arguments

/-- Whatever the order, the text that `prompts/get` fills in is the same. -/
def Server.PromptFilledAlike (srv : Server) (name : String) (arguments : Value) : Prop :=
  (Filling.getPrompt srv.prompts name).FilledAlike (stringArguments arguments)

/-- **Two calls of `prompts/get` are answered alike in all orders** just where the text is the same in all of them. -/
theorem Server.handlePromptsGet_walking_iff (srv : Server) (name : String) (arguments : Value) :
    (∀ order horder, (srv.walking order horder).handlePromptsGet name arguments =
      srv.handlePromptsGet name arguments) ↔ srv.PromptFilledAlike name arguments := by
  rw [PromptFilledAlike, ← getPrompt_perm_iff]
  have hperm := srv.order_perm (stringArguments arguments)
  constructor
  · intro h
    -- an order of this list is one of all lists
    have hany : ∀ l, l.Perm (stringArguments arguments) →
        VelocityMcp.getPrompt srv.prompts name l = srv.handlePromptsGet name arguments := by
      intro l hl
      have hl' := h (fun l' => if l' = stringArguments arguments then l else l') fun l' => by
        split_ifs with heq
        · exact heq ▸ hl
        · exact .refl _
      rw [← hl', handlePromptsGet, VelocityMcp.handlePromptsGet]
      exact congrArg (VelocityMcp.getPrompt srv.prompts name) (if_pos rfl).symm
    intro l hl
    rw [hany l hl, hany _ (.refl _)]
  · intro h order horder
    exact (h _ (horder _)).trans (h _ hperm).symm

end VelocityMcp
