import VelocityMcp.JsonShmem
import VelocityMcp.NdaNative.Answers

/-!
# JsonRpc.Dispatch — the JSON-RPC dispatcher (`dispatch` and `handle_request` of `json_rpc.rs`)

The audit log, the stored log level and the log lines take nothing from the response and are left out.
-/

namespace VelocityMcp.JsonRpc

open Lib

/-! ## The dispatcher -/

/-- What a request meets: the server, what `is_cancelled` says of its id when it arrives and when its tool has
run, and `handle_connector_call`, which only builds with the feature `oauth2` have. -/
structure Context where
  srv : Server
  cancelledOnArrival : Bool
  cancelledDuring : Bool
  handleConnectorCall : Option (Value → Except String Value)

def rateLimitedText (name : String) : String :=
  s!"Rate limit exceeded for tool '{name}'. Please slow down.\n\nError type: RATE_LIMITED\nHint: Wait a moment before retrying, or reduce request frequency."

def toolsCall (ctx : Context) (id : Value) (name : String) (arguments : Value) : Value :=
  if ctx.cancelledOnArrival then rpcResult id (toolCallResult "Request was cancelled" true)
  else if !ctx.srv.checkRateLimit then rpcResult id (toolCallResult (rateLimitedText name) true)
  else
    let (text, isError) := match ctx.srv.callTool name arguments with
      | .ok res => (res, false)
      | .error e => (ctx.srv.toolErrorText name e, true)
    if ctx.cancelledDuring then rpcResult id (toolCallResult "Request was cancelled during execution" true)
    else rpcResult id (toolCallResult text isError)

def resultAnswer (srv : Server) (id : Value) : Except String Value → Value
  | .ok result => rpcResult id result
  | .error e => rpcResult id (toolCallResult (srv.sanitizeError e) true)

/-- One arm for each method. -/
def dispatch (ctx : Context) (request : Value) : Option Value :=
  let method := (request.index "method").asStr.getD ""
  let id := request.index "id"
  let params := request.index "params"
  let srv := ctx.srv
  if method = "initialize" then some (rpcResult id (buildInitializeResponse true))
  else if method = "notifications/initialized" then none
  else if method = "notifications/cancelled" then none
  else if method = "notifications/progress" then none
  else if method = "ping" then some (rpcResult id (.object []))
  else if method = "logging/setLevel" then
    let level := (params.index "level").asStr.getD "info"
    if level ∈ logLevels then some (rpcResult id (.object []))
    else some (rpcError id (-32602) s!"Invalid log level: '{level}'")
  else if method = "tools/list" then
    some (rpcResult id (listPage "tools" (srv.tools.map Tool.toValue) (params.index "cursor").asStr))
  else if method = "tools/call" then
    some (toolsCall ctx id ((params.index "name").asStr.getD "") (params.index "arguments"))
  else if method = "health/check" then some (rpcResult id (healthResult "stdio"))
  else if method = "resources/list" then
    some (rpcResult id (srv.handleResourcesList (params.index "cursor").asStr))
  else if method = "resources/read" then
    some (resultAnswer srv id (srv.handleResourcesRead ((params.index "uri").asStr.getD "")))
  else if method = "resources/templates/list" then
    some (rpcResult id (srv.handleResourceTemplatesList (params.index "cursor").asStr))
  else if method = "resources/subscribe" then
    some (resultAnswer srv id (srv.handleResourcesSubscribe ((params.index "uri").asStr.getD "")
      ((params.index "subscriberId").asStr.getD "default")))
  else if method = "resources/unsubscribe" then
    some (resultAnswer srv id (srv.handleResourcesUnsubscribe ((params.index "uri").asStr.getD "")
      ((params.index "subscriberId").asStr.getD "default")))
  else if method = "prompts/list" then
    some (rpcResult id (srv.handlePromptsList (params.index "cursor").asStr))
  else if method = "prompts/get" then
    some (resultAnswer srv id
      (srv.handlePromptsGet ((params.index "name").asStr.getD "") (params.index "arguments")))
  else if method = "sampling/createMessage" then some (rpcAnswer srv id (srv.sampling params))
  else if method = "elicitation/create" then
    some (rpcResult id (.object [("action", .string "accept"),
      ("message", .string "Elicitation acknowledged")]))
  else if method = "roots/list" then some (rpcResult id (.object [("roots", .array [])]))
  else match if method = "connector/call" then ctx.handleConnectorCall else none with
    | some handle => some (rpcAnswer srv id (handle params))
    | none =>
      if id ≠ .null then some (rpcError id (-32601) s!"Method '{method}' not found") else none

/-- The reply is withheld from what has no `id`. -/
def handleRequest (ctx : Context) (request : Value) : Option Value :=
  match request.get "id" with
  | some _ => dispatch ctx request
  | none => none

def isRequestShaped (value : Value) : Bool := ((value.get "method").bind Value.asStr).isSome

/-! ## The contract of replies -/

structure IsReply (id response : Value) : Prop where
  version : response.get "jsonrpc" = some (.string "2.0")
  id : response.get "id" = some id
  outcome : (response.get "result").isSome ≠ (response.get "error").isSome

/-- A request with an `id`, of any value, gets a reply; one without gets none. -/
def MeetsContract (ctx : Context) (request : Value) : Prop :=
  match request.get "id" with
  | some id => ∃ response, handleRequest ctx request = some response ∧ IsReply id response
  | none => handleRequest ctx request = none

/-- The methods that are notifications: nothing is answered to them. -/
def notificationMethods : List String :=
  ["notifications/initialized", "notifications/cancelled", "notifications/progress"]

/-- The methods that have an arm with a response in every build. -/
def answeredMethods : List String :=
  ["initialize", "ping", "logging/setLevel", "tools/list", "tools/call", "health/check", "resources/list",
    "resources/read", "resources/templates/list", "resources/subscribe", "resources/unsubscribe",
    "prompts/list", "prompts/get", "sampling/createMessage", "elicitation/create", "roots/list"]

/-- The methods that have an arm with a response in this build. -/
def Context.Answers (ctx : Context) (method : String) : Prop :=
  method ∈ answeredMethods ∨ (method = "connector/call" ∧ ctx.handleConnectorCall.isSome)

/-- The arms that withhold a response: those of notifications, and the last one where the id is null. -/
def Withheld (ctx : Context) (method : String) (id : Value) : Prop :=
  method ∈ notificationMethods ∨ (¬ ctx.Answers method ∧ id = .null)

/-- A handler of its own errors fails with this text. -/
def Fails (ctx : Context) (method : String) (params : Value) (text : String) : Prop :=
  (method = "sampling/createMessage" ∧
    ∃ e, ctx.srv.sampling params = .error e ∧ ctx.srv.sanitizeError e = text) ∨
  (method = "connector/call" ∧ ∃ handle e, ctx.handleConnectorCall = some handle ∧
    handle params = .error e ∧ ctx.srv.sanitizeError e = text)

theorem isReply_rpcResult (id result : Value) : IsReply id (rpcResult id result) := by
  refine ⟨rfl, rfl, ?_⟩
  show true ≠ false
  decide

theorem isReply_rpcError (id : Value) (code : Int64) (message : String) :
    IsReply id (rpcError id code message) := by
  refine ⟨rfl, rfl, ?_⟩
  show false ≠ true
  decide

theorem rpcResult_ne_rpcError (id result : Value) (code : Int64) (message : String) :
    rpcResult id result ≠ rpcError id code message := by
  simp [rpcResult, rpcError]

theorem rpcResult_inj {id a b : Value} : rpcResult id a = rpcResult id b ↔ a = b := by
  simp [rpcResult]

theorem rpcError_inj {id : Value} {code code' : Int64} {message message' : String} :
    rpcError id code message = rpcError id code' message' ↔
      Number.ofI64 code = Number.ofI64 code' ∧ message = message' := by
  simp [rpcError]

theorem rpcError_ne {id : Value} {code code' : Int64} (h : Number.ofI64 code ≠ Number.ofI64 code')
    (message message' : String) : rpcError id code message ≠ rpcError id code' message' := by
  intro heq
  exact h (rpcError_inj.mp heq).1

theorem rpcAnswer_eq_rpcError_iff {srv : Server} {id : Value} {answer : Except String Value} {text : String} :
    rpcAnswer srv id answer = rpcError id (-32603) text ↔ ∃ e, answer = .error e ∧ srv.sanitizeError e = text := by
  cases answer with
  | ok result => simp [rpcAnswer, rpcResult_ne_rpcError]
  | error e => simp [rpcAnswer, rpcError_inj]

/-! ## The arms -/

section Arms

variable {ctx : Context} {method : String} {id params response : Value}

structure Responds (ctx : Context) (method : String) (id params response : Value) : Prop where
  answered : ¬ Withheld ctx method id
  reply : IsReply id response
  failed : ∀ text, response = rpcError id (-32603) text ↔ Fails ctx method params text

/-- What an arm may give. -/
def Gives (ctx : Context) (method : String) (id params : Value) : Option Value → Prop
  | some response => Responds ctx method id params response
  | none => Withheld ctx method id

theorem Gives.ite {c : Prop} [Decidable c] {a b : Option Value} (ha : c → Gives ctx method id params a)
    (hb : ¬ c → Gives ctx method id params b) : Gives ctx method id params (if c then a else b) := by
  by_cases h : c
  · rw [if_pos h]
    exact ha h
  · rw [if_neg h]
    exact hb h

theorem not_withheld_of_mem (hm : method ∈ answeredMethods) : ¬ Withheld ctx method id := by
  have hno : ∀ m ∈ answeredMethods, m ∉ notificationMethods := by decide
  rintro (hnotification | ⟨hnot, -⟩)
  · exact hno method hm hnotification
  · exact hnot (Or.inl hm)

/-- An arm with a response that is no error of a handler's. -/
theorem Gives.reply {m : String} (hm : m ∈ answeredMethods ∧ m ≠ "sampling/createMessage" ∧ m ≠ "connector/call")
    (hreply : IsReply id response) (hno : ∀ text, response ≠ rpcError id (-32603) text) (h : method = m) :
    Gives ctx method id params (some response) := by
  subst h
  refine ⟨not_withheld_of_mem hm.1, hreply, fun text => iff_of_false (hno text) ?_⟩
  rintro (⟨h, -⟩ | ⟨h, -⟩)
  · exact hm.2.1 h
  · exact hm.2.2 h

theorem Gives.result {result : Value} {m : String}
    (hm : m ∈ answeredMethods ∧ m ≠ "sampling/createMessage" ∧ m ≠ "connector/call") (h : method = m) :
    Gives ctx method id params (some (rpcResult id result)) :=
  .reply hm (isReply_rpcResult _ _) (fun _ => rpcResult_ne_rpcError _ _ _ _) h

theorem Gives.withheld {m : String} (hm : m ∈ notificationMethods) (h : method = m) :
    Gives ctx method id params none :=
  Or.inl (h ▸ hm)

theorem toolsCall_eq_rpcResult (ctx : Context) (id : Value) (name : String) (arguments : Value) :
    ∃ result, toolsCall ctx id name arguments = rpcResult id result := by
  unfold toolsCall
  split_ifs <;> exact ⟨_, rfl⟩

theorem resultAnswer_eq_rpcResult (srv : Server) (id : Value) (answer : Except String Value) :
    ∃ result, resultAnswer srv id answer = rpcResult id result := by
  cases answer <;> exact ⟨_, rfl⟩

theorem Gives.call {name : String} {arguments : Value} (h : method = "tools/call") :
    Gives ctx method id params (some (toolsCall ctx id name arguments)) := by
  obtain ⟨result, hresult⟩ := toolsCall_eq_rpcResult ctx id name arguments
  rw [hresult]
  exact .result (by decide) h

theorem Gives.registry {srv : Server} {answer : Except String Value} {m : String}
    (hm : m ∈ answeredMethods ∧ m ≠ "sampling/createMessage" ∧ m ≠ "connector/call") (h : method = m) :
    Gives ctx method id params (some (resultAnswer srv id answer)) := by
  obtain ⟨result, hresult⟩ := resultAnswer_eq_rpcResult srv id answer
  rw [hresult]
  exact .result hm h

theorem isReply_rpcAnswer (srv : Server) (id : Value) (answer : Except String Value) :
    IsReply id (rpcAnswer srv id answer) := by
  cases answer with
  | ok result => exact isReply_rpcResult _ _
  | error e => exact isReply_rpcError _ _ _

theorem Gives.sampling (h : method = "sampling/createMessage") :
    Gives ctx method id params (some (rpcAnswer ctx.srv id (ctx.srv.sampling params))) := by
  subst h
  refine ⟨not_withheld_of_mem (by decide), isReply_rpcAnswer _ _ _, fun text => ?_⟩
  rw [rpcAnswer_eq_rpcError_iff, Fails]
  simp

/-- The last arms: connectors, if the build has them, and methods that nobody knows. -/
theorem Gives.last (hno : method ∉ notificationMethods) (hknown : method ∉ answeredMethods) :
    Gives ctx method id params
      (match if method = "connector/call" then ctx.handleConnectorCall else none with
        | some handle => some (rpcAnswer ctx.srv id (handle params))
        | none =>
          if id ≠ .null then some (rpcError id (-32601) s!"Method '{method}' not found") else none) := by
  have hsampling : method ≠ "sampling/createMessage" := by
    rintro rfl
    exact hknown (by decide)
  cases hconnector : if method = "connector/call" then ctx.handleConnectorCall else none with
  | some handle =>
    have hm : method = "connector/call" := by
      by_contra hm
      rw [if_neg hm] at hconnector
      cases hconnector
    rw [if_pos hm] at hconnector
    refine ⟨?_, isReply_rpcAnswer _ _ _, fun text => ?_⟩
    · rintro (h | ⟨hnot, -⟩)
      · exact hno h
      · exact hnot (Or.inr ⟨hm, by rw [hconnector]; rfl⟩)
    · rw [rpcAnswer_eq_rpcError_iff, Fails]
      simp [hm, hconnector]
  | none =>
    have hnot : ¬ ctx.Answers method := by
      rintro (h | ⟨hm, hsome⟩)
      · exact hknown h
      · rw [if_pos hm] at hconnector
        rw [hconnector] at hsome
        cases hsome
    refine .ite (fun hid => ⟨?_, isReply_rpcError _ _ _, fun text => ?_⟩) fun hid => Or.inr ⟨hnot, not_not.mp hid⟩
    · rintro (h | ⟨-, hnull⟩)
      · exact hno h
      · exact hid hnull
    · refine iff_of_false (rpcError_ne (by decide) _ _) ?_
      rintro (⟨h, -⟩ | ⟨h, handle, e, hsome, -⟩)
      · exact hsampling h
      · exact hnot (Or.inr ⟨h, by rw [hsome]; rfl⟩)

end Arms

/-- **What the dispatcher gives**: a reply to the request's id, unless the arm withholds it. -/
theorem dispatch_spec (ctx : Context) (request : Value) :
    Gives ctx ((request.index "method").asStr.getD "") (request.index "id") (request.index "params")
      (dispatch ctx request) := by
  unfold dispatch
  extract_lets method id params srv
  refine .ite (.result (by decide)) fun h₁ => ?_
  refine .ite (.withheld (by decide)) fun h₂ => ?_
  refine .ite (.withheld (by decide)) fun h₃ => ?_
  refine .ite (.withheld (by decide)) fun h₄ => ?_
  refine .ite (.result (by decide)) fun h₅ => ?_
  refine .ite (fun h => ?_) fun h₆ => ?_
  · refine .ite (fun _ => .result (by decide) h) fun _ => ?_
    exact .reply (by decide) (isReply_rpcError _ _ _) (fun _ => rpcError_ne (by decide) _ _) h
  refine .ite (.result (by decide)) fun h₇ => ?_
  refine .ite .call fun h₈ => ?_
  refine .ite (.result (by decide)) fun h₉ => ?_
  refine .ite (.result (by decide)) fun h₁₀ => ?_
  refine .ite (.registry (by decide)) fun h₁₁ => ?_
  refine .ite (.result (by decide)) fun h₁₂ => ?_
  refine .ite (.registry (by decide)) fun h₁₃ => ?_
  refine .ite (.registry (by decide)) fun h₁₄ => ?_
  refine .ite (.result (by decide)) fun h₁₅ => ?_
  refine .ite (.registry (by decide)) fun h₁₆ => ?_
  refine .ite .sampling fun h₁₇ => ?_
  refine .ite (.result (by decide)) fun h₁₈ => ?_
  refine .ite (.result (by decide)) fun h₁₉ => ?_
  have hno : method ∉ notificationMethods := by
    simp [notificationMethods, h₂, h₃, h₄]
  have hknown : method ∉ answeredMethods := by
    simp [answeredMethods, h₁, h₅, h₆, h₇, h₈, h₉, h₁₀, h₁₁, h₁₂, h₁₃, h₁₄, h₁₅, h₁₆, h₁₇, h₁₈, h₁₉]
  exact .last hno hknown

theorem Fails.not_withheld {ctx : Context} {method text : String} {params id : Value}
    (h : Fails ctx method params text) : ¬ Withheld ctx method id := by
  rcases h with ⟨rfl, -⟩ | ⟨rfl, handle, e, hsome, -⟩
  · exact not_withheld_of_mem (by decide)
  · rintro (h | ⟨hnot, -⟩)
    · exact absurd h (by decide)
    · exact hnot (Or.inr ⟨rfl, by rw [hsome]; rfl⟩)

theorem dispatch_eq_rpcError_iff (ctx : Context) (request : Value) (text : String) :
    dispatch ctx request = some (rpcError (request.index "id") (-32603) text) ↔
      Fails ctx ((request.index "method").asStr.getD "") (request.index "params") text := by
  have hspec := dispatch_spec ctx request
  cases hresponse : dispatch ctx request with
  | none =>
    rw [hresponse] at hspec
    exact iff_of_false (by simp) fun h => h.not_withheld hspec
  | some response =>
    rw [hresponse] at hspec
    rw [Option.some_inj]
    exact hspec.failed text

theorem dispatch_congr (ctx : Context) {r r' : Value}
    (h : ∀ name ∈ ["method", "id", "params"], r.index name = r'.index name) : dispatch ctx r = dispatch ctx r' := by
  simp only [dispatch, h "method" (by decide), h "id" (by decide), h "params" (by decide)]

/-! ## Two calls -/

/-- What another call of the same request meets. -/
def Context.walking (ctx : Context) (order : List (String × String) → List (String × String))
    (horder : ∀ l, (order l).Perm l) : Context := { ctx with srv := ctx.srv.walking order horder }

/-- The text of a prompt that is asked for does not depend on the order of its arguments. -/
def Context.TextFixed (ctx : Context) (method : String) (params : Value) : Prop :=
  method = "prompts/get" →
    ctx.srv.PromptFilledAlike ((params.index "name").asStr.getD "") (params.index "arguments")

theorem resultAnswer_walking_iff (srv : Server) {order : List (String × String) → List (String × String)}
    {horder : ∀ l, (order l).Perm l} (id : Value) (name : String) (arguments : Value) :
    resultAnswer (srv.walking order horder) id ((srv.walking order horder).handlePromptsGet name arguments) =
        resultAnswer srv id (srv.handlePromptsGet name arguments) ↔
      (srv.walking order horder).handlePromptsGet name arguments = srv.handlePromptsGet name arguments := by
  have herror : ∀ e, (srv.walking order horder).handlePromptsGet name arguments = .error e ↔
      srv.handlePromptsGet name arguments = .error e := fun e =>
    getPrompt_eq_error_iff ((horder _).trans (srv.order_perm _).symm) srv.prompts name e
  generalize (srv.walking order horder).handlePromptsGet name arguments = answer' at herror ⊢
  cases hanswer : srv.handlePromptsGet name arguments with
  | ok v =>
    rw [hanswer] at herror
    cases answer' with
    | ok v' => rw [resultAnswer, resultAnswer, rpcResult_inj, Except.ok.injEq]
    | error e => exact absurd ((herror e).mp rfl) (by simp)
  | error e =>
    rw [(herror e).mpr hanswer]
    exact iff_of_true rfl rfl

/-- **Two calls are answered alike, in whatever order they walk their maps**, unless the text of a prompt depends on
it. -/
theorem dispatch_walking_iff (ctx : Context) (request : Value) :
    (∀ order horder, dispatch (ctx.walking order horder) request = dispatch ctx request) ↔
      ctx.TextFixed ((request.index "method").asStr.getD "") (request.index "params") := by
  by_cases hmethod : (request.index "method").asStr.getD "" = "prompts/get"
  · have hdispatch : ∀ ctx : Context, dispatch ctx request = some (resultAnswer ctx.srv (request.index "id")
        (ctx.srv.handlePromptsGet (((request.index "params").index "name").asStr.getD "")
          ((request.index "params").index "arguments"))) := by
      simp [dispatch, hmethod]
    simp only [hdispatch, Option.some_inj, Context.TextFixed, hmethod, true_imp_iff,
      ← Server.handlePromptsGet_walking_iff]
    exact forall₂_congr fun order horder => resultAnswer_walking_iff ctx.srv _ _ _
  · refine iff_of_true (fun order horder => ?_) fun h => absurd h hmethod
    unfold dispatch
    simp only [hmethod, if_false]
    rfl

/-- **The contract**: a request is answered as it should be just where its arm does not withhold the response. -/
theorem meetsContract_iff (ctx : Context) {request : Value} {method : String}
    (h : request.get "method" = some (.string method)) :
    MeetsContract ctx request ↔ ∀ id, request.get "id" = some id → ¬ Withheld ctx method id := by
  have hspec := dispatch_spec ctx request
  have hmethod : (request.index "method").asStr.getD "" = method := by
    rw [Value.index, h]
    rfl
  rw [hmethod] at hspec
  unfold MeetsContract handleRequest
  cases hid : request.get "id" with
  | none => simp
  | some id =>
    have hindex : request.index "id" = id := by
      rw [Value.index, hid]
      rfl
    rw [hindex] at hspec
    show (∃ response, dispatch ctx request = some response ∧ IsReply id response) ↔ _
    constructor
    · rintro ⟨response, hresponse, -⟩ id' hid'
      obtain rfl := Option.some.inj hid'
      rw [hresponse] at hspec
      exact hspec.answered
    · intro hanswered
      cases hresponse : dispatch ctx request with
      | some response =>
        rw [hresponse] at hspec
        obtain ⟨-, hreply, -⟩ := hspec
        exact ⟨response, rfl, hreply⟩
      | none =>
        rw [hresponse] at hspec
        exact absurd hspec (hanswered id rfl)

/-! ### Three requests -/

/-- A server with nothing to offer, in a build without `oauth2`, and no cancellations. -/
def bareContext : Context := ⟨NdaNative.bareServer, false, false, none⟩

def requestFor (method : String) (id : Value) : Value :=
  .object [("id", id), ("jsonrpc", .string "2.0"), ("method", .string method)]

/-- An unknown method with the id null gets no error. -/
theorem null_id_unanswered : ¬ ∀ (ctx : Context) (request : Value) (method : String),
    request.get "method" = some (.string method) → MeetsContract ctx request := by
  intro hall
  obtain ⟨response, hresponse, -⟩ := hall bareContext (requestFor "tools/lst" .null) "tools/lst" rfl
  have hnone : handleRequest bareContext (requestFor "tools/lst" .null) = none := rfl
  rw [hnone] at hresponse
  cases hresponse

/-- A ping with the id null. -/
theorem meetsContract_iff_ping : MeetsContract bareContext (requestFor "ping" .null) ↔
    ∀ id, (requestFor "ping" .null).get "id" = some id → ¬ Withheld bareContext "ping" id :=
  meetsContract_iff bareContext rfl

end VelocityMcp.JsonRpc
