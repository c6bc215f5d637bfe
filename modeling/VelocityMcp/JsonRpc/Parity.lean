import VelocityMcp.JsonRpc.Dispatch

/-!
# JsonRpc.Parity — the JSON-RPC dispatcher and the one of shared memory, on the same server

`dispatch_eq_iff`: on which requests the two respond alike.
-/

namespace VelocityMcp.JsonRpc

open Lib

/-! ## Where the two are alike -/

/-- The methods that both dispatchers answer in the same words, whatever the server has. -/
def sharedMethods : List String :=
  ["initialize", "ping", "logging/setLevel", "tools/list", "resources/list", "resources/templates/list",
    "prompts/list", "sampling/createMessage"]

/-- A request for one entry of a registry, or about its subscription, that succeeds; the text of a prompt does not
depend on the order of its arguments. -/
def Found (srv : Server) (method : String) (params : Value) : Prop :=
  let uri := (params.index "uri").asStr.getD ""
  let subscriberId := (params.index "subscriberId").asStr.getD "default"
  (method = "resources/read" ∧ ∃ result, srv.handleResourcesRead uri = .ok result) ∨
  (method = "resources/subscribe" ∧ ∃ result, srv.handleResourcesSubscribe uri subscriberId = .ok result) ∨
  (method = "resources/unsubscribe" ∧
    ∃ result, srv.handleResourcesUnsubscribe uri subscriberId = .ok result) ∨
  (method = "prompts/get" ∧
    (∃ result, srv.handlePromptsGet ((params.index "name").asStr.getD "") (params.index "arguments") = .ok result) ∧
    srv.PromptFilledAlike ((params.index "name").asStr.getD "") (params.index "arguments"))

/-- A tools/call that is neither cancelled nor refused by the rate limiter. -/
def Context.Undisturbed (ctx : Context) : Prop :=
  ctx.cancelledOnArrival = false ∧ ctx.cancelledDuring = false ∧ ctx.srv.checkRateLimit = true

/-- The requests that are answered alike. -/
def Shared (ctx : Context) (method : String) (params : Value) : Prop :=
  method ∈ sharedMethods ∨ (method = "tools/call" ∧ ctx.Undisturbed) ∨ Found ctx.srv method params

/-! ## Responses that differ -/

theorem toolCallResult_inj {s t : String} {b c : Bool} :
    toolCallResult s b = toolCallResult t c ↔ s = t ∧ b = c := by
  simp [toolCallResult]

theorem toolErrorText_eq (srv : Server) (name err : String) :
    ∃ rest, srv.toolErrorText name err = "Error running tool '" ++ rest := by
  unfold Server.toolErrorText
  extract_lets sanitized
  rcases classifyToolError sanitized with ⟨errorType, hint⟩
  exact ⟨name ++ ("': " ++ (sanitized ++ ("\n\nError type: " ++ (errorType ++ ("\nHint: " ++ hint))))), by
    simp only [toString, String.append_assoc]⟩

theorem head_toolErrorText (srv : Server) (name err : String) :
    (srv.toolErrorText name err).toList.head? = some 'E' := by
  obtain ⟨rest, hrest⟩ := toolErrorText_eq srv name err
  rw [hrest, String.toList_append]
  rfl

theorem quoted_ne {before after after' : String} (name : String) (h : after ≠ after') :
    before ++ name ++ after ≠ before ++ name ++ after' := by
  intro heq
  exact h ((String.append_right_inj _).mp heq)

theorem rateLimitedText_ne (name : String) : rateLimitedText name ≠ rateLimitText name :=
  quoted_ne name (by decide)

theorem not_found_ne (id : Value) (method : String) :
    rpcError id (-32601) s!"Method '{method}' not found" ≠
      rpcError id (-32601) s!"Method '{method}' not supported" := by
  intro h
  have htext : s!"Method '{method}' not found" = s!"Method '{method}' not supported" := by
    simpa only [rpcError, Value.object.injEq, List.cons.injEq, Prod.mk.injEq, Value.string.injEq, and_true,
      true_and] using h
  exact quoted_ne method (by decide) htext

/-! ## The arms -/

section ToolsCall

variable {ctx : Context} {srv : Server} (id : Value) (name : String) (arguments : Value)

theorem toolsCall_onArrival (h : ctx.cancelledOnArrival = true) :
    toolsCall ctx id name arguments = rpcResult id (toolCallResult "Request was cancelled" true) := if_pos h

theorem toolsCall_limited (h : ctx.cancelledOnArrival = false) (hrate : ctx.srv.checkRateLimit = false) :
    toolsCall ctx id name arguments = rpcResult id (toolCallResult (rateLimitedText name) true) := by
  simp [toolsCall, h, hrate]

theorem toolsCall_during (h : ctx.cancelledOnArrival = false) (hrate : ctx.srv.checkRateLimit = true)
    (hduring : ctx.cancelledDuring = true) : toolsCall ctx id name arguments =
      rpcResult id (toolCallResult "Request was cancelled during execution" true) := by
  simp [toolsCall, h, hrate, hduring]

theorem jsonToolsCall_limited (hrate : srv.checkRateLimit = false) :
    jsonToolsCall srv id name arguments = rpcResult id (toolCallResult (rateLimitText name) true) := by
  simp [jsonToolsCall, hrate]

theorem jsonToolsCall_called (hrate : srv.checkRateLimit = true) : ∃ text isError,
    jsonToolsCall srv id name arguments = rpcResult id (toolCallResult text isError) ∧
      (isError = true → text.toList.head? = some 'E') := by
  cases hcall : srv.callTool name arguments with
  | ok res => exact ⟨res, false, by simp [jsonToolsCall, hrate, hcall], by simp⟩
  | error e =>
    exact ⟨srv.toolErrorText name e, true, by simp [jsonToolsCall, hrate, hcall], fun _ => head_toolErrorText _ _ _⟩

theorem toolsCall_undisturbed (h : ctx.Undisturbed) :
    toolsCall ctx id name arguments = jsonToolsCall ctx.srv id name arguments := by
  obtain ⟨hbefore, hduring, hrate⟩ := h
  cases hcall : ctx.srv.callTool name arguments <;>
    simp [toolsCall, jsonToolsCall, hbefore, hduring, hrate, hcall]

/-- A cancelled call is answered in words that the other dispatcher does not use. -/
theorem cancelled_ne {text : String} (htext : text.toList.head? = some 'R')
    (hlimit : text ≠ rateLimitText name) :
    rpcResult id (toolCallResult text true) ≠ jsonToolsCall srv id name arguments := by
  intro h
  cases hrate : srv.checkRateLimit with
  | false =>
    rw [jsonToolsCall_limited id name arguments hrate, rpcResult_inj, toolCallResult_inj] at h
    exact hlimit h.1
  | true =>
    obtain ⟨text', isError, hjson, hhead⟩ := jsonToolsCall_called id name arguments hrate
    rw [hjson, rpcResult_inj, toolCallResult_inj] at h
    obtain ⟨rfl, hisError⟩ := h
    rw [hhead hisError.symm] at htext
    exact absurd htext (by decide)

theorem ne_rateLimitText {text : String} (h : ¬ "Rate limit exceeded for tool '".toList <+: text.toList) :
    text ≠ rateLimitText name := by
  intro heq
  have htext : rateLimitText name = "Rate limit exceeded for tool '" ++ (name ++ "'.") := by
    unfold rateLimitText
    simp only [toString, String.append_assoc]
  rw [htext] at heq
  apply h
  rw [heq, String.toList_append]
  exact List.prefix_append _ _

theorem toolsCall_eq_iff :
    toolsCall ctx id name arguments = jsonToolsCall ctx.srv id name arguments ↔ ctx.Undisturbed := by
  refine ⟨fun h => ?_, toolsCall_undisturbed id name arguments⟩
  by_contra hdisturbed
  rcases hbefore : ctx.cancelledOnArrival with _ | _
  · rcases hrate : ctx.srv.checkRateLimit with _ | _
    · rw [toolsCall_limited id name arguments hbefore hrate, jsonToolsCall_limited id name arguments hrate,
        rpcResult_inj, toolCallResult_inj] at h
      exact rateLimitedText_ne name h.1
    · have hduring : ctx.cancelledDuring = true := by
        by_contra hduring
        exact hdisturbed ⟨hbefore, by simpa using hduring, hrate⟩
      rw [toolsCall_during id name arguments hbefore hrate hduring] at h
      exact cancelled_ne id name arguments (by decide) (ne_rateLimitText name (by decide)) h
  · rw [toolsCall_onArrival id name arguments hbefore] at h
    exact cancelled_ne id name arguments (by decide) (ne_rateLimitText name (by decide)) h

end ToolsCall

theorem resultAnswer_eq_iff (srv : Server) (id : Value) (answer : Except String Value) :
    resultAnswer srv id answer = rpcAnswer srv id answer ↔ ∃ result, answer = .ok result := by
  cases answer with
  | ok result => exact ⟨fun _ => ⟨result, rfl⟩, fun _ => rfl⟩
  | error e =>
    refine ⟨fun h => absurd h (rpcResult_ne_rpcError _ _ _ _), ?_⟩
    rintro ⟨result, hresult⟩
    cases hresult

theorem rpcResult_eq_rpcAnswer_iff (srv : Server) (id result : Value) (answer : Except String Value) :
    rpcResult id result = rpcAnswer srv id answer ↔ answer = .ok result := by
  cases answer with
  | ok result' => rw [rpcAnswer, rpcResult_inj, Except.ok.injEq, eq_comm]
  | error e => exact iff_of_false (rpcResult_ne_rpcError _ _ _ _) (by simp)

section Methods

variable {ctx : Context} {request : Value} {method : String}
  {order : List (String × String) → List (String × String)} {horder : ∀ l, (order l).Perm l}

theorem dispatch_shared (hmethod : (request.index "method").asStr.getD "" = method)
    (h : method ∈ sharedMethods) : dispatch ctx request = some (handleJsonRequest ctx.srv request) := by
  simp only [sharedMethods, List.mem_cons, List.not_mem_nil, or_false] at h
  rcases h with rfl | rfl | rfl | rfl | rfl | rfl | rfl | rfl
  · simp [dispatch, handleJsonRequest, hmethod]
  · simp [dispatch, handleJsonRequest, hmethod]
  · simp [dispatch, handleJsonRequest, hmethod, loggingSetLevelResponse, apply_ite some]
  · simp [dispatch, handleJsonRequest, hmethod, toolsListPageResponse]
  · simp [dispatch, handleJsonRequest, hmethod]
  · simp [dispatch, handleJsonRequest, hmethod]
  · simp [dispatch, handleJsonRequest, hmethod]
  · simp [dispatch, handleJsonRequest, hmethod]

theorem dispatch_found_iff (hmethod : (request.index "method").asStr.getD "" = method)
    (h : method ∈ ["resources/read", "resources/subscribe", "resources/unsubscribe"]) :
    dispatch ctx request = some (handleJsonRequest ctx.srv request) ↔
      Found ctx.srv method (request.index "params") := by
  simp only [List.mem_cons, List.not_mem_nil, or_false] at h
  rcases h with rfl | rfl | rfl
  · simp [dispatch, handleJsonRequest, hmethod, Found, resultAnswer_eq_iff]
  · simp [dispatch, handleJsonRequest, hmethod, Found, resultAnswer_eq_iff]
  · simp [dispatch, handleJsonRequest, hmethod, Found, resultAnswer_eq_iff]

/-- Nothing but a prompt shows the order in which a map is walked. -/
theorem handleJsonRequest_walking (srv : Server) (hmethod : (request.index "method").asStr.getD "" ≠ "prompts/get") :
    handleJsonRequest (srv.walking order horder) request = handleJsonRequest srv request := by
  unfold handleJsonRequest
  simp only [hmethod, if_false]
  rfl

theorem dispatch_promptsGet_iff (hmethod : (request.index "method").asStr.getD "" = "prompts/get") :
    (∀ order horder, dispatch ctx request = some (handleJsonRequest (ctx.srv.walking order horder) request)) ↔
      Found ctx.srv "prompts/get" (request.index "params") := by
  have hdispatch : dispatch ctx request = some (resultAnswer ctx.srv (request.index "id") (ctx.srv.handlePromptsGet
      (((request.index "params").index "name").asStr.getD "") ((request.index "params").index "arguments"))) := by
    simp [dispatch, hmethod]
  have hjson : ∀ srv : Server, handleJsonRequest srv request = rpcAnswer srv (request.index "id")
      (srv.handlePromptsGet (((request.index "params").index "name").asStr.getD "")
        ((request.index "params").index "arguments")) := by
    simp [handleJsonRequest, hmethod]
  simp only [hdispatch, hjson, Option.some_inj]
  constructor
  · intro h
    -- the other call may have the same order
    obtain ⟨result, hresult⟩ := (resultAnswer_eq_iff _ _ _).mp (h ctx.srv.order ctx.srv.order_perm)
    refine .inr (.inr (.inr ⟨rfl, ⟨result, hresult⟩, ?_⟩))
    refine (Server.handlePromptsGet_walking_iff _ _ _).mp fun order horder => ?_
    have hsame := h order horder
    rw [hresult] at hsame ⊢
    exact (rpcResult_eq_rpcAnswer_iff _ _ _ _).mp hsame
  · rintro (⟨h, -⟩ | ⟨h, -⟩ | ⟨h, -⟩ | ⟨-, ⟨result, hresult⟩, hsame⟩) order horder
    · exact absurd h (by decide)
    · exact absurd h (by decide)
    · exact absurd h (by decide)
    · rw [(Server.handlePromptsGet_walking_iff _ _ _).mpr hsame order horder, hresult]
      rfl

theorem dispatch_unsupported_ne (hmethod : (request.index "method").asStr.getD "" = method)
    (h : method ∈ ["elicitation/create", "roots/list"]) :
    dispatch ctx request ≠ some (handleJsonRequest ctx.srv request) := by
  simp only [List.mem_cons, List.not_mem_nil, or_false] at h
  rcases h with rfl | rfl
  · simp [dispatch, handleJsonRequest, hmethod, rpcResult_ne_rpcError]
  · simp [dispatch, handleJsonRequest, hmethod, rpcResult_ne_rpcError]

theorem dispatch_unknown_ne (hmethod : (request.index "method").asStr.getD "" = method)
    (hno : method ∉ notificationMethods) (hknown : method ∉ answeredMethods) :
    dispatch ctx request ≠ some (handleJsonRequest ctx.srv request) := by
  simp only [notificationMethods, answeredMethods, List.mem_cons, List.not_mem_nil, or_false, not_or] at hno hknown
  have hjson : handleJsonRequest ctx.srv request =
      rpcError (request.index "id") (-32601) s!"Method '{method}' not supported" := by
    simp [handleJsonRequest, hmethod, hno, hknown]
  rw [hjson]
  simp only [dispatch, hmethod, hno, hknown, if_false]
  cases hconnector : if method = "connector/call" then ctx.handleConnectorCall else none with
  | some handle =>
    show some (rpcAnswer _ _ (handle _)) ≠ _
    intro h
    cases hanswer : handle (request.index "params") with
    | ok result =>
      rw [hanswer] at h
      exact rpcResult_ne_rpcError _ _ _ _ (Option.some.inj h)
    | error e =>
      rw [hanswer] at h
      have hcode : Value.number (.ofI64 (-32603)) = .number (.ofI64 (-32601)) :=
        congrArg (fun v : Value => (v.index "error").index "code") (Option.some.inj h)
      exact absurd hcode (by decide)
  | none =>
    show (if _ then some _ else none) ≠ _
    split_ifs
    · intro h
      exact not_found_ne _ _ (Option.some.inj h)
    · intro h
      cases h

end Methods

theorem mem_of_found {srv : Server} {method : String} {params : Value} (h : Found srv method params) :
    method ∈ ["resources/read", "resources/subscribe", "resources/unsubscribe", "prompts/get"] := by
  rcases h with ⟨rfl, -⟩ | ⟨rfl, -⟩ | ⟨rfl, -⟩ | ⟨rfl, -⟩ <;> simp

theorem not_shared {ctx : Context} {method : String} {params : Value} (hshared : method ∉ sharedMethods)
    (hcall : method ≠ "tools/call")
    (hfound : method ∉ ["resources/read", "resources/subscribe", "resources/unsubscribe", "prompts/get"]) :
    ¬ Shared ctx method params := by
  rintro (h | ⟨h, -⟩ | h)
  · exact hshared h
  · exact hcall h
  · exact hfound (mem_of_found h)

theorem dispatch_eq_iff_of_ne (ctx : Context) (request : Value)
    (hno : (request.index "method").asStr.getD "" ∉ notificationMethods)
    (hhealth : (request.index "method").asStr.getD "" ≠ "health/check")
    (hprompt : (request.index "method").asStr.getD "" ≠ "prompts/get") :
    dispatch ctx request = some (handleJsonRequest ctx.srv request) ↔
      Shared ctx ((request.index "method").asStr.getD "") (request.index "params") := by
  generalize hmethod : (request.index "method").asStr.getD "" = method at hno hhealth hprompt ⊢
  by_cases hshared : method ∈ sharedMethods
  · exact iff_of_true (dispatch_shared hmethod hshared) (Or.inl hshared)
  by_cases hcall : method = "tools/call"
  · subst hcall
    have hiff : Shared ctx "tools/call" (request.index "params") ↔ ctx.Undisturbed := by
      simp [Shared, sharedMethods, Found]
    rw [hiff, ← toolsCall_eq_iff (request.index "id") (((request.index "params").index "name").asStr.getD "")
      ((request.index "params").index "arguments")]
    simp [dispatch, handleJsonRequest, hmethod]
  by_cases hfound : method ∈ ["resources/read", "resources/subscribe", "resources/unsubscribe"]
  · rw [dispatch_found_iff hmethod hfound]
    simp only [Shared, hshared, hcall, false_and, false_or]
  refine iff_of_false ?_ (not_shared hshared hcall ?_)
  swap
  · simp only [List.mem_cons, List.not_mem_nil, or_false] at hfound ⊢
    tauto
  by_cases hunsupported : method ∈ ["elicitation/create", "roots/list"]
  · exact dispatch_unsupported_ne hmethod hunsupported
  apply dispatch_unknown_ne hmethod hno
  intro hknown
  have hcover : ∀ m ∈ answeredMethods, m ∈ sharedMethods ∨ m = "tools/call" ∨ m = "health/check" ∨
      m ∈ ["resources/read", "resources/subscribe", "resources/unsubscribe"] ∨ m = "prompts/get" ∨
      m ∈ ["elicitation/create", "roots/list"] := by decide
  rcases hcover method hknown with h | h | h | h | h | h
  · exact hshared h
  · exact hcall h
  · exact hhealth h
  · exact hfound h
  · exact hprompt h
  · exact hunsupported h

/-- **Parity**: the two dispatchers respond alike, each with an order of its own for its hash map, just to these
requests. -/
theorem dispatch_eq_iff (ctx : Context) (request : Value)
    (hno : (request.index "method").asStr.getD "" ∉ notificationMethods)
    (hhealth : (request.index "method").asStr.getD "" ≠ "health/check") :
    (∀ order horder, dispatch ctx request = some (handleJsonRequest (ctx.srv.walking order horder) request)) ↔
      Shared ctx ((request.index "method").asStr.getD "") (request.index "params") := by
  by_cases hprompt : (request.index "method").asStr.getD "" = "prompts/get"
  · rw [dispatch_promptsGet_iff hprompt, hprompt]
    simp [Shared, sharedMethods]
  · rw [← dispatch_eq_iff_of_ne ctx request hno hhealth hprompt]
    simp only [handleJsonRequest_walking ctx.srv hprompt]
    exact ⟨fun h => h ctx.srv.order ctx.srv.order_perm, fun h _ _ => h⟩

/-! ### A resource that is not there, and a ping -/

/-- One dispatcher puts the error in a result, the other in an error. -/
theorem missing_resource_disagree : ¬ ∀ (ctx : Context) (request : Value), (request.get "id").isSome →
    (request.index "method").asStr.getD "" ∉ notificationMethods →
    (request.index "method").asStr.getD "" ≠ "health/check" →
    dispatch ctx request = some (handleJsonRequest ctx.srv request) := by
  intro hall
  have heq := hall bareContext (requestFor "resources/read" (.number (.posInt 1))) rfl (by decide) (by decide)
  have hresult : (dispatch bareContext (requestFor "resources/read" (.number (.posInt 1)))).map
      (fun response => (response.get "error").isSome) = some false := by decide +kernel
  have herror : (some (handleJsonRequest bareContext.srv (requestFor "resources/read" (.number (.posInt 1))))).map
      (fun response => (response.get "error").isSome) = some true := by decide +kernel
  rw [heq, herror] at hresult
  cases hresult

/-- A ping on a server without tools. -/
theorem dispatch_eq_iff_ping :
    (∀ order horder, dispatch bareContext (requestFor "ping" .null) =
        some (handleJsonRequest (bareContext.srv.walking order horder) (requestFor "ping" .null))) ↔
      Shared bareContext (((requestFor "ping" .null).index "method").asStr.getD "")
        ((requestFor "ping" .null).index "params") :=
  dispatch_eq_iff bareContext (requestFor "ping" .null) (by decide) (by decide)

end VelocityMcp.JsonRpc
