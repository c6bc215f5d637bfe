import VelocityMcp.JsonRpc.Cancellation

/-!
# Http.Audit — the session and transport that requests are handled under (`http.rs`, `audit.rs`)

`attributed_right_iff`: which audit entries and cancellation keys are those of the request that is handled.
-/

namespace VelocityMcp.Http.Audit

open Lib JsonRpc

/-! ## The context of a thread -/

/-- `CURRENT_SESSION_ID` and `CURRENT_TRANSPORT` of a thread. -/
@[ext] structure Context where
  session : Option SessionId
  transport : Option String

namespace Context

/-- `set_session_context`. -/
def setSession (c : Context) (sid : SessionId) : Context := { c with session := some sid }

/-- `set_transport_context`. -/
def setTransport (c : Context) (transport : String) : Context := { c with transport := some transport }

/-- `clear_session_context`. -/
def clearSession (c : Context) : Context := { c with session := none }

def sessionName (c : Context) : String := (c.session.map SessionId.text).getD "default"

end Context

inductive AuditOutcome where
  | success
  | error (message : String)
  | timeout
  | rejected (reason : String)

structure ToolCall where
  toolName : String
  outcome : AuditOutcome
  payloadSize : Option UInt64
  responseSize : Option UInt64
  merkleRoot : Option String

/-- An entry, without its number and its times, which a counter and the clocks give. -/
structure AuditEntry where
  call : ToolCall
  transport : Option String
  sessionId : Option String

/-- `record_tool_call` and its variants: the session whose log is used, and the entry. -/
def recordToolCall (c : Context) (call : ToolCall) : String × AuditEntry :=
  (c.sessionName, ⟨call, c.transport, some c.sessionName⟩)

/-- What the handling of a request takes from the context: an audit entry, or the key of an id. -/
inductive Use where
  | audit (call : ToolCall)
  | key (id : Value)

/-- An entry in a log, or a key. -/
inductive Result where
  | entry (log : String) (entry : AuditEntry)
  | key (key : String)

/-- What comes of a use under a context. -/
def Use.result (d : Display) (c : Context) : Use → Result
  | .audit call => .entry (recordToolCall c call).1 (recordToolCall c call).2
  | .key id => .key (cancellationKey d c.session id)

/-! ## Tasks -/

/-- Where requests come in. -/
inductive Endpoint where
  | mcp
  | nda
  | batch
  | stream
  | websocket
deriving DecidableEq

/-- The transport of an endpoint; the batch endpoint is plain HTTP, like `/mcp`. -/
def Endpoint.transport : Endpoint → String
  | .mcp => "http"
  | .nda => "nda_http"
  | .batch => "http"
  | .stream => "sse"
  | .websocket => "websocket"

/-- The session and the endpoint of a request. -/
structure Origin where
  session : SessionId
  endpoint : Endpoint

/-- The context that a request is to be handled under. -/
def Origin.context (o : Origin) : Context := ⟨some o.session, some o.endpoint.transport⟩

/-- What a handler sets as it begins: the session and, but for `handle_batch_request`, the transport. -/
def Origin.enter (o : Origin) (c : Context) : Context :=
  if o.endpoint = .batch then c.setSession o.session else (c.setSession o.session).setTransport o.endpoint.transport

/-- How far a task is that awaits: its request or its next message is still to come, it only has to send, or its guard
has been dropped. -/
inductive Phase where
  | waiting
  | sending
  | left

structure Task where
  origin : Origin
  phase : Phase

/-- What was done to the context of a thread: a handler began, or a guard was dropped. -/
inductive Touch where
  | entered (o : Origin)
  | left

/-- A use while a request was handled, what came of it, and what had been done to the context of the thread (the last
first). -/
structure Attribution where
  origin : Origin
  use : Use
  result : Result
  touches : List Touch

/-- The contexts of the threads and the tasks; and what has happened. -/
structure State where
  contexts : ℕ → Context
  tasks : ℕ → Option Task
  touches : ℕ → List Touch
  attributed : List Attribution

/-- What may happen next. -/
inductive Action where
  | post (t : ℕ) (o : Origin) (uses : List Use)
  | refuse (t : ℕ)
  | enter (n t : ℕ) (o : Origin)
  | handle (n t : ℕ) (uses : List Use)
  | leave (n t : ℕ)

namespace State

/-- A handler begins on the thread `t`. -/
def enter (s : State) (t : ℕ) (o : Origin) : State :=
  { s with
    contexts := Function.update s.contexts t (o.enter (s.contexts t))
    touches := Function.update s.touches t (.entered o :: s.touches t) }

/-- A `SessionGuard` is dropped on the thread `t`. -/
def leave (s : State) (t : ℕ) : State :=
  { s with
    contexts := Function.update s.contexts t (s.contexts t).clearSession
    touches := Function.update s.touches t (.left :: s.touches t) }

/-- A request is handled on the thread `t`. -/
def handle (d : Display) (s : State) (t : ℕ) (o : Origin) (uses : List Use) : State :=
  { s with
    attributed := uses.map (fun use => ⟨o, use, use.result d (s.contexts t), s.touches t⟩) ++ s.attributed }

def goOn (s : State) (n : ℕ) (task : Task) : State := { s with tasks := Function.update s.tasks n (some task) }

end State

/-- One step: a post to `/mcp`, `/mcp/nda` or the batch endpoint is handled without an await, or is a batch that is
refused while the server shuts down; a streaming or WebSocket task sets its context and awaits, handles a request on the
thread it is resumed on, or ends there. -/
def step (d : Display) (s : State) : Action → Option State
  | .post t o uses =>
    match o.endpoint with
    | .stream | .websocket => none
    | _ => some (((s.enter t o).handle d t o uses).leave t)
  | .refuse t => some (s.leave t)
  | .enter n t o =>
    match o.endpoint, s.tasks n with
    | .stream, none | .websocket, none => some ((s.enter t o).goOn n ⟨o, .waiting⟩)
    | _, _ => none
  | .handle n t uses =>
    match s.tasks n with
    | some ⟨o, .waiting⟩ =>
      some ((s.handle d t o uses).goOn n ⟨o, if o.endpoint = .stream then .sending else .waiting⟩)
    | _ => none
  | .leave n t =>
    match s.tasks n with
    | some ⟨o, .waiting⟩ | some ⟨o, .sending⟩ => some ((s.leave t).goOn n ⟨o, .left⟩)
    | _ => none

/-- A server starts. -/
def Initial (s : State) : Prop := s = ⟨fun _ => ⟨none, none⟩, fun _ => none, fun _ => [], []⟩

/-- What came of the use is what comes of it under the context of the request. -/
def Attribution.Right (d : Display) (a : Attribution) : Prop := a.result = a.use.result d a.origin.context

/-- The session that was set last, unless a guard has been dropped since. -/
def lastSession : List Touch → Option SessionId
  | .entered o :: _ => some o.session
  | _ => none

def lastTransport : List Touch → Option String
  | [] => none
  | .entered o :: touches => if o.endpoint = .batch then lastTransport touches else some o.endpoint.transport
  | .left :: touches => lastTransport touches

/-- The last that was done to the thread's context was that a handler for the session of the request began (for an entry
it may also be that a guard was dropped, if the session is called "default"), and, for an entry, the last handler to set a
transport set the one of the request. -/
def Attribution.Orderly (a : Attribution) : Prop :=
  match a.use with
  | .audit _ =>
    (lastSession a.touches = some a.origin.session ∨
      (lastSession a.touches = none ∧ a.origin.session.text = "default")) ∧
    lastTransport a.touches = some a.origin.endpoint.transport
  | .key _ => lastSession a.touches = some a.origin.session

/-! ## Uses under a context -/

section Uses

variable {d : Display} {c : Context} {o : Origin} {call : ToolCall} {id : Value}

theorem sessionName_eq_iff : c.sessionName = o.session.text ↔
    c.session = some o.session ∨ (c.session = none ∧ o.session.text = "default") := by
  rw [Context.sessionName]
  cases hsession : c.session with
  | none =>
    show "default" = o.session.text ↔ _
    simp [eq_comm]
  | some sid =>
    show sid.text = o.session.text ↔ _
    simp [SessionId.ext_iff]

theorem result_audit_eq_iff : (Use.audit call).result d c = (Use.audit call).result d o.context ↔
    c.sessionName = o.session.text ∧ c.transport = some o.endpoint.transport := by
  have hname : o.context.sessionName = o.session.text := rfl
  rw [Use.result, Use.result, recordToolCall, recordToolCall, hname]
  constructor
  · intro h
    injection h with hlog hentry
    injection hentry with _ htransport _
    exact ⟨hlog, htransport⟩
  · rintro ⟨hlog, htransport⟩
    rw [hlog, htransport]
    rfl

theorem key_ne_in_session (sid : SessionId) : idToKey d id ≠ sid.text ++ ":" ++ idToKey d id := by
  intro h
  have hlen := congrArg (fun t => t.toList.length) h
  simp only [String.toList_append, List.length_append] at hlen
  have hcolon : (":" : String).toList.length = 1 := rfl
  omega

theorem result_key_eq_iff : (Use.key id).result d c = (Use.key id).result d o.context ↔ c.session = some o.session := by
  constructor
  · intro h
    injection h with hkey
    rcases cancellationKey_eq_iff.mp hkey with ⟨hsession, -⟩ | hclash
    · exact hsession
    · cases hsession : c.session with
      | none =>
        rw [hsession] at hclash
        exact absurd (spellsBoth_iff.mp hclash) (key_ne_in_session o.session)
      | some sid =>
        rw [hsession] at hclash
        exact congrArg some hclash.1
  · intro h
    rw [Use.result, Use.result, h]
    rfl

end Uses

/-! ## Runs -/

section Runs

variable {d : Display} {s s' : State} {t n : ℕ} {o : Origin} {uses : List Use}

def contextOf (touches : List Touch) : Context := ⟨lastSession touches, lastTransport touches⟩

theorem enter_contextOf (o : Origin) (touches : List Touch) :
    o.enter (contextOf touches) = contextOf (.entered o :: touches) := by
  by_cases hbatch : o.endpoint = .batch
  · rw [Origin.enter, if_pos hbatch]
    ext1
    · rfl
    · show lastTransport touches = lastTransport (.entered o :: touches)
      rw [lastTransport, if_pos hbatch]
  · rw [Origin.enter, if_neg hbatch]
    ext1
    · rfl
    · show some o.endpoint.transport = lastTransport (.entered o :: touches)
      rw [lastTransport, if_neg hbatch]

/-- **An attribution is right exactly if it is orderly**, where it was made under the context that the touches leave. -/
theorem right_iff_orderly {a : Attribution} (h : a.result = a.use.result d (contextOf a.touches)) :
    a.Right d ↔ a.Orderly := by
  rw [Attribution.Right, Attribution.Orderly, h]
  cases a.use with
  | audit call =>
    rw [result_audit_eq_iff, sessionName_eq_iff]
    rfl
  | key id => exact result_key_eq_iff

/-- The contexts are what the touches leave; the tasks are streaming and WebSocket ones; and what was attributed came
of the touches, which for `/mcp` and `/mcp/nda` end with the handler's own. -/
structure Inv (d : Display) (s : State) : Prop where
  contexts : ∀ t, s.contexts t = contextOf (s.touches t)
  tasks : ∀ n task, s.tasks n = some task → task.origin.endpoint = .stream ∨ task.origin.endpoint = .websocket
  results : ∀ a ∈ s.attributed, a.result = a.use.result d (contextOf a.touches)
  posted : ∀ a ∈ s.attributed, a.origin.endpoint = .mcp ∨ a.origin.endpoint = .nda →
    ∃ touches, a.touches = .entered a.origin :: touches

theorem Inv.touch (h : Inv d s) {c : Context} {touch : Touch} (hc : c = contextOf (touch :: s.touches t)) :
    Inv d { s with
      contexts := Function.update s.contexts t c
      touches := Function.update s.touches t (touch :: s.touches t) } := by
  refine ⟨?_, h.tasks, h.results, h.posted⟩
  intro t'
  show Function.update s.contexts t c t' = contextOf (Function.update s.touches t (touch :: s.touches t) t')
  by_cases ht : t' = t
  · rw [ht, Function.update_self, Function.update_self, hc]
  · rw [Function.update_of_ne ht, Function.update_of_ne ht]
    exact h.contexts t'

theorem Inv.enter (h : Inv d s) (t : ℕ) (o : Origin) : Inv d (s.enter t o) := by
  apply h.touch
  rw [h.contexts t, enter_contextOf]

theorem Inv.leave (h : Inv d s) (t : ℕ) : Inv d (s.leave t) := by
  apply h.touch
  rw [h.contexts t]
  rfl

theorem Inv.handle (h : Inv d s) (uses : List Use)
    (hposted : o.endpoint = .mcp ∨ o.endpoint = .nda → ∃ touches, s.touches t = .entered o :: touches) :
    Inv d (s.handle d t o uses) := by
  refine ⟨h.contexts, h.tasks, ?_, ?_⟩
  · intro a ha
    rcases List.mem_append.mp ha with ha | ha
    · obtain ⟨use, -, rfl⟩ := List.mem_map.mp ha
      show use.result d (s.contexts t) = use.result d (contextOf (s.touches t))
      rw [h.contexts t]
    · exact h.results a ha
  · intro a ha
    rcases List.mem_append.mp ha with ha | ha
    · obtain ⟨use, -, rfl⟩ := List.mem_map.mp ha
      exact hposted
    · exact h.posted a ha

theorem Inv.goOn (h : Inv d s) {task : Task}
    (htask : task.origin.endpoint = .stream ∨ task.origin.endpoint = .websocket) : Inv d (s.goOn n task) := by
  refine ⟨h.contexts, ?_, h.results, h.posted⟩
  intro m task' hm
  rcases update_some_cases hm with ⟨-, rfl⟩ | ⟨-, hold⟩
  · exact htask
  · exact h.tasks m task' hold

theorem Inv.post (h : Inv d s) (t : ℕ) (o : Origin) (uses : List Use) :
    Inv d (((s.enter t o).handle d t o uses).leave t) := by
  apply Inv.leave
  apply (h.enter t o).handle
  intro _
  exact ⟨s.touches t, Function.update_self _ _ _⟩

theorem inv_step {a : Action} (h : Inv d s) (hstep : step d s a = some s') : Inv d s' := by
  cases a with
  | post t o uses =>
    rw [step] at hstep
    split at hstep
    · cases hstep
    · cases hstep
    · cases hstep
      exact h.post t o uses
  | refuse t =>
    cases hstep
    exact h.leave t
  | enter n t o =>
    rw [step] at hstep
    split at hstep
    · next hstream _ =>
      cases hstep
      exact (h.enter t o).goOn (Or.inl hstream)
    · next hsocket _ =>
      cases hstep
      exact (h.enter t o).goOn (Or.inr hsocket)
    · cases hstep
  | handle n t uses =>
    rw [step] at hstep
    split at hstep
    · next o htask =>
      cases hstep
      have hendpoint : o.endpoint = .stream ∨ o.endpoint = .websocket := h.tasks n _ htask
      refine (h.handle uses ?_).goOn hendpoint
      intro hpost
      exfalso
      rcases hendpoint with hstream | hsocket
      · rw [hstream] at hpost
        revert hpost
        decide
      · rw [hsocket] at hpost
        revert hpost
        decide
    · cases hstep
  | leave n t =>
    rw [step] at hstep
    split at hstep
    · next o htask =>
      cases hstep
      have hendpoint := h.tasks n _ htask
      exact (h.leave t).goOn hendpoint
    · next o htask =>
      cases hstep
      have hendpoint := h.tasks n _ htask
      exact (h.leave t).goOn hendpoint
    · cases hstep

theorem inv_of_reachable (h : ReachableWhen Initial (step d) (fun _ _ => True) s) : Inv d s := by
  refine h.invariant ?_ (fun s a s' hinv _ hstep => inv_step hinv hstep)
  rintro s rfl
  refine ⟨fun t => rfl, ?_, ?_, ?_⟩
  · intro n task hn
    cases hn
  · intro a ha
    cases ha
  · intro a ha
    cases ha

/-- **What a post records is right**, for its own session and transport.  Its step sets the context, handles the request
and drops the guard, since the handlers of `/mcp` and `/mcp/nda` do not await in between and the thread polls nothing
else: what has to be kept is that no step of another task comes between. -/
theorem post_right_of_reachable (h : ReachableWhen Initial (step d) (fun _ _ => True) s) {a : Attribution}
    (ha : a ∈ s.attributed) (hendpoint : a.origin.endpoint = .mcp ∨ a.origin.endpoint = .nda) : a.Right d := by
  have hinv := inv_of_reachable h
  obtain ⟨touches, htouches⟩ := hinv.posted a ha hendpoint
  have hcontext : contextOf a.touches = a.origin.context := by
    have hbatch : ¬ a.origin.endpoint = .batch := by
      intro hbatch
      rcases hendpoint with hmcp | hnda
      · cases hmcp.symm.trans hbatch
      · cases hnda.symm.trans hbatch
    rw [htouches, ← enter_contextOf, Origin.enter, if_neg hbatch]
    rfl
  rw [Attribution.Right, hinv.results a ha, hcontext]

/-- **Everything recorded is right exactly if it is orderly**, in every run. -/
theorem attributed_right_iff (h : ReachableWhen Initial (step d) (fun _ _ => True) s) :
    (∀ a ∈ s.attributed, a.Right d) ↔ ∀ a ∈ s.attributed, a.Orderly := by
  refine forall₂_congr ?_
  intro a ha
  exact right_iff_orderly ((inv_of_reachable h).results a ha)

end Runs

def streamA : Origin := ⟨sessionA, .stream⟩

def postB : Origin := ⟨⟨"session-B", rfl⟩, .mcp⟩

def echoCall : Use := .audit ⟨"echo", .success, none, none, none⟩

def start : State := ⟨fun _ => ⟨none, none⟩, fun _ => none, fun _ => [], []⟩

/-- A streaming task that awaits on its thread. -/
def streaming : State := (start.enter 0 streamA).goOn 0 ⟨streamA, .waiting⟩

def resumed : State := (streaming.handle plainDisplay 0 streamA [echoCall]).goOn 0 ⟨streamA, .sending⟩

/-- A streaming task that is resumed on the thread it began on. -/
theorem attributed_right_iff_resumed :
    resumed.attributed.length = 1 ∧ ∀ a ∈ resumed.attributed, a.Right plainDisplay := by
  have hstart : ReachableWhen Initial (step plainDisplay) (fun _ _ => True) start := .init rfl
  have hstreaming := hstart.step (a := Action.enter 0 0 streamA) trivial rfl
  have hresumed : ReachableWhen Initial (step plainDisplay) (fun _ _ => True) resumed :=
    hstreaming.step (a := Action.handle 0 0 [echoCall]) trivial rfl
  refine ⟨rfl, (attributed_right_iff hresumed).mpr ?_⟩
  intro a ha
  obtain rfl := List.mem_singleton.mp ha
  exact ⟨Or.inl rfl, rfl⟩

/-- A post comes in while a streaming task of another session waits on its thread. -/
theorem post_right_of_reachable_beside : ∃ s, ReachableWhen Initial (step plainDisplay) (fun _ _ => True) s ∧
    s.attributed.length = 1 ∧ ∀ a ∈ s.attributed, a.Right plainDisplay := by
  have hstart : ReachableWhen Initial (step plainDisplay) (fun _ _ => True) start := .init rfl
  have hstreaming := hstart.step (a := Action.enter 0 0 streamA) trivial rfl
  have hposted := hstreaming.step (a := Action.post 0 postB [echoCall]) trivial rfl
  refine ⟨_, hposted, rfl, fun a ha => post_right_of_reachable hposted ha ?_⟩
  obtain rfl := List.mem_singleton.mp ha
  exact .inl rfl

/-- A post in another session comes first on the thread that the streaming task is resumed on. -/
theorem stream_recorded_as_default :
    ¬ ∀ s, ReachableWhen Initial (step plainDisplay) (fun _ _ => True) s → ∀ a ∈ s.attributed, a.Right plainDisplay := by
  intro h
  have hstart : ReachableWhen Initial (step plainDisplay) (fun _ _ => True) start := .init rfl
  have hstreaming := hstart.step (a := Action.enter 0 0 streamA) trivial rfl
  have hposted := hstreaming.step (a := Action.post 0 postB []) trivial rfl
  have hhandled := hposted.step (a := Action.handle 0 0 [echoCall]) trivial rfl
  have hright := h _ hhandled _ List.mem_cons_self
  obtain ⟨hsession, -⟩ := result_audit_eq_iff.mp hright
  have hname : (⟨none, some "http"⟩ : Context).sessionName = "default" := rfl
  exact absurd (hname.symm.trans hsession) (by decide)

end VelocityMcp.Http.Audit
