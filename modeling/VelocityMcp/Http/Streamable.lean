import VelocityMcp.Client.Types
import VelocityMcp.JsonRpc.Dispatch

/-!
# Http.Streamable — the two endpoints for JSON-RPC objects (`transport/http.rs`)

A client that goes away, the metrics and what other clients are told take nothing from the answer and are
left out.  Both requests come with the same session, so what `is_cancelled` says is the same.
-/

namespace VelocityMcp.Http

open Lib Client JsonRpc

/-! ## The endpoints -/

/-- What a POST comes back with: a JSON-RPC response, the text of a body that is rejected, or neither. -/
inductive Answer where
  | response (v : Value)
  | rejected
  | nothing
deriving DecidableEq

/-- The members of a posted object, in the order in which they are written. -/
abbrev Members := List (String × Value)

/-- The object that `serde_json` makes of them. -/
def Members.toValue (members : Members) : Value := .object (insertAll [] members)

def invalidRequestMessage : Value → String
  | .array _ => "Invalid Request: batch requests must be posted to /v1/mcp/batch"
  | _ => "Invalid Request: expected a JSON-RPC 2.0 request object"

/-- `/mcp`, which hands the posted object to the dispatcher. -/
def handleJsonRpc (shutdown : Bool) (ctx : Context) (request : Value) : Answer :=
  if shutdown then .response (rpcError (request.index "id") (-32603) "Server shutting down")
  else match handleRequest ctx request with
    | some res => .response res
    | none =>
      if isRequestShaped request then .nothing
      else .response (rpcError .null (-32600) (invalidRequestMessage request))

structure StreamableRequest where
  jsonrpc : String
  method : String
  params : Option Value
  id : Option Value
  metadata : Option Value

/-- The derived `Deserialize`, on an object. -/
def StreamableRequest.fromMembers (members : Members) : Option StreamableRequest := do
  let [jsonrpc, method, params, id, metadata] ←
    structSlots [["jsonrpc"], ["method"], ["params"], ["id"], ["_meta"]] (.object members) | none
  some ⟨← jsonrpc.required Value.asStr, ← method.required Value.asStr, ← params.optional some,
    ← id.optional some, ← metadata.optional some⟩

/-- The `json!` of `handle_streamable`: what was not there is null. -/
def StreamableRequest.toValue (r : StreamableRequest) : Value :=
  .object [("_meta", r.metadata.getD .null), ("id", r.id.getD .null), ("jsonrpc", .string r.jsonrpc),
    ("method", .string r.method), ("params", r.params.getD .null)]

inductive SseEvent where
  | session (id : String)
  | response (v : Value)
  | notification
  | complete

/-- `handle_streamable`; nothing if the body is rejected. -/
def handleStreamable (ctx : Context) (sessionId : String) (members : Members) : Option (List SseEvent) :=
  (StreamableRequest.fromMembers members).map fun request =>
    [.session sessionId] ++ (match handleRequest ctx request.toValue with
      | some res => [.response res]
      | none => [.notification]) ++ [.complete]

/-- What the events of a stream come to: the response among them, if there is one. -/
def streamAnswer : Option (List SseEvent) → Answer
  | none => .rejected
  | some events => match events.findSome? fun | .response v => some v | _ => none with
    | some v => .response v
    | none => .nothing

/-! ## Reading a `StreamableRequest` -/

section Reading

variable {members : Members}

/-- How often a name is written. -/
def Members.count (members : Members) (name : String) : ℕ := (members.filter fun e => e.1 = name).length

/-- The object can be read: no field is written twice, and the version and the method are strings. -/
structure Members.Readable (members : Members) : Prop where
  once : ∀ name ∈ ["jsonrpc", "method", "params", "id", "_meta"], members.count name ≤ 1
  jsonrpc : ((members.toValue.get "jsonrpc").bind Value.asStr).isSome
  method : ((members.toValue.get "method").bind Value.asStr).isSome

theorem get_toValue (members : Members) (name : String) :
    members.toValue.get name = (members.filter fun e => e.1 = name).getLast?.map Prod.snd := by
  show getKey name (insertAll [] members) = _
  rw [getKey_insertAll, getKey_nil, Option.or_none]

/-- The slot of a field, by the value that is read under its name. -/
def slotFor : Option Value → Client.Slot
  | some v => .given v
  | none => .noKey

def slotOf (members : Members) (name : String) : Option Client.Slot :=
  if members.count name ≤ 1 then some (slotFor (members.toValue.get name)) else none

theorem required_slotFor (v : Option Value) : (slotFor v).required Value.asStr = v.bind Value.asStr := by
  cases v <;> rfl

theorem optional_slotFor (v : Option Value) :
    ∃ w, (slotFor v).optional some = some w ∧ w.getD .null = v.getD .null := by
  rcases v with _ | v
  · exact ⟨none, rfl, rfl⟩
  · cases v with
    | null => exact ⟨none, rfl, rfl⟩
    | _ => exact ⟨some _, rfl, rfl⟩

theorem structSlots_object (names : List String) :
    structSlots (names.map fun name => [name]) (.object members) = names.mapM (slotOf members) := by
  rw [structSlots, List.mapM_map]
  congr 1
  funext name
  have hfilter : (members.filter fun e => [name].contains e.1) = members.filter fun e => e.1 = name := by
    congr 1
    funext e
    simp [eq_comm]
  dsimp only [Function.comp_apply]
  rw [hfilter, slotOf, get_toValue, Members.count]
  generalize members.filter (fun e => e.1 = name) = found
  rcases found with _ | ⟨⟨k, v⟩, _ | ⟨e, rest⟩⟩
  · rfl
  · rfl
  · simp

theorem mapM_slotOf {names : List String} (h : ∀ name ∈ names, members.count name ≤ 1) :
    names.mapM (slotOf members) = some (names.map fun name => slotFor (members.toValue.get name)) := by
  induction names with
  | nil => rfl
  | cons name names ih =>
    have hname : slotOf members name = some (slotFor (members.toValue.get name)) :=
      if_pos (h name List.mem_cons_self)
    rw [List.mapM_cons, hname, ih fun other hother => h other (List.mem_cons_of_mem _ hother)]
    rfl

theorem mapM_slotOf_eq_none {names : List String} {name : String} (hname : name ∈ names)
    (h : ¬ members.count name ≤ 1) : names.mapM (slotOf members) = none := by
  induction names with
  | nil => cases hname
  | cons other names ih =>
    rw [List.mapM_cons]
    rcases List.mem_cons.mp hname with rfl | hname
    · rw [slotOf, if_neg h]
      rfl
    · rw [ih hname]
      cases slotOf members other <;> rfl

theorem index_of_bind_asStr {v : Value} {name text : String} (h : (v.get name).bind Value.asStr = some text) :
    v.index name = .string text := by
  obtain ⟨w, hw, htext⟩ := Option.bind_eq_some_iff.mp h
  rw [Value.index, hw, Option.getD_some]
  cases w <;> cases htext
  rfl

/-- **What is read.**  The request that is built has the method, the id and the parameters of the object. -/
theorem fromMembers_spec (members : Members) :
    match StreamableRequest.fromMembers members with
    | some r => members.Readable ∧
        ∀ name ∈ ["method", "id", "params"], r.toValue.index name = members.toValue.index name
    | none => ¬ members.Readable := by
  have hslots := @structSlots_object members ["jsonrpc", "method", "params", "id", "_meta"]
  simp only [List.map_cons, List.map_nil] at hslots
  unfold StreamableRequest.fromMembers
  by_cases honce : ∀ name ∈ ["jsonrpc", "method", "params", "id", "_meta"], members.count name ≤ 1
  · rw [hslots, mapM_slotOf honce]
    obtain ⟨params, hparams, hparams'⟩ := optional_slotFor (members.toValue.get "params")
    obtain ⟨id, hid, hid'⟩ := optional_slotFor (members.toValue.get "id")
    obtain ⟨metadata, hmetadata, -⟩ := optional_slotFor (members.toValue.get "_meta")
    simp only [List.map_cons, List.map_nil, Option.bind_eq_bind, Option.bind_some, required_slotFor, hparams, hid,
      hmetadata]
    cases hjsonrpc : (members.toValue.get "jsonrpc").bind Value.asStr with
    | none =>
      intro hreadable
      have hsome := hreadable.jsonrpc
      rw [hjsonrpc] at hsome
      cases hsome
    | some jsonrpc =>
      cases hmethod : (members.toValue.get "method").bind Value.asStr with
      | none =>
        intro hreadable
        have hsome := hreadable.method
        rw [hmethod] at hsome
        cases hsome
      | some method =>
        refine ⟨⟨honce, by rw [hjsonrpc]; rfl, by rw [hmethod]; rfl⟩, ?_⟩
        intro name hname
        simp only [List.mem_cons, List.not_mem_nil, or_false] at hname
        rcases hname with rfl | rfl | rfl
        · exact (index_of_bind_asStr hmethod).symm
        · exact hid'
        · exact hparams'
  · push Not at honce
    obtain ⟨name, hname, htwice⟩ := honce
    rw [hslots, mapM_slotOf_eq_none hname (by omega)]
    intro hreadable
    exact absurd (hreadable.once name hname) (by omega)

end Reading

/-! ## When the endpoints are alike -/

/-- The endpoints answer an object in the same way, and with nothing if it is a notification. -/
structure Alike (members : Members) (mcp stream : Answer) : Prop where
  same : stream = mcp
  notification : members.toValue.get "id" = none → mcp = .nothing ∧ stream = .nothing

/-- When they do, in whatever order they walk the arguments of a prompt: the stream can read the object, and it has an
`id`, and no text that depends on that order; or nothing is answered to it with the id null.  A server that shuts down
has one answer on `/mcp` and goes on streaming, so there a handler has to fail with the very words. -/
def AlikeWhen (shutdown : Bool) (ctx : Context) (members : Members) : Prop :=
  let method := (members.toValue.index "method").asStr.getD ""
  members.Readable ∧
    if shutdown then (members.toValue.get "id").isSome ∧
      Fails ctx method (members.toValue.index "params") "Server shutting down"
    else (members.toValue.get "id").isSome ∧ ctx.TextFixed method (members.toValue.index "params") ∨
      Withheld ctx method .null

section Endpoints

variable {ctx : Context} {members : Members}

def Answer.ofResponse : Option Value → Answer
  | some v => .response v
  | none => .nothing

theorem ofResponse_inj {a b : Option Value} : Answer.ofResponse a = Answer.ofResponse b ↔ a = b := by
  cases a <;> cases b <;> simp [Answer.ofResponse]

theorem streamAnswer_readable (h : members.Readable) (sessionId : String) :
    streamAnswer (handleStreamable ctx sessionId members) = .ofResponse (dispatch ctx members.toValue) := by
  have hspec := fromMembers_spec members
  cases hread : StreamableRequest.fromMembers members with
  | none =>
    rw [hread] at hspec
    exact absurd h hspec
  | some r =>
    rw [hread] at hspec
    rw [handleStreamable, hread, ← dispatch_congr ctx hspec.2]
    -- the request that is built always has an id
    show streamAnswer (some ([.session sessionId] ++ (match dispatch ctx r.toValue with
      | some res => [.response res]
      | none => [.notification]) ++ [.complete])) = _
    cases dispatch ctx r.toValue <;> rfl

theorem streamAnswer_unreadable (h : ¬ members.Readable) (sessionId : String) :
    streamAnswer (handleStreamable ctx sessionId members) = .rejected := by
  have hspec := fromMembers_spec members
  cases hread : StreamableRequest.fromMembers members with
  | none =>
    rw [handleStreamable, hread]
    rfl
  | some r =>
    rw [hread] at hspec
    exact absurd hspec.1 h

theorem handleJsonRpc_ne_rejected (shutdown : Bool) (request : Value) :
    handleJsonRpc shutdown ctx request ≠ .rejected := by
  unfold handleJsonRpc
  cases handleRequest ctx request <;> split_ifs <;> simp

theorem handleJsonRpc_up {request : Value} (h : isRequestShaped request = true) :
    handleJsonRpc false ctx request = .ofResponse (handleRequest ctx request) := by
  rw [handleJsonRpc, if_neg (by decide)]
  cases handleRequest ctx request with
  | some res => rfl
  | none =>
    show (if isRequestShaped request then Answer.nothing else _) = _
    rw [if_pos h]
    rfl

theorem handleRequest_of_id {request : Value} (h : (request.get "id").isSome) :
    handleRequest ctx request = dispatch ctx request := by
  obtain ⟨id, hid⟩ := Option.isSome_iff_exists.mp h
  rw [handleRequest, hid]

theorem handleRequest_of_no_id {request : Value} (h : request.get "id" = none) : handleRequest ctx request = none := by
  rw [handleRequest, h]

theorem dispatch_eq_none_iff {request : Value} (h : request.get "id" = none) :
    dispatch ctx request = none ↔ Withheld ctx ((request.index "method").asStr.getD "") .null := by
  have hspec := dispatch_spec ctx request
  have hnull : request.index "id" = .null := by
    rw [Value.index, h]
    rfl
  rw [hnull] at hspec
  cases hresponse : dispatch ctx request with
  | none =>
    rw [hresponse] at hspec
    exact iff_of_true rfl hspec
  | some response =>
    rw [hresponse] at hspec
    exact iff_of_false (by simp) hspec.answered

theorem textFixed_of_withheld {method : String} {params id : Value} (h : Withheld ctx method id) :
    ctx.TextFixed method params := by
  rintro rfl
  exact absurd h (not_withheld_of_mem (by decide))

theorem alike_up_iff (h : members.Readable) (sessionId : String) :
    (∀ order horder, Alike members (handleJsonRpc false ctx members.toValue)
        (streamAnswer (handleStreamable (ctx.walking order horder) sessionId members))) ↔
      (members.toValue.get "id").isSome ∧
          ctx.TextFixed ((members.toValue.index "method").asStr.getD "") (members.toValue.index "params") ∨
        Withheld ctx ((members.toValue.index "method").asStr.getD "") .null := by
  simp only [streamAnswer_readable h, handleJsonRpc_up h.method]
  cases hid : members.toValue.get "id" with
  | some id =>
    rw [handleRequest_of_id (by rw [hid]; rfl), or_iff_left_of_imp fun hno => ⟨rfl, textFixed_of_withheld hno⟩,
      ← dispatch_walking_iff]
    constructor
    · exact fun halike => ⟨rfl, fun order horder => ofResponse_inj.mp (halike order horder).same⟩
    · rintro ⟨-, hsame⟩ order horder
      refine ⟨by rw [hsame order horder], fun hno => ?_⟩
      rw [hid] at hno
      cases hno
  | none =>
    rw [handleRequest_of_no_id hid]
    constructor
    · intro halike
      -- the stream may walk the map in the same order
      have hsame := (halike ctx.srv.order ctx.srv.order_perm).same
      exact Or.inr ((dispatch_eq_none_iff hid).mp (ofResponse_inj.mp hsame))
    · rintro (⟨hsome, -⟩ | hno) order horder
      · cases hsome
      · rw [(dispatch_walking_iff ctx _).mpr (textFixed_of_withheld hno) order horder, (dispatch_eq_none_iff hid).mpr hno]
        exact ⟨rfl, fun _ => ⟨rfl, rfl⟩⟩

theorem alike_shutdown_iff (h : members.Readable) (sessionId : String) :
    Alike members (handleJsonRpc true ctx members.toValue) (streamAnswer (handleStreamable ctx sessionId members)) ↔
      (members.toValue.get "id").isSome ∧
        Fails ctx ((members.toValue.index "method").asStr.getD "") (members.toValue.index "params")
          "Server shutting down" := by
  rw [streamAnswer_readable h, ← dispatch_eq_rpcError_iff]
  have hmcp : handleJsonRpc true ctx members.toValue =
      .ofResponse (some (rpcError (members.toValue.index "id") (-32603) "Server shutting down")) := rfl
  rw [hmcp]
  constructor
  · intro halike
    refine ⟨?_, ofResponse_inj.mp halike.same⟩
    by_contra hid
    have hnothing := (halike.notification (by simpa using hid)).1
    cases hnothing
  · rintro ⟨hid, hsame⟩
    refine ⟨by rw [hsame], fun hno => ?_⟩
    rw [hno] at hid
    cases hid

end Endpoints

/-- **The two endpoints** are alike just there. -/
theorem endpoints_alike_iff (shutdown : Bool) (ctx : Context) (sessionId : String) (members : Members) :
    (∀ order horder, Alike members (handleJsonRpc shutdown ctx members.toValue)
        (streamAnswer (handleStreamable (ctx.walking order horder) sessionId members))) ↔
      AlikeWhen shutdown ctx members := by
  by_cases h : members.Readable
  · cases shutdown with
    | false =>
      rw [alike_up_iff h]
      exact (and_iff_right h).symm
    | true =>
      -- how a handler fails has nothing to do with the order
      have hsame : ∀ order horder, Alike members (handleJsonRpc true ctx members.toValue)
          (streamAnswer (handleStreamable (ctx.walking order horder) sessionId members)) ↔ _ := fun order horder =>
        @alike_shutdown_iff (ctx.walking order horder) members h sessionId
      simp only [hsame]
      exact ⟨fun hwhen => ⟨h, hwhen ctx.srv.order ctx.srv.order_perm⟩, fun hwhen _ _ => hwhen.2⟩
  · refine iff_of_false (fun halike => ?_) fun hwhen => h hwhen.1
    have hsame := (halike ctx.srv.order ctx.srv.order_perm).same
    exact handleJsonRpc_ne_rejected shutdown members.toValue (hsame.symm.trans (streamAnswer_unreadable h _))

/-! ### A ping without an id -/

/-- `ping`, as a notification. -/
def pingNotification : Members := [("jsonrpc", .string "2.0"), ("method", .string "ping")]

/-- A notification, which only one of the endpoints leaves without an answer. -/
theorem notification_answered : ¬ ∀ (ctx : Context) (sessionId : String) (members : Members),
    Alike members (handleJsonRpc false ctx members.toValue)
      (streamAnswer (handleStreamable ctx sessionId members)) := by
  intro hall
  have hsame := (hall bareContext "s" pingNotification).same
  have hmcp : handleJsonRpc false bareContext pingNotification.toValue = .nothing := by decide +kernel
  have hstream : streamAnswer (handleStreamable bareContext "s" pingNotification) =
      .response (rpcResult .null (.object [])) := by decide +kernel
  rw [hmcp, hstream] at hsame
  cases hsame

end VelocityMcp.Http
