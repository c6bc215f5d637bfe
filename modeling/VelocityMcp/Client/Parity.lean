import VelocityMcp.Client.Exchange

/-!
# Client.Parity — the operations of the client over the two shared-memory transports

`operations_agree`: where both transports return the same value, or both an error.
-/

namespace VelocityMcp.Client

open Lib NdaNative Shmem

/-! ## Operations and their requests -/

def numbered (id : Int64) (method : String) (params : Value) : JsonRpcRequest :=
  ⟨method, some params, some (.number (.ofI64 id))⟩

/-- What an operation sends. -/
def Operation.requests (id : Int64) : Operation → List JsonRpcRequest
  | .initializeConnection => [numbered id "initialize" initializeParams, initializedNotification]
  | .listTools => [numbered id "tools/list" (.object [])]
  | .callTool name arguments _ =>
    [numbered id "tools/call" (.object [("arguments", arguments), ("name", .string name)])]
  | .listResources => [numbered id "resources/list" (.object [])]
  | .readResource uri => [numbered id "resources/read" (.object [("uri", .string uri)])]
  | .listPrompts => [numbered id "prompts/list" (.object [])]
  | .getPrompt name arguments _ =>
    [numbered id "prompts/get" (.object [("arguments", arguments), ("name", .string name)])]
  | .ping => [numbered id "ping" (.object [])]
  | .setLogLevel level => [numbered id "logging/setLevel" (.object [("level", .string level)])]

/-! ## Agreement -/

/-- Both return the same value, or both an error. -/
def AgreeOn {α : Type} (x y : Outcome Error α) : Prop :=
  (∃ a, x = .ok a ∧ y = .ok a) ∨ ∃ e e', x = .err e ∧ y = .err e'

section Agree

variable {α β : Type} {x y : Outcome Error α} {k : α → Outcome Error β}

theorem agreeOn_self (h : x ≠ .panic) : AgreeOn x x := by
  cases x with
  | ok a => exact Or.inl ⟨a, rfl, rfl⟩
  | err e => exact Or.inr ⟨e, e, rfl, rfl⟩
  | panic => exact absurd rfl h

theorem AgreeOn.bind (h : AgreeOn x y) (hk : ∀ a, k a ≠ .panic) : AgreeOn (x >>= k) (y >>= k) := by
  rcases h with ⟨a, rfl, rfl⟩ | ⟨e, e', rfl, rfl⟩
  · exact agreeOn_self (hk a)
  · exact Or.inr ⟨e, e', rfl, rfl⟩

theorem agreeOn_answered (code code' : Int32) (z : Except String Value) (f g : String → String) :
    AgreeOn (answered code (z.mapError f)) (answered code' (z.mapError g)) := by
  cases z with
  | ok v => exact Or.inl ⟨v, rfl, rfl⟩
  | error s => exact Or.inr ⟨_, _, rfl, rfl⟩

theorem orJson_ne_panic (z : Option α) : orJson z ≠ .panic := by
  cases z <;> simp [orJson]

theorem orJson_bind_ne_panic (z : Option α) (f : α → β) : (orJson z >>= fun a => .ok (f a)) ≠ .panic :=
  Outcome.bind_ne_panic (orJson_ne_panic z) fun _ _ => by simp

end Agree

/-! ## The answers of the two dispatchers -/

section Answers

variable {text : JsonText} {srv : Server} {id : Int64} {method : String} {params : Value} {code : UInt8}
  {order : List (String × String) → List (String × String)} {horder : ∀ l, (order l).Perm l}

/-- An answer that is the same on both sides: `x`, whose failure is told with the server's sanitised text.  `other` is
the server as the second request meets it. -/
structure Alike (srv other : Server) (id : Int64) (method : String) (params : Value) (code : UInt8)
    (x : Except String Value) : Prop where
  known : methodToCode method = some code
  sent : params ≠ .null
  plain : PlainContent (ndaContent srv code (.number (.ofI64 id)) params)
  binary : outcomeOf (ndaContent srv code (.number (.ofI64 id)) params) = x.mapError srv.sanitizeError
  json : handleJsonRequest other (numbered id method params).toValue = rpcAnswer other (.number (.ofI64 id)) x
  answer : x ≠ .ok .null

theorem Alike.agree {other : Server} {x : Except String Value} (h : Alike srv other id method params code x)
    (hsha : ∀ b, (srv.cfg.sha256 b).length = 32) (hr : Carried text srv (numbered id method params))
    (hr' : Carried text other (numbered id method params)) :
    AgreeOn (sendRequest (ndaTransport text srv false) id method (some params))
      (sendRequest (jsonTransport text other false) id method (some params)) := by
  rw [nda_sendRequest hsha hr h.known h.sent h.plain, json_sendRequest hr' h.answer h.json, h.binary]
  exact agreeOn_answered _ _ _ _ _

theorem outcomeOf_contentOfResult (srv : Server) (x : Except String Value) :
    outcomeOf (contentOfResult srv x) = x.mapError srv.sanitizeError := by
  cases x <;> rfl

theorem plainContent_contentOfResult {x : Except String Value} (h : ∀ v, x = .ok v → Plain v) :
    PlainContent (contentOfResult srv x) := by
  cases x with
  | ok v => exact h v rfl
  | error e => exact trivial

theorem contentOfData_ofValue (hr : Carried text srv (numbered id method params)) (hparams : params ≠ .null)
    (hwf : params.WF) (hdepth : params.depth ≤ tlvMaxDepth) (k : Value → NdaNative.Content) :
    contentOfData (Tlv.ofValue params).bytes k = k (Tlv.onWire params) := by
  obtain ⟨code, frame, -, hframe, hin, -⟩ := hr.frame
  obtain ⟨hkeys, rfl⟩ := buildNdaRequest_eq_ok hparams hframe
  have hlen : (Tlv.ofValue params).bytes.length ≤ maxInput := by
    rw [buildNdaFrame] at hin
    simp only [List.length_append, List.length_cons] at hin
    exact le_trans (by show (Tlv.ofValue params).bytes.length ≤ _; omega) hin
  have hlimits : params.All fun w => w.StringLe tlvMaxStringLen ∧ w.EntriesLe tlvMaxElements := by
    refine (Tlv.limits_of_length hlen).imp fun w hw => ⟨?_, ?_⟩
    · cases w <;> simp only [Value.StringLe] at hw ⊢
      exact hw.1.trans (by decide)
    · cases w <;> simp only [Value.EntriesLe] at hw ⊢
      · exact hw.2.1.trans (by decide)
      · exact hw.2.1.trans (by decide)
  have hwithin := Tlv.within_ofValue (Nat.lt_succ_of_le hdepth) hlimits hkeys
  have hat : At (Tlv.ofValue params).bytes 0 (Tlv.ofValue params).bytes := by
    simpa using at_zero (Tlv.ofValue params).bytes []
  have hdecode : decodeReqData (Tlv.ofValue params).bytes = .ok (Tlv.onWire params) := by
    rw [decodeReqData, if_neg (Tlv.bytes_ne_nil _), decodeJsonValue, decode_of_at hwithin hat,
      Tlv.value_ofValue hwf, NdaNative.ofWire_ok, Outcome.ok_bind]
    rfl
  rw [contentOfData, hdecode]

/-! ### Arm by arm -/

/-- The arms of a method whose JSON answer is the registry's, and whose binary content is told from it. -/
theorem alike_of_result {x : Except String Value} (hknown : methodToCode method = some code)
    (hsent : params ≠ .null) (hanswer : x ≠ .ok .null) (hplain : ∀ v, x = .ok v → Plain v)
    (hbinary : ndaContent srv code (.number (.ofI64 id)) params = contentOfResult srv x)
    (hjson : handleJsonRequest (srv.walking order horder) (numbered id method params).toValue =
      rpcAnswer srv (.number (.ofI64 id)) x) : Alike srv (srv.walking order horder) id method params code x :=
  ⟨hknown, hsent, hbinary ▸ plainContent_contentOfResult hplain,
    hbinary ▸ outcomeOf_contentOfResult srv x, hjson, hanswer⟩

theorem alike_ping : Alike srv (srv.walking order horder) id "ping" (.object []) methodPing (.ok (.object [])) :=
  ⟨rfl, by simp, trivial, rfl, rfl, by simp⟩

theorem alike_setLogLevel {level : String} (h : level ∈ logLevels) :
    Alike srv (srv.walking order horder) id "logging/setLevel" (.object [("level", .string level)]) methodLoggingSetLevel
      (.ok (.object [])) := by
  refine ⟨rfl, by simp, trivial, rfl, ?_, by simp⟩
  show loggingSetLevelResponse (.number (.ofI64 id)) level = rpcResult (.number (.ofI64 id)) (.object [])
  rw [loggingSetLevelResponse, if_pos h]

theorem listPage_of_length_le {key : String} {items : List Value} (h : items.length ≤ defaultPageSize) :
    listPage key items none = .object [(key, .array items)] := by
  have hsize : defaultPageSize = 100 := rfl
  have hmax : usizeMax = 2 ^ 64 - 1 := rfl
  have hlast : min (min (pageStart none + defaultPageSize) usizeMax) items.length = items.length := by
    simp only [pageStart]
    omega
  rw [listPage, hlast]
  simp only [pageStart, lt_irrefl, if_false, List.take_length, List.drop_zero, List.nil_append]
  by_cases hpos : 0 < items.length
  · rw [if_pos hpos]
  · obtain rfl : items = [] := List.length_eq_zero_iff.mp (by omega)
    rw [if_neg hpos]

theorem plain_toolsListValue {ts : List VelocityMcp.Tool} (h : ∀ t ∈ ts, Plain t.inputSchema) :
    Plain (toolsListValue ts) := by
  have htools : Plain (.array (ts.map VelocityMcp.Tool.toValue)) := plain_array fun v hv => by
    obtain ⟨t, ht, rfl⟩ := List.mem_map.mp hv
    exact plain_tool (h t ht)
  exact plain_object ["tools"] rfl (by decide) (by simp [htools])

theorem alike_listTools (hlisted : srv.listedTools = srv.tools) (hlength : srv.tools.length ≤ defaultPageSize)
    (hplain : ∀ t ∈ srv.tools, Plain t.inputSchema) :
    Alike srv (srv.walking order horder) id "tools/list" (.object []) methodToolsList
      (.ok (toolsListValue srv.tools)) := by
  have hcontent : ndaContent srv methodToolsList (.number (.ofI64 id)) (.object []) = .tools srv.tools :=
    congrArg NdaNative.Content.tools hlisted
  have hpage : listPage "tools" (srv.tools.map VelocityMcp.Tool.toValue) none = toolsListValue srv.tools :=
    listPage_of_length_le (by rwa [List.length_map])
  refine ⟨rfl, by simp, ?_, ?_, ?_, by simp [toolsListValue]⟩
  · rw [hcontent]
    exact plain_toolsListValue hplain
  · rw [hcontent]
    rfl
  · show rpcResult _ (listPage "tools" (srv.tools.map VelocityMcp.Tool.toValue) none) = _
    rw [hpage]
    rfl

theorem alike_listResources (hr : Carried text srv (numbered id "resources/list" (.object []))) :
    Alike srv (srv.walking order horder) id "resources/list" (.object []) methodResourcesList
      (.ok (srv.handleResourcesList none)) := by
  have hplain : Plain (srv.handleResourcesList none) := by
    refine plain_listPage (by decide) (fun v hv => ?_) none
    obtain ⟨r, -, rfl⟩ := List.mem_map.mp hv
    exact plain_resource r
  refine alike_of_result rfl (by simp) (by simp [Server.handleResourcesList, VelocityMcp.handleResourcesList, listPage])
    (fun v hv => Except.ok.inj hv ▸ hplain) ?_ rfl
  have hparams : Plain (.object []) := plain_object [] rfl (by decide) (by simp)
  rw [ndaContent, contentOf_resourcesList, contentOfData_ofValue hr (by simp) hparams.wf (by decide)]
  rfl

theorem alike_listPrompts (hr : Carried text srv (numbered id "prompts/list" (.object []))) :
    Alike srv (srv.walking order horder) id "prompts/list" (.object []) methodPromptsList
      (.ok (srv.handlePromptsList none)) := by
  have hplain : Plain (srv.handlePromptsList none) := by
    refine plain_listPage (by decide) (fun v hv => ?_) none
    obtain ⟨p, -, rfl⟩ := List.mem_map.mp hv
    exact plain_prompt p
  refine alike_of_result rfl (by simp) (by simp [Server.handlePromptsList, VelocityMcp.handlePromptsList, listPage])
    (fun v hv => Except.ok.inj hv ▸ hplain) ?_ rfl
  have hparams : Plain (.object []) := plain_object [] rfl (by decide) (by simp)
  rw [ndaContent, contentOf_promptsList, contentOfData_ofValue hr (by simp) hparams.wf (by decide)]
  rfl

theorem alike_readResource {uri : String}
    (hr : Carried text srv (numbered id "resources/read" (.object [("uri", .string uri)]))) :
    Alike srv (srv.walking order horder) id "resources/read" (.object [("uri", .string uri)]) methodResourcesRead
      (srv.handleResourcesRead uri) := by
  have hparams : Plain (.object [("uri", .string uri)]) :=
    plain_object ["uri"] rfl (by decide) (by simp [plain_string])
  refine alike_of_result rfl (by simp) ?_ (fun v hv => plain_handleResourcesRead hv) ?_ rfl
  · rw [Server.handleResourcesRead, VelocityMcp.handleResourcesRead]
    cases srv.readResource uri <;> simp [Except.map]
  · have hdepth : (Value.object [("uri", .string uri)]).depth ≤ tlvMaxDepth :=
      Value.depth_object_le.mpr (by simp [Value.depth, tlvMaxDepth])
    rw [ndaContent, contentOf_resourcesRead, contentOfData_ofValue hr (by simp) hparams.wf hdepth]
    rfl

/-- A number on the wire is a number, or null where there is none for it. -/
theorem onWire_number (n : Number) :
    (∃ m, Tlv.onWire (.number n) = .number m) ∨ Tlv.onWire (.number n) = .null := by
  cases n with
  | posInt n =>
    by_cases hn : n ≤ Number.i64Max
    · exact Or.inl ⟨.posInt n, by rw [Tlv.onWire, if_pos hn]⟩
    · rw [Tlv.onWire, if_neg hn, Value.ofF64]
      split
      · exact Or.inl ⟨_, rfl⟩
      · exact Or.inr rfl
  | _ => exact Or.inl ⟨_, rfl⟩

theorem asStr_onWire (v : Value) : (Tlv.onWire v).asStr = v.asStr := by
  cases v with
  | number n => obtain ⟨m, h⟩ | h := onWire_number n <;> rw [h] <;> rfl
  | _ => rfl

theorem stringArguments_onWire (arguments : Value) :
    stringArguments (Tlv.onWire arguments) = stringArguments arguments := by
  cases arguments with
  | object fields =>
    show (Tlv.fieldsOnWire fields).filterMap _ = fields.filterMap _
    rw [Tlv.fieldsOnWire_eq_map, List.filterMap_map]
    refine List.filterMap_congr fun p _ => ?_
    simp only [Function.comp_apply, asStr_onWire]
  | number n => obtain ⟨m, h⟩ | h := onWire_number n <;> rw [h] <;> rfl
  | _ => rfl

theorem alike_getPrompt {name : String} {arguments : Value} (wf : arguments.WF)
    (hdepth : arguments.depth < tlvMaxDepth) (hfixed : srv.PromptFilledAlike name arguments)
    (hr : Carried text srv
      (numbered id "prompts/get" (.object [("arguments", arguments), ("name", .string name)]))) :
    Alike srv (srv.walking order horder) id "prompts/get"
      (.object [("arguments", arguments), ("name", .string name)]) methodPromptsGet (srv.handlePromptsGet name arguments) := by
  have hwf : Value.WF (.object [("arguments", arguments), ("name", .string name)]) := by
    refine Value.all_object.mpr ⟨?_, ?_⟩
    · exact List.pairwise_map.mp (show (["arguments", "name"] : List String).Pairwise (· < ·) by decide)
    · simp only [List.forall_mem_cons]
      exact ⟨wf, trivial, by simp⟩
  have hdeep : Value.depth (.object [("arguments", arguments), ("name", .string name)]) ≤ tlvMaxDepth := by
    refine Value.depth_object_le.mpr ?_
    simp only [List.forall_mem_cons]
    exact ⟨hdepth, by simp [Value.depth, tlvMaxDepth], by simp⟩
  refine alike_of_result rfl (by simp) ?_ (fun v hv => plain_getPrompt hv) ?_ ?_
  · intro h
    unfold Server.handlePromptsGet VelocityMcp.handlePromptsGet VelocityMcp.getPrompt at h
    split at h
    · exact absurd h (by simp)
    · split at h
      · exact absurd h (by simp)
      · exact absurd h (by simp)
  · rw [ndaContent, contentOf_promptsGet, contentOfData_ofValue hr (by simp) hwf hdeep]
    show contentOfResult srv (VelocityMcp.getPrompt srv.prompts name
      (srv.order (stringArguments (Tlv.onWire arguments)))) = _
    rw [stringArguments_onWire]
    rfl
  · rw [← (Server.handlePromptsGet_walking_iff srv name arguments).mpr hfixed order horder]
    rfl

/-! ### Tool calls -/

theorem contentOfToolsCall_cases (srv : Server) (data : Bytes) :
    (∃ s, contentOfToolsCall srv data = .text s) ∨ (∃ s, contentOfToolsCall srv data = .error s) ∨
      contentOfToolsCall srv data = .panic := by
  unfold contentOfToolsCall
  cases extractToolsCallFields data with
  | err e => exact Or.inr (Or.inl ⟨_, rfl⟩)
  | panic => exact Or.inr (Or.inr rfl)
  | ok fields =>
    obtain ⟨name, args⟩ := fields
    simp only
    by_cases hrate : (!srv.checkRateLimit) = true
    · rw [if_pos hrate]
      exact Or.inr (Or.inl ⟨_, rfl⟩)
    · rw [if_neg hrate]
      cases callToolFrom srv (name.getD "") args with
      | ok res => exact Or.inl ⟨res, rfl⟩
      | error e => exact Or.inr (Or.inl ⟨_, rfl⟩)

theorem callTool_nda {name : String} {arguments : Value} (hsha : ∀ b, (srv.cfg.sha256 b).length = 32)
    (hr : Carried text srv
      (numbered id "tools/call" (.object [("arguments", arguments), ("name", .string name)]))) :
    ∃ e, callTool (ndaTransport text srv false) id name arguments = .err e := by
  set params : Value := .object [("arguments", arguments), ("name", .string name)] with hparams
  have hcases := contentOfToolsCall_cases srv (Tlv.ofValue params).bytes
  have hcontent : ndaContent srv methodToolsCall (.number (.ofI64 id)) params =
      contentOfToolsCall srv (Tlv.ofValue params).bytes := rfl
  have hsend : PlainContent (ndaContent srv methodToolsCall (.number (.ofI64 id)) params) →
      sendRequest (ndaTransport text srv false) id "tools/call" (some params) =
        answered (-1) (outcomeOf (ndaContent srv methodToolsCall (.number (.ofI64 id)) params)) :=
    nda_sendRequest hsha hr rfl (by simp [hparams])
  rw [hcontent] at hsend
  rw [callTool]
  rcases hcases with ⟨s, hs⟩ | ⟨s, hs⟩ | hs
  · rw [hs] at hsend
    rw [hsend trivial]
    exact ⟨.json, rfl⟩
  · rw [hs] at hsend
    rw [hsend trivial]
    exact ⟨_, rfl⟩
  · have hsound := sound_contentOf srv ⟨methodToolsCall, (Tlv.ofValue (.number (.ofI64 id))).bytes,
      (Tlv.ofValue params).bytes⟩
    rw [show contentOf srv ⟨methodToolsCall, _, (Tlv.ofValue params).bytes⟩ = .panic from hs] at hsound
    exact hsound.elim

/-- A tool call that succeeds is told to the client over JSON. -/
theorem callTool_json_ok {name res : String} {arguments : Value} (hrate : srv.checkRateLimit = true)
    (hcall : srv.callTool name arguments = .ok res)
    (hr : Carried text srv
      (numbered id "tools/call" (.object [("arguments", arguments), ("name", .string name)]))) :
    callTool (jsonTransport text srv false) id name arguments = .ok ⟨[.text res], false⟩ := by
  have hanswer : handleJsonRequest srv
      (numbered id "tools/call" (.object [("arguments", arguments), ("name", .string name)])).toValue =
        rpcAnswer srv (.number (.ofI64 id)) (.ok (toolCallResult res false)) := by
    show jsonToolsCall srv (.number (.ofI64 id)) name arguments = _
    rw [jsonToolsCall, if_neg (by simp [hrate]), hcall]
    rfl
  rw [callTool, json_sendRequest hr (by simp [toolCallResult]) hanswer]
  rfl

theorem callTool_json {name : String} {arguments : Value}
    (hfails : srv.checkRateLimit = true → ∃ e, srv.callTool name arguments = .error e)
    (hr : Carried text srv
      (numbered id "tools/call" (.object [("arguments", arguments), ("name", .string name)]))) :
    ∃ e, callTool (jsonTransport text srv false) id name arguments = .err e := by
  have hanswer : ∃ s, handleJsonRequest srv
      (numbered id "tools/call" (.object [("arguments", arguments), ("name", .string name)])).toValue =
        rpcAnswer srv (.number (.ofI64 id)) (.ok (toolCallResult s true)) := by
    show ∃ s, jsonToolsCall srv (.number (.ofI64 id)) name arguments = _
    unfold jsonToolsCall
    by_cases hrate : srv.checkRateLimit = true
    · obtain ⟨e, he⟩ := hfails hrate
      rw [if_neg (by simp [hrate]), he]
      exact ⟨_, rfl⟩
    · rw [if_pos (by simp [hrate])]
      exact ⟨_, rfl⟩
  obtain ⟨s, hs⟩ := hanswer
  rw [callTool, json_sendRequest hr (by simp [toolCallResult]) hs]
  exact ⟨.toolExecution s, rfl⟩

/-! ### Log levels -/

theorem setLogLevel_nda {level : String} (hsha : ∀ b, (srv.cfg.sha256 b).length = 32)
    (hr : Carried text srv (numbered id "logging/setLevel" (.object [("level", .string level)]))) :
    setLogLevel (ndaTransport text srv false) id level = .ok () := by
  have hcode : methodToCode "logging/setLevel" = some methodLoggingSetLevel := rfl
  rw [setLogLevel, nda_sendRequest hsha hr hcode (by simp) trivial]
  rfl

theorem setLogLevel_json_unknown {level : String} (h : level ∉ logLevels)
    (hr : Carried text srv (numbered id "logging/setLevel" (.object [("level", .string level)]))) :
    ∃ e, setLogLevel (jsonTransport text srv false) id level = .err e := by
  have hanswer : handleJsonRequest srv (numbered id "logging/setLevel" (.object [("level", .string level)])).toValue =
      rpcError (.number (.ofI64 id)) (-32602) s!"Invalid log level: '{level}'" := by
    show loggingSetLevelResponse (.number (.ofI64 id)) level = _
    rw [loggingSetLevelResponse, if_neg h]
  have hresponse : JsonRpcResponse.fromValue (handleJsonRequest srv
      (numbered id "logging/setLevel" (.object [("level", .string level)])).toValue) =
        some ⟨"2.0", none, some ⟨-32602, s!"Invalid log level: '{level}'", none⟩, some (.number (.ofI64 id))⟩ := by
    rw [hanswer]
    rfl
  have hsend := jsonTransport_eq hr hresponse rfl (by simp) (Or.inr rfl)
  refine ⟨.protocol (-32602) s!"Invalid log level: '{level}'" none, ?_⟩
  rw [setLogLevel, sendRequest, show jsonTransport text srv false ⟨"logging/setLevel", _, _⟩ = _ from hsend,
    Outcome.ok_bind]
  rfl

/-! ### The handshake -/

theorem initialize_nda (hsha : ∀ b, (srv.cfg.sha256 b).length = 32)
    (hr : Carried text srv (numbered id "initialize" initializeParams)) :
    sendRequest (ndaTransport text srv false) id "initialize" (some initializeParams) =
      .ok (buildInitializeResponse false) :=
  nda_sendRequest hsha hr rfl (by simp [initializeParams]) plain_buildInitializeResponse

theorem initialize_json (hr : Carried text srv (numbered id "initialize" initializeParams)) :
    sendRequest (jsonTransport text srv false) id "initialize" (some initializeParams) =
      .ok (buildInitializeResponse true) :=
  json_sendRequest (x := .ok (buildInitializeResponse true)) hr (by simp [buildInitializeResponse]) rfl

theorem fromValue_buildInitializeResponse (includeExtra : Bool) :
    InitializeResult.fromValue (buildInitializeResponse includeExtra) =
      some ⟨VelocityMcp.protocolVersion, ⟨some ⟨true⟩, some ⟨false, false⟩, some ⟨false⟩, some (.object []),
        some (.object [])⟩, ⟨"velocity-mcp-rust-server", VelocityMcp.version⟩⟩ := by
  cases includeExtra <;> rfl

theorem notified_nda (hsha : ∀ b, (srv.cfg.sha256 b).length = 32) (hr : Carried text srv initializedNotification) :
    ndaTransport text srv false initializedNotification = .ok ⟨"2.0", some (.object []), none, none⟩ := by
  have hcode : methodToCode initializedNotification.method = some notifInitialized := rfl
  rw [ndaTransport_eq hsha hr hcode rfl (Or.inl rfl) rfl (by simp [initializedNotification]) trivial,
    if_pos (show initializedNotification.id = none from rfl)]

theorem notified_json (hr : Carried text srv initializedNotification) :
    jsonTransport text srv false initializedNotification = .ok ⟨"2.0", some (.object []), none, none⟩ :=
  jsonTransport_eq hr rfl rfl (by simp) (Or.inl rfl)

end Answers

/-! ## Where the transports agree -/

/-- What the arms of an operation need in order to answer alike: the tools listed are the registry's, fit a page
and are left as they are by the wire; a tool call fails; the decoder goes as deep as the arguments, whose order does
not show in the prompt's text; the level is one that the server knows. -/
def Operation.Covered (srv : Server) : Operation → Prop
  | .listTools => srv.listedTools = srv.tools ∧ srv.tools.length ≤ defaultPageSize ∧
    ∀ t ∈ srv.tools, Plain t.inputSchema
  | .callTool name arguments _ => srv.checkRateLimit = true → ∃ e, srv.callTool name arguments = .error e
  | .getPrompt name arguments _ => arguments.depth < tlvMaxDepth ∧ srv.PromptFilledAlike name arguments
  | .setLogLevel level => level ∈ logLevels
  | _ => True

/-- The operations for which what is needed is exact. -/
def Operation.Exact : Operation → Prop
  | .listTools | .getPrompt .. => False
  | _ => True

section Parity

variable {text : JsonText} {srv : Server} {id : Int64}
  {order : List (String × String) → List (String × String)} {horder : ∀ l, (order l).Perm l}

theorem initializeConnection_agree (hsha : ∀ b, (srv.cfg.sha256 b).length = 32)
    {other : Server} (hcarried : ∀ r ∈ Operation.initializeConnection.requests id, Carried text srv r)
    (hcarried' : ∀ r ∈ Operation.initializeConnection.requests id, Carried text other r) :
    AgreeOn (initializeConnection (ndaTransport text srv false) id)
      (initializeConnection (jsonTransport text other false) id) := by
  have hfirst : numbered id "initialize" initializeParams ∈ Operation.initializeConnection.requests id :=
    List.mem_cons_self
  have hsecond : initializedNotification ∈ Operation.initializeConnection.requests id :=
    List.mem_cons_of_mem _ (List.mem_singleton_self _)
  rw [initializeConnection, initializeConnection, initialize_nda hsha (hcarried _ hfirst),
    initialize_json (hcarried' _ hfirst), notified_nda hsha (hcarried _ hsecond), notified_json (hcarried' _ hsecond)]
  simp only [Outcome.ok_bind, fromValue_buildInitializeResponse, orJson]
  exact Or.inl ⟨_, rfl, rfl⟩

theorem open_agree {op : Operation} (hsha : ∀ b, (srv.cfg.sha256 b).length = 32)
    (hcarried : ∀ r ∈ op.requests id, Carried text srv r)
    (hcarried' : ∀ r ∈ op.requests id, Carried text (srv.walking order horder) r) (hop : op.Covered srv) :
    AgreeOn (op.run (ndaTransport text srv false) id)
      (op.run (jsonTransport text (srv.walking order horder) false) id) := by
  have hdone : ∀ {α : Type} (f : α → OperationResult) (a : α), (.ok (f a) : Outcome Error OperationResult) ≠ .panic :=
    fun f a => by simp
  have hfirst := fun r rs (h : op.requests id = r :: rs) => hcarried r (h ▸ List.mem_cons_self ..)
  have hfirst' := fun r rs (h : op.requests id = r :: rs) => hcarried' r (h ▸ List.mem_cons_self ..)
  cases op with
  | initializeConnection => exact (initializeConnection_agree hsha hcarried hcarried').bind (hdone _)
  | listTools =>
    obtain ⟨hlisted, hlength, hplain⟩ := hop
    have halike := (alike_listTools hlisted hlength hplain).agree hsha (hfirst _ _ rfl) (hfirst' _ _ rfl)
    exact (halike.bind fun v => orJson_bind_ne_panic _ ToolsListResult.tools).bind (hdone _)
  | callTool name arguments wf =>
    -- over frames a tool call is never read back
    obtain ⟨e, he⟩ := callTool_nda hsha (hfirst _ _ rfl)
    have hfails : (srv.walking order horder).checkRateLimit = true →
        ∃ e, (srv.walking order horder).callTool name arguments = .error e := hop
    obtain ⟨e', he'⟩ := callTool_json hfails (hfirst' _ _ rfl)
    rw [Operation.run, Operation.run, he, he']
    exact Or.inr ⟨e, e', rfl, rfl⟩
  | listResources =>
    have halike := (alike_listResources (hfirst _ _ rfl)).agree hsha (hfirst _ _ rfl) (hfirst' _ _ rfl)
    exact (halike.bind fun v => orJson_bind_ne_panic _ ResourcesListResult.resources).bind (hdone _)
  | readResource uri =>
    have halike := (alike_readResource (hfirst _ _ rfl)).agree hsha (hfirst _ _ rfl) (hfirst' _ _ rfl)
    exact (halike.bind fun v => orJson_bind_ne_panic _ ResourceReadResult.contents).bind (hdone _)
  | listPrompts =>
    have halike := (alike_listPrompts (hfirst _ _ rfl)).agree hsha (hfirst _ _ rfl) (hfirst' _ _ rfl)
    exact (halike.bind fun v => orJson_bind_ne_panic _ PromptsListResult.prompts).bind (hdone _)
  | getPrompt name arguments wf =>
    have halike := (alike_getPrompt wf hop.1 hop.2 (hfirst _ _ rfl)).agree hsha (hfirst _ _ rfl) (hfirst' _ _ rfl)
    exact (halike.bind fun v => orJson_ne_panic _).bind (hdone _)
  | ping =>
    have halike := alike_ping.agree hsha (hfirst _ _ rfl) (hfirst' _ _ rfl)
    exact (halike.bind fun v => by simp).bind fun _ => by simp
  | setLogLevel level =>
    have halike := (alike_setLogLevel hop).agree hsha (hfirst _ _ rfl) (hfirst' _ _ rfl)
    exact (halike.bind fun v => by simp).bind fun _ => by simp

/-- Over the binary transport no tool call succeeds and no log level is refused. -/
theorem covered_of_agree {op : Operation} (hexact : op.Exact) (hsha : ∀ b, (srv.cfg.sha256 b).length = 32)
    (hcarried : ∀ r ∈ op.requests id, Carried text srv r)
    (hcarried' : ∀ r ∈ op.requests id, Carried text (srv.walking order horder) r)
    (h : AgreeOn (op.run (ndaTransport text srv false) id)
      (op.run (jsonTransport text (srv.walking order horder) false) id)) : op.Covered srv := by
  have hfirst := fun r rs (h : op.requests id = r :: rs) => hcarried r (h ▸ List.mem_cons_self ..)
  have hfirst' := fun r rs (h : op.requests id = r :: rs) => hcarried' r (h ▸ List.mem_cons_self ..)
  cases op with
  | listTools => exact hexact.elim
  | getPrompt name arguments wf => exact hexact.elim
  | callTool name arguments wf =>
    intro hrate
    cases hcall : srv.callTool name arguments with
    | error e => exact ⟨e, rfl⟩
    | ok res =>
      obtain ⟨e, he⟩ := callTool_nda hsha (hfirst _ _ rfl)
      have hrate' : (srv.walking order horder).checkRateLimit = true := hrate
      have hjson := callTool_json_ok hrate' hcall (hfirst' _ _ rfl)
      rw [Operation.run, Operation.run, he, hjson] at h
      simp [AgreeOn] at h
  | setLogLevel level =>
    by_contra hlevel
    obtain ⟨e, he⟩ := setLogLevel_json_unknown hlevel (hfirst' _ _ rfl)
    rw [Operation.run, Operation.run, setLogLevel_nda hsha (hfirst _ _ rfl), he] at h
    simp [AgreeOn] at h
  | initializeConnection | listResources | readResource | listPrompts | ping => trivial

theorem Operation.run_closed (op : Operation) :
    op.run (fun _ => .err .connectionClosed) id = .err .connectionClosed := by
  cases op <;> rfl

/-- **The client's operations do not depend on the transport**, where the arms of the two dispatchers answer
alike and the requests get through; and for all but two operations only there, while the transports are open. -/
theorem operations_agree (op : Operation) (closed : Bool) (hsha : ∀ b, (srv.cfg.sha256 b).length = 32)
    (hcarried : ∀ r ∈ op.requests id, Carried text srv r)
    (hcarried' : ∀ r ∈ op.requests id, Carried text (srv.walking order horder) r) :
    (op.Covered srv → AgreeOn (op.run (ndaTransport text srv closed) id)
        (op.run (jsonTransport text (srv.walking order horder) closed) id)) ∧
      (op.Exact → (AgreeOn (op.run (ndaTransport text srv closed) id)
        (op.run (jsonTransport text (srv.walking order horder) closed) id) ↔ closed = true ∨ op.Covered srv)) := by
  cases closed with
  | false =>
    refine ⟨open_agree hsha hcarried hcarried', fun hexact => ?_⟩
    rw [or_iff_right (by simp)]
    exact ⟨covered_of_agree hexact hsha hcarried hcarried', open_agree hsha hcarried hcarried'⟩
  | true =>
    have hboth : AgreeOn (op.run (ndaTransport text srv true) id)
        (op.run (jsonTransport text (srv.walking order horder) true) id) :=
      Or.inr ⟨_, _, op.run_closed, op.run_closed⟩
    exact ⟨fun _ => hboth, fun _ => iff_of_true hboth (Or.inl rfl)⟩

end Parity

/-! ### Two exchanges -/

def exchangeText (request : String) (r : JsonRpcRequest) (response : String) (v : Value) : JsonText where
  ofRequest := fun _ => request
  ofValue := fun _ => response
  parse := fun s => if s = request then .ok r.toValue else .ok v
  debug := fun _ => ""

def pingText : JsonText :=
  exchangeText "\x7b\"jsonrpc\":\"2.0\",\"method\":\"ping\",\"params\":\x7b\x7d,\"id\":1\x7d"
    (numbered 1 "ping" (.object [])) "\x7b\"id\":1,\"jsonrpc\":\"2.0\",\"result\":\x7b\x7d\x7d"
    (rpcResult (.number (.ofI64 1)) (.object []))

def pingRequestDigest : Bytes := [0x70, 0xd7, 0x52, 0xc4, 0xef, 0xc4, 0xe4, 0x70, 0x8b, 0x71, 0x23, 0xa0, 0x8b, 0x2e,
  0xe0, 0xc5, 0x92, 0x35, 0x6b, 0xef, 0xb0, 0x31, 0x68, 0x28, 0x38, 0x0c, 0x34, 0x41, 0x66, 0xff, 0x8c, 0x45]

/-- The SHA-256 digest of the payload of the request to call `echo`. -/
def echoRequestDigest : Bytes := [0xbc, 0x22, 0x57, 0x20, 0x9d, 0xed, 0xde, 0x55, 0x9a, 0x2c, 0xce, 0x12, 0x44, 0x82,
  0x97, 0x4a, 0x38, 0x1d, 0x45, 0x2f, 0xed, 0x4b, 0x40, 0xe0, 0xd6, 0xc4, 0x76, 0x56, 0x2e, 0x90, 0x55, 0xed]

def exchangeSha256 (payload : Bytes) : Bytes :=
  if payload.head? = some methodPing then pingRequestDigest else echoRequestDigest

/-- A server whose one tool answers `hi`. -/
def echoServer : Server :=
  { bareServer with
    cfg := { defaultConfig with sha256 := exchangeSha256 }
    tools := [⟨"echo", "Answers hi.", .object []⟩]
    callTool := fun _ _ => .ok "hi"
    callToolBinary := fun _ _ => .ok "hi" }

/-- A ping over a transport of frames and over one of texts. -/
theorem operations_agree_ping :
    AgreeOn (Operation.ping.run (ndaTransport pingText echoServer false) 1)
      (Operation.ping.run (jsonTransport pingText echoServer false) 1) := by
  have hsha : ∀ b, (echoServer.cfg.sha256 b).length = 32 := by
    intro b
    show (exchangeSha256 b).length = 32
    unfold exchangeSha256
    split <;> rfl
  have hcarried : Carried pingText echoServer (numbered 1 "ping" (.object [])) := by
    refine ⟨⟨methodPing, _, rfl, rfl, by decide +kernel, fun reply hreply => ?_⟩, ⟨?_, by decide +kernel⟩,
      by decide +kernel, ⟨?_, by decide +kernel⟩, by decide +kernel⟩
    · obtain rfl : replyFrame statusOk [0x02, 0, 0, 0, 0, 0, 0, 0, 1] emptyObjectTlv = reply :=
        Outcome.ok.inj ((by decide +kernel : dispatchNdaRequest echoServer _ = .ok _).symm.trans hreply)
      decide
    · rfl
    · rfl
  have hall : ∀ r ∈ Operation.ping.requests 1, Carried pingText echoServer r := fun r hr =>
    List.mem_singleton.mp hr ▸ hcarried
  have hall' : ∀ r ∈ Operation.ping.requests 1, Carried pingText (echoServer.walking id fun _ => .refl _) r := hall
  exact (operations_agree .ping false hsha hall hall').1 trivial

def echoText : JsonText :=
  exchangeText "\x7b\"jsonrpc\":\"2.0\",\"method\":\"tools/call\",\"params\":\x7b\"arguments\":\x7b\x7d,\"name\":\"echo\"\x7d,\"id\":1\x7d"
    (numbered 1 "tools/call" (.object [("arguments", .object []), ("name", .string "echo")]))
    "\x7b\"id\":1,\"jsonrpc\":\"2.0\",\"result\":\x7b\"content\":[\x7b\"text\":\"hi\",\"type\":\"text\"\x7d],\"isError\":false\x7d\x7d"
    (rpcResult (.number (.ofI64 1)) (toolCallResult "hi" false))

/-- A tool call that succeeds is returned over JSON, and an error over the binary transport. -/
theorem callTool_echo_disagree :
    ¬ AgreeOn ((Operation.callTool "echo" (.object []) ⟨List.Pairwise.nil, trivial⟩).run
        (ndaTransport echoText echoServer false) 1)
      ((Operation.callTool "echo" (.object []) ⟨List.Pairwise.nil, trivial⟩).run
        (jsonTransport echoText echoServer false) 1) := by
  have hnda : (Operation.callTool "echo" (.object []) ⟨List.Pairwise.nil, trivial⟩).run
      (ndaTransport echoText echoServer false) 1 = .err .json := by decide +kernel
  have hjson : (Operation.callTool "echo" (.object []) ⟨List.Pairwise.nil, trivial⟩).run
      (jsonTransport echoText echoServer false) 1 = .ok (.called ⟨[.text "hi"], false⟩) := by decide +kernel
  rw [hnda, hjson]
  simp [AgreeOn]

end VelocityMcp.Client
