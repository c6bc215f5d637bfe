import VelocityMcp.Client.Transports
import VelocityMcp.NdaNative.Answers

/-!
# Client.Exchange — what a request brings back over the two shared-memory transports

`nda_sendRequest`, `json_sendRequest`: what `send_request` makes of the server's answer.
-/

namespace VelocityMcp.Client

open Lib NdaNative Shmem

/-! ## Values that the wire leaves as they are -/

/-- Ordered keys of at most 65535 bytes, and no integer above `i64::MAX`. -/
def Plain (v : Value) : Prop := v.All fun w => w.KeysSorted ∧ w.IntFits ∧ w.KeysLe 65535

def KeysOk (ks : List String) : Prop := ks.Pairwise (· < ·) ∧ ∀ k ∈ ks, (utf8 k).length ≤ 65535

instance (ks : List String) : Decidable (KeysOk ks) := inferInstanceAs (Decidable (_ ∧ _))

section Plain

variable {v : Value} {items : List Value} {fields : List (String × Value)}

theorem Plain.wf (h : Plain v) : v.WF := h.imp fun _ h => h.1

theorem Plain.keysLe (h : Plain v) : v.All (Value.KeysLe 65535) := h.imp fun _ h => h.2.2

theorem Plain.onWire (h : Plain v) : Tlv.onWire v = v := Tlv.onWire_eq_self (h.imp fun _ h => h.2.1)

theorem plain_null : Plain .null := ⟨trivial, trivial, trivial⟩

theorem plain_string (s : String) : Plain (.string s) := ⟨trivial, trivial, trivial⟩

theorem plain_bool (b : Bool) : Plain (.bool b) := ⟨trivial, trivial, trivial⟩

theorem plain_array (h : ∀ v ∈ items, Plain v) : Plain (.array items) :=
  Value.all_array.mpr ⟨⟨trivial, trivial, trivial⟩, h⟩

theorem plain_singleton (h : Plain v) : Plain (.array [v]) :=
  plain_array fun _ hw => List.mem_singleton.mp hw ▸ h

theorem plain_object (ks : List String) (hks : fields.map Prod.fst = ks) (hok : KeysOk ks)
    (h : ∀ p ∈ fields, Plain p.2) : Plain (.object fields) := by
  subst hks
  refine Value.all_object.mpr ⟨⟨List.pairwise_map.mp hok.1, trivial, fun p hp => ?_⟩, h⟩
  exact hok.2 p.1 (List.mem_map_of_mem hp)

theorem plain_optionalString (s : Option String) : Plain (optionalString s) := by
  cases s with
  | some s => exact plain_string s
  | none => exact plain_null

theorem plain_resource (r : VelocityMcp.Resource) : Plain r.toValue := by
  unfold VelocityMcp.Resource.toValue
  cases r.mimeType with
  | some m =>
    refine plain_object ["description", "mimeType", "name", "uri"] rfl (by decide) ?_
    simp [optionalField, plain_string]
  | none =>
    refine plain_object ["description", "name", "uri"] rfl (by decide) ?_
    simp [optionalField, plain_string]

theorem plain_promptArgument (a : VelocityMcp.PromptArgument) : Plain a.toValue := by
  refine plain_object ["description", "name", "required"] rfl (by decide) ?_
  simp [plain_string, plain_bool]

theorem plain_prompt (p : VelocityMcp.Prompt) : Plain p.toValue := by
  have harguments : Plain (.array (p.arguments.map VelocityMcp.PromptArgument.toValue)) :=
    plain_array fun v hv => by
      obtain ⟨a, -, rfl⟩ := List.mem_map.mp hv
      exact plain_promptArgument a
  refine plain_object ["arguments", "description", "name"] rfl (by decide) ?_
  simp [plain_string, harguments]

theorem plain_tool {t : VelocityMcp.Tool} (h : Plain t.inputSchema) : Plain t.toValue := by
  refine plain_object ["description", "inputSchema", "name"] rfl (by decide) ?_
  simp [plain_string, h]

theorem plain_listPage {key : String} (hkey : KeysOk ["nextCursor", key]) (h : ∀ v ∈ items, Plain v)
    (cursor : Option String) : Plain (listPage key items cursor) := by
  have hkey' : KeysOk [key] := ⟨List.pairwise_singleton _ _, fun k hk => hkey.2 k (List.mem_cons_of_mem _ hk)⟩
  unfold listPage
  extract_lets start last page
  have hpage : Plain (.array page) := by
    refine plain_array fun v hv => h v ?_
    by_cases hstart : start < items.length
    · rw [show page = (items.take last).drop start from if_pos hstart] at hv
      exact List.mem_of_mem_take (List.mem_of_mem_drop hv)
    · rw [show page = [] from if_neg hstart] at hv
      exact absurd hv (List.not_mem_nil)
  by_cases hlast : last < items.length
  · rw [if_pos hlast]
    refine plain_object ["nextCursor", key] rfl hkey ?_
    simp [plain_string, hpage]
  · rw [if_neg hlast]
    refine plain_object [key] rfl hkey' ?_
    simp [hpage]

theorem plain_handleResourcesRead {found : Except String VelocityMcp.ResourceReadResult}
    (h : VelocityMcp.handleResourcesRead found = .ok v) : Plain v := by
  cases found with
  | error e => exact absurd h (by simp [VelocityMcp.handleResourcesRead, Except.map])
  | ok r =>
    obtain rfl := Except.ok.inj h
    refine plain_object ["contents"] rfl (by decide) ?_
    have hr : Plain (.object [("mimeType", .string r.mimeType), ("text", optionalString r.text),
        ("uri", .string r.uri)]) := by
      refine plain_object ["mimeType", "text", "uri"] rfl (by decide) ?_
      simp [plain_string, plain_optionalString]
    simp [plain_singleton hr]

theorem plain_getPrompt {prompts : List VelocityMcp.Prompt} {name : String} {arguments : List (String × String)}
    (h : VelocityMcp.getPrompt prompts name arguments = .ok v) : Plain v := by
  unfold VelocityMcp.getPrompt at h
  split at h
  · exact absurd h (by simp)
  · next p _ =>
    split at h
    · exact absurd h (by simp)
    · obtain rfl := Except.ok.inj h
      have hcontent : Plain (.object [("text", .string (substitute p.description arguments)),
          ("type", .string "text")]) := by
        refine plain_object ["text", "type"] rfl (by decide) ?_
        simp [plain_string]
      have hmessage : Plain (.object [("content", .object [("text", .string (substitute p.description arguments)),
          ("type", .string "text")]), ("role", .string "user")]) := by
        refine plain_object ["content", "role"] rfl (by decide) ?_
        simp [plain_string, hcontent]
      refine plain_object ["description", "messages"] rfl (by decide) ?_
      simp [plain_string, plain_singleton hmessage]

theorem plain_buildInitializeResponse : Plain (buildInitializeResponse false) := by
  have hempty : Plain (.object []) := plain_object [] rfl (by decide) (by simp)
  have hchanged : ∀ b, Plain (.object [("listChanged", .bool b)]) := fun b =>
    plain_object ["listChanged"] rfl (by decide) (by simp [plain_bool])
  have hresources : Plain (.object [("listChanged", .bool false), ("subscribe", .bool false)]) :=
    plain_object ["listChanged", "subscribe"] rfl (by decide) (by simp [plain_bool])
  have hinfo : Plain (.object [("name", .string "velocity-mcp-rust-server"),
      ("version", .string VelocityMcp.version)]) :=
    plain_object ["name", "version"] rfl (by decide) (by simp [plain_string])
  have hcapabilities : Plain (.object [("logging", .object []), ("prompts", .object [("listChanged", .bool false)]),
      ("resources", .object [("listChanged", .bool false), ("subscribe", .bool false)]),
      ("sampling", .object []), ("tools", .object [("listChanged", .bool true)])]) := by
    refine plain_object ["logging", "prompts", "resources", "sampling", "tools"] rfl (by decide) ?_
    simp [hempty, hchanged, hresources]
  refine plain_object ["capabilities", "protocolVersion", "serverInfo"] rfl (by decide) ?_
  simp [plain_string, hcapabilities, hinfo]

end Plain

/-! ## The binary transport -/

section Binary

variable {sha256 : Bytes → Bytes} {srv : Server} {v : Value} {t : Tlv} {c : NdaNative.Content}

theorem encodeTlvValue_eq_put {b : Bytes} :
    encodeTlvValue v = .put b ↔ v.All (Value.KeysLe 65535) ∧ b = (Tlv.ofValue v).bytes := by
  rw [← encodeJsonValue_eq_put, ← Emit.toOutcome_eq_ok, ← Emit.toOutcome_eq_ok]
  exact (encodeTlvValue_agree v).toOutcome b

theorem buildNdaRequest_eq_ok {code : UInt8} {i d : Value} (hd : d ≠ .null) {frame : Bytes}
    (h : buildNdaRequest sha256 code i d = .ok frame) :
    d.All (Value.KeysLe 65535) ∧
      frame = buildNdaFrame sha256 (code :: ((Tlv.ofValue i).bytes ++ (Tlv.ofValue d).bytes)) := by
  obtain ⟨payload, hpayload, h⟩ := Outcome.bind_eq_ok.mp h
  rw [if_neg hd] at hpayload
  obtain ⟨b, c, hb, hc, rfl⟩ := Emit.andThen_eq_put.mp (Emit.toOutcome_eq_ok.mp hpayload)
  obtain ⟨b', c', hb', hc', rfl⟩ := Emit.andThen_eq_put.mp hc
  obtain ⟨-, rfl⟩ := encodeTlvValue_eq_put.mp hb'
  obtain ⟨hkeys, rfl⟩ := encodeTlvValue_eq_put.mp hc'
  obtain rfl : b = [code] := (Emit.mk.inj hb).1.symm
  exact ⟨hkeys, (Outcome.ok.inj h).symm⟩

theorem isNdaFrame_buildNdaFrame (payload : Bytes) : isNdaFrame (buildNdaFrame sha256 payload) = true :=
  isNdaFrame_iff.mpr rfl

theorem parse_buildNdaFrame (hsha : ∀ b, (srv.cfg.sha256 b).length = 32) (ht : t.Within (tlvMaxDepth + 1))
    (code : UInt8) (data : Bytes) :
    parseNdaRequestInplace srv.cfg (buildNdaFrame srv.cfg.sha256 (code :: (t.bytes ++ data))) =
      .ok ⟨code, t.bytes, data⟩ := by
  set payload := code :: (t.bytes ++ data) with hpayload
  have hlen := hsha payload
  have hmagic : (buildNdaFrame srv.cfg.sha256 payload).take 4 = ndaMagic := rfl
  have hdrop : (buildNdaFrame srv.cfg.sha256 payload).drop frameHeaderSize = payload := by
    rw [buildNdaFrame, ← List.append_assoc]
    exact List.drop_left' (by rw [List.length_append, hlen]; rfl)
  have hmerkle : MerkleMatches srv.cfg (buildNdaFrame srv.cfg.sha256 payload) := by
    intro _
    have hroot : (buildNdaFrame srv.cfg.sha256 payload).drop 4 = srv.cfg.sha256 payload ++ payload := rfl
    rw [hdrop, hroot]
    exact List.take_left' hlen
  have hsize : frameHeaderSize ≤ (buildNdaFrame srv.cfg.sha256 payload).length := by
    have hfour : ndaMagic.length = 4 := rfl
    rw [buildNdaFrame, List.length_append, List.length_append, hlen, hfour, frameHeaderSize]
    omega
  refine parseNdaRequestInplace_eq_ok.mpr ⟨false, code, t.bytes ++ data, t.bytes.length,
    (framePayload_of_magic hmagic).mpr ⟨rfl, hsize, hdrop.symm, hmerkle⟩,
    skip_of_at ht (at_zero _ _), ?_⟩
  simp [methodOf]

def PlainContent : NdaNative.Content → Prop
  | .value v => Plain v
  | .tools ts => Plain (toolsListValue ts)
  | _ => True

/-- What the client makes of a content: the result of the reply, or the text of the error. -/
def outcomeOf : NdaNative.Content → Except String Value
  | .empty => .ok (.object [])
  | .tools ts => .ok (toolsListValue ts)
  | .text s => .ok (.string s)
  | .error s => .error s
  | .value v => .ok v
  | .panic => .error ""

/-- The content's wire tree, if it can be framed. -/
def treeOf : NdaNative.Content → Tlv
  | .empty => .object []
  | .tools ts => Tlv.ofValue (toolsListValue ts)
  | .text s => .string (utf8 s)
  | .error s => .string (utf8 s)
  | .value v => Tlv.ofValue v
  | .panic => .null

def statusOf : NdaNative.Content → UInt8
  | .error _ => statusError
  | _ => statusOk

theorem frame_of_plain (hc : PlainContent c) (hsound : c.Sound) (idTlv : Bytes) :
    c.frame idTlv = .ok (replyFrame (statusOf c) idTlv (treeOf c).bytes) := by
  cases c with
  | empty => rfl
  | tools ts =>
    have hput := encodeJsonValue_of_keysLe (Plain.keysLe hc)
    rw [NdaNative.Content.frame, encodeToolsListResult_eq, hput]
    rfl
  | text s => rfl
  | error s => rfl
  | value v =>
    rw [NdaNative.Content.frame, encodeJsonValue_of_keysLe (Plain.keysLe hc), Emit.toOutcome_put, Outcome.ok_bind]
    rfl
  | panic => exact absurd hsound id

theorem fits_of_length (hv : Plain v) (hlen : (Tlv.ofValue v).bytes.length < 256 ^ 4) :
    (Tlv.ofValue v).Fits :=
  (Tlv.whole_ofValue ((Tlv.limits_of_length (Nat.le_sub_one_of_lt hlen)).imp fun _ h => ⟨h.1, h.2.1⟩)
    hv.keysLe).1

theorem treeOf_fits (hc : PlainContent c) (hlen : (treeOf c).bytes.length < 256 ^ 4) : (treeOf c).Fits := by
  cases c with
  | empty => exact .object (by decide) (by simp) (by simp)
  | tools ts => exact fits_of_length hc hlen
  | text s =>
    rw [treeOf, Tlv.length_bytes_string] at hlen
    exact .string (by omega)
  | error s =>
    rw [treeOf, Tlv.length_bytes_string] at hlen
    exact .string (by omega)
  | value v => exact fits_of_length hc hlen
  | panic => exact .null

theorem parse_reply (sha256 : Bytes → Bytes) {i : Value} (ht : t.Fits) (hi : t.value = .ok i) (hc : PlainContent c)
    (hsound : c.Sound) (hlen : (treeOf c).bytes.length < 256 ^ 4) :
    ∃ w, parseNdaResponse sha256 (replyFrame (statusOf c) t.bytes (treeOf c).bytes) = .ok ⟨statusOf c, i, w⟩ ∧
      outcomeOf c = if statusOf c = statusError then .error (w.asStr.getD "Unknown NDA error") else .ok w := by
  have hparse : ∀ {w : Value}, (treeOf c).value = .ok w →
      parseNdaResponse sha256 (replyFrame (statusOf c) t.bytes (treeOf c).bytes) = .ok ⟨statusOf c, i, w⟩ := by
    intro w hw
    have hat : At (treeOf c).bytes 0 (treeOf c).bytes := by simpa using at_zero (treeOf c).bytes []
    rw [parseNdaResponse, parse_replyFrame ht (Tlv.bytes_ne_nil _), hi, ofWire_ok, Outcome.ok_bind,
      decodeTlvValue_of_at (treeOf_fits hc hlen) hat, hw, ofWire_ok, Outcome.ok_bind, Outcome.ok_bind,
      Outcome.ok_bind]
  cases c with
  | empty => exact ⟨_, hparse rfl, rfl⟩
  | tools ts => exact ⟨_, hparse (by rw [treeOf, Tlv.value_ofValue (Plain.wf hc), Plain.onWire hc]), rfl⟩
  | text s => exact ⟨.string s, hparse (by simp [treeOf, Tlv.value]), rfl⟩
  | error s => exact ⟨.string s, hparse (by simp [treeOf, Tlv.value]), rfl⟩
  | value v => exact ⟨_, hparse (by rw [treeOf, Tlv.value_ofValue (Plain.wf hc), Plain.onWire hc]), rfl⟩
  | panic => exact absurd hsound id

end Binary

/-! ## Exchanges -/

/-- The request gets through: on both transports it fits the input area and its response the output area, and
its JSON texts are read back. -/
structure Carried (text : JsonText) (srv : Server) (r : JsonRpcRequest) : Prop where
  frame : ∃ code frame, methodToCode r.method = some code ∧
    buildNdaRequest srv.cfg.sha256 code (r.id.getD .null) (r.params.getD (.object [])) = .ok frame ∧
      frame.length ≤ maxInput ∧ ∀ reply, dispatchNdaRequest srv frame = .ok reply → reply.length ≤ maxOutput
  request : text.CarriesRequest r
  requestFits : (utf8 (text.ofRequest r)).length ≤ maxInput
  response : text.CarriesValue (handleJsonRequest srv r.toValue)
  responseFits : (utf8 (text.ofValue (handleJsonRequest srv r.toValue))).length ≤ maxOutput

section Exchange

variable {text : JsonText} {srv : Server} {r : JsonRpcRequest} {id : Int64} {method : String} {params : Value}

/-- The transports, on a server that nobody else talks to. -/
def ndaTransport (text : JsonText) (srv : Server) (closed : Bool) : Transport :=
  shmemTransport srv.cfg.sha256 closed (sendRaw (serve text srv))

/-- The client's transport of JSON texts to the server. -/
def jsonTransport (text : JsonText) (srv : Server) (closed : Bool) : Transport :=
  jsonShmemTransport text closed (sendRaw (serve text srv))

def IsId (i : Value) : Prop := i = .null ∨ ∃ n, i = .number (.ofI64 n)

theorem IsId.plain {i : Value} (h : IsId i) : Plain i := by
  rcases h with rfl | ⟨n, rfl⟩
  · exact plain_null
  · exact ⟨trivial, Value.intFits_ofI64 n, trivial⟩

theorem IsId.within {i : Value} (h : IsId i) : (Tlv.ofValue i).Within (tlvMaxDepth + 1) := by
  rcases h with rfl | ⟨n, rfl⟩
  · exact .null
  · exact Tlv.within_ofValue (Nat.succ_pos _) ⟨trivial, trivial⟩ trivial

theorem sendRaw_frame {frame reply : Bytes} (hnda : isNdaFrame frame = true) (hin : frame.length ≤ maxInput)
    (hreply : dispatchNdaRequest srv frame = .ok reply) (hout : reply.length ≤ maxOutput) (hne : reply ≠ []) :
    sendRaw (serve text srv) frame = .ok reply := by
  have hserve : serve text srv frame = .reply reply := by
    rw [serve, route, if_pos hnda]
    simp only
    rw [handleNdaNative, hreply]
    exact if_neg (not_lt.mpr hout)
  rw [sendRaw, if_neg (not_lt.mpr hin), hserve]
  exact if_neg hne

/-- What the client's request comes to on the server. -/
def ndaContent (srv : Server) (code : UInt8) (i d : Value) : NdaNative.Content :=
  contentOf srv ⟨code, (Tlv.ofValue i).bytes, (Tlv.ofValue d).bytes⟩

def responseOf (i : Value) : Except String Value → JsonRpcResponse
  | .ok v => ⟨"2.0", some v, none, some i⟩
  | .error s => ⟨"2.0", none, some ⟨-1, s, none⟩, some i⟩

/-- **A request over the binary transport** brings back the outcome of its content. -/
theorem ndaTransport_eq (hsha : ∀ b, (srv.cfg.sha256 b).length = 32) (hr : Carried text srv r)
    {code : UInt8} (hcode : methodToCode r.method = some code) {i d : Value} (hi : r.id.getD .null = i)
    (hid : IsId i) (hd : r.params.getD (.object []) = d) (hnull : d ≠ .null)
    (hc : PlainContent (ndaContent srv code i d)) :
    ndaTransport text srv false r =
      if r.id = none then .ok ⟨"2.0", some (.object []), none, none⟩
      else .ok (responseOf i (outcomeOf (ndaContent srv code i d))) := by
  obtain ⟨code', frame, hcode', hframe, hin, hout⟩ := hr.frame
  obtain rfl := Option.some.inj (hcode.symm.trans hcode')
  rw [hi, hd] at hframe
  obtain ⟨-, hbuilt⟩ := buildNdaRequest_eq_ok hnull hframe
  have hsound := sound_contentOf srv ⟨code, (Tlv.ofValue i).bytes, (Tlv.ofValue d).bytes⟩
  have hreply : dispatchNdaRequest srv frame = .ok (replyFrame (statusOf (ndaContent srv code i d))
      (Tlv.ofValue i).bytes (treeOf (ndaContent srv code i d)).bytes) := by
    rw [hbuilt, dispatchNdaRequest_of_parse (parse_buildNdaFrame hsha hid.within code _)]
    exact frame_of_plain hc hsound _
  have hfits := hout _ hreply
  have hlen : (treeOf (ndaContent srv code i d)).bytes.length < 256 ^ 4 := by
    have hmax : maxOutput = 61440 := rfl
    rw [hmax, replyFrame, buildNdaResponseFrame] at hfits
    simp only [List.length_append, List.length_cons] at hfits
    omega
  have hnda : isNdaFrame frame = true := hbuilt ▸ isNdaFrame_buildNdaFrame _
  have hne : replyFrame (statusOf (ndaContent srv code i d)) (Tlv.ofValue i).bytes
      (treeOf (ndaContent srv code i d)).bytes ≠ [] := List.cons_ne_nil _ _
  have hsend : sendRaw (serve text srv) frame = .ok _ := sendRaw_frame hnda hin hreply hfits hne
  have hvalue : (Tlv.ofValue i).value = .ok i := by
    rw [Tlv.value_ofValue hid.plain.wf, hid.plain.onWire]
  obtain ⟨w, hparse, houtcome⟩ := parse_reply srv.cfg.sha256 hid.within.fits hvalue hc hsound hlen
  rw [ndaTransport, shmemTransport, if_neg (by simp), hcode]
  simp only
  rw [hi, hd, hframe, Outcome.ok_bind, hsend, Outcome.ok_bind]
  by_cases hnone : r.id = none
  · rw [if_pos hnone, if_pos hnone]
  · rw [if_neg hnone, if_neg hnone, hparse, Outcome.ok_bind, houtcome]
    by_cases hstatus : statusOf (ndaContent srv code i d) = statusError
    · simp only [hstatus, if_true, responseOf]
    · simp only [hstatus, if_false, responseOf]

/-- What `send_request` makes of an answer, for the error code of the transport. -/
def answered (code : Int32) : Except String Value → Outcome Error Value
  | .ok v => .ok v
  | .error s => .err (.protocol code s none)

/-- **`send_request` over the binary transport**, when the reply's values are the wire's. -/
theorem nda_sendRequest (hsha : ∀ b, (srv.cfg.sha256 b).length = 32) {code : UInt8}
    (hr : Carried text srv ⟨method, some params, some (.number (.ofI64 id))⟩)
    (hcode : methodToCode method = some code) (hparams : params ≠ .null)
    (hc : PlainContent (ndaContent srv code (.number (.ofI64 id)) params)) :
    sendRequest (ndaTransport text srv false) id method (some params) =
      answered (-1) (outcomeOf (ndaContent srv code (.number (.ofI64 id)) params)) := by
  have hsend := ndaTransport_eq hsha hr hcode rfl (Or.inr ⟨id, rfl⟩) rfl hparams hc
  rw [if_neg (Option.some_ne_none _)] at hsend
  rw [sendRequest, hsend, Outcome.ok_bind]
  cases houtcome : outcomeOf (ndaContent srv code (.number (.ofI64 id)) params) with
  | ok v => simp only [Option.getD_some, houtcome, responseOf, answered]
  | error e => simp only [Option.getD_some, houtcome, responseOf, answered]

/-! ## The JSON transport -/

theorem Slot.optional_given {α : Type} (read : Value → Option α) {v : Value} (hv : v ≠ .null) :
    (Slot.given v).optional read = (read v).map some := by
  cases v with
  | null => exact absurd rfl hv
  | _ => rfl

theorem fromValue_rpcResult {n : Number} {v : Value} (hv : v ≠ .null) :
    JsonRpcResponse.fromValue (rpcResult (.number n) v) =
      some ⟨"2.0", some v, none, some (.number n)⟩ := by
  have hslots : structSlots [["jsonrpc"], ["result"], ["error"], ["id"]] (rpcResult (.number n) v) =
      some [.given (.string "2.0"), .given v, .noKey, .given (.number n)] := rfl
  rw [JsonRpcResponse.fromValue, hslots]
  simp only [Option.bind_eq_bind, Option.bind_some, Slot.optional_given some hv]
  rfl

theorem fromValue_rpcError (n : Number) (message : String) :
    JsonRpcResponse.fromValue (rpcError (.number n) (-32603) message) =
      some ⟨"2.0", none, some ⟨-32603, message, none⟩, some (.number n)⟩ := rfl

theorem route_json {s : String} (h : (utf8 s).head? = some 0x7b) : route (utf8 s) = .json s := by
  have hmagic : isNdaFrame (utf8 s) ≠ true := by
    rw [Ne, isNdaFrame_iff]
    cases hs : utf8 s with
    | nil => simp [ndaMagic]
    | cons x xs =>
      rw [hs] at h
      obtain rfl : x = 0x7b := Option.some.inj h
      simp [ndaMagic]
  rw [route, if_neg hmagic, fromUtf8_utf8]

/-- **A request over the JSON transport** brings back the response, if it is one to the request. -/
theorem jsonTransport_eq (hr : Carried text srv r) {response : JsonRpcResponse}
    (hresponse : JsonRpcResponse.fromValue (handleJsonRequest srv r.toValue) = some response)
    (hversion : response.jsonrpc = "2.0") (hone : response.result = none ↔ response.error ≠ none)
    (hid : r.id = none ∨ response.id = r.id) : jsonTransport text srv false r = .ok response := by
  have hserve : serve text srv (utf8 (text.ofRequest r)) =
      .reply (utf8 (text.ofValue (handleJsonRequest srv r.toValue))) := by
    rw [serve, route_json hr.request.brace]
    simp only
    rw [handleJsonShmem, hr.request.parse]
    exact if_neg (not_lt.mpr hr.responseFits)
  have hsend : sendRaw (serve text srv) (utf8 (text.ofRequest r)) =
      .ok (utf8 (text.ofValue (handleJsonRequest srv r.toValue))) := by
    rw [sendRaw, if_neg (not_lt.mpr hr.requestFits), hserve]
    exact if_neg hr.response.nonempty
  have hboth : ¬ (response.result = none ∧ response.error = none) := fun h => hone.mp h.1 h.2
  have heach : ¬ (response.result ≠ none ∧ response.error ≠ none) := fun h => h.1 (hone.mpr h.2)
  have hstale : ¬ (r.id ≠ none ∧ response.id ≠ r.id) := fun h => hid.elim h.1 h.2
  rw [jsonTransport, jsonShmemTransport, if_neg (by simp), hsend, Outcome.ok_bind, fromUtf8_utf8]
  simp only
  rw [hr.response.parse]
  simp only
  rw [hresponse]
  simp only
  rw [if_neg (not_not.mpr hversion), if_neg hboth, if_neg heach, if_neg hstale]

/-- **`send_request` over the JSON transport**, when the arm answers with a value or a failure. -/
theorem json_sendRequest (hr : Carried text srv ⟨method, some params, some (.number (.ofI64 id))⟩)
    {x : Except String Value} (hx : x ≠ .ok .null)
    (hanswer : handleJsonRequest srv (JsonRpcRequest.toValue ⟨method, some params, some (.number (.ofI64 id))⟩) =
      rpcAnswer srv (.number (.ofI64 id)) x) :
    sendRequest (jsonTransport text srv false) id method (some params) =
      answered (-32603) (x.mapError srv.sanitizeError) := by
  cases x with
  | ok v =>
    have hv : v ≠ .null := fun h => hx (h ▸ rfl)
    have hsend := jsonTransport_eq hr ((congrArg _ hanswer).trans (fromValue_rpcResult hv)) rfl (by simp)
      (Or.inr rfl)
    rw [sendRequest, hsend, Outcome.ok_bind]
    rfl
  | error e =>
    have hsend := jsonTransport_eq hr
      ((congrArg _ hanswer).trans (fromValue_rpcError (.ofI64 id) (srv.sanitizeError e))) rfl (by simp) (Or.inr rfl)
    rw [sendRequest, hsend, Outcome.ok_bind]
    rfl

end Exchange

end VelocityMcp.Client
