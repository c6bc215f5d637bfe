import VelocityMcp.Lib.HashMap
import VelocityMcp.Lib.Machine
import VelocityMcp.Lib.Recent
import VelocityMcp.Resources

/-!
# Sampling — requests to a model, and what is remembered of them (`sampling.rs`)

`history_kept`: histories are atomic and bounded as long as no callback fails on messages already remembered.
-/

namespace VelocityMcp.Sampling

open Lib

/-! ## Requests -/

structure ResourceReference where
  uri : String
  mimeType : Option String
deriving DecidableEq, Repr

structure SamplingContent where
  contentType : String
  text : Option String
  resource : Option ResourceReference
deriving DecidableEq, Repr

structure SamplingMessage where
  role : String
  content : SamplingContent
deriving DecidableEq, Repr

structure ModelHint where
  name : Option String
deriving DecidableEq, Repr

/-- The priorities are `f64`s, as bit patterns. -/
structure ModelPreferences where
  hints : Option (List ModelHint)
  costPriority : Option UInt64
  speedPriority : Option UInt64
  intelligencePriority : Option UInt64
deriving DecidableEq, Repr

structure SamplingMetadata where
  progressToken : Option Value
  conversationId : Option String
  extra : List (String × Value)
deriving DecidableEq

structure SamplingRequest where
  messages : List SamplingMessage
  maxTokens : Option UInt32
  temperature : Option UInt64
  includeContext : Option String
  modelPreferences : Option ModelPreferences
  systemPrompt : Option String
  metadata : Option SamplingMetadata
deriving DecidableEq

structure SamplingResponse where
  role : String
  content : SamplingContent
  model : String
  stopReason : Option String
deriving DecidableEq, Repr

/-- `on_sampling_request`. -/
abbrev SamplingCallback : Type := SamplingRequest → Except String SamplingResponse

/-- The decoders that `serde` derives for what is inside the parameters. -/
structure Deserialize where
  messages : Value → Except String (List SamplingMessage)
  modelPreferences : Value → Option ModelPreferences
  metadata : Value → Option SamplingMetadata

def ResourceReference.toValue (r : ResourceReference) : Value :=
  .object (optionalField "mimeType" r.mimeType ++ [("uri", .string r.uri)])

def SamplingContent.toValue (c : SamplingContent) : Value :=
  .object ((match c.resource with | some r => [("resource", r.toValue)] | none => []) ++
    (optionalField "text" c.text ++ [("type", .string c.contentType)]))

def SamplingResponse.toValue (r : SamplingResponse) : Value :=
  .object [("content", r.content.toValue), ("model", .string r.model), ("role", .string r.role),
    ("stopReason", optionalString r.stopReason)]

/-- The reply as it is remembered. -/
def SamplingResponse.message (r : SamplingResponse) : SamplingMessage := ⟨"assistant", r.content⟩

/-! ## Conversations -/

/-- `CONVERSATION_HISTORY`. -/
abbrev History : Type := Map String (List SamplingMessage)

def maxConversations : ℕ := 256

def maxHistory : ℕ := 1000

/-- Which key `keys().next()` gives: one of the map's, if it has any. -/
structure KeyOrder where
  next : History → Option String
  mem : ∀ {history k}, next history = some k → k ∈ history
  isSome : ∀ {history}, history.len ≠ 0 → (next history).isSome

def getConversation (history : History) (conversationId : String) : List SamplingMessage :=
  (history.lookup conversationId).getD []

/-- The eviction of `add_to_conversation`. -/
def makeRoom (order : KeyOrder) (history : History) (conversationId : String) : History :=
  if conversationId ∉ history ∧ history.len ≥ maxConversations then
    match order.next history with
    | some arbitraryKey => history.erase arbitraryKey
    | none => history
  else history

/-- A message is remembered; an old message or another conversation may have to go. -/
def addToConversation (order : KeyOrder) (history : History) (conversationId : String) (message : SamplingMessage) :
    History :=
  let history := makeRoom order history conversationId
  let messages := getConversation history conversationId
  let messages := if messages.length ≥ maxHistory then messages.tail else messages
  history.insert conversationId (messages ++ [message])

/-- Messages are added one after the other, if there is a conversation. -/
def track (order : KeyOrder) (history : History) (conversationId : Option String) (messages : List SamplingMessage) :
    History :=
  match conversationId with
  | some conversationId => messages.foldl (fun history => addToConversation order history conversationId) history
  | none => history

section Handler

variable (serde : Deserialize) (order : KeyOrder) (params : Value)

def metadata : Option SamplingMetadata := (params.get "metadata").bind serde.metadata

def conversation : Option String := (metadata serde params).bind SamplingMetadata.conversationId

def request (messages : List SamplingMessage) : SamplingRequest where
  messages := messages
  maxTokens := (params.index "maxTokens").asU64.bind fun v => if v.toNat < 2 ^ 32 then some v.toUInt32 else none
  temperature := match params.index "temperature" with
    | .number n => n.asF64
    | _ => none
  includeContext := (params.index "includeContext").asStr
  modelPreferences := (params.get "modelPreferences").bind serde.modelPreferences
  systemPrompt := (params.index "systemPrompt").asStr
  metadata := metadata serde params

/-- `handle_sampling_create_message`: the answer, and the histories afterwards. -/
def handleSamplingCreateMessage (handler : Option SamplingCallback) (history : History) :
    Except String Value × History :=
  match serde.messages (params.index "messages") with
  | .error e => (.error s!"Invalid messages: {e}", history)
  | .ok messages =>
    match handler with
    | none => (.error "No sampling callback registered", history)
    | some cb =>
      let tracked := track order history (conversation serde params) messages
      match cb (request serde params messages) with
      | .error e => (.error e, tracked)
      | .ok response =>
        (.ok response.toValue, track order tracked (conversation serde params) [response.message])

end Handler

/-! ## What a conversation gains -/

/-- The caps. -/
structure Bounded (history : History) : Prop where
  conversations : history.len ≤ maxConversations
  each : ∀ c, (getConversation history c).length ≤ maxHistory

/-- The conversation has gained these entries, its last ones are kept, and no other has changed but one that had to go
because the conversation was new and there was no room. -/
structure Grown (history history' : History) (c : String) (entries : List SamplingMessage) : Prop where
  gained : getConversation history' c = (getConversation history c ++ entries).rtake maxHistory
  others : ∃ gone : Option String, (gone ≠ none → c ∉ history ∧ maxConversations ≤ history.len) ∧
    ∀ u ≠ c, history'.lookup u = if gone = some u then none else history.lookup u

section Conversations

variable {order : KeyOrder} {history : History} {c u : String} {m : SamplingMessage} {entries : List SamplingMessage}

theorem makeRoom_of_mem (h : c ∈ history) : makeRoom order history c = history := by
  rw [makeRoom, if_neg fun hn => hn.1 h]

/-- **What an eviction does.** -/
theorem makeRoom_spec (order : KeyOrder) (hlen : history.len ≤ maxConversations) (hc : c ∉ history) :
    (makeRoom order history c).len < maxConversations ∧ ∃ gone : Option String,
      (gone ≠ none → maxConversations ≤ history.len) ∧
        ∀ u, (makeRoom order history c).lookup u = if gone = some u then none else history.lookup u := by
  rw [makeRoom]
  by_cases hfull : history.len ≥ maxConversations
  · have hpos : history.len ≠ 0 := Nat.ne_of_gt (lt_of_lt_of_le (by decide) hfull)
    obtain ⟨k, hk⟩ := Option.isSome_iff_exists.mp (order.isSome hpos)
    have hone := Map.len_erase (order.mem hk)
    rw [if_pos ⟨hc, hfull⟩, hk]
    refine ⟨by dsimp only; omega, some k, fun _ => hfull, fun u => ?_⟩
    dsimp only
    split_ifs with hu
    · rw [Option.some.inj hu, AList.lookup_erase]
    · rw [AList.lookup_erase_ne fun h => hu (congrArg some h.symm)]
  · rw [if_neg fun h => hfull h.2]
    refine ⟨Nat.not_le.mp hfull, none, fun h => absurd rfl h, fun u => ?_⟩
    rw [if_neg (Option.some_ne_none u).symm]

theorem addToConversation_eq (h : (getConversation (makeRoom order history c) c).length ≤ maxHistory) :
    addToConversation order history c m = (makeRoom order history c).insert c
      (push maxHistory (getConversation (makeRoom order history c) c) m) := by
  rw [addToConversation, push, List.length_append, List.length_singleton]
  by_cases hfull : (getConversation (makeRoom order history c) c).length ≥ maxHistory
  · obtain ⟨n, hn⟩ : ∃ n, maxHistory = n + 1 := ⟨999, rfl⟩
    have hlen : (getConversation (makeRoom order history c) c).length = maxHistory := by omega
    rw [if_pos hfull, if_pos (by omega), hlen, Nat.add_sub_cancel_left, List.drop_append_of_le_length (by omega),
      List.drop_one]
  · rw [if_neg hfull, if_neg (by omega)]

theorem getConversation_of_notMem (h : c ∉ history) : getConversation history c = [] := by
  rw [getConversation, AList.lookup_eq_none.mpr h]
  rfl

theorem getConversation_insert {messages : List SamplingMessage} :
    getConversation (history.insert c messages) u = if u = c then messages else getConversation history u := by
  rw [getConversation]
  split_ifs with hu
  · rw [hu, AList.lookup_insert]
    rfl
  · rw [AList.lookup_insert_ne hu, getConversation]

theorem getConversation_makeRoom (h : Bounded history) (order : KeyOrder) (c : String) :
    getConversation (makeRoom order history c) c = getConversation history c := by
  by_cases hc : c ∈ history
  · rw [makeRoom_of_mem hc]
  · obtain ⟨-, gone, -, hlookup⟩ := makeRoom_spec order h.conversations hc
    rw [getConversation, getConversation, hlookup, AList.lookup_eq_none.mpr hc, ite_self]

theorem Bounded.makeRoom (h : Bounded history) (order : KeyOrder) (c : String) :
    Bounded (makeRoom order history c) := by
  by_cases hc : c ∈ history
  · rwa [makeRoom_of_mem hc]
  · obtain ⟨hlt, gone, -, hlookup⟩ := makeRoom_spec order h.conversations hc
    refine ⟨hlt.le, fun u => ?_⟩
    rw [getConversation, hlookup]
    split_ifs
    · exact Nat.zero_le _
    · exact h.each u

/-- **One message more.** -/
theorem grown_add (h : Bounded history) (order : KeyOrder) (c : String) (m : SamplingMessage) :
    Grown history (addToConversation order history c m) c [m] := by
  have hsame := getConversation_makeRoom h order c
  rw [addToConversation_eq (hsame ▸ h.each c), hsame]
  constructor
  · rw [getConversation_insert, if_pos rfl, push_eq_rtake]
  · by_cases hc : c ∈ history
    · refine ⟨none, fun hn => absurd rfl hn, fun u hu => ?_⟩
      rw [AList.lookup_insert_ne hu, makeRoom_of_mem hc, if_neg (Option.some_ne_none u).symm]
    · obtain ⟨-, gone, hgone, hlookup⟩ := makeRoom_spec order h.conversations hc
      refine ⟨gone, fun hn => ⟨hc, hgone hn⟩, fun u hu => ?_⟩
      rw [AList.lookup_insert_ne hu, hlookup]

theorem Bounded.add (h : Bounded history) : Bounded (addToConversation order history c m) := by
  have hsame := getConversation_makeRoom h order c
  have hroom := h.makeRoom order c
  rw [addToConversation_eq (hsame ▸ h.each c)]
  constructor
  · by_cases hc : c ∈ history
    · have hmem : c ∈ Sampling.makeRoom order history c := by rwa [makeRoom_of_mem hc]
      rw [Map.len_insert_of_mem hmem]
      exact hroom.conversations
    · obtain ⟨hlt, gone, -, hlookup⟩ := makeRoom_spec order h.conversations hc
      have hnew : c ∉ Sampling.makeRoom order history c := by
        rw [← AList.lookup_eq_none, hlookup, AList.lookup_eq_none.mpr hc, ite_self]
      rw [Map.len_insert hnew]
      exact hlt
  · intro u
    rw [getConversation_insert]
    split_ifs
    · exact length_push_le _ _
    · exact hroom.each u

theorem mem_add : c ∈ addToConversation order history c m := by
  rw [addToConversation]
  exact (AList.mem_insert _).mpr (.inl rfl)

theorem grown_refl (h : Bounded history) (c : String) : Grown history history c [] := by
  constructor
  · rw [List.append_nil, List.rtake, Nat.sub_eq_zero_of_le (h.each c), List.drop_zero]
  · refine ⟨none, fun hn => absurd rfl hn, fun u _ => ?_⟩
    rw [if_neg (Option.some_ne_none u).symm]

theorem Grown.add {history' : History} (h : Grown history history' c entries) (hbounded : Bounded history')
    (hc : c ∈ history') : Grown history (addToConversation order history' c m) c (entries ++ [m]) := by
  obtain ⟨hgained, gone', hgone', hothers'⟩ := grown_add hbounded order c m
  obtain ⟨gone, hgone, hothers⟩ := h.others
  constructor
  · rw [hgained, h.gained, ← push_eq_rtake, push_rtake, List.append_assoc]
  · refine ⟨gone, hgone, fun u hu => ?_⟩
    have hnone : gone' = none := by
      by_contra hn
      exact (hgone' hn).1 hc
    rw [hothers' u hu, hnone, if_neg (Option.some_ne_none u).symm, hothers u hu]

theorem track_concat : track order history (some c) (entries ++ [m]) =
    addToConversation order (track order history (some c) entries) c m :=
  List.foldl_concat ..

theorem mem_track (h : entries ≠ []) : c ∈ track order history (some c) entries := by
  obtain ⟨entries, m, rfl⟩ := (List.eq_nil_or_concat' entries).resolve_left h
  rw [track_concat]
  exact mem_add

theorem Bounded.track (h : Bounded history) (order : KeyOrder) (c : Option String) (entries : List SamplingMessage) :
    Bounded (track order history c entries) := by
  cases c with
  | none => exact h
  | some c =>
    induction entries using List.reverseRecOn with
    | nil => exact h
    | append_singleton entries m ih =>
      rw [track_concat]
      exact ih.add

/-- **What a conversation gains by these messages.** -/
theorem grown_track (h : Bounded history) : Grown history (track order history (some c) entries) c entries := by
  induction entries using List.reverseRecOn with
  | nil => exact grown_refl h c
  | append_singleton entries m ih =>
    rw [track_concat]
    by_cases hnil : entries = []
    · rw [hnil]
      exact grown_add h order c m
    · exact ih.add (h.track order (some c) entries) (mem_track hnil)

end Conversations

/-! ## Requests, one after the other -/

/-- A request, with the callback that is registered and the order of the keys when it is handled. -/
structure Call where
  order : KeyOrder
  handler : Option SamplingCallback
  params : Value

namespace Call

variable (serde : Deserialize) (history : History) (call : Call)

/-- The answer, and the histories afterwards. -/
def handle : Except String Value × History :=
  handleSamplingCreateMessage serde call.order call.params call.handler history

/-- What a request that succeeds has to say: its messages, and the reply. -/
def entries : List SamplingMessage :=
  match serde.messages (call.params.index "messages"), call.handler with
  | .ok messages, some cb =>
    match cb (request serde call.params messages) with
    | .ok response => messages ++ [response.message]
    | .error _ => []
  | _, _ => []

/-- **The callback fails** on a request of a conversation that has messages. -/
def FailsLate : Prop :=
  ∃ messages cb c e, serde.messages (call.params.index "messages") = .ok messages ∧ messages ≠ [] ∧
    call.handler = some cb ∧ conversation serde call.params = some c ∧
    cb (request serde call.params messages) = .error e

/-- **A request is atomic**: it fails and changes no history, or it succeeds and its conversation gains its entries. -/
structure Atomic : Prop where
  failed : ∀ e, (call.handle serde history).1 = .error e →
    ∀ u, getConversation (call.handle serde history).2 u = getConversation history u
  succeeded : ∀ v, (call.handle serde history).1 = .ok v →
    match conversation serde call.params with
    | some c => Grown history (call.handle serde history).2 c (call.entries serde)
    | none => (call.handle serde history).2 = history

end Call

/-- The histories after a request. -/
def step (serde : Deserialize) (history : History) (call : Call) : History := (call.handle serde history).2

/-- Everything that has been said in a conversation since it was last new. -/
def saidStep (serde : Deserialize) (state : History × (String → List SamplingMessage)) (call : Call) :
    History × (String → List SamplingMessage) :=
  (step serde state.1 call, fun u =>
    if u ∈ step serde state.1 call then
      state.2 u ++ (if conversation serde call.params = some u then call.entries serde else [])
    else [])

/-- The same after these requests. -/
def said (serde : Deserialize) (calls : List Call) : String → List SamplingMessage :=
  (calls.foldl (saidStep serde) (∅, fun _ => [])).2

/-- **Histories are atomic and bounded, and hold what was said last.** -/
structure Kept (serde : Deserialize) (calls : List Call) : Prop where
  atomic : Along (step serde) (fun history call => call.Atomic serde history) ∅ calls
  bounded : Bounded (calls.foldl (step serde) ∅)
  recent : ∀ u, getConversation (calls.foldl (step serde) ∅) u = (said serde calls u).rtake maxHistory

section Runs

variable {serde : Deserialize} {history : History} {call : Call} {calls : List Call}

theorem track_track {order : KeyOrder} {c : Option String} {messages : List SamplingMessage} {m : SamplingMessage} :
    track order (track order history c messages) c [m] = track order history c (messages ++ [m]) := by
  cases c with
  | none => rfl
  | some c => exact track_concat.symm

/-- **What a request does**, unless its callback fails late. -/
theorem handle_cases (history : History) (h : ¬call.FailsLate serde) :
    (call.entries serde = [] ∧ ∃ e, call.handle serde history = (.error e, history)) ∨
      ∃ v, call.handle serde history =
        (.ok v, track call.order history (conversation serde call.params) (call.entries serde)) := by
  obtain ⟨order, handler, params⟩ := call
  rw [Call.handle, handleSamplingCreateMessage, Call.entries]
  dsimp only
  cases hmessages : serde.messages (params.index "messages") with
  | error e => exact .inl ⟨rfl, _, rfl⟩
  | ok messages =>
    cases handler with
    | none => exact .inl ⟨rfl, _, rfl⟩
    | some cb =>
      dsimp only
      cases hcb : cb (request serde params messages) with
      | error e =>
        refine .inl ⟨rfl, e, ?_⟩
        cases hconversation : conversation serde params with
        | none => rfl
        | some c =>
          cases messages with
          | nil => rfl
          | cons m ms =>
            exact absurd ⟨_, cb, c, e, hmessages, List.cons_ne_nil m ms, rfl, hconversation, hcb⟩ h
      | ok response => exact .inr ⟨_, congrArg (Prod.mk _) track_track⟩

theorem atomic_of_not_failsLate (hbounded : Bounded history) (h : ¬call.FailsLate serde) :
    call.Atomic serde history := by
  rcases handle_cases history h with ⟨-, e, heq⟩ | ⟨v, heq⟩
  · constructor
    · intro e _ u
      rw [heq]
    · intro v hv
      rw [heq] at hv
      exact nomatch hv
  · constructor
    · intro e he
      rw [heq] at he
      exact nomatch he
    · intro v _
      rw [heq]
      cases conversation serde call.params with
      | none => rfl
      | some c => exact grown_track hbounded

theorem Bounded.step (h : Bounded history) (serde : Deserialize) (call : Call) : Bounded (step serde history call) := by
  rw [Sampling.step, Call.handle, handleSamplingCreateMessage]
  cases serde.messages (call.params.index "messages") with
  | error e => exact h
  | ok messages =>
    cases call.handler with
    | none => exact h
    | some cb =>
      have htracked := h.track call.order (conversation serde call.params) messages
      dsimp only
      cases cb (request serde call.params messages) with
      | error e => exact htracked
      | ok response => exact htracked.track _ _ _

theorem bounded_run (serde : Deserialize) (calls : List Call) : Bounded (calls.foldl (step serde) ∅) := by
  induction calls using List.reverseRecOn with
  | nil => exact ⟨Nat.zero_le _, fun c => Nat.zero_le _⟩
  | append_singleton calls call ih =>
    rw [List.foldl_append]
    exact ih.step serde call

/-! ### What was said last -/

theorem said_history (serde : Deserialize) (calls : List Call) :
    (calls.foldl (saidStep serde) (∅, fun _ => [])).1 = calls.foldl (step serde) ∅ := by
  induction calls using List.reverseRecOn with
  | nil => rfl
  | append_singleton calls call ih =>
    rw [List.foldl_append, List.foldl_append, ← ih]
    rfl

theorem said_concat (serde : Deserialize) (calls : List Call) (call : Call) (u : String) :
    said serde (calls ++ [call]) u =
      if u ∈ step serde (calls.foldl (step serde) ∅) call then
        said serde calls u ++ (if conversation serde call.params = some u then call.entries serde else [])
      else [] := by
  rw [said, List.foldl_append, ← said_history, said]
  rfl

theorem getConversation_step {u : String} (hbounded : Bounded history) (h : ¬call.FailsLate serde)
    (hmem : u ∈ step serde history call) (hother : conversation serde call.params ≠ some u) :
    getConversation (step serde history call) u = getConversation history u := by
  rw [step] at hmem ⊢
  rcases handle_cases history h with ⟨-, e, heq⟩ | ⟨v, heq⟩
  · rw [heq]
  · rw [heq] at hmem ⊢
    cases hconversation : conversation serde call.params with
    | none => rfl
    | some c =>
      rw [hconversation] at hmem hother
      have hgrown : Grown history (track call.order history (some c) (call.entries serde)) c (call.entries serde) :=
        grown_track hbounded
      obtain ⟨gone, -, hlookup⟩ := hgrown.others
      have hu := hlookup u fun hc => hother (congrArg some hc.symm)
      have hstays : gone ≠ some u := by
        intro hgone
        rw [if_pos hgone] at hu
        exact AList.lookup_eq_none.mp hu hmem
      rw [getConversation, hu, if_neg hstays, getConversation]

/-- **What is remembered is what was said last**, step by step. -/
theorem recent_step {before : List SamplingMessage} {u : String} (hbounded : Bounded history)
    (h : ¬call.FailsLate serde) (hrecent : getConversation history u = before.rtake maxHistory) :
    getConversation (step serde history call) u =
      (if u ∈ step serde history call then
        before ++ (if conversation serde call.params = some u then call.entries serde else [])
      else []).rtake maxHistory := by
  by_cases hmem : u ∈ step serde history call
  · rw [if_pos hmem]
    by_cases hconversation : conversation serde call.params = some u
    · rw [if_pos hconversation, step]
      rcases handle_cases history h with ⟨hnil, e, heq⟩ | ⟨v, heq⟩
      · rw [heq, hnil, List.append_nil]
        exact hrecent
      · rw [heq, hconversation]
        dsimp only
        rw [(grown_track hbounded).gained, hrecent, rtake_append]
    · rw [if_neg hconversation, List.append_nil, getConversation_step hbounded h hmem hconversation, hrecent]
  · rw [if_neg hmem, getConversation_of_notMem hmem]
    rfl

/-- **Histories are atomic and bounded** in every run where no callback fails on a request of a conversation that has
messages. -/
theorem history_kept (serde : Deserialize) (calls : List Call) (h : ∀ call ∈ calls, ¬call.FailsLate serde) :
    Kept serde calls := by
  induction calls using List.reverseRecOn with
  | nil => exact ⟨trivial, bounded_run serde [], fun u => (List.rtake_nil maxHistory).symm⟩
  | append_singleton calls call ih =>
    have hcall : ¬call.FailsLate serde := h call (List.mem_append_right calls List.mem_cons_self)
    have hcalls := ih fun c hc => h c (List.mem_append_left [call] hc)
    refine ⟨?_, bounded_run serde _, fun u => ?_⟩
    · rw [along_append]
      exact ⟨hcalls.atomic, atomic_of_not_failsLate hcalls.bounded hcall, trivial⟩
    · rw [said_concat, List.foldl_append]
      exact recent_step hcalls.bounded hcall (hcalls.recent u)

/-! ### Two requests -/

def plainMessage (v : Value) : Option SamplingMessage := do
  let role ← (v.index "role").asStr
  let contentType ← ((v.index "content").index "type").asStr
  return ⟨role, contentType, ((v.index "content").index "text").asStr, none⟩

/-- Decoders for plain messages and a conversation. -/
def plain : Deserialize where
  messages v := match v with
    | .array items => match items.mapM plainMessage with
      | some messages => .ok messages
      | none => .error "not a message"
    | _ => .error "not a list"
  modelPreferences _ := none
  metadata v := some ⟨v.get "progressToken", (v.index "conversationId").asStr, []⟩

def helloIn (conversation : String) : Value :=
  .object [("messages", .array [.object [("content", .object [("text", .string "Hello"), ("type", .string "text")]),
    ("role", .string "user")]]), ("metadata", .object [("conversationId", .string conversation)])]

def hello : Value := helloIn "c"

def newestFirst : KeyOrder where
  next history := history.keys.head?
  mem h := AList.mem_keys.mpr (List.mem_of_head? h)
  isSome h := by
    rw [Map.len_eq_keys] at h
    rw [List.isSome_head?]
    simpa using h

def greeting : SamplingCallback := fun _ => .ok ⟨"assistant", ⟨"text", some "Hi", none⟩, "m", none⟩

/-- More messages in one conversation than are kept, and then more conversations than are. -/
def greetings : List Call :=
  (List.replicate 501 "c" ++ (List.range 256).map fun n => String.ofList (List.replicate n 'd')).map fun conversation =>
    ⟨newestFirst, some greeting, helloIn conversation⟩

/-- The callback answers them all. -/
theorem history_kept_greetings : Kept plain greetings := by
  apply history_kept plain
  intro call hcall
  obtain ⟨conversation, -, rfl⟩ := List.mem_map.mp hcall
  rintro ⟨messages, cb, c, e, -, -, hcb, -, he⟩
  obtain rfl := Option.some.inj hcb
  cases he

/-- The model cannot be reached, and "Hello" is remembered all the same. -/
theorem history_not_kept : ¬∀ serde calls, Kept serde calls := by
  intro h
  have hatomic := (h plain [⟨newestFirst, some fun _ => .error "unreachable", hello⟩]).atomic.1
  have hsame := hatomic.failed "unreachable" rfl "c"
  exact absurd hsame (by decide)

end Runs

end VelocityMcp.Sampling
