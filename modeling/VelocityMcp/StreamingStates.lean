import VelocityMcp.Lib.HashMap
import VelocityMcp.Lib.Machine

/-!
# StreamingStates — how far the streams have come (`streaming.rs`)

`isolated`: a token that no other is written like has its own state.
-/

namespace VelocityMcp.Streaming

open Lib

/-! ## The code -/

/-- `ProgressToken`: a text, or a number. -/
inductive ProgressToken where
  | string (s : String)
  | number (n : UInt64)
deriving DecidableEq, Repr

/-- The key of a token. -/
def ProgressToken.render : ProgressToken → String
  | string s => s
  | number n => toString n.toNat

structure StreamingState where
  token : ProgressToken
  progress : UInt64
  total : Option UInt64
  chunksSent : UInt64
  isComplete : Bool
deriving DecidableEq, Repr

/-- `STREAMING_STATES`. -/
abbrev States : Type := Map String StreamingState

def maxStates : ℕ := 1024

section Code

variable (states : States) (token : ProgressToken)

/-- There is no room for the token. -/
def Full : Prop := states.len ≥ maxStates ∧ token.render ∉ states

instance : Decidable (Full states token) := inferInstanceAs (Decidable (_ ∧ _))

def initStreamingState (total : Option UInt64) : States :=
  if Full states token then states else states.insert token.render ⟨token, 0, total, 0, false⟩

/-- `get_mut`: the state under a key is changed, if there is one. -/
def modify (f : StreamingState → StreamingState) : States :=
  match states.lookup token.render with
  | some state => states.insert token.render (f state)
  | none => states

/-- What `update_streaming_progress` makes of a state. -/
def StreamingState.update (progress : UInt64) (total : Option UInt64) (state : StreamingState) : StreamingState :=
  let state := { state with progress := progress }
  match total with
  | some t => { state with total := some t }
  | none => state

/-- What `record_streaming_chunk` makes of a state. -/
def StreamingState.record (state : StreamingState) : StreamingState :=
  { state with chunksSent := state.chunksSent + 1 }

def updateStreamingProgress (progress : UInt64) (total : Option UInt64) : States :=
  modify states token (StreamingState.update progress total)

def recordStreamingChunk : States := modify states token StreamingState.record

def completeStreaming : States := states.erase token.render

def getStreamingState : Option StreamingState := states.lookup token.render

end Code

/-! ## Runs -/

/-- A call on the table of streaming states. -/
inductive Operation where
  | init (token : ProgressToken) (total : Option UInt64)
  | update (token : ProgressToken) (progress : UInt64) (total : Option UInt64)
  | record (token : ProgressToken)
  | complete (token : ProgressToken)
deriving DecidableEq, Repr

def Operation.token : Operation → ProgressToken
  | init token _ => token
  | update token _ _ => token
  | record token => token
  | complete token => token

/-- One operation. -/
def step (states : States) : Operation → States
  | .init token total => initStreamingState states token total
  | .update token progress total => updateStreamingProgress states token progress total
  | .record token => recordStreamingChunk states token
  | .complete token => completeStreaming states token

def statesAfter (ops : List Operation) : States := ops.foldl step ∅

/-! ## One token -/

/-- The state of one token: what an operation with the token does to it; `full` tells that there is no room. -/
def ownStep (state : Option StreamingState) : Operation × Bool → Option StreamingState
  | (.init token total, full) => if full then state else some ⟨token, 0, total, 0, false⟩
  | (.update _ progress total, _) => state.map (StreamingState.update progress total)
  | (.record _, _) => state.map StreamingState.record
  | (.complete _, _) => none

/-- The operations with a token, and which of them found no room for it. -/
def mine (t : ProgressToken) (ops : List Operation) : List (Operation × Bool) :=
  ((trace step ∅ ops).filter fun e => e.2.token = t).map fun e => (e.2, decide (Full e.1 t))

/-- No other token of the run is written like this one. -/
def Unaliased (t : ProgressToken) (ops : List Operation) : Prop :=
  ∀ op ∈ ops, op.token.render = t.render → op.token = t

/-- The token is initialized, and there is room for it. -/
def Begins (t : ProgressToken) (states : States) (op : Operation) : Prop :=
  (∃ total, op = .init t total) ∧ ¬Full states t

/-- **A token has its own state**: it is what the operations with the token make of it; it carries the token; and there
is one as long as the token has been initialized and not been completed since. -/
structure Isolated (t : ProgressToken) (ops : List Operation) : Prop where
  own : getStreamingState (statesAfter ops) t = (mine t ops).foldl ownStep none
  token : ∀ state, getStreamingState (statesAfter ops) t = some state → state.token = t
  begun : (getStreamingState (statesAfter ops) t).isSome ↔ Since step (Begins t) (fun _ op => op ≠ .complete t) ∅ ops

section Runs

variable {states : States} {t token : ProgressToken} {op : Operation} {ops : List Operation}

theorem lookup_modify (f : StreamingState → StreamingState) (k : String) : (modify states token f).lookup k =
    if k = token.render then (states.lookup k).map f else states.lookup k := by
  rw [modify]
  cases hlookup : states.lookup token.render with
  | none =>
    dsimp only
    split_ifs with hk
    · rw [hk, hlookup]
      rfl
    · rfl
  | some state =>
    dsimp only
    split_ifs with hk
    · rw [hk, AList.lookup_insert, hlookup]
      rfl
    · rw [AList.lookup_insert_ne hk]

theorem getStreamingState_of_ne (h : op.token.render ≠ t.render) :
    getStreamingState (step states op) t = getStreamingState states t := by
  rw [getStreamingState, getStreamingState]
  cases op with
  | init token total =>
    rw [step, initStreamingState]
    split_ifs
    · rfl
    · exact AList.lookup_insert_ne h.symm
  | update token progress total => exact (lookup_modify _ _).trans (if_neg h.symm)
  | record token => exact (lookup_modify _ _).trans (if_neg h.symm)
  | complete token => exact AList.lookup_erase_ne h.symm

/-- **An operation with the token** does to its state what it would do alone. -/
theorem getStreamingState_of_eq (h : op.token = t) :
    getStreamingState (step states op) t = ownStep (getStreamingState states t) (op, decide (Full states t)) := by
  subst h
  rw [getStreamingState, getStreamingState]
  cases op with
  | init token total =>
    rw [step, initStreamingState, ownStep, Operation.token]
    split_ifs with hfull hfull' hfull'
    · rfl
    · exact absurd (decide_eq_true hfull) hfull'
    · exact absurd (of_decide_eq_true hfull') hfull
    · exact AList.lookup_insert _
  | update token progress total => exact (lookup_modify _ _).trans (if_pos rfl)
  | record token => exact (lookup_modify _ _).trans (if_pos rfl)
  | complete token => exact AList.lookup_erase _ _

theorem statesAfter_concat (ops : List Operation) (op : Operation) :
    statesAfter (ops ++ [op]) = step (statesAfter ops) op := by
  rw [statesAfter, List.foldl_append]
  rfl

theorem mine_concat (t : ProgressToken) (ops : List Operation) (op : Operation) : mine t (ops ++ [op]) =
    mine t ops ++ if op.token = t then [(op, decide (Full (statesAfter ops) t))] else [] := by
  rw [mine, trace_concat, List.filter_append, List.map_append, ← mine, List.filter_cons, List.filter_nil]
  congr 1
  by_cases h : op.token = t
  · rw [if_pos h, if_pos (decide_eq_true h)]
    rfl
  · rw [if_neg h, if_neg fun htoken => h (of_decide_eq_true htoken)]
    rfl

theorem token_ownStep {state : Option StreamingState} {full : Bool} (hop : op.token = t)
    (h : ∀ s, state = some s → s.token = t) (s : StreamingState) (hs : ownStep state (op, full) = some s) :
    s.token = t := by
  cases op with
  | init token total =>
    rw [ownStep] at hs
    split_ifs at hs
    · exact h s hs
    · obtain rfl := Option.some.inj hs
      exact hop
  | update token progress total =>
    obtain ⟨s', hs', rfl⟩ := Option.map_eq_some_iff.mp hs
    cases total <;> exact h s' hs'
  | record token =>
    obtain ⟨s', hs', rfl⟩ := Option.map_eq_some_iff.mp hs
    exact h s' hs'
  | complete token => exact nomatch hs

/-- **When there is a state after an operation with the token.** -/
theorem isSome_ownStep {state : Option StreamingState} (hop : op.token = t) :
    (ownStep state (op, decide (Full states t))).isSome ↔
      Begins t states op ∨ (state.isSome ∧ op ≠ .complete t) := by
  subst hop
  cases op with
  | init token total =>
    rw [ownStep]
    by_cases hfull : Full states token
    · simp [Begins, Operation.token, hfull]
    · simp [Begins, Operation.token, hfull]
  | update token progress total => simp [ownStep, Begins]
  | record token => simp [ownStep, Begins]
  | complete token => simp [ownStep, Begins, Operation.token]

/-- **Streams do not interfere** as long as no two tokens are written alike. -/
theorem isolated (t : ProgressToken) (ops : List Operation) (h : Unaliased t ops) : Isolated t ops := by
  induction ops using List.reverseRecOn with
  | nil => exact ⟨rfl, (fun _ hs => nomatch hs), iff_of_false (fun hs => nomatch hs) not_since_nil⟩
  | append_singleton ops op ih =>
    have hops := ih fun o ho => h o (List.mem_append_left _ ho)
    by_cases hop : op.token = t
    · refine ⟨?_, ?_, ?_⟩
      · rw [statesAfter_concat, getStreamingState_of_eq hop, hops.own, mine_concat, if_pos hop, List.foldl_concat]
      · rw [statesAfter_concat, getStreamingState_of_eq hop]
        exact token_ownStep hop hops.token
      · rw [statesAfter_concat, getStreamingState_of_eq hop, isSome_ownStep hop, since_concat_iff, hops.begun]
        rfl
    · have hother : op.token.render ≠ t.render := fun heq =>
        hop (h op (List.mem_append_right _ List.mem_cons_self) heq)
      have hbegins : ¬Begins t (ops.foldl step ∅) op := by
        rintro ⟨⟨total, rfl⟩, -⟩
        exact hop rfl
      have hcomplete : op ≠ .complete t := by
        rintro rfl
        exact hop rfl
      refine ⟨?_, ?_, ?_⟩
      · rw [statesAfter_concat, getStreamingState_of_ne hother, hops.own, mine_concat, if_neg hop, List.append_nil]
      · rw [statesAfter_concat, getStreamingState_of_ne hother]
        exact hops.token
      · rw [statesAfter_concat, getStreamingState_of_ne hother, since_concat_iff, hops.begun]
        exact ⟨fun hsince => .inr ⟨hsince, hcomplete⟩, fun hor => (hor.resolve_left hbegins).1⟩

/-- Two tokens of different kinds. -/
theorem isolated_pair :
    Isolated (.string "a") [.init (.string "a") none, .init (.number 7) none, .record (.string "a")] := by
  apply isolated
  intro op hop
  simp only [List.mem_cons, List.not_mem_nil, or_false] at hop
  obtain rfl | rfl | rfl := hop
  · exact fun _ => rfl
  · intro heq
    exact absurd heq (by decide)
  · exact fun _ => rfl

/-- A number and its digits have one state. -/
example : getStreamingState (statesAfter [.init (.string "7") none]) (.number 7) =
    some ⟨.string "7", 0, none, 0, false⟩ := by
  decide

/-! ### No room -/

/-- A token that is longer than the first `n` of its kind. -/
def longToken (n : ℕ) : ProgressToken := .string (String.ofList (List.replicate (n + 1) 'a'))

theorem longToken_injective {i j : ℕ} (h : (longToken i).render = (longToken j).render) : i = j := by
  have hlen := congrArg (fun s : String => s.toList.length) h
  simpa [longToken, ProgressToken.render] using hlen

/-- As many streams as there is room for. -/
def crowd (n : ℕ) : List Operation := (List.range n).map fun i => .init (longToken i) none

theorem crowd_succ (n : ℕ) : crowd (n + 1) = crowd n ++ [.init (longToken n) none] := by
  rw [crowd, List.range_succ, List.map_append]
  rfl

theorem token_crowd {n : ℕ} (hop : op ∈ crowd n) : ∃ i < n, op.token = longToken i := by
  obtain ⟨i, hi, rfl⟩ := List.mem_map.mp hop
  exact ⟨i, List.mem_range.mp hi, rfl⟩

theorem len_crowd {n : ℕ} (hn : n ≤ maxStates) : (statesAfter (crowd n)).len = n ∧
    ∀ k ∈ statesAfter (crowd n), ∃ i < n, k = (longToken i).render := by
  induction n with
  | zero => exact ⟨rfl, fun k hk => absurd hk (AList.notMem_empty k)⟩
  | succ n ih =>
    obtain ⟨hlen, hkeys⟩ := ih (by omega)
    have hroom : ¬Full (statesAfter (crowd n)) (longToken n) := by
      rintro ⟨hfull, -⟩
      omega
    have hnew : (longToken n).render ∉ statesAfter (crowd n) := by
      intro hmem
      obtain ⟨i, hi, heq⟩ := hkeys _ hmem
      exact absurd (longToken_injective heq) (by omega)
    rw [crowd_succ, statesAfter_concat, step, initStreamingState, if_neg hroom]
    refine ⟨by rw [Map.len_insert hnew, hlen], fun k hk => ?_⟩
    rcases (AList.mem_insert _).mp hk with rfl | hk
    · exact ⟨n, Nat.lt_succ_self n, rfl⟩
    · obtain ⟨i, hi, heq⟩ := hkeys k hk
      exact ⟨i, by omega, heq⟩

theorem crowded_out {n : ℕ} (hn : n = maxStates) :
    getStreamingState (statesAfter (crowd n ++ [.init (.string "") none])) (.string "") = none := by
  obtain ⟨hlen, hkeys⟩ := len_crowd (le_of_eq hn)
  have habsent : (ProgressToken.string "").render ∉ statesAfter (crowd n) := by
    intro hmem
    obtain ⟨i, -, heq⟩ := hkeys _ hmem
    have hlength := congrArg (fun s : String => s.toList.length) heq
    simp [longToken, ProgressToken.render] at hlength
  have hfull : Full (statesAfter (crowd n)) (.string "") := ⟨by omega, habsent⟩
  rw [statesAfter_concat, step, initStreamingState, if_pos hfull, getStreamingState]
  exact AList.lookup_eq_none.mpr habsent

/-- What is seen for a token depends on more than the operations with it, even if no two tokens are written alike: with
1024 other streams there is no room for it. -/
theorem states_interfere : ¬∀ t ops ops', Unaliased t ops → Unaliased t ops' →
    ops.filter (fun op => op.token = t) = ops'.filter (fun op => op.token = t) →
    getStreamingState (statesAfter ops) t = getStreamingState (statesAfter ops') t := by
  intro h
  have hcrowd : ∀ op ∈ crowd maxStates, op.token.render ≠ "" := by
    intro op hop heq
    obtain ⟨i, -, htoken⟩ := token_crowd hop
    have hlength := congrArg (fun s : String => s.toList.length) heq
    simp [htoken, longToken, ProgressToken.render] at hlength
  have hsame := h (.string "") (crowd maxStates ++ [.init (.string "") none]) [.init (.string "") none] ?_ ?_ ?_
  · rw [crowded_out rfl] at hsame
    exact nomatch hsame
  · intro op hop heq
    rcases List.mem_append.mp hop with hop | hop
    · exact absurd heq (hcrowd op hop)
    · obtain rfl := List.mem_singleton.mp hop
      rfl
  · intro op hop _
    obtain rfl := List.mem_singleton.mp hop
    rfl
  · rw [List.filter_append, List.filter_eq_nil_iff.mpr, List.nil_append]
    intro op hop htoken
    exact hcrowd op hop (congrArg ProgressToken.render (of_decide_eq_true htoken))

end Runs

end VelocityMcp.Streaming
