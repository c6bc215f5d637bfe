import VelocityMcp.Lib.Machine
import VelocityMcp.OAuth.Authorize

/-!
# OAuth.States — which connector a state stands for (`oauth2.rs`)

`validate_state_iff`: a state is valid as long as no URL is generated with a full store.
-/

namespace VelocityMcp.OAuth

open Lib

/-! ## Histories -/

/-- Authorization URLs are generated and states are validated, in any order, for any connectors. -/
inductive Call where
  | generate (connectors : String → Option ConnectorConfig) (connectorId state : String)
    (scopes : Option (List String))
  | validate (state : String)

/-- The store after a call. -/
def step (store : Map String String) : Call → Map String String
  | .generate connectors connectorId state scopes =>
    (generateAuthorizeUrl connectors store connectorId state scopes).2
  | .validate state => (validateState store state).2

/-- The pending states after a sequence of calls. -/
def storeAfter (calls : List Call) : Map String String := calls.foldl step ∅

/-- The state and the connector of the authorization URL, if the call answers one. -/
def Call.issued : Call → Option (String × String)
  | generate connectors connectorId state _ =>
    if ((connectors connectorId).bind ConnectorConfig.oauth2Config).isSome then some (state, connectorId) else none
  | validate _ => none

/-- The call issues the state again, or validates it. -/
def Call.Touches (s : String) : Call → Prop
  | call@(generate ..) => ∃ c, call.issued = some (s, c)
  | validate state => state = s

section Histories

variable {store : Map String String} {call : Call} {calls : List Call} {s c : String}

theorem step_generate (connectors : String → Option ConnectorConfig) (connectorId state : String)
    (scopes : Option (List String)) : step store (.generate connectors connectorId state scopes) =
      if ((connectors connectorId).bind ConnectorConfig.oauth2Config).isSome then storeState store state connectorId
      else store := by
  rw [step, generateAuthorizeUrl]
  cases connectors connectorId with
  | none => rfl
  | some config =>
    dsimp only
    rw [Option.bind_some]
    cases config.oauth2Config <;> rfl

theorem lookup_storeState {state connectorId : String} :
    (storeState store state connectorId).lookup s = some c ↔
      (state = s ∧ connectorId = c) ∨ (state ≠ s ∧ store.lookup s = some c ∧ store.len < maxStateEntries) := by
  rw [storeState]
  by_cases hs : s = state
  · subst hs
    rw [AList.lookup_insert]
    simp
  · rw [AList.lookup_insert_ne hs]
    by_cases hfull : store.len ≥ maxStateEntries
    · rw [if_pos hfull, AList.lookup_empty]
      simp [Ne.symm hs, hfull]
    · rw [if_neg hfull]
      simp [Ne.symm hs, Nat.not_le.mp hfull]

/-- **Where an entry comes from**: it was just issued, or it was there and the call neither touches it nor finds the
store full. -/
theorem lookup_step_iff : (step store call).lookup s = some c ↔ call.issued = some (s, c) ∨
    (store.lookup s = some c ∧ ¬call.Touches s ∧ (call.issued ≠ none → store.len < maxStateEntries)) := by
  cases call with
  | generate connectors connectorId state scopes =>
    rw [step_generate, Call.Touches, Call.issued]
    by_cases hsome : ((connectors connectorId).bind ConnectorConfig.oauth2Config).isSome
    · rw [if_pos hsome, if_pos hsome, lookup_storeState]
      simp only [Option.some.injEq, Prod.mk.injEq, exists_and_left, exists_eq', and_true, ne_eq, reduceCtorEq,
        not_false_eq_true, true_implies]
      tauto
    · rw [if_neg hsome, if_neg hsome]
      simp
  | validate state =>
    rw [step, validateState, Call.Touches, Call.issued]
    by_cases hs : s = state
    · subst hs
      simp
    · rw [AList.lookup_erase_ne hs]
      simp [Ne.symm hs]

/-- **The state was issued for the connector, and since then** it has neither been issued again nor validated, nor has
a URL been generated with a full store. -/
def Pending (s c : String) : List Call → Prop :=
  Since step (fun _ call => call.issued = some (s, c))
    (fun store call => ¬call.Touches s ∧ (call.issued ≠ none → store.len < maxStateEntries)) ∅

/-- The state was issued for the connector, and since then has neither been issued again nor validated, whatever was
issued to others. -/
def Outstanding (s c : String) : List Call → Prop :=
  Since step (fun _ call => call.issued = some (s, c)) (fun _ call => ¬call.Touches s) ∅

theorem storeAfter_concat (calls : List Call) (call : Call) :
    storeAfter (calls ++ [call]) = step (storeAfter calls) call := by
  rw [storeAfter, List.foldl_append]
  rfl

/-- **A state is valid, for the connector it was last issued for, as long as it is pending.** -/
theorem validate_state_iff (calls : List Call) (s c : String) :
    (validateState (storeAfter calls) s).1 = some c ↔ Pending s c calls :=
  holds_iff_since (R := fun store : Map String String => store.lookup s = some c)
    (by rw [AList.lookup_empty]; exact nofun) fun _ _ => lookup_step_iff

/-! ## A full store -/

def oneConnector (_ : String) : Option ConnectorConfig := some ⟨some ⟨"https://a.example/auth", "id", none, none⟩⟩

/-- States of different lengths. -/
def flow (i : ℕ) : Call := .generate oneConnector "github" (String.ofList (List.replicate i 'a')) none

theorem issued_flow (i : ℕ) : (flow i).issued = some (String.ofList (List.replicate i 'a'), "github") := rfl

theorem flow_injective {i j : ℕ} (h : String.ofList (List.replicate i 'a') = String.ofList (List.replicate j 'a')) :
    i = j := by
  have hlen := congrArg (fun s : String => s.toList.length) h
  simpa using hlen

theorem len_flows {n : ℕ} (hn : n ≤ maxStateEntries) : (storeAfter ((List.range n).map flow)).len = n ∧
    ∀ s ∈ storeAfter ((List.range n).map flow), ∃ i < n, s = String.ofList (List.replicate i 'a') := by
  induction n with
  | zero => exact ⟨rfl, fun s hs => absurd hs (AList.notMem_empty s)⟩
  | succ n ih =>
    obtain ⟨hlen, hkeys⟩ := ih (by omega)
    have hroom : ¬(storeAfter ((List.range n).map flow)).len ≥ maxStateEntries := by omega
    have hstep : storeAfter ((List.range (n + 1)).map flow) =
        (storeAfter ((List.range n).map flow)).insert (String.ofList (List.replicate n 'a')) "github" := by
      rw [List.range_succ, List.map_append, List.map_singleton, storeAfter, List.foldl_append]
      exact congrArg (fun store : Map String String => store.insert _ _) (if_neg hroom)
    have hnew : String.ofList (List.replicate n 'a') ∉ storeAfter ((List.range n).map flow) := by
      intro hmem
      obtain ⟨i, hi, heq⟩ := hkeys _ hmem
      exact absurd (flow_injective heq) (by omega)
    rw [hstep]
    refine ⟨by rw [Map.len_insert hnew, hlen], fun s hs => ?_⟩
    rcases (AList.mem_insert _).mp hs with rfl | hs
    · exact ⟨n, Nat.lt_succ_self n, rfl⟩
    · obtain ⟨i, hi, heq⟩ := hkeys s hs
      exact ⟨i, by omega, heq⟩

theorem outstanding_flows (n : ℕ) : Outstanding "" "github" ((List.range (n + 1)).map flow) := by
  rw [List.range_eq_range', List.range'_succ, List.map_cons]
  refine ⟨[], flow 0, (List.range' 1 n).map flow, rfl, rfl, along_of_forall ?_⟩
  intro call hcall _
  obtain ⟨i, hi, rfl⟩ := List.mem_map.mp hcall
  rintro ⟨c, hc⟩
  obtain ⟨hname, -⟩ := Prod.mk.inj (Option.some.inj ((issued_flow i).symm.trans hc))
  have hzero := flow_injective (i := i) (j := 0) hname
  have hpos := (List.mem_range'_1.mp hi).1
  omega

theorem lookup_flow_of_full {n : ℕ} (hn : n ≠ 0) (hfull : maxStateEntries ≤ store.len) :
    (step store (flow n)).lookup "" ≠ some c := by
  intro hlookup
  rcases lookup_step_iff.mp hlookup with hissued | ⟨-, -, hroom⟩
  · rw [issued_flow, Option.some.injEq, Prod.mk.injEq] at hissued
    exact hn (flow_injective (j := 0) hissued.1)
  · have hlt := hroom (by rw [issued_flow]; exact Option.some_ne_none _)
    omega

/-- The thousand and first flow of others takes the first one's state away. -/
theorem state_lost : ¬∀ calls s c, (validateState (storeAfter calls) s).1 = some c ↔ Outstanding s c calls := by
  intro h
  have hvalid := (h _ _ _).mpr (outstanding_flows maxStateEntries)
  have hfull := (len_flows (le_refl maxStateEntries)).1
  have hne : maxStateEntries ≠ 0 := by decide
  rw [List.range_succ, List.map_append, List.map_singleton, storeAfter_concat, validateState] at hvalid
  dsimp only at hvalid
  exact lookup_flow_of_full hne hfull.ge hvalid

end Histories

end VelocityMcp.OAuth
