import VelocityMcp.Audit.Log
import VelocityMcp.Lib.HashMap

/-!
# Audit.Registry — the audit logs of the sessions (`audit.rs`)

`Registry`: a map from the sessions to their logs, which threads share.
-/

namespace VelocityMcp.Audit.Registry

open Lib

/-- `MAX_AUDIT_SESSIONS`. -/
def maxAuditSessions : ℕ := 1024

/-- `AuditRegistry`: the logs are shared, a handle (an `Arc`) is the number of one. -/
structure AuditRegistry where
  sessions : Map String ℕ
  logs : ℕ → AuditLog
  nextLog : ℕ

namespace AuditRegistry

def new : AuditRegistry := ⟨∅, fun _ => .new, 0⟩

def get (r : AuditRegistry) (sessionId : String) : Option ℕ := r.sessions.lookup sessionId

def remove (r : AuditRegistry) (sessionId : String) : AuditRegistry := { r with sessions := r.sessions.erase sessionId }

/-- Whether `get_or_create` makes room before it adds a session. -/
def mustEvict (r : AuditRegistry) (sessionId : String) : Bool :=
  maxAuditSessions ≤ r.sessions.len && sessionId ∉ r.sessions

/-- `entry(session_id).or_insert_with(AuditLog::new)`. -/
def orInsert (r : AuditRegistry) (sessionId : String) : AuditRegistry × ℕ :=
  match r.get sessionId with
  | some handle => (r, handle)
  | none =>
    ({ sessions := r.sessions.insert sessionId r.nextLog
       logs := Function.update r.logs r.nextLog .new
       nextLog := r.nextLog + 1 }, r.nextLog)

/-- `get_or_create` under the write lock; `firstKey` is the key that the iteration over the map yields first. -/
def create (r : AuditRegistry) (sessionId firstKey : String) : AuditRegistry × ℕ :=
  (if r.mustEvict sessionId then r.remove firstKey else r).orInsert sessionId

def append (r : AuditRegistry) (handle : ℕ) (entry : AuditEntry) : AuditRegistry :=
  { r with logs := Function.update r.logs handle ((r.logs handle).append entry) }

def exported (r : AuditRegistry) (sessionId : String) : Option (List AuditEntry) :=
  (r.get sessionId).map fun handle => (r.logs handle).all

end AuditRegistry

/-! ## Threads that record -/

/-- A thread that records a call: it has not found the session, or it holds its log. -/
inductive Recorder where
  | missed (sessionId : String) (given : Http.Audit.AuditEntry)
  | holding (sessionId : String) (handle : ℕ) (given : Http.Audit.AuditEntry)

/-- A session that was evicted, and the one that was created first. -/
structure Eviction where
  evicted : String
  first : Option String

/-- An entry that was recorded for a session, and the log the registry then had for it. -/
structure Recording where
  sessionId : String
  entry : AuditEntry
  current : Option ℕ

/-- The registry, what each thread is doing, and what has been evicted and recorded so far. -/
structure State where
  registry : AuditRegistry
  threads : ℕ → Option Recorder
  evictions : List Eviction
  recorded : List Recording

/-- A thread looks for the log of a session under the read lock, creates it under the write lock, or appends its entry,
with the number and the times it reads; or a session is removed. -/
inductive Action where
  | look (t : ℕ) (sessionId : String) (given : Http.Audit.AuditEntry)
  | create (t : ℕ) (firstKey : String)
  | record (t : ℕ) (sequence timestampMs durationUs : UInt64)
  | remove (sessionId : String)

/-- The threads that record for a session, from one lock to the next, and the removals. -/
def step (s : State) : Action → Option State
  | .look t sessionId given =>
    match s.threads t with
    | some _ => none
    | none =>
      match s.registry.get sessionId with
      | some handle => some { s with threads := Function.update s.threads t (some (.holding sessionId handle given)) }
      | none => some { s with threads := Function.update s.threads t (some (.missed sessionId given)) }
  | .create t firstKey =>
    match s.threads t with
    | some (.missed sessionId given) =>
      if s.registry.mustEvict sessionId ∧ firstKey ∉ s.registry.sessions then none
      else some
        { s with
          registry := (s.registry.create sessionId firstKey).1
          threads := Function.update s.threads t
            (some (.holding sessionId (s.registry.create sessionId firstKey).2 given))
          evictions := if s.registry.mustEvict sessionId then ⟨firstKey, s.registry.sessions.oldest⟩ :: s.evictions
            else s.evictions }
    | _ => none
  | .record t sequence timestampMs durationUs =>
    match s.threads t with
    | some (.holding sessionId handle given) =>
      some
        { s with
          registry := s.registry.append handle (recordFull sequence timestampMs durationUs given)
          threads := Function.update s.threads t none
          recorded :=
            ⟨sessionId, recordFull sequence timestampMs durationUs given, s.registry.get sessionId⟩ :: s.recorded }
    | _ => none
  | .remove sessionId => some { s with registry := s.registry.remove sessionId }

/-- The process starts. -/
def Initial (s : State) : Prop := s = ⟨.new, fun _ => none, [], []⟩

def Recording.StillPresent (r : Recording) (s : State) : Prop :=
  r.current.isSome ∧ s.registry.get r.sessionId = r.current

/-- The entry is in the session's export. -/
def Recording.Visible (r : Recording) (s : State) : Prop :=
  ∃ entries, s.registry.exported r.sessionId = some entries ∧ r.entry ∈ entries

/-- At most as many sessions as the limit, evicted in the order of their creation, each with what was recorded for
it. -/
structure State.Sound (s : State) : Prop where
  capped : s.registry.sessions.len ≤ maxAuditSessions
  oldest : ∀ e ∈ s.evictions, e.first = some e.evicted
  visible : ∀ r ∈ s.recorded, r.StillPresent s → r.Visible s

/-- The map's first key is the session created first whenever one has to go; and whenever a thread appends its entry,
its log is still that of the session, unless the session is gone, and has room. -/
def Orderly (s : State) : Action → Prop
  | .create t firstKey => ∀ sessionId given, s.threads t = some (.missed sessionId given) →
      s.registry.mustEvict sessionId → s.registry.sessions.oldest = some firstKey
  | .record t _ _ _ => ∀ sessionId handle given, s.threads t = some (.holding sessionId handle given) →
      (s.registry.get sessionId = some handle ∨ s.registry.get sessionId = none) ∧
        (s.registry.logs handle).entries.length < maxAuditEntries
  | _ => True

/-! ## The registry's operations -/

namespace AuditRegistry

variable {r : AuditRegistry} {sessionId other firstKey : String} {handle : ℕ}

def Made (r : AuditRegistry) : Prop := ∀ sessionId handle, r.get sessionId = some handle → handle < r.nextLog

theorem made_new : new.Made := by
  intro sessionId handle h
  cases h

theorem Made.remove (h : r.Made) (sessionId : String) : (r.remove sessionId).Made :=
  fun _ _ hget => h _ _ (Map.lookup_erase_some hget).2

theorem orInsert_cases (r : AuditRegistry) (sessionId : String) :
    (∃ handle, r.get sessionId = some handle ∧ r.orInsert sessionId = (r, handle)) ∨
      (sessionId ∉ r.sessions ∧ r.orInsert sessionId = ({ sessions := r.sessions.insert sessionId r.nextLog
                                                          logs := Function.update r.logs r.nextLog .new
                                                          nextLog := r.nextLog + 1 }, r.nextLog)) := by
  rw [orInsert]
  cases hget : r.get sessionId with
  | some handle => exact Or.inl ⟨handle, rfl, rfl⟩
  | none => exact Or.inr ⟨AList.lookup_eq_none.mp hget, rfl⟩

theorem Made.orInsert (h : r.Made) (sessionId : String) : (r.orInsert sessionId).1.Made := by
  rcases orInsert_cases r sessionId with ⟨handle, -, heq⟩ | ⟨-, heq⟩
  · rw [heq]
    exact h
  · rw [heq]
    intro other handle hget
    show handle < r.nextLog + 1
    rcases Map.lookup_insert_some hget with ⟨-, rfl⟩ | ⟨-, hold⟩
    · exact Nat.lt_succ_self _
    · exact Nat.lt_succ_of_lt (h other handle hold)

theorem orInsert_spec (h : r.Made) (sessionId : String) :
    (r.orInsert sessionId).2 < (r.orInsert sessionId).1.nextLog ∧ r.nextLog ≤ (r.orInsert sessionId).1.nextLog ∧
      ∀ handle, handle < r.nextLog → (r.orInsert sessionId).1.logs handle = r.logs handle := by
  rcases orInsert_cases r sessionId with ⟨handle, hget, heq⟩ | ⟨-, heq⟩
  · rw [heq]
    exact ⟨h sessionId handle hget, le_rfl, fun _ _ => rfl⟩
  · rw [heq]
    refine ⟨Nat.lt_succ_self _, Nat.le_succ _, ?_⟩
    intro handle hlt
    exact Function.update_of_ne (Nat.ne_of_lt hlt) _ _

theorem len_orInsert (hlen : r.sessions.len ≤ maxAuditSessions)
    (hroom : sessionId ∉ r.sessions → r.sessions.len < maxAuditSessions) :
    (r.orInsert sessionId).1.sessions.len ≤ maxAuditSessions := by
  rcases orInsert_cases r sessionId with ⟨handle, -, heq⟩ | ⟨hnot, heq⟩
  · rw [heq]
    exact hlen
  · rw [heq]
    show Map.len (r.sessions.insert sessionId r.nextLog) ≤ _
    rw [Map.len_insert hnot]
    exact hroom hnot

/-- The registry into which `create` inserts the session. -/
def makeRoom (r : AuditRegistry) (sessionId firstKey : String) : AuditRegistry :=
  if r.mustEvict sessionId then r.remove firstKey else r

theorem create_eq (r : AuditRegistry) (sessionId firstKey : String) :
    r.create sessionId firstKey = (r.makeRoom sessionId firstKey).orInsert sessionId := rfl

theorem makeRoom_spec (h : r.Made) (sessionId firstKey : String) : (r.makeRoom sessionId firstKey).Made ∧
    (r.makeRoom sessionId firstKey).nextLog = r.nextLog ∧ (r.makeRoom sessionId firstKey).logs = r.logs := by
  rw [makeRoom]
  split
  · exact ⟨h.remove firstKey, rfl, rfl⟩
  · exact ⟨h, rfl, rfl⟩

theorem len_create (hlen : r.sessions.len ≤ maxAuditSessions) (hfirst : r.mustEvict sessionId → firstKey ∈ r.sessions) :
    (r.create sessionId firstKey).1.sessions.len ≤ maxAuditSessions := by
  rw [create_eq, makeRoom]
  by_cases hfull : r.mustEvict sessionId
  · rw [if_pos hfull]
    have herase : Map.len (r.sessions.erase firstKey) + 1 = r.sessions.len := Map.len_erase (hfirst hfull)
    have hlt : (r.remove firstKey).sessions.len < maxAuditSessions := by
      show Map.len (r.sessions.erase firstKey) < _
      omega
    exact len_orInsert hlt.le fun _ => hlt
  · rw [if_neg hfull]
    refine len_orInsert hlen fun hnot => ?_
    rw [mustEvict, Bool.and_eq_true, decide_eq_true_eq, decide_eq_true_eq, not_and] at hfull
    exact Nat.lt_of_not_le fun hle => hfull hle hnot

end AuditRegistry

/-! ## What an orderly step keeps -/

/-- The limit, the order of the evictions, and that every entry is in the log that the session then had. -/
structure Inv (s : State) : Prop where
  capped : s.registry.sessions.len ≤ maxAuditSessions
  oldest : ∀ e ∈ s.evictions, e.first = some e.evicted
  made : s.registry.Made
  held : ∀ t sessionId handle given, s.threads t = some (.holding sessionId handle given) → handle < s.registry.nextLog
  kept : ∀ r ∈ s.recorded, ∀ handle, r.current = some handle →
    handle < s.registry.nextLog ∧ r.entry ∈ (s.registry.logs handle).all

variable {s s' : State}

theorem inv_of_initial (h : Initial s) : Inv s := by
  rw [h]
  refine ⟨Nat.zero_le _, ?_, AuditRegistry.made_new, ?_, ?_⟩
  · intro e he
    cases he
  · intro t sessionId handle given ht
    cases ht
  · intro r hr
    cases hr

theorem Inv.look (hs : Inv s) {t : ℕ} {thread : Recorder}
    (hthread : ∀ sessionId handle given, thread = .holding sessionId handle given → handle < s.registry.nextLog) :
    Inv { s with threads := Function.update s.threads t (some thread) } := by
  refine ⟨hs.capped, hs.oldest, hs.made, ?_, hs.kept⟩
  intro u sessionId handle given hu
  rcases update_some_cases hu with ⟨-, heq⟩ | ⟨-, hu⟩
  · exact hthread sessionId handle given heq.symm
  · exact hs.held u sessionId handle given hu

theorem Inv.create (hs : Inv s) {t : ℕ} {sessionId firstKey : String} {given : Http.Audit.AuditEntry}
    (hfirst : s.registry.mustEvict sessionId → firstKey ∈ s.registry.sessions)
    (holdest : s.registry.mustEvict sessionId → s.registry.sessions.oldest = some firstKey) :
    Inv { s with
      registry := (s.registry.create sessionId firstKey).1
      threads := Function.update s.threads t (some (.holding sessionId (s.registry.create sessionId firstKey).2 given))
      evictions := if s.registry.mustEvict sessionId then ⟨firstKey, s.registry.sessions.oldest⟩ :: s.evictions
        else s.evictions } := by
  obtain ⟨hmade, hnext, hlogs⟩ := AuditRegistry.makeRoom_spec hs.made sessionId firstKey
  obtain ⟨hhandle, hle, hsame⟩ := AuditRegistry.orInsert_spec hmade sessionId
  rw [← AuditRegistry.create_eq] at hhandle hle hsame
  rw [hnext] at hle hsame
  rw [hlogs] at hsame
  refine ⟨AuditRegistry.len_create hs.capped hfirst, ?_, hmade.orInsert sessionId, ?_, ?_⟩
  · intro e he
    by_cases hfull : s.registry.mustEvict sessionId
    · simp only [if_pos hfull] at he
      rcases List.mem_cons.mp he with rfl | he
      · exact holdest hfull
      · exact hs.oldest e he
    · simp only [if_neg hfull] at he
      exact hs.oldest e he
  · intro u other handle given' hu
    rcases update_some_cases hu with ⟨-, heq⟩ | ⟨-, hu⟩
    · cases heq
      exact hhandle
    · exact lt_of_lt_of_le (hs.held u other handle given' hu) hle
  · intro r hr handle hcurrent
    obtain ⟨hlt, hmem⟩ := hs.kept r hr handle hcurrent
    refine ⟨lt_of_lt_of_le hlt hle, ?_⟩
    show r.entry ∈ ((s.registry.create sessionId firstKey).1.logs handle).all
    rw [hsame handle hlt]
    exact hmem

theorem mem_append_of_lt {log : AuditLog} (hroom : log.entries.length < maxAuditEntries) (entry other : AuditEntry) :
    other ∈ (log.append entry).all ↔ other ∈ log.all ∨ other = entry := by
  show other ∈ push maxAuditEntries log.entries entry ↔ other ∈ log.entries ∨ _
  rw [push_of_lt hroom, List.mem_append, List.mem_singleton]

theorem Inv.record (hs : Inv s) {t handle : ℕ} {sessionId : String} {given : Http.Audit.AuditEntry} {entry : AuditEntry}
    (ht : s.threads t = some (.holding sessionId handle given))
    (hcurrent : s.registry.get sessionId = some handle ∨ s.registry.get sessionId = none)
    (hroom : (s.registry.logs handle).entries.length < maxAuditEntries) :
    Inv { s with
      registry := s.registry.append handle entry
      threads := Function.update s.threads t none
      recorded := ⟨sessionId, entry, s.registry.get sessionId⟩ :: s.recorded } := by
  refine ⟨hs.capped, hs.oldest, hs.made, ?_, ?_⟩
  · intro u other handle' given' hu
    exact hs.held u other handle' given' (update_none_cases hu).2
  · intro r hr handle' hr'
    show handle' < s.registry.nextLog ∧
      r.entry ∈ (Function.update s.registry.logs handle ((s.registry.logs handle).append entry) handle').all
    rcases List.mem_cons.mp hr with rfl | hr
    · rcases hcurrent with hget | hget
      · have hhandle : handle = handle' := Option.some.inj (hget.symm.trans hr')
        rw [← hhandle, Function.update_self]
        exact ⟨hs.held t sessionId handle given ht, (mem_append_of_lt hroom entry entry).mpr (Or.inr rfl)⟩
      · cases hget.symm.trans hr'
    · obtain ⟨hlt, hmem⟩ := hs.kept r hr handle' hr'
      refine ⟨hlt, ?_⟩
      by_cases heq : handle' = handle
      · rw [heq, Function.update_self]
        rw [heq] at hmem
        exact (mem_append_of_lt hroom entry r.entry).mpr (Or.inl hmem)
      · rw [Function.update_of_ne heq]
        exact hmem

theorem Inv.remove (hs : Inv s) (sessionId : String) : Inv { s with registry := s.registry.remove sessionId } :=
  ⟨le_trans (Map.len_erase_le sessionId s.registry.sessions) hs.capped, hs.oldest, hs.made.remove sessionId, hs.held,
    hs.kept⟩

/-- **Step lemma.** -/
theorem inv_step {a : Action} (hs : Inv s) (hok : Orderly s a) (hstep : step s a = some s') : Inv s' := by
  cases a with
  | look t sessionId given =>
    rw [step] at hstep
    split at hstep
    · cases hstep
    · split at hstep
      · next handle hget =>
        obtain rfl := Option.some.inj hstep
        refine hs.look fun other handle' given' heq => ?_
        cases heq
        exact hs.made sessionId handle hget
      · obtain rfl := Option.some.inj hstep
        exact hs.look fun other handle' given' heq => by cases heq
  | create t firstKey =>
    rw [step] at hstep
    split at hstep
    · next sessionId given ht =>
      obtain ⟨hfirst, rfl⟩ := of_unless hstep
      rw [not_and, not_not] at hfirst
      exact hs.create hfirst (hok sessionId given ht)
    · cases hstep
  | record t sequence timestampMs durationUs =>
    rw [step] at hstep
    split at hstep
    · next sessionId handle given ht =>
      obtain rfl := Option.some.inj hstep
      obtain ⟨hcurrent, hroom⟩ := hok sessionId handle given ht
      exact hs.record ht hcurrent hroom
    · cases hstep
  | remove sessionId =>
    obtain rfl := Option.some.inj hstep
    exact hs.remove sessionId

theorem Inv.sound (hs : Inv s) : s.Sound := by
  refine ⟨hs.capped, hs.oldest, ?_⟩
  rintro r hr ⟨hsome, hget⟩
  obtain ⟨handle, hcurrent⟩ := Option.isSome_iff_exists.mp hsome
  refine ⟨(s.registry.logs handle).all, ?_, (hs.kept r hr handle hcurrent).2⟩
  rw [AuditRegistry.exported, hget, hcurrent]
  rfl

/-- **In orderly runs the registry is sound.** -/
theorem sound_of_orderly (h : ReachableWhen Initial step Orderly s) : s.Sound :=
  (h.invariant (fun _ => inv_of_initial) fun _ _ _ => inv_step).sound

/-- **The registry never holds more logs than the limit**, whatever the threads do. -/
theorem capped_of_reachable (h : ReachableWhen Initial step (fun _ _ => True) s) :
    s.registry.sessions.len ≤ maxAuditSessions := by
  refine h.invariant (I := fun s => s.registry.sessions.len ≤ maxAuditSessions) (fun _ hinit => ?_)
    fun s a s' hs _ hstep => ?_
  · rw [hinit]
    exact Nat.zero_le _
  · cases a with
    | look t sessionId given =>
      rw [step] at hstep
      split at hstep
      · cases hstep
      · split at hstep
        · obtain rfl := Option.some.inj hstep
          exact hs
        · obtain rfl := Option.some.inj hstep
          exact hs
    | create t firstKey =>
      rw [step] at hstep
      split at hstep
      · obtain ⟨hfirst, rfl⟩ := of_unless hstep
        rw [not_and, not_not] at hfirst
        exact AuditRegistry.len_create hs hfirst
      · cases hstep
    | record t sequence timestampMs durationUs =>
      rw [step] at hstep
      split at hstep
      · obtain rfl := Option.some.inj hstep
        exact hs
      · cases hstep
    | remove sessionId =>
      obtain rfl := Option.some.inj hstep
      exact le_trans (Map.len_erase_le sessionId s.registry.sessions) hs

/-! ## Runs in which it is not -/

def start : State := ⟨.new, fun _ => none, [], []⟩

def sessionName (n : ℕ) : String := String.ofList (List.replicate n 's')

theorem sessionName_injective : Function.Injective sessionName := by
  intro n m h
  have hlist := congrArg String.toList h
  rw [sessionName, sessionName, String.toList_ofList, String.toList_ofList] at hlist
  simpa using congrArg List.length hlist

theorem mem_of_keys {m : Map String ℕ} {n k : ℕ} (hkeys : m.keys = (List.range n).reverse.map sessionName) :
    sessionName k ∈ m ↔ k < n := by
  rw [AList.mem_keys, hkeys, List.mem_map_of_injective sessionName_injective, List.mem_reverse, List.mem_range]

/-- Threads that have made `n` sessions, one each. -/
theorem exists_filled (n : ℕ) (hn : n ≤ maxAuditSessions) : ∃ s, ReachableWhen Initial step Orderly s ∧
    s.evictions = [] ∧ (∀ m, n ≤ m → s.threads m = none) ∧
      s.registry.sessions.keys = (List.range n).reverse.map sessionName := by
  induction n with
  | zero => exact ⟨start, .init rfl, rfl, fun _ _ => rfl, rfl⟩
  | succ n ih =>
    obtain ⟨s, hs, hevictions, hidle, hkeys⟩ := ih (by omega)
    have hnew : sessionName n ∉ s.registry.sessions := fun hmem => Nat.lt_irrefl _ ((mem_of_keys hkeys).mp hmem)
    have hroom : s.registry.mustEvict (sessionName n) = false := by
      rw [AuditRegistry.mustEvict, Map.len_eq_keys, hkeys, List.length_map, List.length_reverse, List.length_range,
        decide_eq_false (by omega)]
      rfl
    have hget : s.registry.get (sessionName n) = none := AList.lookup_eq_none.mpr hnew
    have hlook := hs.step (a := Action.look n (sessionName n) echoGiven) trivial (by rw [step, hidle n le_rfl, hget])
    have hcreate := hlook.step (a := Action.create n "") (fun sessionId given ht hfull => ?_) (by
      rw [step]
      simp only [Function.update_self]
      rw [if_neg (by simp [hroom])])
    · refine ⟨_, hcreate, ?_, ?_, ?_⟩
      · show (if s.registry.mustEvict (sessionName n) then _ else s.evictions) = []
        rw [hroom, if_neg Bool.false_ne_true, hevictions]
      · intro m hm
        show Function.update (Function.update s.threads n _) n _ m = none
        rw [Function.update_of_ne (by omega), Function.update_of_ne (by omega)]
        exact hidle m (by omega)
      · show (s.registry.create (sessionName n) "").1.sessions.keys = _
        rw [AuditRegistry.create, hroom, if_neg Bool.false_ne_true, AuditRegistry.orInsert, hget]
        show (s.registry.sessions.insert (sessionName n) s.registry.nextLog).keys = _
        rw [AList.keys_insert, List.erase_of_not_mem (by rwa [← AList.mem_keys]), hkeys, List.range_succ,
          List.reverse_append, List.reverse_singleton, List.singleton_append, List.map_cons]
    · -- there is still room, so nothing is evicted
      simp only [Function.update_self] at ht
      obtain ⟨rfl, -⟩ := Recorder.missed.inj (Option.some.inj ht)
      exact absurd (hroom.symm.trans hfull) Bool.false_ne_true

/-- The registry is full, and a thread waits to make another session. -/
theorem exists_waiting : ∃ s, ReachableWhen Initial step Orderly s ∧ s.evictions = [] ∧
    s.threads maxAuditSessions = some (.missed (sessionName maxAuditSessions) echoGiven) ∧
      s.registry.mustEvict (sessionName maxAuditSessions) = true ∧
      s.registry.sessions.keys = (List.range maxAuditSessions).reverse.map sessionName := by
  obtain ⟨s, hs, hevictions, hidle, hkeys⟩ := exists_filled maxAuditSessions le_rfl
  have hnew : sessionName maxAuditSessions ∉ s.registry.sessions :=
    fun hmem => Nat.lt_irrefl _ ((mem_of_keys hkeys).mp hmem)
  have hget : s.registry.get (sessionName maxAuditSessions) = none := AList.lookup_eq_none.mpr hnew
  have hlook := hs.step (a := Action.look maxAuditSessions (sessionName maxAuditSessions) echoGiven) trivial (by
    rw [step, hidle maxAuditSessions le_rfl, hget])
  refine ⟨_, hlook, hevictions, by simp only [Function.update_self], ?_, hkeys⟩
  show s.registry.mustEvict (sessionName maxAuditSessions) = true
  rw [AuditRegistry.mustEvict, Map.len_eq_keys, hkeys, List.length_map, List.length_reverse, List.length_range,
    Bool.and_eq_true, decide_eq_true_eq, decide_eq_true_eq]
  exact ⟨le_rfl, hnew⟩

theorem oldest_of_keys {m : Map String ℕ} (hkeys : m.keys = (List.range maxAuditSessions).reverse.map sessionName) :
    m.oldest = some (sessionName 0) := by
  rw [Map.oldest, hkeys, List.getLast?_map, List.getLast?_reverse, List.head?_range, if_neg (by decide)]
  rfl

/-- Two threads at once, one of which records for a session that is gone; and a full registry that evicts. -/
theorem sound_of_orderly_two : (∃ s, runActions step (fun _ _ => true) start
    [.look 0 "session-A" echoGiven, .look 1 "session-B" echoGiven, .create 1 "", .create 0 "", .remove "session-B",
      .record 0 1 5 5, .record 1 2 6 6] = some s ∧ s.recorded.length = 2 ∧ s.Sound) ∧
    ∃ s, ReachableWhen Initial step Orderly s ∧ s.evictions.length = 1 ∧ s.Sound := by
  constructor
  · have hroom : ∀ s : State, s.registry.sessions.len < maxAuditSessions → ∀ t, Orderly s (.create t "") := by
      intro s hlen t sessionId given _ hfull
      rw [AuditRegistry.mustEvict, Bool.and_eq_true, decide_eq_true_eq] at hfull
      omega
    have hstart : ReachableWhen Initial step Orderly start := .init rfl
    have hlooked := (hstart.step (a := Action.look 0 "session-A" echoGiven) trivial rfl).step
      (a := Action.look 1 "session-B" echoGiven) trivial rfl
    have hcreated := (hlooked.step (a := Action.create 1 "") (hroom _ (by decide) 1) rfl).step
      (a := Action.create 0 "") (hroom _ (by decide) 0) rfl
    have hremoved := hcreated.step (a := Action.remove "session-B") trivial rfl
    have hfirst := hremoved.step (a := Action.record 0 1 5 5) (fun sessionId handle given ht => ?_) rfl
    · refine ⟨_, rfl, rfl, sound_of_orderly (hfirst.step (a := Action.record 1 2 6 6) ?_ rfl)⟩
      intro sessionId handle given ht
      cases ht
      exact ⟨Or.inr rfl, by decide⟩
    · cases ht
      exact ⟨Or.inl rfl, by decide⟩
  · obtain ⟨s, hs, hevictions, hwaits, hfull, hkeys⟩ := exists_waiting
    have holdest : sessionName 0 ∈ s.registry.sessions := (mem_of_keys hkeys).mpr (by decide)
    have hcreate := hs.step (a := Action.create maxAuditSessions (sessionName 0))
      (fun _ _ _ _ => oldest_of_keys hkeys) (by
        rw [step]
        simp only [hwaits]
        rw [if_neg (by simp [holdest])])
    refine ⟨_, hcreate, ?_, sound_of_orderly hcreate⟩
    show (if s.registry.mustEvict (sessionName maxAuditSessions) then _ else s.evictions).length = 1
    rw [if_pos hfull, hevictions]
    rfl

/-- The bound is reached. -/
theorem capped_of_reachable_full : ∃ s, ReachableWhen Initial step (fun _ _ => True) s ∧
    s.registry.mustEvict (sessionName maxAuditSessions) = true ∧ s.registry.sessions.len ≤ maxAuditSessions := by
  obtain ⟨s, hs, -, -, hfull, -⟩ := exists_waiting
  have hrun : ReachableWhen Initial step (fun _ _ => True) s := hs.mono fun _ _ _ => trivial
  exact ⟨s, hrun, hfull, capped_of_reachable hrun⟩

theorem newest_evicted : ∃ s, ReachableWhen Initial step (fun _ _ => True) s ∧
    ∃ e ∈ s.evictions, e.first ≠ some e.evicted := by
  obtain ⟨s, hs, -, hwaits, hfull, hkeys⟩ := exists_waiting
  have hrun : ReachableWhen Initial step (fun _ _ => True) s := hs.mono fun _ _ _ => trivial
  have hnewest : sessionName (maxAuditSessions - 1) ∈ s.registry.sessions := (mem_of_keys hkeys).mpr (by decide)
  have hcreate := hrun.step (a := Action.create maxAuditSessions (sessionName (maxAuditSessions - 1))) trivial (by
    rw [step]
    simp only [hwaits]
    rw [if_neg (by simp [hnewest])])
  refine ⟨_, hcreate, ⟨sessionName (maxAuditSessions - 1), s.registry.sessions.oldest⟩, ?_, ?_⟩
  · show _ ∈ if s.registry.mustEvict (sessionName maxAuditSessions) then _ else s.evictions
    rw [if_pos hfull]
    exact List.mem_cons_self
  · rw [oldest_of_keys hkeys]
    intro h
    exact absurd (sessionName_injective (Option.some.inj h)) (by decide)

/-- The session is removed while a thread holds its log, and another thread makes a new log for it. -/
def orphaned : List Action :=
  [.look 0 "session-A" echoGiven, .create 0 "", .remove "session-A", .look 1 "session-A" echoGiven, .create 1 "",
    .record 0 1 5 5]

theorem orphaned_not_visible : ∃ s, ReachableWhen Initial step (fun _ _ => True) s ∧
    ∃ r ∈ s.recorded, r.StillPresent s ∧ ¬ r.Visible s := by
  have hrun : (runActions step (fun _ _ => true) start orphaned).isSome = true := by decide
  obtain ⟨s, hs⟩ := Option.isSome_iff_exists.mp hrun
  have hseen : (runActions step (fun _ _ => true) start orphaned).map (fun s => (s.registry.get "session-A",
      s.recorded.map (fun r => (r.sessionId, r.current)), (s.registry.exported "session-A").map List.length)) =
      some (some 1, [("session-A", some 1)], some 0) := by decide
  rw [hs, Option.map_some, Option.some.injEq, Prod.mk.injEq, Prod.mk.injEq] at hseen
  obtain ⟨hget, hrecorded, hexported⟩ := hseen
  refine ⟨s, ReachableWhen.runActions (fun _ _ _ => trivial) (.init rfl) hs, ?_⟩
  obtain ⟨r, hr, hpair⟩ : ∃ r ∈ s.recorded, (r.sessionId, r.current) = ("session-A", some 1) := by
    refine List.mem_map.mp ?_
    rw [hrecorded]
    exact List.mem_singleton_self _
  obtain ⟨hname, hcurrent⟩ := Prod.mk.injEq .. ▸ hpair
  refine ⟨r, hr, ⟨by rw [hcurrent]; rfl, by rw [hname, hcurrent, hget]⟩, ?_⟩
  rintro ⟨entries, hentries, hmem⟩
  rw [hname] at hentries
  rw [hentries, Option.map_some, Option.some.injEq, List.length_eq_zero_iff] at hexported
  rw [hexported] at hmem
  cases hmem

/-- Neither the order of the evictions nor what can be seen is as it should be. -/
theorem registry_not_sound : (¬ ∀ s, ReachableWhen Initial step (fun _ _ => True) s → s.Sound) ∧
    (∃ s, ReachableWhen Initial step (fun _ _ => True) s ∧ ∃ e ∈ s.evictions, e.first ≠ some e.evicted) ∧
    ∃ s, ReachableWhen Initial step (fun _ _ => True) s ∧ ∃ r ∈ s.recorded, r.StillPresent s ∧ ¬ r.Visible s := by
  refine ⟨?_, newest_evicted, orphaned_not_visible⟩
  intro h
  obtain ⟨s, hs, e, he, hne⟩ := newest_evicted
  exact hne ((h s hs).oldest e he)

end VelocityMcp.Audit.Registry
