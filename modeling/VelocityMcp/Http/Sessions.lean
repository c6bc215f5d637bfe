import VelocityMcp.Audit.Registry

/-!
# Http.Sessions — the table of sessions and its clean-up (`http.rs`)

`active_kept_iff`: when the sessions that have been used lately are kept.
-/

namespace VelocityMcp.Http.Sessions

open Lib
open VelocityMcp.Http.Audit (Endpoint)
open VelocityMcp.Audit (AuditEntry)
open VelocityMcp.Audit.Registry (AuditRegistry)

def maxSessions : ℕ := 10000

/-- `SESSION_TTL`, in nanoseconds. -/
def sessionTtl : ℕ := 30 * 60 * 1000000000

/-- A session, under its id; the times are those of the clock. -/
structure Session where
  createdAt : ℕ
  lastActivity : ℕ
  requestCount : UInt64

/-- The clock, the sessions and their audit logs; and when each session was last used, and last used in a way that the
table notes (nothing if it has been deleted since). -/
structure State where
  now : ℕ
  sessions : Map String Session
  audit : AuditRegistry
  used : String → Option ℕ
  noted : String → Option ℕ

namespace State

/-- The session has been used. -/
def use (s : State) (sid : String) : State := { s with used := Function.update s.used sid (some s.now) }

/-- The table notes the use of the session. -/
def note (s : State) (sid : String) (session : Session) : State :=
  { s with
    sessions := s.sessions.insert sid session
    noted := Function.update s.noted sid (some s.now) }

/-- The beginning of `handle_streamable`: the session is made or found, and its activity is noted. -/
def streamable (s : State) (sid : String) : State :=
  if maxSessions ≤ s.sessions.len then s
  else
    let session := (s.sessions.lookup sid).getD ⟨s.now, s.now, 0⟩
    s.note sid { session with
      lastActivity := s.now
      requestCount := session.requestCount + 1 }

/-- The beginning of `sse_handler`: the session is made, or found as it is. -/
def sse (s : State) (sid : String) : State :=
  if maxSessions ≤ s.sessions.len then s
  else
    match s.sessions.lookup sid with
    | some _ => s
    | none => s.note sid ⟨s.now, s.now, 0⟩

/-- `delete_session`: the session and its audit log go, if there is such a session. -/
def delete (s : State) (sid : String) : State :=
  if sid ∈ s.sessions then
    { s with
      sessions := s.sessions.erase sid
      audit := s.audit.remove sid
      used := Function.update s.used sid none
      noted := Function.update s.noted sid none }
  else s

/-- Whether a session has not been idle for too long. -/
def keeps (s : State) (session : Session) : Bool := s.now - session.lastActivity < sessionTtl

/-- The sessions that `cleanup_sessions` evicts. -/
def evicted (s : State) : List String := (s.sessions.entries.filter fun e => !s.keeps e.2).map Sigma.fst

/-- `cleanup_sessions`. -/
def cleanup (s : State) : State :=
  { s with
    sessions := s.sessions.retain fun _ session => s.keeps session
    audit := s.evicted.foldl AuditRegistry.remove s.audit }

end State

/-- What may happen next: time passes, a request is handled, an SSE stream is opened, a call is recorded, a session is
deleted, or the clean-up ticks. -/
inductive Action where
  | wait (time : ℕ)
  | request (endpoint : Endpoint) (sid : String)
  | sse (sid : String)
  | record (sid firstKey : String) (entry : AuditEntry)
  | delete (sid : String)
  | cleanup

/-- One step; of the endpoints that handle requests only `/mcp/stream` looks at the table. -/
def step (s : State) : Action → Option State
  | .wait time => some { s with now := s.now + time }
  | .request .stream sid => some ((s.streamable sid).use sid)
  | .request _ sid => some (s.use sid)
  | .sse sid => some ((s.sse sid).use sid)
  | .record sid firstKey entry =>
    some { s with audit := (s.audit.create sid firstKey).1.append (s.audit.create sid firstKey).2 entry }
  | .delete sid => some (s.delete sid)
  | .cleanup => some s.cleanup

/-- The server starts. -/
def Initial (s : State) : Prop := s = ⟨0, ∅, .new, fun _ => none, fun _ => none⟩

namespace State

/-- It is less than the limit ago, and the session has not been deleted since. -/
def Recent (s : State) (times : String → Option ℕ) (sid : String) : Prop :=
  ∃ time, times sid = some time ∧ s.now - time < sessionTtl

/-- The clean-up leaves the session, and its audit log as it is. -/
def Kept (s : State) (sid : String) : Prop :=
  sid ∈ s.cleanup.sessions ∧ s.cleanup.audit.exported sid = s.audit.exported sid

end State

/-! ## What the table notes -/

/-- The table has the time of the last use noted, and every session whose last use noted is recent. -/
structure Inv (s : State) : Prop where
  noted : ∀ sid session, s.sessions.lookup sid = some session → s.noted sid = some session.lastActivity
  present : ∀ sid, s.Recent s.noted sid → ∃ session, s.sessions.lookup sid = some session
  past : ∀ sid time, s.noted sid = some time → time ≤ s.now

variable {s s' : State}

theorem inv_of_initial (h : Initial s) : Inv s := by
  rw [h]
  refine ⟨?_, ?_, ?_⟩
  · intro sid session hsession
    cases hsession
  · rintro sid ⟨time, htime, -⟩
    cases htime
  · intro sid time htime
    cases htime

theorem Inv.use (hs : Inv s) (sid : String) : Inv (s.use sid) := ⟨hs.noted, hs.present, hs.past⟩

theorem Inv.note (hs : Inv s) {sid : String} {session : Session} (hnow : session.lastActivity = s.now) :
    Inv (s.note sid session) := by
  refine ⟨?_, ?_, ?_⟩
  · intro other session' hlookup
    show Function.update s.noted sid (some s.now) other = _
    rcases Map.lookup_insert_some hlookup with ⟨rfl, rfl⟩ | ⟨hne, hlookup⟩
    · rw [Function.update_self, hnow]
    · rw [Function.update_of_ne hne]
      exact hs.noted other session' hlookup
  · rintro other ⟨time, htime, hrecent⟩
    rcases update_some_cases htime with ⟨rfl, -⟩ | ⟨hne, htime⟩
    · exact ⟨session, AList.lookup_insert _⟩
    · obtain ⟨session', hlookup⟩ := hs.present other ⟨time, htime, hrecent⟩
      exact ⟨session', (AList.lookup_insert_ne hne).trans hlookup⟩
  · intro other time htime
    rcases update_some_cases htime with ⟨-, rfl⟩ | ⟨-, htime⟩
    · exact le_rfl
    · exact hs.past other time htime

theorem Inv.streamable (hs : Inv s) (sid : String) : Inv (s.streamable sid) := by
  rw [State.streamable]
  split
  · exact hs
  · exact hs.note rfl

theorem Inv.sse (hs : Inv s) (sid : String) : Inv (s.sse sid) := by
  rw [State.sse]
  split
  · exact hs
  · split
    · exact hs
    · exact hs.note rfl

theorem Inv.delete (hs : Inv s) (sid : String) : Inv (s.delete sid) := by
  rw [State.delete]
  split
  · refine ⟨?_, ?_, ?_⟩
    · intro other session hlookup
      obtain ⟨hne, hlookup⟩ := Map.lookup_erase_some hlookup
      show Function.update s.noted sid none other = _
      rw [Function.update_of_ne hne]
      exact hs.noted other session hlookup
    · rintro other ⟨time, htime, hrecent⟩
      obtain ⟨hne, htime⟩ := update_none_cases htime
      obtain ⟨session, hlookup⟩ := hs.present other ⟨time, htime, hrecent⟩
      exact ⟨session, (AList.lookup_erase_ne hne).trans hlookup⟩
    · intro other time htime
      exact hs.past other time (update_none_cases htime).2
  · exact hs

theorem lookup_cleanup (s : State) (sid : String) (session : Session) :
    s.cleanup.sessions.lookup sid = some session ↔ s.sessions.lookup sid = some session ∧ s.keeps session = true := by
  show AList.lookup sid (s.sessions.retain fun _ session => s.keeps session) = _ ↔ _
  rw [Map.lookup_retain, Option.filter_eq_some_iff]

theorem Inv.cleanup (hs : Inv s) : Inv s.cleanup := by
  refine ⟨?_, ?_, hs.past⟩
  · intro sid session hlookup
    exact hs.noted sid session ((lookup_cleanup s sid session).mp hlookup).1
  · rintro sid ⟨time, htime, hrecent⟩
    obtain ⟨session, hlookup⟩ := hs.present sid ⟨time, htime, hrecent⟩
    refine ⟨session, (lookup_cleanup s sid session).mpr ⟨hlookup, decide_eq_true ?_⟩⟩
    have hlast : session.lastActivity = time := Option.some.inj ((hs.noted sid session hlookup).symm.trans htime)
    rw [hlast]
    exact hrecent

theorem Inv.wait (hs : Inv s) (time : ℕ) : Inv { s with now := s.now + time } := by
  refine ⟨hs.noted, ?_, fun sid noted hnoted => le_trans (hs.past sid noted hnoted) (Nat.le_add_right _ _)⟩
  rintro sid ⟨noted, hnoted, hrecent⟩
  refine hs.present sid ⟨noted, hnoted, ?_⟩
  have hpast := hs.past sid noted hnoted
  have hlater : s.now + time - noted < sessionTtl := hrecent
  omega

/-- **Step lemma.** -/
theorem inv_step {a : Action} (hs : Inv s) (hstep : step s a = some s') : Inv s' := by
  cases a with
  | wait time =>
    obtain rfl := Option.some.inj hstep
    exact hs.wait time
  | request endpoint sid =>
    cases endpoint with
    | stream =>
      obtain rfl := Option.some.inj hstep
      exact (hs.streamable sid).use sid
    | mcp | nda | batch | websocket =>
      obtain rfl := Option.some.inj hstep
      exact hs.use sid
  | sse sid =>
    obtain rfl := Option.some.inj hstep
    exact (hs.sse sid).use sid
  | record sid firstKey entry =>
    obtain rfl := Option.some.inj hstep
    exact ⟨hs.noted, hs.present, hs.past⟩
  | delete sid =>
    obtain rfl := Option.some.inj hstep
    exact hs.delete sid
  | cleanup =>
    obtain rfl := Option.some.inj hstep
    exact hs.cleanup

/-! ## What the clean-up leaves -/

theorem exported_remove {r : AuditRegistry} {sid other : String} (h : sid ≠ other) :
    (r.remove other).exported sid = r.exported sid := by
  rw [AuditRegistry.exported, AuditRegistry.exported, AuditRegistry.get, AuditRegistry.get]
  show (AList.lookup sid (r.sessions.erase other)).map _ = _
  rw [AList.lookup_erase_ne h]
  rfl

theorem exported_foldl_remove {r : AuditRegistry} {sid : String} {sids : List String} (h : sid ∉ sids) :
    (sids.foldl AuditRegistry.remove r).exported sid = r.exported sid := by
  induction sids generalizing r with
  | nil => rfl
  | cons other sids ih =>
    rw [List.mem_cons, not_or] at h
    rw [List.foldl_cons, ih h.2, exported_remove h.1]

theorem mem_evicted (s : State) (sid : String) :
    sid ∈ s.evicted ↔ ∃ session, s.sessions.lookup sid = some session ∧ s.keeps session = false := by
  rw [State.evicted, List.mem_map]
  constructor
  · rintro ⟨⟨other, session⟩, hmem, rfl⟩
    rw [List.mem_filter, Bool.not_eq_true'] at hmem
    exact ⟨session, AList.mem_lookup_iff.mpr hmem.1, hmem.2⟩
  · rintro ⟨session, hlookup, hkeeps⟩
    refine ⟨⟨sid, session⟩, List.mem_filter.mpr ⟨AList.mem_lookup_iff.mp hlookup, ?_⟩, rfl⟩
    rw [hkeeps]
    rfl

theorem Inv.kept_iff (hs : Inv s) (sid : String) : s.Kept sid ↔ s.Recent s.noted sid := by
  constructor
  · rintro ⟨hmem, -⟩
    obtain ⟨session, hlookup⟩ := Option.isSome_iff_exists.mp (AList.lookup_isSome.mpr hmem)
    obtain ⟨hlookup, hkeeps⟩ := (lookup_cleanup s sid session).mp hlookup
    exact ⟨session.lastActivity, hs.noted sid session hlookup, of_decide_eq_true hkeeps⟩
  · intro hrecent
    obtain ⟨session, hlookup⟩ := hs.cleanup.present sid hrecent
    refine ⟨AList.lookup_isSome.mp (Option.isSome_iff_exists.mpr ⟨session, hlookup⟩), exported_foldl_remove ?_⟩
    rw [mem_evicted]
    rintro ⟨other, hother, hidle⟩
    obtain ⟨hlookup, hkeeps⟩ := (lookup_cleanup s sid session).mp hlookup
    obtain rfl := Option.some.inj (hlookup.symm.trans hother)
    exact absurd hkeeps (by rw [hidle]; exact Bool.false_ne_true)

/-- **The clean-up keeps the sessions used recently exactly if the table has noted a recent use of each of them**, in
every run. -/
theorem active_kept_iff (h : ReachableWhen Initial step (fun _ _ => True) s) :
    (∀ sid, s.Recent s.used sid → s.Kept sid) ↔ ∀ sid, s.Recent s.used sid → s.Recent s.noted sid := by
  have hs : Inv s := h.invariant (fun _ => inv_of_initial) fun _ _ _ hs _ => inv_step hs
  exact forall_congr' fun sid => imp_congr_right fun _ => hs.kept_iff sid

def start : State := ⟨0, ∅, .new, fun _ => none, fun _ => none⟩

/-- A session that has just been used for a stream. -/
theorem active_kept_iff_streamed : ∃ s, step start (.request .stream "session-A") = some s ∧
    s.Recent s.used "session-A" ∧ ∀ sid, s.Recent s.used sid → s.Kept sid := by
  refine ⟨_, rfl, ⟨0, rfl, by decide⟩, ?_⟩
  have hstart : ReachableWhen Initial step (fun _ _ => True) start := .init rfl
  refine (active_kept_iff (hstart.step (a := Action.request .stream "session-A") trivial rfl)).mpr ?_
  rintro sid ⟨time, htime, hrecent⟩
  rcases update_some_cases htime with ⟨rfl, rfl⟩ | ⟨-, hnone⟩
  · exact ⟨0, rfl, hrecent⟩
  · cases hnone

/-- A session is made and used, a stream is opened in it a second before the limit, and a second later the clean-up
ticks. -/
def reconnected : List Action :=
  [.request .stream "session-A",
    .record "session-A" "" (VelocityMcp.Audit.recordFull 1 5 5 VelocityMcp.Audit.echoGiven),
    .wait (sessionTtl - 1000000000), .sse "session-A", .wait 1000000000]

theorem reconnected_gone : ∃ s, ReachableWhen Initial step (fun _ _ => True) s ∧ s.Recent s.used "session-A" ∧
    "session-A" ∉ s.cleanup.sessions ∧ (s.audit.exported "session-A").isSome ∧
      (s.cleanup.audit.exported "session-A").isNone := by
  obtain ⟨s, hs⟩ : ∃ s, runActions step (fun _ _ => true) start reconnected = some s := ⟨_, rfl⟩
  have hused : (runActions step (fun _ _ => true) start reconnected).map (fun s => (s.now, s.used "session-A")) =
      some (sessionTtl, some (sessionTtl - 1000000000)) := by rfl
  have hleft : (runActions step (fun _ _ => true) start reconnected).map (fun s =>
      (decide ("session-A" ∈ s.cleanup.sessions), (s.audit.exported "session-A").isSome,
        (s.cleanup.audit.exported "session-A").isNone)) = some (false, true, true) := by rfl
  rw [hs, Option.map_some, Option.some.injEq, Prod.mk.injEq] at hused
  rw [hs, Option.map_some, Option.some.injEq, Prod.mk.injEq, Prod.mk.injEq] at hleft
  refine ⟨s, ReachableWhen.runActions (fun _ _ _ => trivial) (.init rfl) hs, ⟨_, hused.2, ?_⟩,
    of_decide_eq_false hleft.1, hleft.2⟩
  rw [hused.1]
  decide

/-- A session that comes back over a WebSocket is swept as an old one. -/
theorem reconnected_expired : ¬ ∀ s, ReachableWhen Initial step (fun _ _ => True) s →
    ∀ sid, s.Recent s.used sid → s.Kept sid := by
  intro h
  obtain ⟨s, hs, hused, hgone, -⟩ := reconnected_gone
  exact hgone (h s hs "session-A" hused).1

end VelocityMcp.Http.Sessions
