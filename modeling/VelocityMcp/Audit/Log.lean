import VelocityMcp.Http.Audit
import VelocityMcp.Lib.Recent

/-!
# Audit.Log — the entries of an audit log and their numbers (`audit.rs`)

`latest_of_orderly`: when the log is in the order of the numbers and holds the highest ones.
-/

namespace VelocityMcp.Audit

open Lib Http.Audit

/-- An entry with its number and times. -/
structure AuditEntry where
  sequence : UInt64
  timestampMs : UInt64
  toolName : String
  durationUs : UInt64
  outcome : AuditOutcome
  transport : Option String
  payloadSize : Option UInt64
  responseSize : Option UInt64
  merkleRoot : Option String
  sessionId : Option String

def maxAuditEntries : ℕ := 10000

/-- `AuditLog`: its entries, the oldest first. -/
structure AuditLog where
  entries : List AuditEntry
  bounded : entries.length ≤ maxAuditEntries

namespace AuditLog

def new : AuditLog := ⟨[], Nat.zero_le _⟩

/-- The end of `record_full`, under the lock: the entry is added, and the oldest ones beyond the limit are dropped. -/
def append (log : AuditLog) (entry : AuditEntry) : AuditLog :=
  ⟨push maxAuditEntries log.entries entry, length_push_le _ _⟩

/-- `all`: the entries, the oldest first. -/
def all (log : AuditLog) : List AuditEntry := log.entries

/-- `recent`: the newest entries first. -/
def recent (log : AuditLog) (count : ℕ) : List AuditEntry := log.entries.reverse.take count

end AuditLog

/-- The entry `record_full` makes with the number and the times it reads. -/
def recordFull (sequence timestampMs durationUs : UInt64) (given : Http.Audit.AuditEntry) : AuditEntry :=
  { sequence := sequence
    timestampMs := timestampMs
    toolName := given.call.toolName
    durationUs := durationUs
    outcome := given.call.outcome
    transport := given.transport
    payloadSize := given.call.payloadSize
    responseSize := given.call.responseSize
    merkleRoot := given.call.merkleRoot
    sessionId := given.sessionId }

/-! ## Threads that record -/

/-- `AUDIT_SEQUENCE`, a log, and the threads in `record_full` on it, each with the entry that it is going to append; and
all the entries that were appended. -/
structure State where
  nextSequence : UInt64
  log : AuditLog
  threads : ℕ → Option AuditEntry
  recorded : List AuditEntry

/-- A thread draws a number and builds its entry, or locks the entries and appends it; or a number is drawn for another
log. -/
inductive Action where
  | draw (t : ℕ) (timestampMs durationUs : UInt64) (given : Http.Audit.AuditEntry)
  | append (t : ℕ)
  | drawElsewhere

/-- One step; `fetch_add` wraps. -/
def step (s : State) : Action → Option State
  | .draw t timestampMs durationUs given =>
    match s.threads t with
    | some _ => none
    | none => some { s with
        nextSequence := s.nextSequence + 1
        threads := Function.update s.threads t (some (recordFull s.nextSequence timestampMs durationUs given)) }
  | .append t =>
    match s.threads t with
    | none => none
    | some entry => some { s with
        log := s.log.append entry
        threads := Function.update s.threads t none
        recorded := s.recorded ++ [entry] }
  | .drawElsewhere => some { s with nextSequence := s.nextSequence + 1 }

/-- The process starts. -/
def Initial (s : State) : Prop := s = ⟨1, .new, fun _ => none, []⟩

/-- The order of the numbers. -/
def Before (a b : AuditEntry) : Prop := a.sequence < b.sequence

instance : DecidableRel Before := fun a b => inferInstanceAs (Decidable (a.sequence < b.sequence))

/-- The log is in strict order, and of what was recorded it holds the entries with the highest numbers. -/
def State.HoldsLatest (s : State) : Prop := Latest Before maxAuditEntries s.recorded s.log.all

/-- No number is drawn once the counter is about to wrap, and a thread appends its entry only when no other thread that
records into the log has a lower number. -/
def Orderly (s : State) : Action → Prop
  | .draw .. | .drawElsewhere => s.nextSequence.toNat + 1 < 2 ^ 64
  | .append t => ∀ u entry other, s.threads t = some entry → s.threads u = some other → ¬ Before other entry

/-! ## What an orderly step keeps -/

/-- The log holds the last entries recorded, which are in order; all numbers are below the counter, those of the waiting
threads are above those recorded, and no two threads have the same. -/
structure Inv (s : State) : Prop where
  kept : s.log.entries = s.recorded.rtake maxAuditEntries
  ordered : s.recorded.Pairwise Before
  recorded_lt : ∀ e ∈ s.recorded, e.sequence < s.nextSequence
  waiting_lt : ∀ t e, s.threads t = some e → e.sequence < s.nextSequence
  above : ∀ e ∈ s.recorded, ∀ t w, s.threads t = some w → Before e w
  distinct : ∀ t u e w, s.threads t = some e → s.threads u = some w → e.sequence = w.sequence → t = u

variable {s s' : State}

theorem inv_of_initial (h : Initial s) : Inv s := by
  rw [h]
  refine ⟨rfl, List.Pairwise.nil, ?_, ?_, ?_, ?_⟩
  · intro e he
    cases he
  · intro t e he
    cases he
  · intro e he
    cases he
  · intro t u e w he
    cases he

theorem lt_succ_of_lt {n m : UInt64} (hwrap : n.toNat + 1 < 2 ^ 64) (h : m < n) : m < n + 1 := by
  rw [UInt64.lt_iff_toNat_lt] at h ⊢
  rw [UInt64.toNat_add, UInt64.toNat_one, Nat.mod_eq_of_lt hwrap]
  omega

theorem lt_succ_self {n : UInt64} (hwrap : n.toNat + 1 < 2 ^ 64) : n < n + 1 := by
  rw [UInt64.lt_iff_toNat_lt, UInt64.toNat_add, UInt64.toNat_one, Nat.mod_eq_of_lt hwrap]
  omega

theorem Inv.draw (hs : Inv s) (hwrap : s.nextSequence.toNat + 1 < 2 ^ 64) {t : ℕ} {entry : AuditEntry}
    (hentry : entry.sequence = s.nextSequence) :
    Inv { s with
      nextSequence := s.nextSequence + 1
      threads := Function.update s.threads t (some entry) } := by
  refine ⟨hs.kept, hs.ordered, ?_, ?_, ?_, ?_⟩
  · intro e he
    exact lt_succ_of_lt hwrap (hs.recorded_lt e he)
  · intro u e he
    rcases update_some_cases he with ⟨-, rfl⟩ | ⟨-, he⟩
    · rw [hentry]
      exact lt_succ_self hwrap
    · exact lt_succ_of_lt hwrap (hs.waiting_lt u e he)
  · intro e he u w hw
    rcases update_some_cases hw with ⟨-, rfl⟩ | ⟨-, hw⟩
    · show e.sequence < w.sequence
      rw [hentry]
      exact hs.recorded_lt e he
    · exact hs.above e he u w hw
  · intro u v e w he hw heq
    rcases update_some_cases he with ⟨rfl, rfl⟩ | ⟨-, heu⟩
    · rcases update_some_cases hw with ⟨rfl, -⟩ | ⟨-, hwv⟩
      · rfl
      · have hlt := hs.waiting_lt v w hwv
        rw [← heq, hentry] at hlt
        exact absurd hlt (UInt64.lt_irrefl _)
    · rcases update_some_cases hw with ⟨rfl, rfl⟩ | ⟨-, hwv⟩
      · have hlt := hs.waiting_lt u e heu
        rw [heq, hentry] at hlt
        exact absurd hlt (UInt64.lt_irrefl _)
      · exact hs.distinct u v e w heu hwv heq

theorem Inv.drawElsewhere (hs : Inv s) (hwrap : s.nextSequence.toNat + 1 < 2 ^ 64) :
    Inv { s with nextSequence := s.nextSequence + 1 } :=
  ⟨hs.kept, hs.ordered, fun e he => lt_succ_of_lt hwrap (hs.recorded_lt e he),
    fun t e he => lt_succ_of_lt hwrap (hs.waiting_lt t e he), hs.above, hs.distinct⟩

theorem Inv.append (hs : Inv s) {t : ℕ} {entry : AuditEntry} (ht : s.threads t = some entry)
    (hlow : ∀ u other, s.threads u = some other → ¬ Before other entry) :
    Inv { s with
      log := s.log.append entry
      threads := Function.update s.threads t none
      recorded := s.recorded ++ [entry] } := by
  refine ⟨?_, ?_, ?_, ?_, ?_, ?_⟩
  · show push maxAuditEntries s.log.entries entry = _
    rw [hs.kept, push_rtake]
  · rw [List.pairwise_append]
    refine ⟨hs.ordered, List.pairwise_singleton _ _, ?_⟩
    intro e he w hw
    rw [List.mem_singleton] at hw
    rw [hw]
    exact hs.above e he t entry ht
  · intro e he
    rcases List.mem_append.mp he with he | he
    · exact hs.recorded_lt e he
    · rw [List.mem_singleton] at he
      rw [he]
      exact hs.waiting_lt t entry ht
  · intro u e he
    exact hs.waiting_lt u e (update_none_cases he).2
  · intro e he u w hw
    obtain ⟨hut, hw⟩ := update_none_cases hw
    rcases List.mem_append.mp he with he | he
    · exact hs.above e he u w hw
    · rw [List.mem_singleton] at he
      rw [he]
      -- no waiting number is lower, and none is the same
      rcases UInt64.lt_or_lt_of_ne (fun heq => hut (hs.distinct u t w entry hw ht heq)) with hlt | hgt
      · exact absurd hlt (hlow u w hw)
      · exact hgt
  · intro u v e w he hw heq
    exact hs.distinct u v e w (update_none_cases he).2 (update_none_cases hw).2 heq

/-- **Step lemma.** -/
theorem inv_step {a : Action} (hs : Inv s) (hok : Orderly s a) (hstep : step s a = some s') : Inv s' := by
  cases a with
  | draw t timestampMs durationUs given =>
    rw [step] at hstep
    split at hstep
    · cases hstep
    · obtain rfl := Option.some.inj hstep
      exact hs.draw hok rfl
  | append t =>
    rw [step] at hstep
    split at hstep
    · cases hstep
    · next entry ht =>
      obtain rfl := Option.some.inj hstep
      exact hs.append ht fun u other hu => hok u entry other ht hu
  | drawElsewhere =>
    obtain rfl := Option.some.inj hstep
    exact hs.drawElsewhere hok

theorem Inv.holdsLatest (hs : Inv s) : s.HoldsLatest := by
  show Latest Before maxAuditEntries s.recorded s.log.entries
  rw [hs.kept]
  exact latest_rtake hs.ordered

/-! ## The order of the log -/

theorem inv_of_reachable (h : ReachableWhen Initial step Orderly s) : Inv s :=
  h.invariant (fun _ => inv_of_initial) fun _ _ _ => inv_step

/-- **A log whose threads append in the order of their numbers holds the latest entries, in order.** -/
theorem latest_of_orderly (h : ReachableWhen Initial step Orderly s) : s.HoldsLatest := (inv_of_reachable h).holdsLatest

/-- A number is appended while another thread waits with a lower one: once that one is appended too, the log is out of
order. -/
theorem not_holdsLatest_of_overtaken {t u : ℕ} {entry other : AuditEntry} {s₁ s₂ : State}
    (ht : s.threads t = some entry) (hu : s.threads u = some other) (hlow : Before other entry)
    (hfirst : step s (.append t) = some s₁) (hthen : step s₁ (.append u) = some s₂) : ¬ s₂.HoldsLatest := by
  have hut : u ≠ t := by
    rintro rfl
    rw [ht] at hu
    obtain rfl := Option.some.inj hu
    exact absurd hlow (UInt64.lt_irrefl _)
  have hs₁ : s₁ = { s with
      log := s.log.append entry
      threads := Function.update s.threads t none
      recorded := s.recorded ++ [entry] } := by
    rw [step, ht] at hfirst
    exact (Option.some.inj hfirst).symm
  have hs₂ : s₂.log = (s.log.append entry).append other := by
    have hwaits : s₁.threads u = some other := by
      rw [hs₁]
      show Function.update s.threads t none u = some other
      rw [Function.update_of_ne hut, hu]
    rw [step, hwaits, hs₁] at hthen
    rw [← Option.some.inj hthen]
  rw [State.HoldsLatest, hs₂]
  refine not_latest_of_suffix (UInt64.lt_asymm hlow) ?_
  exact push_push_suffix (by decide) s.log.entries entry other

def start : State := ⟨1, .new, fun _ => none, []⟩

def echoGiven : Http.Audit.AuditEntry := ⟨⟨"echo", .success, none, none, none⟩, some "http", some "session-A"⟩

/-- Two threads have drawn their numbers. -/
def drawn : State :=
  { start with
    nextSequence := 3
    threads := Function.update (Function.update start.threads 0 (some (recordFull 1 5 5 echoGiven)))
      1 (some (recordFull 2 5 5 echoGiven)) }

theorem drawn_of_start {Ok : State → Action → Prop} (h : ReachableWhen Initial step Ok start)
    (hfirst : Ok start (.draw 0 5 5 echoGiven))
    (hsecond : ∀ s, s.nextSequence = 2 → Ok s (.draw 1 5 5 echoGiven)) : ReachableWhen Initial step Ok drawn :=
  (h.step hfirst rfl).step (hsecond _ rfl) rfl

/-- Two threads have drawn their numbers, and the first one appends. -/
theorem latest_of_orderly_two : ∃ s, step drawn (.append 0) = some s ∧ s.recorded.length = 1 ∧ s.HoldsLatest := by
  refine ⟨_, rfl, rfl, ?_⟩
  have hdrawn : ReachableWhen Initial step Orderly drawn := by
    apply drawn_of_start (.init rfl)
    · show (1 : UInt64).toNat + 1 < 2 ^ 64
      decide
    · intro s hs
      show s.nextSequence.toNat + 1 < 2 ^ 64
      rw [hs]
      decide
  refine latest_of_orderly (hdrawn.step (a := Action.append 0) ?_ rfl)
  intro u entry other hentry hother
  obtain rfl : recordFull 1 5 5 echoGiven = entry := Option.some.inj hentry
  rcases update_some_cases hother with ⟨-, rfl⟩ | ⟨-, hother⟩
  · decide
  · rcases update_some_cases hother with ⟨-, rfl⟩ | ⟨-, hother⟩
    · decide
    · cases hother

/-- The thread that drew the first number comes second to the lock. -/
theorem overtaken_out_of_order : ¬ ∀ s, ReachableWhen Initial step (fun _ _ => True) s → s.HoldsLatest := by
  intro h
  have hdrawn : ReachableWhen Initial step (fun _ _ => True) drawn :=
    drawn_of_start (.init rfl) trivial fun _ _ => trivial
  obtain ⟨s₁, hsecond⟩ : ∃ s₁, step drawn (.append 1) = some s₁ := ⟨_, rfl⟩
  obtain ⟨s₂, hfirst⟩ : ∃ s₂, step s₁ (.append 0) = some s₂ := by
    obtain rfl := Option.some.inj hsecond
    exact ⟨_, rfl⟩
  have hlow : Before (recordFull 1 5 5 echoGiven) (recordFull 2 5 5 echoGiven) := by decide
  have hrun := (hdrawn.step trivial hsecond).step trivial hfirst
  exact not_holdsLatest_of_overtaken rfl rfl hlow hsecond hfirst (h s₂ hrun)

end VelocityMcp.Audit
