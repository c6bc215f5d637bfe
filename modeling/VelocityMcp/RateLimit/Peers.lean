import VelocityMcp.Lib.Lru
import VelocityMcp.Lib.Meter
import VelocityMcp.RateLimit.TokenBucket

/-!
# RateLimit.Peers — a bucket for every peer, in a table of bounded size

`check_rate_limit_for_peer` (`rate_limit.rs`), which the middleware of `http.rs` calls with the peer's
address.  The table is an `LruCache` behind a mutex that a check holds from the lookup to the end of
`try_acquire`, so a bucket is used by one thread at a time; `tryAcquire_alone` is what the steps of
`RateLimit.TokenBucket` come to then.

`admissions` has who was admitted and when, and `evictions` whose bucket was dropped from the table, and
when, although it had not filled up again.
-/

namespace VelocityMcp.RateLimit

open Lib

/-! ## A bucket used by one thread at a time -/

namespace RateLimiter

/-- `refill`, when the clock says `now`. -/
def refill (l : RateLimiter) (now : ℕ) : RateLimiter :=
  if now ≤ l.lastRefillMs then l
  else { l with
    lastRefillMs := now
    tokensScaled := l.refilled l.tokensScaled (newTokensScaled l.rate l.lastRefillMs now) }

/-- `try_acquire` as one step. -/
def tryAcquire (l : RateLimiter) (now : ℕ) : Bool × RateLimiter :=
  if (l.refill now).tokensScaled < 1000 then (false, l.refill now)
  else (true, { l.refill now with tokensScaled := (l.refill now).tokensScaled - 1000 })

/-- What is in the bucket at a later time, if nobody takes from it. -/
def level (l : RateLimiter) (t : ℕ) : ℕ :=
  min l.burstScaled (l.tokensScaled + (t - l.lastRefillMs) * l.rate.toNat)

/-- A bucket with these limits that was last used before `t`. -/
structure Sound (ratePerSec burst : UInt32) (t : ℕ) (l : RateLimiter) : Prop where
  burstScaled : l.burstScaled = burst.toNat * 1000
  rate : l.rate = ratePerSec
  last_le : l.lastRefillMs ≤ t
  stored : l.tokensScaled ≤ l.burstScaled

variable {ratePerSec burst : UInt32} {t now : ℕ} {l : RateLimiter}

theorem sound_withLimits (ratePerSec burst : UInt32) (t : ℕ) :
    (withLimits ratePerSec burst t).Sound ratePerSec burst t :=
  ⟨rfl, rfl, le_refl t, le_refl _⟩

theorem Sound.mono (h : l.Sound ratePerSec burst t) (ht : t ≤ now) : l.Sound ratePerSec burst now :=
  ⟨h.burstScaled, h.rate, le_trans h.last_le ht, h.stored⟩

theorem level_le (l : RateLimiter) (t : ℕ) : l.level t ≤ l.burstScaled := Nat.min_le_left _ _

theorem level_withLimits (ratePerSec burst : UInt32) (t now : ℕ) :
    (withLimits ratePerSec burst t).level now = burst.toNat * 1000 :=
  Nat.min_eq_left (Nat.le_add_right _ _)

theorem level_le_add (l : RateLimiter) (hl : l.lastRefillMs ≤ t) :
    l.level now ≤ l.level t + (now - t) * l.rate.toNat := by
  have hsplit : (now - l.lastRefillMs) * l.rate.toNat ≤
      (t - l.lastRefillMs) * l.rate.toNat + (now - t) * l.rate.toNat := by
    rw [← Nat.add_mul]
    exact Nat.mul_le_mul_right _ (by omega)
  unfold level
  omega

theorem refill_spec (h : l.Sound ratePerSec burst now) :
    (l.refill now).Sound ratePerSec burst now ∧ (l.refill now).lastRefillMs = now ∧
      (l.refill now).tokensScaled ≤ l.level now := by
  by_cases hnow : now ≤ l.lastRefillMs
  · rw [refill, if_pos hnow]
    exact ⟨h, le_antisymm h.last_le hnow, Nat.le_min.mpr ⟨h.stored, Nat.le_add_right _ _⟩⟩
  · rw [refill, if_neg hnow]
    refine ⟨⟨h.burstScaled, h.rate, le_refl now, l.refilled_le_burst _ _⟩, rfl, ?_⟩
    have hworth := newTokensScaled_le l.rate l.lastRefillMs now
    have hadd := l.refilled_le_add l.tokensScaled (newTokensScaled l.rate l.lastRefillMs now)
    exact Nat.le_min.mpr ⟨l.refilled_le_burst _ _, by show l.refilled _ _ ≤ _; omega⟩

theorem level_of_last {m : RateLimiter} (hlast : m.lastRefillMs = now) (hstored : m.tokensScaled ≤ m.burstScaled) :
    m.level now = m.tokensScaled := by
  rw [level, hlast, Nat.sub_self, Nat.zero_mul, Nat.add_zero]
  exact Nat.min_eq_right hstored

/-- **One call.**  Being admitted costs a token of the level. -/
theorem tryAcquire_spec (h : l.Sound ratePerSec burst now) :
    (l.tryAcquire now).2.Sound ratePerSec burst now ∧
      1000 * (l.tryAcquire now).1.toNat + (l.tryAcquire now).2.level now ≤ l.level now := by
  obtain ⟨hsound, hlast, hlevel⟩ := refill_spec h
  by_cases hfew : (l.refill now).tokensScaled < 1000
  · rw [tryAcquire, if_pos hfew]
    refine ⟨hsound, ?_⟩
    rw [level_of_last hlast hsound.stored]
    simpa using hlevel
  · rw [tryAcquire, if_neg hfew]
    generalize hl : l.refill now = m at *
    have hless : m.tokensScaled - 1000 ≤ m.burstScaled := le_trans (Nat.sub_le _ _) hsound.stored
    refine ⟨⟨hsound.burstScaled, hsound.rate, hsound.last_le, hless⟩, ?_⟩
    have hafter : ({ m with tokensScaled := m.tokensScaled - 1000 } : RateLimiter).level now =
        m.tokensScaled - 1000 := level_of_last hlast hless
    rw [hafter, Bool.toNat_true]
    omega

theorem tryAcquire_withLimits (hburst : 1 ≤ burst.toNat) (t : ℕ) :
    ((withLimits ratePerSec burst t).tryAcquire t).1 = true := by
  have hfresh : (withLimits ratePerSec burst t).refill t = withLimits ratePerSec burst t :=
    if_pos (le_refl t)
  have henough : ¬ (withLimits ratePerSec burst t).tokensScaled < 1000 := by
    show ¬ burst.toNat * 1000 < 1000
    omega
  rw [tryAcquire, hfresh, if_neg henough]

end RateLimiter

section Alone

variable {ι : Type} [DecidableEq ι]

/-- Steps of one thread that nothing comes in between, and that do not fail for no reason. -/
def Alone (i : ι) : State ι → State ι → Prop :=
  Relation.ReflTransGen fun s s' => s.runThread i false = some s'

/-- What `try_acquire` returns in the next step of a thread, if it does. -/
def State.returns (s : State ι) (i : ι) : Option Bool :=
  match s.threads i with
  | .take => if s.limiter.tokensScaled < 1000 then some false else none
  | .consume current => if s.limiter.tokensScaled = current then some true else none
  | _ => none

theorem goto_goto (s : State ι) (i : ι) (pc pc' : Pc) : (s.goto i pc).goto i pc' = s.goto i pc' := by
  simp [State.goto]

theorem refill_alone (s : State ι) (i : ι) (c : Call) : ∃ s' : State ι,
    Alone i (s.goto i (.refill c)) (s'.goto i c.after) ∧
      s'.limiter = s.limiter.refill s.clock ∧ s'.admitted = s.admitted ∧ s'.threads = s.threads := by
  have hread : (s.goto i (.refill c)).runThread i false = some (s.goto i (.loadLast c s.clock)) := by
    simp [State.runThread, goto_goto]
  by_cases hnow : s.clock ≤ s.limiter.lastRefillMs
  · have hskip : (s.goto i (.loadLast c s.clock)).runThread i false = some (s.goto i c.after) := by
      simp [State.runThread, goto_goto, hnow]
    exact ⟨s, .head hread (.single hskip), by rw [RateLimiter.refill, if_pos hnow], rfl, rfl⟩
  · have hload : (s.goto i (.loadLast c s.clock)).runThread i false =
        some (s.goto i (.exchange c s.limiter.lastRefillMs s.clock)) := by
      simp [State.runThread, goto_goto, hnow]
    let won : State ι := { s with limiter := { s.limiter with lastRefillMs := s.clock } }
    have hwin : (s.goto i (.exchange c s.limiter.lastRefillMs s.clock)).runThread i false =
        some (won.goto i (.won c s.limiter.lastRefillMs s.clock)) := by
      simp [State.runThread, State.goto, won]
    have htokens : (won.goto i (.won c s.limiter.lastRefillMs s.clock)).runThread i false =
        some (won.goto i (.add c s.limiter.lastRefillMs s.clock s.limiter.tokensScaled)) := by
      simp [State.runThread, goto_goto, won]
    let full : State ι := { won with
      limiter := s.limiter.refill s.clock
      credited := (s.limiter.lastRefillMs, s.clock) :: s.credited }
    have hadd : (won.goto i (.add c s.limiter.lastRefillMs s.clock s.limiter.tokensScaled)).runThread i false =
        some (full.goto i c.after) := by
      simp [State.runThread, State.goto, won, full, RateLimiter.refill, hnow, RateLimiter.refilled]
    exact ⟨full, .head hread (.head hload (.head hwin (.head htokens (.single hadd)))), rfl, rfl, rfl⟩

/-- **A thread alone.**  A call of `try_acquire` that nothing comes in between comes to its last step, which returns
what the plain `tryAcquire` returns, leaves the limiter as that does, and ends the thread's call; no other thread has
moved. -/
theorem tryAcquire_alone (s : State ι) (i : ι) : ∃ t s', Alone i (s.goto i (.refill .tryAcquire)) t ∧
    t.runThread i false = some s' ∧ t.returns i = some (s.limiter.tryAcquire s.clock).1 ∧
    s'.threads = Function.update s.threads i .idle ∧ s'.limiter = (s.limiter.tryAcquire s.clock).2 ∧
    s'.admitted = s.admitted + (s.limiter.tryAcquire s.clock).1.toNat := by
  obtain ⟨t, hrefill, hlimiter, hadmitted, hthreads⟩ := refill_alone s i .tryAcquire
  rw [RateLimiter.tryAcquire, ← hlimiter, ← hadmitted, ← hthreads]
  by_cases hfew : t.limiter.tokensScaled < 1000
  · have hrefuse : (t.goto i .take).runThread i false = some (t.goto i .idle) := by
      simp [State.runThread, goto_goto, hfew]
    rw [if_pos hfew]
    exact ⟨t.goto i .take, t.goto i .idle, hrefill, hrefuse, by simp [State.returns, hfew], rfl, rfl, rfl⟩
  · have htake : (t.goto i .take).runThread i false = some (t.goto i (.consume t.limiter.tokensScaled)) := by
      simp [State.runThread, goto_goto, hfew]
    let less : State ι := { t with
      limiter := { t.limiter with tokensScaled := t.limiter.tokensScaled - 1000 }
      admitted := t.admitted + 1 }
    have hconsume : (t.goto i (.consume t.limiter.tokensScaled)).runThread i false =
        some (less.goto i .idle) := by
      simp [State.runThread, State.goto, less]
    rw [if_neg hfew]
    exact ⟨t.goto i (.consume t.limiter.tokensScaled), less.goto i .idle, hrefill.tail htake, hconsume,
      by simp [State.returns], rfl, rfl, rfl⟩

end Alone

/-! ## The table of buckets -/

def maxPeerBuckets : ℕ := 4096

/-- The cache of limiters: a peer that has been evicted starts again with a full bucket. -/
abbrev PeerLimiters := LruCache String RateLimiter Bool maxPeerBuckets

/-- The limiters of the peers, the time, and when each was admitted and evicted. -/
structure Peers (lru : PeerLimiters) where
  limiters : lru.Cache
  clock : ℕ
  admissions : List (String × ℕ)
  evictions : List (String × ℕ)

inductive PeerAction where
  | tick (now : ℕ)
  /-- a check for a peer; the clock says `now` when its bucket is refilled -/
  | check (peer : String) (now : ℕ)

namespace Peers

variable {lru : PeerLimiters} {ratePerSec burst : UInt32} {created : ℕ}

/-- No bucket yet. -/
def initial (lru : PeerLimiters) (created : ℕ) : Peers lru :=
  { limiters := lru.new, clock := created, admissions := [], evictions := [] }

/-- The peers whose bucket a check drops although it has not filled up again: one or none. -/
def dropped (s : Peers lru) (peer : String) : List String :=
  match Lru.evicted maxPeerBuckets (lru.entries s.limiters) peer with
  | some (other, l) => if l.level s.clock < l.burstScaled then [other] else []
  | none => []

def checkRateLimitForPeer (ratePerSec burst : UInt32) (s : Peers lru) (peer : String) (now : ℕ) : Peers lru :=
  let fresh := RateLimiter.withLimits ratePerSec burst s.clock
  let (allowed, limiters) := lru.getOrInsertMut s.limiters peer fresh (·.tryAcquire now)
  { limiters
    clock := now
    admissions := stamped (if allowed then [peer] else []) now ++ s.admissions
    evictions := stamped (s.dropped peer) s.clock ++ s.evictions }

/-- The clock is any that does not go back. -/
def step (ratePerSec burst : UInt32) (s : Peers lru) : PeerAction → Option (Peers lru)
  | .tick now => if s.clock ≤ now ∧ now < 2 ^ 64 then some { s with clock := now } else none
  | .check peer now =>
    if s.clock ≤ now ∧ now < 2 ^ 64 then some (s.checkRateLimitForPeer ratePerSec burst peer now) else none

/-- The states of all runs of checks by any peers. -/
def Reachable (ratePerSec burst : UInt32) (created : ℕ) (s : Peers lru) : Prop :=
  ReachableWhen (fun s => s = initial lru created) (step ratePerSec burst) (fun _ _ => True) s

/-! ### What a check does to the levels -/

/-- The level of a peer's bucket at the time `t`; a peer without one would get a full one. -/
def levelIn (burst : UInt32) (es : List (String × RateLimiter)) (t : ℕ) (peer : String) : ℕ :=
  match Lru.find es peer with
  | some l => l.level t
  | none => burst.toNat * 1000

def level (burst : UInt32) (s : Peers lru) : String → ℕ := levelIn burst (lru.entries s.limiters) s.clock

def meter (burst : UInt32) (s : Peers lru) : Meter String :=
  { clock := s.clock, level := s.level burst, served := s.admissions, resets := s.evictions }

/-- Every bucket of the table has the configured limits and was last used before `t`. -/
def Sound (ratePerSec burst : UInt32) (t : ℕ) (es : List (String × RateLimiter)) : Prop :=
  ∀ e ∈ es, e.2.Sound ratePerSec burst t

section Levels

variable {es : List (String × RateLimiter)} {peer : String} {l : RateLimiter} {t : ℕ}

theorem levelIn_of_some (hl : Lru.find es peer = some l) : levelIn burst es t peer = l.level t := by
  rw [levelIn, hl]

theorem levelIn_of_none (hl : Lru.find es peer = none) : levelIn burst es t peer = burst.toNat * 1000 := by
  rw [levelIn, hl]

theorem Sound.find (h : Sound ratePerSec burst t es) (hl : Lru.find es peer = some l) :
    l.Sound ratePerSec burst t := h _ (Lru.mem_of_find hl)

theorem levelIn_le (h : Sound ratePerSec burst t es) (now : ℕ) (peer : String) :
    levelIn burst es now peer ≤ burst.toNat * 1000 := by
  cases hl : Lru.find es peer with
  | none => rw [levelIn_of_none hl]
  | some l =>
    rw [levelIn_of_some hl, ← (h.find hl).burstScaled]
    exact l.level_le now

theorem levelIn_le_add (h : Sound ratePerSec burst t es) (now : ℕ) (peer : String) :
    levelIn burst es now peer ≤ levelIn burst es t peer + (now - t) * ratePerSec.toNat := by
  cases hl : Lru.find es peer with
  | none =>
    rw [levelIn_of_none hl, levelIn_of_none hl]
    exact Nat.le_add_right _ _
  | some l =>
    rw [levelIn_of_some hl, levelIn_of_some hl, ← (h.find hl).rate]
    exact l.level_le_add (h.find hl).last_le

theorem used_sound (h : Sound ratePerSec burst t es) (peer : String) (now : ℕ) :
    ((Lru.find es peer).getD (.withLimits ratePerSec burst t)).Sound ratePerSec burst t ∧
      ((Lru.find es peer).getD (.withLimits ratePerSec burst t)).level now = levelIn burst es now peer := by
  cases hl : Lru.find es peer with
  | none =>
    rw [levelIn_of_none hl]
    exact ⟨RateLimiter.sound_withLimits _ _ _, RateLimiter.level_withLimits _ _ _ _⟩
  | some l =>
    rw [levelIn_of_some hl]
    exact ⟨h.find hl, rfl⟩

end Levels

section Step

variable {s : Peers lru} {peer other : String} {now : ℕ}

theorem levelIn_rest (h : Sound ratePerSec burst s.clock (lru.entries s.limiters)) (hne : other ≠ peer) :
    levelIn burst (Lru.rest maxPeerBuckets (lru.entries s.limiters) peer) now other ≤
      levelIn burst (lru.entries s.limiters) s.clock other + (now - s.clock) * ratePerSec.toNat +
        burst.toNat * 1000 * (s.dropped peer).count other := by
  obtain hkept | ⟨l, hevicted, hfind⟩ := Lru.find_rest hne maxPeerBuckets (lru.entries s.limiters)
  · have hrise := levelIn_le_add h now other
    rw [levelIn, hkept]
    exact le_trans hrise (Nat.le_add_right _ _)
  · have hsound := h.find hfind
    have hfull : levelIn burst (Lru.rest maxPeerBuckets (lru.entries s.limiters) peer) now other ≤
        burst.toNat * 1000 := levelIn_le (fun e he => h e (Lru.mem_of_mem_rest he)) now other
    by_cases hearly : l.level s.clock < l.burstScaled
    · have hdropped : s.dropped peer = [other] := by
        rw [dropped, hevicted]
        exact if_pos hearly
      rw [hdropped, List.count_singleton_self]
      omega
    · -- it had filled up, so a new bucket is no better
      have hlevel : levelIn burst (lru.entries s.limiters) s.clock other = burst.toNat * 1000 := by
        rw [levelIn_of_some hfind, ← hsound.burstScaled]
        exact le_antisymm (l.level_le _) (Nat.le_of_not_lt hearly)
      omega

/-- **A check is a step of the meter.** -/
theorem check_step (h : Sound ratePerSec burst s.clock (lru.entries s.limiters)) (hnow : s.clock ≤ now)
    (peer : String) :
    Meter.Step (burst.toNat * 1000) ratePerSec.toNat 1000 (s.meter burst)
      ((s.checkRateLimitForPeer ratePerSec burst peer now).meter burst) ∧
    Sound ratePerSec burst now
      (lru.entries (s.checkRateLimitForPeer ratePerSec burst peer now).limiters) := by
  let fresh := RateLimiter.withLimits ratePerSec burst s.clock
  let used := (Lru.find (lru.entries s.limiters) peer).getD fresh
  obtain ⟨hused, hlevel⟩ := used_sound h peer now
  obtain ⟨hafter, hspent⟩ := RateLimiter.tryAcquire_spec (hused.mono hnow)
  have hentries : lru.entries (s.checkRateLimitForPeer ratePerSec burst peer now).limiters =
      (peer, (used.tryAcquire now).2) :: Lru.rest maxPeerBuckets (lru.entries s.limiters) peer :=
    lru.entries_after _ _ _ _
  have hallowed : (lru.getOrInsertMut s.limiters peer fresh (·.tryAcquire now)).1 = (used.tryAcquire now).1 :=
    lru.result _ _ _ _
  have hsound : Sound ratePerSec burst now
      (lru.entries (s.checkRateLimitForPeer ratePerSec burst peer now).limiters) := by
    intro e he
    rw [hentries] at he
    obtain rfl | hmem := List.mem_cons.mp he
    · exact hafter
    · exact (h e (Lru.mem_of_mem_rest hmem)).mono hnow
  refine ⟨⟨if (used.tryAcquire now).1 then [peer] else [], s.dropped peer, hnow, ?_, rfl, ?_⟩, hsound⟩
  · show stamped (if (lru.getOrInsertMut s.limiters peer fresh (·.tryAcquire now)).1 then [peer] else []) now ++
      s.admissions = _
    rw [hallowed]
    rfl
  · intro other
    show 1000 * (if (used.tryAcquire now).1 then [peer] else []).count other +
          levelIn burst (lru.entries (s.checkRateLimitForPeer ratePerSec burst peer now).limiters) now other ≤
        burst.toNat * 1000 ∧
      1000 * (if (used.tryAcquire now).1 then [peer] else []).count other +
          levelIn burst (lru.entries (s.checkRateLimitForPeer ratePerSec burst peer now).limiters) now other ≤
        levelIn burst (lru.entries s.limiters) s.clock other + (now - s.clock) * ratePerSec.toNat +
          burst.toNat * 1000 * (s.dropped peer).count other
    -- the peer itself pays for what it was let in; another one can only be evicted
    by_cases hother : other = peer
    · subst hother
      have hcount : (if (used.tryAcquire now).1 then [other] else []).count other =
          (used.tryAcquire now).1.toNat := by
        cases (used.tryAcquire now).1 <;> simp
      have hnew : levelIn burst (lru.entries (s.checkRateLimitForPeer ratePerSec burst other now).limiters) now
          other = (used.tryAcquire now).2.level now := by
        rw [hentries, levelIn_of_some (Lru.find_cons_self _ _ _)]
      have hcap := levelIn_le h now other
      have hrise := levelIn_le_add h now other
      rw [hcount, hnew]
      constructor
      · exact le_trans (hspent.trans_eq hlevel) hcap
      · exact le_trans (hspent.trans_eq hlevel) (le_trans hrise (Nat.le_add_right _ _))
    · have hcount : (if (used.tryAcquire now).1 then [peer] else []).count other = 0 := by
        cases (used.tryAcquire now).1 <;> simp [Ne.symm hother]
      have hkept : levelIn burst (lru.entries (s.checkRateLimitForPeer ratePerSec burst peer now).limiters) now
          other = levelIn burst (Lru.rest maxPeerBuckets (lru.entries s.limiters) peer) now other := by
        rw [hentries, levelIn, levelIn, Lru.find_cons_of_ne hother]
      rw [hcount, Nat.mul_zero, Nat.zero_add]
      constructor
      · exact levelIn_le hsound now other
      · exact hkept ▸ levelIn_rest h hother

theorem tick_step (h : Sound ratePerSec burst s.clock (lru.entries s.limiters)) (hnow : s.clock ≤ now) :
    Meter.Step (burst.toNat * 1000) ratePerSec.toNat 1000 (s.meter burst)
      (({ s with clock := now } : Peers lru).meter burst) := by
  refine ⟨[], [], hnow, rfl, rfl, fun other => ?_⟩
  rw [List.count_nil, Nat.mul_zero, Nat.mul_zero, Nat.zero_add, Nat.add_zero]
  exact ⟨levelIn_le h now other, levelIn_le_add h now other⟩

end Step

/-! ### Over all runs -/

structure Inv (ratePerSec burst : UInt32) (s : Peers lru) : Prop where
  sound : Sound ratePerSec burst s.clock (lru.entries s.limiters)
  metered : Metered (burst.toNat * 1000) ratePerSec.toNat 1000 (s.meter burst)

theorem inv_initial : Inv ratePerSec burst (initial lru created) where
  sound e he := by
    rw [initial, lru.entries_new] at he
    cases he
  metered := by
    apply metered_of_nothing_served rfl
    intro peer
    show levelIn burst (lru.entries lru.new) created peer ≤ _
    rw [lru.entries_new, levelIn_of_none (Lru.find_nil peer)]

theorem Inv.step {s s' : Peers lru} {a : PeerAction} (h : Inv ratePerSec burst s)
    (hstep : step ratePerSec burst s a = some s') : Inv ratePerSec burst s' := by
  cases a with
  | tick now =>
    simp only [Peers.step] at hstep
    split at hstep
    · rename_i hok
      have hsound : Sound ratePerSec burst now (lru.entries s.limiters) := fun e he =>
        (h.sound e he).mono hok.1
      exact Option.some.inj hstep ▸ ⟨hsound, h.metered.step (tick_step h.sound hok.1)⟩
    · cases hstep
  | check peer now =>
    simp only [Peers.step] at hstep
    split at hstep
    · rename_i hok
      obtain ⟨hmeter, hsound⟩ := check_step h.sound hok.1 peer
      exact Option.some.inj hstep ▸ ⟨hsound, h.metered.step hmeter⟩
    · cases hstep

theorem inv_of_reachable {s : Peers lru} (h : Reachable ratePerSec burst created s) : Inv ratePerSec burst s :=
  h.invariant (fun _ hs => hs ▸ inv_initial) fun _ _ _ hinv _ hstep => hinv.step hstep

/-- **The bound for a peer.**  In any window of time a peer is admitted at most as often as its burst and the
time of the window allow, and once more its burst for each time its bucket was dropped in the window before
it had filled up again. -/
theorem admissions_within_rate {s : Peers lru} (h : Reachable ratePerSec burst created s) (peer : String)
    (t₁ t₂ : ℕ) (ht : t₁ ≤ t₂) :
    1000 * inWindow s.admissions peer t₁ t₂ ≤
      1000 * burst.toNat * (1 + inWindow s.evictions peer t₁ t₂) + ratePerSec.toNat * (t₂ - t₁) := by
  have hbound := (inv_of_reachable h).metered.served_le peer t₁ t₂ ht
  calc 1000 * inWindow s.admissions peer t₁ t₂
      ≤ burst.toNat * 1000 + burst.toNat * 1000 * inWindow s.evictions peer t₁ t₂ +
          (t₂ - t₁) * ratePerSec.toNat := hbound
    _ = 1000 * burst.toNat * (1 + inWindow s.evictions peer t₁ t₂) + ratePerSec.toNat * (t₂ - t₁) := by
      rw [Nat.mul_add, Nat.mul_one, Nat.mul_comm burst.toNat 1000, Nat.mul_comm (t₂ - t₁)]

/-! ### A peer whose bucket the others push out -/

section Pushed

variable {s : Peers lru} {peer : String}

/-- The peers that have a bucket, the one checked last first. -/
def keys (s : Peers lru) : List String := (lru.entries s.limiters).map Prod.fst

/-- Checks for one peer after the other, all at the time of the state. -/
def checkAll (ratePerSec burst : UInt32) (s : Peers lru) (peers : List String) : Peers lru :=
  peers.foldl (fun s peer => s.checkRateLimitForPeer ratePerSec burst peer s.clock) s

theorem checkAll_cons (peers : List String) : checkAll ratePerSec burst s (peer :: peers) =
    checkAll ratePerSec burst (s.checkRateLimitForPeer ratePerSec burst peer s.clock) peers := rfl

theorem checkAll_clock (peers : List String) (s : Peers lru) :
    (checkAll ratePerSec burst s peers).clock = s.clock := by
  induction peers generalizing s with
  | nil => rfl
  | cons peer peers ih =>
    rw [checkAll_cons, ih]
    rfl

theorem reachable_checkAll (hclock : s.clock < 2 ^ 64) (peers : List String)
    (h : Reachable ratePerSec burst created s) :
    Reachable ratePerSec burst created (checkAll ratePerSec burst s peers) := by
  induction peers generalizing s with
  | nil => exact h
  | cons peer peers ih =>
    have hstep : step ratePerSec burst s (.check peer s.clock) =
        some (s.checkRateLimitForPeer ratePerSec burst peer s.clock) := if_pos ⟨le_refl _, hclock⟩
    exact ih hclock (ReachableWhen.step h trivial hstep)

theorem keys_checkAll (ratePerSec burst : UInt32) {s : Peers lru} (peers : List String) (hnodup : peers.Nodup)
    (hnew : ∀ p ∈ peers, p ∉ s.keys) (hlen : s.keys.length ≤ maxPeerBuckets) :
    (checkAll ratePerSec burst s peers).keys = (peers.reverse ++ s.keys).take maxPeerBuckets := by
  induction peers generalizing s with
  | nil => exact (List.take_of_length_le hlen).symm
  | cons peer peers ih =>
    obtain ⟨hpeer, hnodup⟩ := List.nodup_cons.mp hnodup
    have hkeys : (s.checkRateLimitForPeer ratePerSec burst peer s.clock).keys =
        (peer :: s.keys).take maxPeerBuckets := by
      have hnone := Lru.find_eq_none_iff.mpr (hnew peer List.mem_cons_self)
      rw [keys, keys, ← Lru.keys_rest_of_new hnone (by simpa [keys] using hlen) (by decide)]
      exact congrArg (List.map Prod.fst) (lru.entries_after _ _ _ _)
    rw [checkAll_cons, ih hnodup, hkeys]
    · simp [List.take_append, List.take_take]
    · intro p hp hmem
      rw [hkeys] at hmem
      obtain rfl | hold := List.mem_cons.mp (List.mem_of_mem_take hmem)
      · exact hpeer hp
      · exact hnew p (List.mem_cons_of_mem _ hp) hold
    · rw [hkeys]
      exact List.length_take_le _ _

theorem inWindow_checkAll_le (peers : List String) (s : Peers lru) (p : String) (t₁ t₂ : ℕ) :
    inWindow s.admissions p t₁ t₂ ≤
      inWindow (checkAll ratePerSec burst s peers).admissions p t₁ t₂ := by
  induction peers generalizing s with
  | nil => exact le_refl _
  | cons peer peers ih =>
    refine le_trans ?_ (ih _)
    show _ ≤ inWindow (stamped _ _ ++ s.admissions) p t₁ t₂
    rw [inWindow_append]
    exact Nat.le_add_left _ _

theorem admissions_of_new (hburst : 1 ≤ burst.toNat) (hnew : peer ∉ s.keys) :
    (s.checkRateLimitForPeer ratePerSec burst peer s.clock).admissions =
      (peer, s.clock) :: s.admissions := by
  have hnone := Lru.find_eq_none_iff.mpr hnew
  have hallowed : (lru.getOrInsertMut s.limiters peer (.withLimits ratePerSec burst s.clock)
      (·.tryAcquire s.clock)).1 = true := by
    rw [lru.result, hnone, Option.getD_none]
    exact RateLimiter.tryAcquire_withLimits hburst s.clock
  show stamped (if (lru.getOrInsertMut s.limiters peer (.withLimits ratePerSec burst s.clock)
      (·.tryAcquire s.clock)).1 then [peer] else []) s.clock ++ s.admissions = _
  rw [hallowed]
  rfl

/-- **Pushed out.**  With checks for as many other peers as the table holds in between, a peer is admitted
once more at once. -/
theorem admitted_again (lru : PeerLimiters) (hburst : 1 ≤ burst.toNat) (hcreated : created < 2 ^ 64)
    {others : List String} (hnodup : others.Nodup) (hpeer : peer ∉ others)
    (hlength : others.length = maxPeerBuckets) : ∃ s : Peers lru, Reachable ratePerSec burst created s ∧
      2 ≤ inWindow s.admissions peer created created := by
  let s₀ : Peers lru := initial lru created
  let s₁ := checkAll ratePerSec burst s₀ [peer]
  let s₂ := checkAll ratePerSec burst s₁ others
  have hclock₁ : s₁.clock = created := checkAll_clock _ _
  have hclock₂ : s₂.clock = created := (checkAll_clock _ _).trans hclock₁
  have hreach₁ : Reachable ratePerSec burst created s₁ := reachable_checkAll hcreated _ (.init rfl)
  have hreach₂ : Reachable ratePerSec burst created s₂ := reachable_checkAll (hclock₁ ▸ hcreated) _ hreach₁
  have hkeys₀ : s₀.keys = [] := by
    show (lru.entries lru.new).map Prod.fst = []
    rw [lru.entries_new, List.map_nil]
  have hkeys₁ : s₁.keys = [peer] := by
    have hkeys := keys_checkAll ratePerSec burst (s := s₀) [peer] (List.nodup_singleton peer)
      (by simp [hkeys₀]) (by simp [hkeys₀])
    rw [hkeys, hkeys₀]
    rfl
  have hkeys₂ : s₂.keys = others.reverse := by
    have hkeys := keys_checkAll ratePerSec burst (s := s₁) others hnodup
      (by
        intro p hp hmem
        rw [hkeys₁, List.mem_singleton] at hmem
        exact hpeer (hmem ▸ hp))
      (by simp [hkeys₁, maxPeerBuckets])
    rw [hkeys, ← hlength, ← List.length_reverse, List.take_left]
  have hadmitted₁ : s₁.admissions = [(peer, created)] := admissions_of_new hburst (by simp [hkeys₀])
  have hkept : inWindow s₁.admissions peer created created ≤ inWindow s₂.admissions peer created created :=
    inWindow_checkAll_le _ _ _ _ _
  have hadmitted₃ : (checkAll ratePerSec burst s₂ [peer]).admissions = (peer, s₂.clock) :: s₂.admissions :=
    admissions_of_new hburst (by rw [hkeys₂, List.mem_reverse]; exact hpeer)
  refine ⟨checkAll ratePerSec burst s₂ [peer], reachable_checkAll (hclock₂ ▸ hcreated) _ hreach₂, ?_⟩
  rw [hadmitted₁, inWindow, List.countP_singleton, if_pos (by simp)] at hkept
  rw [hadmitted₃, hclock₂, inWindow, List.countP_cons_of_pos (by simp)]
  exact Nat.succ_le_succ hkept

end Pushed

def lruLists : PeerLimiters := LruCache.lists String RateLimiter Bool maxPeerBuckets

def heavyPeer : String := "203.0.113.7"

/-- The digits of a number below 4096, in base 16. -/
def hexDigits (i : ℕ) : List Char :=
  [Nat.digitChar (i / 256), Nat.digitChar (i / 16 % 16), Nat.digitChar (i % 16)]

/-- 4096 other addresses: `2001:db8::1000` to `2001:db8::1fff`. -/
def otherPeers : List String :=
  (List.range 4096).map fun i =>
    String.ofList (['2', '0', '0', '1', ':', 'd', 'b', '8', ':', ':', '1'] ++ hexDigits i)

theorem nodup_otherPeers : otherPeers.Nodup := by
  have hdigit : ∀ i < 16, ∀ j < 16, Nat.digitChar i = Nat.digitChar j → i = j := by decide
  refine List.Nodup.map_on ?_ List.nodup_range
  intro i hi j hj heq
  rw [List.mem_range] at hi hj
  have hlist := List.append_cancel_left (String.ofList_injective heq)
  simp only [hexDigits, List.cons.injEq, and_true] at hlist
  obtain ⟨h₁, h₂, h₃⟩ := hlist
  have := hdigit (i / 256) (by omega) (j / 256) (by omega) h₁
  have := hdigit (i / 16 % 16) (by omega) (j / 16 % 16) (by omega) h₂
  have := hdigit (i % 16) (by omega) (j % 16) (by omega) h₃
  omega

theorem heavyPeer_not_mem_otherPeers : heavyPeer ∉ otherPeers := by
  intro hmem
  obtain ⟨i, -, heq⟩ := List.mem_map.mp hmem
  have hlength := congrArg String.length heq
  have hheavy : heavyPeer.length = 11 := by decide
  rw [String.length_ofList, hheavy] at hlength
  exact absurd hlength (by simp [hexDigits])

theorem heavyPeer_admitted_again : ∃ s : Peers lruLists, Reachable 20 1 0 s ∧
    2 ≤ inWindow s.admissions heavyPeer 0 0 :=
  admitted_again lruLists (by decide) (by decide) nodup_otherPeers heavyPeer_not_mem_otherPeers
    (by simp [otherPeers, maxPeerBuckets])

/-- A burst of one, and two admissions at once: more than the burst and no time allow. -/
theorem heavyPeer_over_rate : ∃ s : Peers lruLists, Reachable 20 1 0 s ∧
    ¬ 1000 * inWindow s.admissions heavyPeer 0 0 ≤ 1000 * (1 : UInt32).toNat + (20 : UInt32).toNat * (0 - 0) := by
  obtain ⟨s, hreach, htwice⟩ := heavyPeer_admitted_again
  have hburst : (1 : UInt32).toNat = 1 := rfl
  refine ⟨s, hreach, fun hle => ?_⟩
  rw [hburst] at hle
  omega

/-- A peer that is evicted, and admitted again at the same instant. -/
theorem admissions_within_rate_heavyPeer : ∃ s : Peers lruLists, 2 ≤ inWindow s.admissions heavyPeer 0 0 ∧
    1000 * inWindow s.admissions heavyPeer 0 0 ≤
      1000 * (1 : UInt32).toNat * (1 + inWindow s.evictions heavyPeer 0 0) + (20 : UInt32).toNat * (0 - 0) := by
  obtain ⟨s, hreach, htwice⟩ := heavyPeer_admitted_again
  exact ⟨s, htwice, admissions_within_rate hreach heavyPeer 0 0 (le_refl 0)⟩

end Peers

end VelocityMcp.RateLimit
