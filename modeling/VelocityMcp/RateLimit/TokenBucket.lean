import VelocityMcp.Lib.Holdings
import VelocityMcp.Lib.Machine
import Mathlib.Data.List.Pairwise

/-!
# RateLimit.TokenBucket — the lock-free token bucket, atomic step by atomic step

`RateLimiter` of `rate_limit.rs`.  A load, a compare-exchange and a reading of the clock are one step each,
and any thread may take the next one.  `compare_exchange_weak` may fail for no reason, the strong one of the
timestamp may not.  `u64` values are natural numbers below `2 ^ 64`; the two operations that saturate do so
here.

`admitted` counts the calls of `try_acquire` that returned `true`, and `credited` has the intervals of time
whose tokens were added.
-/

namespace VelocityMcp.RateLimit

open Lib

/-! ## The bucket -/

def u64Max : ℕ := 2 ^ 64 - 1

def saturatingMul (a b : ℕ) : ℕ := min (a * b) u64Max

def saturatingAdd (a b : ℕ) : ℕ := min (a + b) u64Max

/-- `RateLimiter`: tokens are counted in thousandths. -/
structure RateLimiter where
  tokensScaled : ℕ
  lastRefillMs : ℕ
  burstScaled : ℕ
  rate : UInt32
deriving DecidableEq, Repr

/-- `new_tokens_scaled`: what the time from `last` to `now` is worth. -/
def newTokensScaled (rate : UInt32) (last now : ℕ) : ℕ := saturatingMul (now - last) rate.toNat

theorem newTokensScaled_le (rate : UInt32) (last now : ℕ) :
    newTokensScaled rate last now ≤ (now - last) * rate.toNat := Nat.min_le_left _ _

namespace RateLimiter

/-- `with_limits`, when the clock says `now`. -/
def withLimits (ratePerSec burst : UInt32) (now : ℕ) : RateLimiter :=
  { tokensScaled := burst.toNat * 1000, lastRefillMs := now, burstScaled := burst.toNat * 1000,
    rate := ratePerSec }

/-- `new_val` of the loop that adds tokens. -/
def refilled (l : RateLimiter) (current newTokens : ℕ) : ℕ :=
  min (saturatingAdd current newTokens) l.burstScaled

theorem refilled_le_burst (l : RateLimiter) (current newTokens : ℕ) :
    l.refilled current newTokens ≤ l.burstScaled := Nat.min_le_right _ _

theorem refilled_le_add (l : RateLimiter) (current newTokens : ℕ) :
    l.refilled current newTokens ≤ current + newTokens :=
  le_trans (Nat.min_le_left _ _) (Nat.min_le_left _ _)

end RateLimiter

/-! ## Threads -/

/-- The two functions that refill the bucket first. -/
inductive Call where
  | tryAcquire
  | availableTokens
deriving DecidableEq, Repr

/-- Where a thread is. -/
inductive Pc where
  | idle
  /-- in `refill`, about to read the clock -/
  | refill (c : Call)
  /-- about to load the timestamp -/
  | loadLast (c : Call) (now : ℕ)
  /-- about to exchange the timestamp -/
  | exchange (c : Call) (last now : ℕ)
  /-- the refill race is won; about to load the tokens -/
  | won (c : Call) (last now : ℕ)
  /-- about to store the larger number of tokens -/
  | add (c : Call) (last now current : ℕ)
  /-- about to load the tokens to take one -/
  | take
  /-- about to store the smaller number of tokens -/
  | consume (current : ℕ)
  /-- about to load the tokens to return their number -/
  | count
deriving DecidableEq, Repr

/-- After `refill`. -/
def Call.after : Call → Pc
  | .tryAcquire => .take
  | .availableTokens => .count

variable {ι : Type} [DecidableEq ι]

/-- A bucket that threads share, the admissions so far, and the refills that counted. -/
structure State (ι : Type) where
  limiter : RateLimiter
  clock : ℕ
  threads : ι → Pc
  admitted : ℕ
  credited : List (ℕ × ℕ)

/-- A bucket made when the clock said `created`, and no call yet. -/
def initial (ratePerSec burst : UInt32) (created : ℕ) : State ι :=
  { limiter := .withLimits ratePerSec burst created, clock := created, threads := fun _ => .idle,
    admitted := 0, credited := [] }

inductive Action (ι : Type) where
  /-- the clock moves on -/
  | tick (now : ℕ)
  | call (i : ι) (c : Call)
  /-- the next atomic step of a thread; `fails` is for a weak exchange that fails for no reason -/
  | run (i : ι) (fails : Bool)

/-- One thread goes on; all else stays. -/
def State.goto (s : State ι) (i : ι) (pc : Pc) : State ι :=
  { s with threads := Function.update s.threads i pc }

section Goto

variable (s : State ι) (i : ι) (pc : Pc)

@[simp] theorem goto_limiter : (s.goto i pc).limiter = s.limiter := rfl

@[simp] theorem goto_clock : (s.goto i pc).clock = s.clock := rfl

@[simp] theorem goto_threads : (s.goto i pc).threads = Function.update s.threads i pc := rfl

@[simp] theorem goto_admitted : (s.goto i pc).admitted = s.admitted := rfl

@[simp] theorem goto_credited : (s.goto i pc).credited = s.credited := rfl

end Goto

/-- One atomic access by a thread; `fails` says whether a weak exchange fails for no reason. -/
def State.runThread (s : State ι) (i : ι) (fails : Bool) : Option (State ι) :=
  match s.threads i with
  | .idle => none
  | .refill c => some (s.goto i (.loadLast c s.clock))
  | .loadLast c now =>
    if now ≤ s.limiter.lastRefillMs then some (s.goto i c.after)
    else some (s.goto i (.exchange c s.limiter.lastRefillMs now))
  | .exchange c last now =>
    if s.limiter.lastRefillMs = last then
      some ({ s with limiter := { s.limiter with lastRefillMs := now } }.goto i (.won c last now))
    else some (s.goto i c.after)
  | .won c last now => some (s.goto i (.add c last now s.limiter.tokensScaled))
  | .add c last now current =>
    if s.limiter.tokensScaled = current ∧ fails = false then
      some ({ s with
        limiter := { s.limiter with
          tokensScaled := s.limiter.refilled current (newTokensScaled s.limiter.rate last now) }
        credited := (last, now) :: s.credited }.goto i c.after)
    else some (s.goto i (.won c last now))
  | .take =>
    if s.limiter.tokensScaled < 1000 then some (s.goto i .idle)
    else some (s.goto i (.consume s.limiter.tokensScaled))
  | .consume current =>
    if s.limiter.tokensScaled = current ∧ fails = false then
      some ({ s with
        limiter := { s.limiter with tokensScaled := current - 1000 }
        admitted := s.admitted + 1 }.goto i .idle)
    else some (s.goto i .take)
  | .count => some (s.goto i .idle)

/-- The clock is any that does not go back. -/
def step (s : State ι) : Action ι → Option (State ι)
  | .tick now => if s.clock ≤ now ∧ now < 2 ^ 64 then some { s with clock := now } else none
  | .call i c => if s.threads i = .idle then some (s.goto i (.refill c)) else none
  | .run i fails => s.runThread i fails

/-- The states of all runs of any threads over one bucket. -/
def Reachable (ratePerSec burst : UInt32) (created : ℕ) (s : State ι) : Prop :=
  ReachableWhen (fun s => s = initial ratePerSec burst created) step (fun _ _ => True) s

/-! ## What one step does -/

/-- The interval whose tokens a thread has still to add. -/
def Pc.interval : Pc → Option (ℕ × ℕ)
  | .won _ last now => some (last, now)
  | .add _ last now _ => some (last, now)
  | _ => none

/-- What that interval is worth. -/
def Pc.pending (rate : UInt32) (pc : Pc) : ℕ :=
  match pc.interval with
  | some iv => newTokensScaled rate iv.1 iv.2
  | none => 0

/-- What a thread has read fits what it read before. -/
def Pc.Timely (clock : ℕ) : Pc → Prop
  | .loadLast _ now => now ≤ clock
  | .exchange _ last now => last < now ∧ now ≤ clock
  | .consume current => 1000 ≤ current
  | _ => True

@[simp] theorem interval_after (c : Call) : c.after.interval = none := by cases c <;> rfl

@[simp] theorem timely_after (c : Call) (clock : ℕ) : c.after.Timely clock := by cases c <;> trivial

theorem Pc.Timely.mono {clock clock' : ℕ} {pc : Pc} (h : pc.Timely clock) (hle : clock ≤ clock') :
    pc.Timely clock' := by
  cases pc with
  | loadLast c now => exact le_trans h hle
  | exchange c last now => exact ⟨h.1, le_trans h.2 hle⟩
  | consume current => exact h
  | _ => trivial

/-- All that a step may do. -/
inductive Move (s : State ι) : State ι → Prop where
  | tick {now : ℕ} : s.clock ≤ now → Move s { s with clock := now }
  /-- a thread goes on and writes nothing -/
  | goto {i : ι} {pc : Pc} : pc.interval = (s.threads i).interval → pc.Timely s.clock →
      Move s (s.goto i pc)
  /-- a thread wins the refill race -/
  | win {i : ι} {c : Call} {last now : ℕ} : s.threads i = .exchange c last now →
      s.limiter.lastRefillMs = last →
      Move s ({ s with limiter := { s.limiter with lastRefillMs := now } }.goto i (.won c last now))
  /-- a thread adds the tokens of its interval -/
  | credit {i : ι} {c : Call} {last now current : ℕ} : s.threads i = .add c last now current →
      s.limiter.tokensScaled = current →
      Move s ({ s with
        limiter := { s.limiter with
          tokensScaled := s.limiter.refilled current (newTokensScaled s.limiter.rate last now) }
        credited := (last, now) :: s.credited }.goto i c.after)
  /-- a call is admitted -/
  | grant {i : ι} {current : ℕ} : s.threads i = .consume current → s.limiter.tokensScaled = current →
      Move s ({ s with
        limiter := { s.limiter with tokensScaled := current - 1000 }
        admitted := s.admitted + 1 }.goto i .idle)

theorem move_runThread {s s' : State ι} {i : ι} {fails : Bool} (ht : ∀ i, (s.threads i).Timely s.clock)
    (h : s.runThread i fails = some s') : Move s s' := by
  have hti := ht i
  cases hi : s.threads i with
  | idle => simp [State.runThread, hi] at h
  | refill c =>
    simp only [State.runThread, hi, Option.some.injEq] at h
    exact h ▸ .goto (by rw [hi]; rfl) (le_refl s.clock)
  | loadLast c now =>
    rw [hi] at hti
    simp only [State.runThread, hi] at h
    split at h
    · exact Option.some.inj h ▸ .goto (by rw [hi, interval_after]; rfl) (timely_after c _)
    · rename_i hlt
      exact Option.some.inj h ▸ .goto (by rw [hi]; rfl) ⟨Nat.lt_of_not_le hlt, hti⟩
  | exchange c last now =>
    simp only [State.runThread, hi] at h
    split at h
    · rename_i hlast
      exact Option.some.inj h ▸ .win hi hlast
    · exact Option.some.inj h ▸ .goto (by rw [hi, interval_after]; rfl) (timely_after c _)
  | won c last now =>
    simp only [State.runThread, hi, Option.some.injEq] at h
    exact h ▸ .goto (by rw [hi]; rfl) trivial
  | add c last now current =>
    simp only [State.runThread, hi] at h
    split at h
    · rename_i hok
      exact Option.some.inj h ▸ .credit hi hok.1
    · exact Option.some.inj h ▸ .goto (by rw [hi]; rfl) trivial
  | take =>
    simp only [State.runThread, hi] at h
    split at h
    · exact Option.some.inj h ▸ .goto (by rw [hi]; rfl) trivial
    · rename_i hle
      exact Option.some.inj h ▸ .goto (by rw [hi]; rfl) (Nat.le_of_not_lt hle)
  | consume current =>
    simp only [State.runThread, hi] at h
    split at h
    · rename_i hok
      exact Option.some.inj h ▸ .grant hi hok.1
    · exact Option.some.inj h ▸ .goto (by rw [hi]; rfl) trivial
  | count =>
    simp only [State.runThread, hi, Option.some.injEq] at h
    exact h ▸ .goto (by rw [hi]; rfl) trivial

theorem move_of_step {s s' : State ι} {a : Action ι} (ht : ∀ i, (s.threads i).Timely s.clock)
    (h : step s a = some s') : Move s s' := by
  cases a with
  | tick now =>
    simp only [step] at h
    split at h
    · rename_i hok
      exact Option.some.inj h ▸ .tick hok.1
    · cases h
  | call i c =>
    simp only [step] at h
    split at h
    · rename_i hidle
      exact Option.some.inj h ▸ .goto (by rw [hidle]; rfl) trivial
    · cases h
  | run i fails => exact move_runThread ht h

/-! ## The invariants -/

/-- The timestamp lies between the creation of the bucket and the clock. -/
structure Timed (created : ℕ) (s : State ι) : Prop where
  created_le : created ≤ s.limiter.lastRefillMs
  le_clock : s.limiter.lastRefillMs ≤ s.clock
  timely : ∀ i, (s.threads i).Timely s.clock

/-- What was admitted, what is stored and what threads have still to add comes out of the burst and the
time up to the timestamp. -/
structure Budget (created : ℕ) (s : State ι) : Prop where
  stored : s.limiter.tokensScaled ≤ s.limiter.burstScaled
  within : Within (1000 * s.admitted + s.limiter.tokensScaled)
    (fun i => (s.threads i).pending s.limiter.rate)
    (s.limiter.burstScaled + (s.limiter.lastRefillMs - created) * s.limiter.rate.toNat)

/-- The intervals, those credited and those still to be credited, do not meet. -/
structure Apart (s : State ι) : Prop where
  credited_le : ∀ iv ∈ s.credited, iv.2 ≤ s.limiter.lastRefillMs
  pending_le : ∀ i iv, (s.threads i).interval = some iv → iv.2 ≤ s.limiter.lastRefillMs
  credited : s.credited.Pairwise fun iv iv' => Disjoint (span iv) (span iv')
  pending : ∀ i iv, (s.threads i).interval = some iv → ∀ iv' ∈ s.credited, Disjoint (span iv) (span iv')
  threads : ∀ i j iv iv', i ≠ j → (s.threads i).interval = some iv → (s.threads j).interval = some iv' →
    Disjoint (span iv) (span iv')

section Preserved

variable {created : ℕ} {s s' : State ι}

theorem timed_step (h : Timed created s) (hm : Move s s') : Timed created s' := by
  have goto_timely : ∀ {i : ι} {pc : Pc}, pc.Timely s.clock →
      ∀ j, (Function.update s.threads i pc j).Timely s.clock := fun hpc j =>
    (Function.forall_update_iff s.threads fun _ pc => pc.Timely s.clock).mpr
      ⟨hpc, fun k _ => h.timely k⟩ j
  cases hm with
  | tick hle => exact ⟨h.created_le, le_trans h.le_clock hle, fun i => (h.timely i).mono hle⟩
  | goto _ hpc => exact ⟨h.created_le, h.le_clock, goto_timely hpc⟩
  | @win i c last now hi hlast =>
    have hnow : last < now ∧ now ≤ s.clock := by
      have := h.timely i
      rwa [hi] at this
    have hcreated := h.created_le
    have hle : created ≤ now := by omega
    exact ⟨hle, hnow.2, goto_timely (show (Pc.won c last now).Timely s.clock from trivial)⟩
  | @credit i c => exact ⟨h.created_le, h.le_clock, goto_timely (timely_after c _)⟩
  | grant =>
    constructor
    · simpa only [goto_limiter] using h.created_le
    · simpa only [goto_limiter, goto_clock] using h.le_clock
    · simpa only [goto_clock, goto_threads] using goto_timely (show Pc.idle.Timely s.clock from trivial)

omit [DecidableEq ι] in
theorem pending_of_none {rate : UInt32} {pc : Pc} (h : pc.interval = none) : pc.pending rate = 0 := by
  rw [Pc.pending, h]

theorem within_goto {rate : UInt32} {threads : ι → Pc} {spent spent' bound bound' : ℕ}
    (h : Within spent (fun j => (threads j).pending rate) bound) (i : ι) (pc : Pc)
    (hx : spent' + pc.pending rate + bound ≤ spent + (threads i).pending rate + bound') :
    Within spent' (fun j => (Function.update threads i pc j).pending rate) bound' := by
  have hfun : (fun j => (Function.update threads i pc j).pending rate) =
      Function.update (fun j => (threads j).pending rate) i (pc.pending rate) :=
    Function.comp_update (Pc.pending rate) threads i pc
  rw [hfun]
  exact h.update i (pc.pending rate) hx

theorem budget_step (ht : Timed created s) (h : Budget created s) (hm : Move s s') : Budget created s' := by
  have hwithin := h.within
  have hstored := h.stored
  cases hm with
  | tick => exact ⟨hstored, hwithin⟩
  | @goto i pc hpc =>
    have hsame : pc.pending s.limiter.rate = (s.threads i).pending s.limiter.rate := by
      rw [Pc.pending, Pc.pending, hpc]
    exact ⟨hstored, within_goto hwithin i pc (by rw [hsame]; exact le_refl _)⟩
  | @win i c last now hi hlast =>
    have hnow : last < now ∧ now ≤ s.clock := by
      have := ht.timely i
      rwa [hi] at this
    have hcreated := ht.created_le
    -- the time from `created` to `now` is that to `last` and the interval just won
    have hsplit : (now - created) * s.limiter.rate.toNat =
        (last - created) * s.limiter.rate.toNat + (now - last) * s.limiter.rate.toNat := by
      rw [← Nat.add_mul]
      congr 1
      omega
    have hworth : (Pc.won c last now).pending s.limiter.rate ≤ (now - last) * s.limiter.rate.toNat :=
      newTokensScaled_le s.limiter.rate last now
    have hbound : Within (1000 * s.admitted + s.limiter.tokensScaled)
        (fun j => (Function.update s.threads i (.won c last now) j).pending s.limiter.rate)
        (s.limiter.burstScaled + (now - created) * s.limiter.rate.toNat) := by
      apply within_goto hwithin
      rw [hsplit, hlast]
      omega
    exact ⟨hstored, hbound⟩
  | @credit i c last now current hi hcurrent =>
    have hworth : (s.threads i).pending s.limiter.rate = newTokensScaled s.limiter.rate last now := by
      rw [hi]
      rfl
    have hadd := s.limiter.refilled_le_add current (newTokensScaled s.limiter.rate last now)
    have hbound : Within (1000 * s.admitted + s.limiter.refilled current (newTokensScaled s.limiter.rate last now))
        (fun j => (Function.update s.threads i c.after j).pending s.limiter.rate)
        (s.limiter.burstScaled + (s.limiter.lastRefillMs - created) * s.limiter.rate.toNat) := by
      apply within_goto hwithin
      rw [pending_of_none (interval_after c), hworth, hcurrent]
      omega
    exact ⟨s.limiter.refilled_le_burst _ _, hbound⟩
  | @grant i current hi hcurrent =>
    have hone : 1000 ≤ current := by
      have := ht.timely i
      rwa [hi] at this
    have hbound : Within (1000 * (s.admitted + 1) + (current - 1000))
        (fun j => (Function.update s.threads i .idle j).pending s.limiter.rate)
        (s.limiter.burstScaled + (s.limiter.lastRefillMs - created) * s.limiter.rate.toNat) := by
      apply within_goto hwithin
      rw [pending_of_none (show Pc.idle.interval = none from rfl), hcurrent]
      omega
    have hless : current - 1000 ≤ s.limiter.burstScaled := by omega
    constructor
    · simpa only [goto_limiter] using hless
    · simpa only [goto_limiter, goto_admitted, goto_threads] using hbound

theorem interval_goto {i j : ι} {pc : Pc} {iv : ℕ × ℕ}
    (h : (Function.update s.threads i pc j).interval = some iv) :
    (j = i ∧ pc.interval = some iv) ∨ (j ≠ i ∧ (s.threads j).interval = some iv) := by
  by_cases hj : j = i
  · subst hj
    rw [Function.update_self] at h
    exact Or.inl ⟨rfl, h⟩
  · rw [Function.update_of_ne hj] at h
    exact Or.inr ⟨hj, h⟩

/-- A thread that holds no new interval leaves those of all threads as they were, or gives one up. -/
theorem Apart.goto (h : Apart s) {i : ι} {pc : Pc}
    (hpc : ∀ iv, pc.interval = some iv → (s.threads i).interval = some iv) : Apart (s.goto i pc) := by
  have hold : ∀ j iv, (Function.update s.threads i pc j).interval = some iv →
      (s.threads j).interval = some iv := by
    intro j iv hj
    obtain ⟨rfl, hiv⟩ | ⟨-, hiv⟩ := interval_goto hj
    · exact hpc iv hiv
    · exact hiv
  exact ⟨h.credited_le, fun j iv hj => h.pending_le j iv (hold j iv hj), h.credited,
    fun j iv hj => h.pending j iv (hold j iv hj),
    fun j k iv iv' hne hj hk => h.threads j k iv iv' hne (hold j iv hj) (hold k iv' hk)⟩

theorem apart_win (ht : Timed created s) (h : Apart s) {i : ι} {c : Call} {last now : ℕ}
    (hi : s.threads i = .exchange c last now) (hlast : s.limiter.lastRefillMs = last) :
    Apart ({ s with limiter := { s.limiter with lastRefillMs := now } }.goto i (.won c last now)) := by
  have hnow : last < now := by
    have := ht.timely i
    rw [hi] at this
    exact this.1
  have hle : s.limiter.lastRefillMs ≤ now := by omega
  -- the new interval begins at the timestamp, where all others have ended
  have hnew : ∀ iv : ℕ × ℕ, iv.2 ≤ s.limiter.lastRefillMs → Disjoint (span iv) (span (last, now)) :=
    fun iv hiv => disjoint_span_of_le (hlast ▸ hiv)
  have hwon : ∀ {iv}, (Pc.won c last now).interval = some iv → iv = (last, now) :=
    fun hiv => (Option.some.inj hiv).symm
  constructor
  · exact fun iv hiv => le_trans (h.credited_le iv hiv) hle
  · intro j iv hj
    obtain ⟨-, hiv⟩ | ⟨-, hiv⟩ := interval_goto hj
    · rw [hwon hiv]
      exact le_refl now
    · exact le_trans (h.pending_le j iv hiv) hle
  · exact h.credited
  · intro j iv hj iv' hiv'
    obtain ⟨-, hiv⟩ | ⟨-, hiv⟩ := interval_goto hj
    · rw [hwon hiv]
      exact (hnew iv' (h.credited_le iv' hiv')).symm
    · exact h.pending j iv hiv iv' hiv'
  · intro j k iv iv' hne hj hk
    obtain ⟨rfl, hiv⟩ | ⟨-, hiv⟩ := interval_goto hj <;>
      obtain ⟨rfl, hiv'⟩ | ⟨-, hiv'⟩ := interval_goto hk
    · exact absurd rfl hne
    · rw [hwon hiv]
      exact (hnew iv' (h.pending_le k iv' hiv')).symm
    · rw [hwon hiv']
      exact hnew iv (h.pending_le j iv hiv)
    · exact h.threads j k iv iv' hne hiv hiv'

theorem Apart.credit (h : Apart s) {i : ι} {iv : ℕ × ℕ} {c : Call} {l : RateLimiter}
    (hi : (s.threads i).interval = some iv) (hl : l.lastRefillMs = s.limiter.lastRefillMs) :
    Apart ({ s with limiter := l, credited := iv :: s.credited }.goto i c.after) := by
  have hold : ∀ j iv', (Function.update s.threads i c.after j).interval = some iv' →
      j ≠ i ∧ (s.threads j).interval = some iv' := by
    intro j iv' hj
    obtain ⟨-, hiv⟩ | hother := interval_goto hj
    · simp at hiv
    · exact hother
  constructor
  · intro iv' hiv'
    show iv'.2 ≤ l.lastRefillMs
    rw [hl]
    obtain rfl | hmem := List.mem_cons.mp hiv'
    · exact h.pending_le i _ hi
    · exact h.credited_le iv' hmem
  · intro j iv' hj
    show iv'.2 ≤ l.lastRefillMs
    rw [hl]
    exact h.pending_le j iv' (hold j iv' hj).2
  · exact List.pairwise_cons.mpr ⟨h.pending i iv hi, h.credited⟩
  · intro j iv' hj iv'' hiv''
    obtain ⟨hne, hiv'⟩ := hold j iv' hj
    obtain rfl | hmem := List.mem_cons.mp hiv''
    · exact h.threads j i iv' _ hne hiv' hi
    · exact h.pending j iv' hiv' iv'' hmem
  · exact fun j k iv' iv'' hne hj hk => h.threads j k iv' iv'' hne (hold j iv' hj).2 (hold k iv'' hk).2

theorem apart_step (ht : Timed created s) (h : Apart s) (hm : Move s s') : Apart s' := by
  cases hm with
  | tick => exact ⟨h.credited_le, h.pending_le, h.credited, h.pending, h.threads⟩
  | goto hpc => exact h.goto fun iv hiv => hpc ▸ hiv
  | win hi hlast => exact apart_win ht h hi hlast
  | @credit i c last now current hi =>
    have hinterval : (s.threads i).interval = some (last, now) := by
      rw [hi]
      rfl
    exact h.credit hinterval rfl
  | @grant i current hi =>
    have hquiet : Apart { s with
        limiter := { s.limiter with tokensScaled := current - 1000 }, admitted := s.admitted + 1 } :=
      ⟨h.credited_le, h.pending_le, h.credited, h.pending, h.threads⟩
    exact hquiet.goto fun iv hiv => by cases hiv

theorem limits_step (hm : Move s s') : s'.limiter.burstScaled = s.limiter.burstScaled ∧
    s'.limiter.rate = s.limiter.rate := by
  cases hm <;> simp

end Preserved

/-! ## Over all runs -/

variable {ratePerSec burst : UInt32} {created : ℕ} {s : State ι}

structure Inv (ratePerSec burst : UInt32) (created : ℕ) (s : State ι) : Prop where
  burstScaled : s.limiter.burstScaled = burst.toNat * 1000
  rate : s.limiter.rate = ratePerSec
  timed : Timed created s
  budget : Budget created s
  apart : Apart s

omit [DecidableEq ι] in
theorem inv_initial (ratePerSec burst : UInt32) (created : ℕ) :
    Inv ratePerSec burst created (initial ratePerSec burst created : State ι) where
  burstScaled := rfl
  rate := rfl
  timed := ⟨le_refl created, le_refl created, fun _ => trivial⟩
  budget := by
    refine ⟨le_refl _, Within.of_nothing_held ?_ fun _ => pending_of_none rfl⟩
    simp [initial, RateLimiter.withLimits]
  apart :=
    { credited_le := by simp [initial]
      pending_le := by simp [initial, Pc.interval]
      credited := List.Pairwise.nil
      pending := by simp [initial]
      threads := by simp [initial, Pc.interval] }

theorem inv_of_reachable (h : Reachable ratePerSec burst created s) : Inv ratePerSec burst created s := by
  refine h.invariant (fun s hs => hs ▸ inv_initial ratePerSec burst created) ?_
  intro s a s' hinv _ hstep
  have hm := move_of_step hinv.timed.timely hstep
  obtain ⟨hburst, hrate⟩ := limits_step hm
  exact ⟨hburst.trans hinv.burstScaled, hrate.trans hinv.rate, timed_step hinv.timed hm,
    budget_step hinv.timed hinv.budget hm, apart_step hinv.timed hinv.apart hm⟩

/-- **The bound.**  Whatever threads do and however the clock moves on, the calls admitted are within the
burst and the time since the bucket was made; the tokens stored are within the burst; and no time is
credited twice. -/
theorem admitted_within_rate (h : Reachable ratePerSec burst created s) :
    1000 * s.admitted ≤ 1000 * burst.toNat + ratePerSec.toNat * (s.clock - created) ∧
      s.limiter.tokensScaled ≤ 1000 * burst.toNat ∧
      s.credited.Pairwise fun iv iv' => Disjoint (span iv) (span iv') := by
  have hinv := inv_of_reachable h
  have hspent := hinv.budget.within.spent_le
  have hstored := hinv.budget.stored
  rw [hinv.burstScaled, hinv.rate] at hspent
  rw [hinv.burstScaled] at hstored
  have hclock := hinv.timed.le_clock
  have htime : (s.limiter.lastRefillMs - created) * ratePerSec.toNat ≤
      ratePerSec.toNat * (s.clock - created) := by
    rw [Nat.mul_comm]
    exact Nat.mul_le_mul_left _ (by omega)
  exact ⟨by omega, by omega, hinv.apart.credited⟩

def suspendedRefill : List (Action Bool) :=
  [.tick 50, .call true .tryAcquire, .run true false, .run true false, .run true false, .tick 90,
    .call false .tryAcquire, .run false false, .run false false, .run false false, .run false false,
    .run false true, .run false false, .run false false, .run false false, .run false false,
    .run true false, .run true false, .run true false, .run true false]

theorem suspendedRefill_run :
    (runActions step (fun _ _ => true) (initial 20 2 0) suspendedRefill).map
      (fun s => (s.admitted, s.clock, s.credited)) = some (2, 90, [(0, 50), (50, 90)]) := by
  decide +kernel

/-- A thread is suspended within its refill while another one takes tokens. -/
theorem admitted_within_rate_suspendedRefill : ∃ s : State Bool, s.admitted = 2 ∧
    1000 * s.admitted ≤ 1000 * (2 : UInt32).toNat + (20 : UInt32).toNat * (s.clock - 0) := by
  obtain ⟨s, hs, hfields⟩ := Option.map_eq_some_iff.mp suspendedRefill_run
  have hinit : Reachable 20 2 0 (initial 20 2 0 : State Bool) := .init rfl
  have hreach : Reachable 20 2 0 s := ReachableWhen.runActions (fun _ _ _ => trivial) hinit hs
  exact ⟨s, congrArg Prod.fst hfields, (admitted_within_rate hreach).1⟩

end VelocityMcp.RateLimit
