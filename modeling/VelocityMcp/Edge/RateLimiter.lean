import Mathlib.Algebra.Order.Floor.Semiring
import Mathlib.Data.Rat.Floor
import Mathlib.Tactic.Linarith
import Mathlib.Tactic.Positivity
import Mathlib.Tactic.Ring
import VelocityMcp.Lib.HashMap
import VelocityMcp.Lib.Ip

/-!
# Edge.RateLimiter — the rate limiter of the edge server

Tokens are exact rationals and instants are nanoseconds.  The mutex is never poisoned: nothing panics under it.
-/

namespace VelocityMcp.Edge

open Lib

/-! ## Buckets -/

/-- `as_secs_f64`. -/
def seconds (ns : ℕ) : ℚ := ns / 10 ^ 9

/-- The tokens of one address. -/
structure TokenBucket where
  tokens : ℚ
  capacity : ℚ
  lastRefill : ℕ

namespace TokenBucket

def new (capacity : UInt32) (now : ℕ) : TokenBucket := ⟨capacity.toNat, capacity.toNat, now⟩

def refill (b : TokenBucket) (now : ℕ) : TokenBucket :=
  let elapsed := seconds (now - b.lastRefill)
  let newTokens := elapsed * (b.capacity / 60)
  ⟨min (b.tokens + newTokens) b.capacity, b.capacity, now⟩

def tryConsume (b : TokenBucket) (now : ℕ) : Bool × TokenBucket :=
  let b := b.refill now
  if 1 ≤ b.tokens then (true, { b with tokens := b.tokens - 1 }) else (false, b)

/-- `RATE_LIMIT_CLEANUP_INTERVAL_SECS`. -/
def cleanupIntervalSecs : ℕ := 60

def isExpired (b : TokenBucket) (now : ℕ) : Bool := cleanupIntervalSecs * 10 ^ 9 < now - b.lastRefill

/-- A bucket of a limiter, not filled later than at this instant. -/
structure Sound (capacity : UInt32) (t : ℕ) (b : TokenBucket) : Prop where
  capacity_eq : b.capacity = capacity.toNat
  nonneg : 0 ≤ b.tokens
  le_capacity : b.tokens ≤ capacity.toNat
  past : b.lastRefill ≤ t

end TokenBucket

/-! ## The limiter -/

/-- `RateLimiter`: a bucket for each address, all of one capacity. -/
structure RateLimiter where
  buckets : Map IpAddr TokenBucket
  capacity : UInt32

/-- A call of `check`, with the instants at which it reads the clock: for each bucket when the old ones are
dropped, for a new bucket, and for the refill. -/
structure Call where
  addr : IpAddr
  sweepAt : IpAddr → ℕ
  createdAt : ℕ
  now : ℕ

/-- A call within a single instant. -/
def Call.at (addr : IpAddr) (now : ℕ) : Call := ⟨addr, fun _ => now, now, now⟩

namespace RateLimiter

/-- `new`: no buckets yet. -/
def new (capacity : UInt32) : RateLimiter := ⟨∅, capacity⟩

/-- Drop the expired buckets of a large table. -/
def cleanup (map : Map IpAddr TokenBucket) (sweepAt : IpAddr → ℕ) : Map IpAddr TokenBucket :=
  if map.len > 1000 then map.retain fun addr b => !b.isExpired (sweepAt addr) else map

/-- Take a token from the address's bucket, a new one if there is none. -/
def consume (capacity : UInt32) (map : Map IpAddr TokenBucket) (c : Call) : Bool × Map IpAddr TokenBucket :=
  let bucket := (AList.lookup c.addr map).getD (TokenBucket.new capacity c.createdAt)
  let (allowed, bucket) := bucket.tryConsume c.now
  (allowed, map.insert c.addr bucket)

/-- A call takes a token, and every so often expired buckets are swept. -/
def check (s : RateLimiter) (c : Call) : Bool × RateLimiter :=
  if s.capacity = 0 then (true, s)
  else
    let (allowed, map) := consume s.capacity (cleanup s.buckets c.sweepAt) c
    (allowed, { s with buckets := map })

/-- A check that never sweeps: what the limiter is compared with. -/
def checkKeeping (s : RateLimiter) (c : Call) : Bool × RateLimiter :=
  if s.capacity = 0 then (true, s)
  else
    let (allowed, map) := consume s.capacity s.buckets c
    (allowed, { s with buckets := map })

/-- The limit, the remaining tokens (`as u32`) and the seconds until the bucket is full. -/
def getInfo (s : RateLimiter) (addr : IpAddr) (now : ℕ) : Option (ℕ × ℕ × ℚ) :=
  if s.capacity = 0 then none
  else
    match AList.lookup addr s.buckets with
    | some bucket =>
      let b := bucket.refill now
      let remaining := min ⌊b.tokens⌋₊ (2 ^ 32 - 1)
      let deficit := b.capacity - b.tokens
      let resetSeconds := if deficit ≤ 0 then 0 else deficit / (b.capacity / 60)
      some (s.capacity.toNat, remaining, resetSeconds)
    | none => some (s.capacity.toNat, s.capacity.toNat, 0)

end RateLimiter

/-! ## Runs -/

def Call.After (t : ℕ) (c : Call) : Prop :=
  (∀ addr, t ≤ c.sweepAt addr ∧ c.sweepAt addr ≤ c.now) ∧ t ≤ c.createdAt ∧ c.createdAt ≤ c.now

/-- One call after the other, as the mutex makes them. -/
def Timed (t : ℕ) : List Call → Prop
  | [] => True
  | c :: cs => c.After t ∧ Timed c.now cs

/-- The instant of the last call. -/
def finish (t : ℕ) : List Call → ℕ
  | [] => t
  | c :: cs => finish c.now cs

/-- The limiter after some calls. -/
def after (step : RateLimiter → Call → Bool × RateLimiter) (s : RateLimiter) : List Call → RateLimiter
  | [] => s
  | c :: cs => after step (step s c).2 cs

/-- What a sequence of calls is answered, from the first to the last. -/
def answers (step : RateLimiter → Call → Bool × RateLimiter) (s : RateLimiter) : List Call → List Bool
  | [] => []
  | c :: cs => (step s c).1 :: answers step (step s c).2 cs

/-- How many calls of an address were let through. -/
def allowedCount (addr : IpAddr) (calls : List Call) (oks : List Bool) : ℕ :=
  (calls.zip oks).countP fun p => p.1.addr = addr ∧ p.2 = true

theorem Call.After.le {t : ℕ} {c : Call} (h : c.After t) : t ≤ c.now := h.2.1.trans h.2.2

/-! ## One bucket -/

namespace TokenBucket

variable {capacity : UInt32} {b : TokenBucket} {t now : ℕ}

theorem Sound.mono (h : b.Sound capacity t) (ht : t ≤ now) : b.Sound capacity now where
  capacity_eq := h.capacity_eq
  nonneg := h.nonneg
  le_capacity := h.le_capacity
  past := h.past.trans ht

theorem sound_new (h : t ≤ now) : (new capacity t).Sound capacity now where
  capacity_eq := rfl
  nonneg := Nat.cast_nonneg _
  le_capacity := le_rfl
  past := h

theorem seconds_nonneg (n : ℕ) : 0 ≤ seconds n := by
  unfold seconds
  positivity

theorem seconds_add (n m : ℕ) : seconds (n + m) = seconds n + seconds m := by
  unfold seconds
  rw [Nat.cast_add, add_div]

theorem Sound.earned_nonneg (h : b.Sound capacity t) (n : ℕ) : 0 ≤ seconds n * (b.capacity / 60) := by
  have hn := seconds_nonneg n
  rw [h.capacity_eq]
  positivity

theorem Sound.refill (h : b.Sound capacity t) : (b.refill now).Sound capacity now where
  capacity_eq := h.capacity_eq
  nonneg := le_min (add_nonneg h.nonneg (h.earned_nonneg _)) (by rw [h.capacity_eq]; exact Nat.cast_nonneg _)
  le_capacity := (min_le_right _ _).trans_eq h.capacity_eq
  past := le_rfl

theorem Sound.tryConsume (h : b.Sound capacity t) : (b.tryConsume now).2.Sound capacity now := by
  have hfill := @Sound.refill _ _ _ now h
  rw [TokenBucket.tryConsume]
  split_ifs with hone
  · exact ⟨hfill.capacity_eq, sub_nonneg.mpr hone, (sub_le_self _ zero_le_one).trans hfill.le_capacity, le_rfl⟩
  · exact hfill

theorem refill_of_full (h : b.Sound capacity t)
    (hfull : capacity.toNat ≤ b.tokens + seconds (now - b.lastRefill) * (b.capacity / 60)) :
    b.refill now = ⟨capacity.toNat, capacity.toNat, now⟩ := by
  rw [TokenBucket.refill, min_eq_right (h.capacity_eq.trans_le hfull), h.capacity_eq]

theorem refill_new (capacity : UInt32) (t now : ℕ) :
    (new capacity t).refill now = ⟨capacity.toNat, capacity.toNat, now⟩ := by
  have hsound := @sound_new capacity t t le_rfl
  exact refill_of_full hsound (le_add_of_nonneg_right (hsound.earned_nonneg _))

theorem isExpired_mono (h : b.isExpired t = true) (ht : t ≤ now) : b.isExpired now = true :=
  decide_eq_true ((of_decide_eq_true h).trans_le (Nat.sub_le_sub_right ht _))

/-- **An expired bucket is full.** -/
theorem refill_of_isExpired (h : b.Sound capacity t) (hexpired : b.isExpired now = true) :
    b.refill now = ⟨capacity.toNat, capacity.toNat, now⟩ := by
  have hage : cleanupIntervalSecs * 10 ^ 9 < now - b.lastRefill := of_decide_eq_true hexpired
  have hlong : 60 ≤ seconds (now - b.lastRefill) := by
    have hcast : ((cleanupIntervalSecs * 10 ^ 9 : ℕ) : ℚ) ≤ (now - b.lastRefill : ℕ) := Nat.cast_le.mpr hage.le
    rw [seconds, le_div_iff₀ (by norm_num)]
    rw [cleanupIntervalSecs, Nat.cast_mul, Nat.cast_pow] at hcast
    exact hcast
  apply refill_of_full h
  have hearned : (capacity.toNat : ℚ) ≤ seconds (now - b.lastRefill) * (b.capacity / 60) := by
    rw [h.capacity_eq]
    calc (capacity.toNat : ℚ) = 60 * (capacity.toNat / 60) := by ring
      _ ≤ seconds (now - b.lastRefill) * (capacity.toNat / 60) := by gcongr
  linarith [h.nonneg]

theorem tryConsume_of_isExpired (h : b.Sound capacity t) (hexpired : b.isExpired now = true) (created : ℕ) :
    b.tryConsume now = (new capacity created).tryConsume now := by
  rw [tryConsume, tryConsume, refill_of_isExpired h hexpired, refill_new]

end TokenBucket

/-! ## The sweep is not seen -/

section Sweep

open TokenBucket RateLimiter

variable {capacity : UInt32} {m k : Map IpAddr TokenBucket} {t now : ℕ} {c : Call}

def SoundBuckets (capacity : UInt32) (t : ℕ) (k : Map IpAddr TokenBucket) : Prop :=
  ∀ addr b, AList.lookup addr k = some b → b.Sound capacity t

/-- **What is missing would be full again.** -/
def Same (t : ℕ) (m k : Map IpAddr TokenBucket) : Prop :=
  ∀ addr, AList.lookup addr m = AList.lookup addr k ∨
    AList.lookup addr m = none ∧ ∃ b, AList.lookup addr k = some b ∧ b.isExpired t = true

theorem SoundBuckets.mono (h : SoundBuckets capacity t k) (ht : t ≤ now) : SoundBuckets capacity now k :=
  fun addr b hb => (h addr b hb).mono ht

theorem Same.mono (h : Same t m k) (ht : t ≤ now) : Same now m k := by
  intro addr
  refine (h addr).imp_right fun ⟨hm, b, hb, hexpired⟩ => ⟨hm, b, hb, isExpired_mono hexpired ht⟩

theorem Same.cleanup (h : Same t m k) (hc : c.After t) : Same c.now (cleanup m c.sweepAt) k := by
  have hnow := h.mono hc.le
  rw [RateLimiter.cleanup]
  split_ifs with hlarge
  · intro addr
    rw [Map.lookup_retain]
    obtain heq | ⟨hm, hk⟩ := hnow addr
    · cases hb : AList.lookup addr m with
      | none =>
        rw [hb] at heq
        exact .inl heq
      | some b =>
        rw [hb] at heq
        rw [Option.filter_some]
        split_ifs with hkept
        · exact .inl heq
        · have hexpired : b.isExpired (c.sweepAt addr) = true := by simpa using hkept
          exact .inr ⟨rfl, b, heq.symm, isExpired_mono hexpired (hc.1 addr).2⟩
    · rw [hm]
      exact .inr ⟨rfl, hk⟩
  · exact hnow

theorem tryConsume_of_same (h : Same c.now m k) (hk : SoundBuckets capacity c.now k) :
    ((AList.lookup c.addr m).getD (.new capacity c.createdAt)).tryConsume c.now =
      ((AList.lookup c.addr k).getD (.new capacity c.createdAt)).tryConsume c.now := by
  obtain heq | ⟨hm, b, hb, hexpired⟩ := h c.addr
  · rw [heq]
  · rw [hm, hb, Option.getD_none, Option.getD_some]
    exact (tryConsume_of_isExpired (hk _ b hb) hexpired _).symm

/-- **A call keeps the two limiters the same**, and answers the same. -/
theorem consume_of_same (h : Same c.now m k) (hk : SoundBuckets capacity c.now k) :
    (consume capacity m c).1 = (consume capacity k c).1 ∧
      Same c.now (consume capacity m c).2 (consume capacity k c).2 := by
  have hbucket := tryConsume_of_same h hk
  rw [consume, consume, hbucket]
  refine ⟨rfl, fun addr => ?_⟩
  by_cases haddr : addr = c.addr
  · rw [haddr, AList.lookup_insert, AList.lookup_insert]
    exact .inl rfl
  · rw [AList.lookup_insert_ne haddr, AList.lookup_insert_ne haddr]
    exact h addr

theorem SoundBuckets.consume (h : SoundBuckets capacity t k) (hc : c.After t) :
    SoundBuckets capacity c.now (consume capacity k c).2 := by
  intro addr b hb
  rcases Map.lookup_insert_some hb with ⟨-, rfl⟩ | ⟨-, hold⟩
  · cases hlookup : AList.lookup c.addr k with
    | none => exact (sound_new hc.2.2).tryConsume
    | some d => exact (h _ d hlookup).tryConsume
  · exact (h addr b hold).mono hc.le

/-- The two limiters, at the same instant. -/
structure Twins (capacity : UInt32) (t : ℕ) (s s' : RateLimiter) : Prop where
  capacity_eq : s.capacity = capacity ∧ s'.capacity = capacity
  same : Same t s.buckets s'.buckets
  sound : SoundBuckets capacity t s'.buckets

theorem twins_new (capacity : UInt32) (t : ℕ) : Twins capacity t (.new capacity) (.new capacity) where
  capacity_eq := ⟨rfl, rfl⟩
  same _ := .inl rfl
  sound _ _ hb := nomatch hb

variable {s s' : RateLimiter}

theorem Twins.check (h : Twins capacity t s s') (hc : c.After t) :
    (s.check c).1 = (s'.checkKeeping c).1 ∧ Twins capacity c.now (s.check c).2 (s'.checkKeeping c).2 := by
  rw [RateLimiter.check, checkKeeping, h.capacity_eq.1, h.capacity_eq.2]
  split_ifs with hzero
  · exact ⟨rfl, h.capacity_eq, h.same.mono hc.le, h.sound.mono hc.le⟩
  · obtain ⟨hanswer, hsame⟩ := consume_of_same (h.same.cleanup hc) (h.sound.mono hc.le)
    exact ⟨hanswer, ⟨rfl, rfl⟩, hsame, h.sound.consume hc⟩

/-- **All answers are the same**, and the limiters stay twins. -/
theorem Twins.run {calls : List Call} (h : Twins capacity t s s') (hcalls : Timed t calls) :
    answers RateLimiter.check s calls = answers checkKeeping s' calls ∧
      Twins capacity (finish t calls) (after RateLimiter.check s calls) (after checkKeeping s' calls) := by
  induction calls generalizing t s s' with
  | nil => exact ⟨rfl, h⟩
  | cons c cs ih =>
    obtain ⟨hanswer, htwins⟩ := h.check hcalls.1
    obtain ⟨hanswers, hend⟩ := ih htwins hcalls.2
    exact ⟨by rw [answers, answers, hanswer, hanswers], hend⟩

end Sweep

/-! ## How much an address is allowed -/

section Allowed

open TokenBucket RateLimiter

variable {capacity : UInt32} {k : Map IpAddr TokenBucket} {t now : ℕ} {c : Call} {addr : IpAddr}

/-- The tokens that an address has at an instant. -/
def level (capacity : UInt32) (k : Map IpAddr TokenBucket) (addr : IpAddr) (t : ℕ) : ℚ :=
  match AList.lookup addr k with
  | some b => (b.refill t).tokens
  | none => capacity.toNat

def earned (capacity : UInt32) (ns : ℕ) : ℚ := capacity.toNat * seconds ns / 60

theorem earned_add (n m : ℕ) : earned capacity (n + m) = earned capacity n + earned capacity m := by
  unfold earned
  rw [seconds_add]
  ring

theorem earned_nonneg (n : ℕ) : 0 ≤ earned capacity n := by
  have hn := seconds_nonneg n
  unfold earned
  positivity

theorem level_le (hk : SoundBuckets capacity t k) (addr : IpAddr) (now : ℕ) :
    level capacity k addr now ≤ capacity.toNat := by
  unfold level
  split
  · rename_i b hb
    exact (min_le_right _ _).trans_eq (hk addr b hb).capacity_eq
  · exact le_rfl

theorem level_nonneg (hk : SoundBuckets capacity t k) (addr : IpAddr) (now : ℕ) : 0 ≤ level capacity k addr now := by
  unfold level
  split
  · rename_i b hb
    exact (hk addr b hb).refill.nonneg
  · exact Nat.cast_nonneg _

theorem level_le_earned (hk : SoundBuckets capacity t k) (addr : IpAddr) (ht : t ≤ now) :
    level capacity k addr now ≤ level capacity k addr t + earned capacity (now - t) := by
  unfold level
  split
  · rename_i b hb
    have hb := hk addr b hb
    have hsplit : now - b.lastRefill = (t - b.lastRefill) + (now - t) := by
      have hpast := hb.past
      omega
    have hearned : seconds (now - t) * (b.capacity / 60) = earned capacity (now - t) := by
      rw [hb.capacity_eq, earned]
      ring
    show min _ _ ≤ min _ _ + _
    rw [hsplit, seconds_add, add_mul, hearned, ← min_add_add_right, add_assoc]
    exact min_le_min_left _ (le_add_of_nonneg_right (earned_nonneg _))
  · exact le_add_of_nonneg_right (earned_nonneg _)

theorem level_eq (addr : IpAddr) (created now : ℕ) :
    level capacity k addr now = (((AList.lookup addr k).getD (.new capacity created)).refill now).tokens := by
  unfold level
  cases AList.lookup addr k with
  | some b => rfl
  | none => rw [Option.getD_none, refill_new]

theorem tokens_tryConsume (b : TokenBucket) (h : b.Sound capacity t) (now : ℕ) :
    ((b.tryConsume now).2.refill now).tokens = (b.tryConsume now).2.tokens := by
  have hsound := @Sound.tryConsume _ _ _ now h
  have hlast : (b.tryConsume now).2.lastRefill = now := by
    rw [tryConsume]
    split_ifs <;> rfl
  show min (_ + seconds (now - _) * _) _ = _
  have hzero : seconds 0 = 0 := by simp [seconds]
  rw [hlast, Nat.sub_self, hzero, zero_mul, add_zero, min_eq_left]
  exact hsound.le_capacity.trans_eq hsound.capacity_eq.symm

theorem tryConsume_cost (b : TokenBucket) (now : ℕ) :
    (if (b.tryConsume now).1 = true then 1 else 0) + (b.tryConsume now).2.tokens = (b.refill now).tokens := by
  rw [tryConsume]
  by_cases hone : 1 ≤ (b.refill now).tokens
  · rw [if_pos hone, if_pos rfl, add_sub_cancel]
  · rw [if_neg hone, if_neg (by simp), zero_add]

theorem level_consume (hk : SoundBuckets capacity t k) (hc : c.After t) (addr : IpAddr) :
    (if c.addr = addr ∧ (consume capacity k c).1 = true then 1 else 0) +
      level capacity (consume capacity k c).2 addr c.now = level capacity k addr c.now := by
  by_cases haddr : addr = c.addr
  · have hbucket : ((AList.lookup c.addr k).getD (.new capacity c.createdAt)).Sound capacity c.now := by
      cases hlookup : AList.lookup c.addr k with
      | none => exact sound_new hc.2.2
      | some b => exact (hk _ b hlookup).mono hc.le
    have hafter : level capacity (consume capacity k c).2 c.addr c.now =
        (((AList.lookup c.addr k).getD (.new capacity c.createdAt)).tryConsume c.now).2.tokens := by
      rw [level_eq c.addr c.createdAt, consume, AList.lookup_insert, Option.getD_some]
      exact tokens_tryConsume _ hbucket c.now
    rw [haddr, hafter, level_eq c.addr c.createdAt, ← tryConsume_cost]
    simp only [true_and]
    rfl
  · have hlookup : AList.lookup addr (consume capacity k c).2 = AList.lookup addr k := AList.lookup_insert_ne haddr
    rw [if_neg fun h => haddr h.1.symm, zero_add, level, level, hlookup]

theorem allowedCount_cons (c : Call) (cs : List Call) (ok : Bool) (oks : List Bool) :
    (allowedCount addr (c :: cs) (ok :: oks) : ℚ) =
      (if c.addr = addr ∧ ok = true then 1 else 0) + allowedCount addr cs oks := by
  unfold allowedCount
  rw [List.zip_cons_cons, List.countP_cons]
  push_cast
  simp only [decide_eq_true_eq]
  rw [add_comm]

variable {s : RateLimiter}

theorem le_finish {t : ℕ} {calls : List Call} (h : Timed t calls) : t ≤ finish t calls := by
  induction calls generalizing t with
  | nil => exact le_rfl
  | cons c cs ih => exact h.1.le.trans (ih h.2)

theorem checkKeeping_eq (hcap : capacity ≠ 0) (hs : s.capacity = capacity) (c : Call) :
    s.checkKeeping c = ((consume capacity s.buckets c).1, ⟨(consume capacity s.buckets c).2, capacity⟩) := by
  rw [checkKeeping, hs, if_neg hcap]

/-- **The tokens pay for what is allowed**, from a call on. -/
theorem allowed_le_level (hcap : capacity ≠ 0) {cs : List Call} (hs : s.capacity = capacity)
    (hk : SoundBuckets capacity t s.buckets) (hcalls : Timed t (c :: cs)) :
    allowedCount addr (c :: cs) (answers checkKeeping s (c :: cs)) ≤
      level capacity s.buckets addr c.now + earned capacity (finish c.now cs - c.now) := by
  induction cs generalizing c s t with
  | nil =>
    have hcost := level_consume hk hcalls.1 addr
    have hrest := level_nonneg (hk.consume hcalls.1) addr c.now
    have hearned := @earned_nonneg capacity (finish c.now [] - c.now)
    have hnone : allowedCount addr [] [] = 0 := rfl
    rw [answers, checkKeeping_eq hcap hs, allowedCount_cons, answers, hnone, Nat.cast_zero]
    linarith
  | cons d ds ih =>
    have hrest := @ih c.now d ⟨(consume capacity s.buckets c).2, capacity⟩ rfl (hk.consume hcalls.1) hcalls.2
    have hcost := level_consume hk hcalls.1 addr
    have hgrow := level_le_earned (hk.consume hcalls.1) addr hcalls.2.1.le
    have hsplit : finish c.now (d :: ds) - c.now = (d.now - c.now) + (finish d.now ds - d.now) := by
      have h1 := hcalls.2.1.le
      have h2 := le_finish hcalls.2.2
      rw [finish]
      omega
    rw [answers, checkKeeping_eq hcap hs, allowedCount_cons, hsplit, earned_add]
    linarith

/-- **No address is allowed more than it starts with and earns.** -/
theorem allowed_le (hcap : capacity ≠ 0) {cs : List Call} (hs : s.capacity = capacity)
    (hk : SoundBuckets capacity t s.buckets) (hcalls : Timed t (c :: cs)) :
    allowedCount addr (c :: cs) (answers checkKeeping s (c :: cs)) ≤
      (capacity.toNat : ℚ) + capacity.toNat * seconds (finish c.now cs - c.now) / 60 :=
  (allowed_le_level hcap hs hk hcalls).trans (add_le_add_left (level_le hk addr c.now) _)

end Allowed

/-! ## What the headers say -/

section Headers

open TokenBucket RateLimiter

variable {capacity : UInt32} {s s' : RateLimiter} {t now : ℕ}

theorem getInfo_eq (hcap : capacity ≠ 0) (hs : s.capacity = capacity) (addr : IpAddr) (now : ℕ) :
    ∃ remaining reset, s.getInfo addr now = some (capacity.toNat, remaining, reset) ∧
      remaining = min ⌊level capacity s.buckets addr now⌋₊ (2 ^ 32 - 1) := by
  rw [getInfo, hs, if_neg hcap, level]
  cases AList.lookup addr s.buckets with
  | some b => exact ⟨_, _, rfl, rfl⟩
  | none =>
    refine ⟨_, _, rfl, ?_⟩
    have hlt := capacity.toNat_lt
    rw [Nat.floor_natCast]
    omega

theorem level_of_same {m k : Map IpAddr TokenBucket} (h : Same now m k) (hk : SoundBuckets capacity t k)
    (addr : IpAddr) : level capacity m addr now = level capacity k addr now := by
  obtain heq | ⟨hm, b, hb, hexpired⟩ := h addr
  · rw [level, level, heq]
  · rw [level, level, hm, hb]
    exact (congrArg tokens (refill_of_isExpired (hk _ b hb) hexpired)).symm

theorem after_at (addr : IpAddr) (ht : t ≤ now) : (Call.at addr now).After t :=
  ⟨fun _ => ⟨ht, le_rfl⟩, ht, le_rfl⟩

theorem check_at (hcap : capacity ≠ 0) (h : Twins capacity t s s') (ht : t ≤ now) (addr : IpAddr) :
    (s.check (.at addr now)).1 = true ↔ 1 ≤ level capacity s.buckets addr now := by
  have hswept : level capacity (cleanup s.buckets fun _ => now) addr now = level capacity s'.buckets addr now :=
    level_of_same (h.same.cleanup (after_at addr ht)) h.sound addr
  have hheld := level_of_same (h.same.mono ht) h.sound addr
  have hanswer : (s.check (.at addr now)).1 =
      (consume capacity (cleanup s.buckets fun _ => now) (.at addr now)).1 := by
    rw [RateLimiter.check, h.capacity_eq.1, if_neg hcap]
    rfl
  rw [hanswer, hheld, ← hswept, level_eq addr now, consume, tryConsume]
  show (ite _ _ _ : Bool × TokenBucket).1 = true ↔ _
  split_ifs with hone
  · exact iff_of_true rfl hone
  · exact iff_of_false id hone

/-- **The headers report a token just when a call would get one.** -/
theorem getInfo_iff_check (hcap : capacity ≠ 0) (h : Twins capacity t s s') (ht : t ≤ now) (addr : IpAddr) :
    ∃ remaining reset, s.getInfo addr now = some (capacity.toNat, remaining, reset) ∧
      (1 ≤ remaining ↔ (s.check (.at addr now)).1 = true) := by
  obtain ⟨remaining, reset, hinfo, hremaining⟩ := getInfo_eq hcap h.capacity_eq.1 addr now
  refine ⟨remaining, reset, hinfo, ?_⟩
  rw [check_at hcap h ht, hremaining, le_min_iff, Nat.one_le_floor_iff]
  exact and_iff_left (by norm_num)

end Headers

/-! ## The limiter as it is specified -/

section Spec

open RateLimiter

variable {capacity : UInt32}

theorem timed_append {t : ℕ} {before calls : List Call} (h : Timed t (before ++ calls)) :
    Timed t before ∧ Timed (finish t before) calls := by
  induction before generalizing t with
  | nil => exact ⟨trivial, h⟩
  | cons c cs ih => exact ⟨⟨h.1, (ih h.2).1⟩, (ih h.2).2⟩

/-- Without a limit every call is allowed. -/
theorem answers_check_of_zero {s : RateLimiter} (hs : s.capacity = 0) (calls : List Call) :
    answers check s calls = calls.map (fun _ => true) ∧ (after check s calls).capacity = 0 := by
  induction calls with
  | nil => exact ⟨rfl, hs⟩
  | cons c cs ih =>
    have hstep : s.check c = (true, s) := if_pos hs
    rw [answers, after, hstep, List.map_cons, ih.1]
    exact ⟨rfl, ih.2⟩

/-- **The sweep is invisible**: the answers are those of a limiter that keeps all buckets.  With a limit, from any call
on no address is allowed more than the capacity and what it earns since, and the headers report a token just when a call
at that instant would be allowed.  Without one every call is allowed, and there are no headers. -/
theorem sweep_invisible {t : ℕ} {calls : List Call} (hcalls : Timed t calls) :
    answers check (.new capacity) calls = answers checkKeeping (.new capacity) calls ∧
      (0 < capacity →
        (∀ addr before c cs, calls = before ++ c :: cs →
          allowedCount addr (c :: cs) (answers check (after check (.new capacity) before) (c :: cs)) ≤
            (capacity.toNat : ℚ) + capacity.toNat * seconds (finish c.now cs - c.now) / 60) ∧
        ∀ addr now, finish t calls ≤ now → ∃ remaining reset,
          (after check (.new capacity) calls).getInfo addr now = some (capacity.toNat, remaining, reset) ∧
            (1 ≤ remaining ↔ ((after check (.new capacity) calls).check (.at addr now)).1 = true)) ∧
      (capacity = 0 → answers check (.new capacity) calls = calls.map (fun _ => true) ∧
        ∀ addr now, (after check (.new capacity) calls).getInfo addr now = none) := by
  obtain ⟨hanswers, htwins⟩ := (twins_new capacity t).run hcalls
  refine ⟨hanswers, fun hcap => ?_, fun hzero => ?_⟩
  · have hne : capacity ≠ 0 := by
      rintro rfl
      exact absurd hcap (by decide)
    refine ⟨?_, fun addr now ht => getInfo_iff_check hne htwins ht addr⟩
    rintro addr before c cs rfl
    obtain ⟨hbefore, hrest⟩ := timed_append hcalls
    obtain ⟨-, hmid⟩ := (twins_new capacity t).run hbefore
    rw [(hmid.run hrest).1]
    exact allowed_le hne hmid.capacity_eq.2 hmid.sound hrest
  · obtain ⟨hall, hcapacity⟩ := @answers_check_of_zero (.new capacity) hzero calls
    exact ⟨hall, fun addr now => if_pos hcapacity⟩

theorem timed_at_zero (addrs : List IpAddr) {calls : List Call} (h : Timed 0 calls) :
    Timed 0 (addrs.map (.at · 0) ++ calls) := by
  induction addrs with
  | nil => exact h
  | cons addr addrs ih => exact ⟨after_at addr le_rfl, ih⟩

/-- So many addresses that the table is swept. -/
@[irreducible] def neighbours : List IpAddr :=
  (List.range 1001).map fun i => .v4 ⟨10, 0, UInt8.ofNat (i / 256), UInt8.ofNat (i % 256)⟩

/-- They all call, and another one when a minute and a second have passed: it finds their buckets expired. -/
def crowd : List Call := neighbours.map (.at · 0) ++ [.at (.v4 ⟨1, 2, 3, 4⟩) 61000000000]

theorem timed_crowd : Timed 0 crowd := by
  have hlast : Timed 0 [.at (.v4 ⟨1, 2, 3, 4⟩) 61000000000] := ⟨after_at _ (Nat.zero_le _), trivial⟩
  rw [crowd]
  exact timed_at_zero neighbours hlast

/-- The crowd, with a limit of one call. -/
theorem sweep_invisible_crowd :
    answers check (.new 1) crowd = answers checkKeeping (.new 1) crowd ∧
      (0 < (1 : UInt32) →
        (∀ addr before c cs, crowd = before ++ c :: cs →
          allowedCount addr (c :: cs) (answers check (after check (.new 1) before) (c :: cs)) ≤
            ((1 : UInt32).toNat : ℚ) + (1 : UInt32).toNat * seconds (finish c.now cs - c.now) / 60) ∧
        ∀ addr now, finish 0 crowd ≤ now → ∃ remaining reset,
          (after check (.new 1) crowd).getInfo addr now = some ((1 : UInt32).toNat, remaining, reset) ∧
            (1 ≤ remaining ↔ ((after check (.new 1) crowd).check (.at addr now)).1 = true)) ∧
      ((1 : UInt32) = 0 → answers check (.new 1) crowd = crowd.map (fun _ => true) ∧
        ∀ addr now, (after check (.new 1) crowd).getInfo addr now = none) :=
  sweep_invisible timed_crowd

def twoCalls : List Call := [.at (.v4 ⟨1, 2, 3, 4⟩) 0, .at (.v4 ⟨1, 2, 3, 4⟩) 1000000000]

/-- Without a limit an address is allowed more than nothing, and the headers are silent. -/
theorem unlimited_of_zero :
    ((0 : UInt32).toNat : ℚ) + (0 : UInt32).toNat * seconds (finish 0 twoCalls - 0) / 60 <
        allowedCount (.v4 ⟨1, 2, 3, 4⟩) twoCalls (answers check (.new 0) twoCalls) ∧
      (RateLimiter.new 0).getInfo (.v4 ⟨1, 2, 3, 4⟩) 0 = none ∧
      ((RateLimiter.new 0).check (.at (.v4 ⟨1, 2, 3, 4⟩) 0)).1 = true := by
  have hcount : allowedCount (.v4 ⟨1, 2, 3, 4⟩) twoCalls (answers check (.new 0) twoCalls) = 2 := by decide
  refine ⟨?_, rfl, rfl⟩
  rw [hcount]
  norm_num

end Spec

end VelocityMcp.Edge
