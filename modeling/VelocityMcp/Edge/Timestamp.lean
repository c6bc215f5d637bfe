import Mathlib.Tactic.IntervalCases
import VelocityMcp.Lib.Gregorian
import VelocityMcp.Lib.Outcome

/-!
# Edge.Timestamp — a count of seconds as a date and a time of day (`format_epoch_to_iso8601` of the edge server)

`iso8601_gregorian`: the text shows the only valid time at that distance, and nothing overflows on the way.
-/

namespace VelocityMcp.Edge

open Lib

/-! ## The source -/

/-- The result of an operation on `u64`, or of a conversion to it. -/
def u64 (x : ℤ) : Outcome Empty ℕ := if 0 ≤ x ∧ x < 2 ^ 64 then .ok x.toNat else .panic

/-- The result of an operation on `i64`, or of a conversion to it. -/
def i64 (x : ℤ) : Outcome Empty ℤ := if -2 ^ 63 ≤ x ∧ x < 2 ^ 63 then .ok x else .panic

/-- `era` and `doe`, of the days since 1970-01-01. -/
def dayOfEra (days : ℕ) : Outcome Empty (ℤ × ℕ) := do
  let days ← i64 days
  let z ← i64 (days + 719468)
  let biased ← if z ≥ 0 then pure z else i64 (z - 146096)
  let era := biased.tdiv 146097
  let start ← i64 (era * 146097)
  let rest ← i64 (z - start)
  let doe ← u64 rest
  pure (era, doe)

/-- `yoe` and `doy`, of the day of an era. -/
def yearOfEra (doe : ℕ) : Outcome Empty (ℕ × ℕ) := do
  let a ← u64 ((doe : ℤ) - (doe / 1460 : ℕ))
  let b ← u64 (a + (doe / 36524 : ℕ))
  let c ← u64 ((b : ℤ) - (doe / 146096 : ℕ))
  let yoe := c / 365
  let p ← u64 (365 * yoe)
  let q ← u64 (p + (yoe / 4 : ℕ))
  let r ← u64 ((q : ℤ) - (yoe / 100 : ℕ))
  let doy ← u64 ((doe : ℤ) - r)
  pure (yoe, doy)

/-- `m` and `d`, of the day of a year that begins in March. -/
def monthAndDay (doy : ℕ) : Outcome Empty (ℕ × ℕ) := do
  let a ← u64 (5 * doy)
  let b ← u64 (a + 2)
  let mp := b / 153
  let p ← u64 (153 * mp)
  let q ← u64 (p + 2)
  let r ← u64 ((doy : ℤ) - (q / 5 : ℕ))
  let d ← u64 (r + 1)
  let m ← if mp < 10 then u64 (mp + 3) else u64 ((mp : ℤ) - 9)
  pure (m, d)

/-- `{:0w}` of an integer. -/
def zeroPadded (w : ℕ) (x : ℤ) : String :=
  if x < 0 then "-" ++ String.ofList (List.leftpad (w - 1) '0' (toString x.natAbs).toList)
  else String.ofList (List.leftpad w '0' (toString x.natAbs).toList)

/-- `"{:04}-{:02}-{:02}T{:02}:{:02}:{:02}Z"`. -/
def iso8601 (y : ℤ) (m d hours minutes seconds : ℕ) : String :=
  zeroPadded 4 y ++ "-" ++ zeroPadded 2 m ++ "-" ++ zeroPadded 2 d ++ "T" ++ zeroPadded 2 hours ++ ":" ++
    zeroPadded 2 minutes ++ ":" ++ zeroPadded 2 seconds ++ "Z"

/-- The text of a count of seconds. -/
def formatEpochToIso8601 (epochSecs : UInt64) : Outcome Empty String := do
  let days := epochSecs.toNat / 86400
  let daySecs := epochSecs.toNat % 86400
  let hours := daySecs / 3600
  let minutes := daySecs % 3600 / 60
  let seconds := daySecs % 60
  let (era, doe) ← dayOfEra days
  let (yoe, doy) ← yearOfEra doe
  let yoe ← i64 yoe
  let start ← i64 (era * 400)
  let y ← i64 (yoe + start)
  let (m, d) ← monthAndDay doy
  let y ← if m ≤ 2 then i64 (y + 1) else pure y
  pure (iso8601 y m d hours minutes seconds)

/-! ## Operations that do not overflow -/

theorem u64_eq {x : ℤ} {n : ℕ} (hx : x = n) (hn : n < 2 ^ 64) : u64 x = .ok n := by
  rw [u64, if_pos (by omega), hx, Int.toNat_natCast]

theorem i64_eq {x : ℤ} (hx : -2 ^ 63 ≤ x ∧ x < 2 ^ 63) : i64 x = .ok x := if_pos hx

theorem dayOfEra_eq {days : ℕ} (h : days < 2 ^ 62) :
    dayOfEra days = .ok (((days + 719468) / 146097 : ℕ), (days + 719468) % 146097) := by
  have htdiv : (days + 719468 : ℤ).tdiv 146097 = ((days + 719468) / 146097 : ℕ) :=
    Int.tdiv_eq_ediv_of_nonneg (by omega)
  rw [dayOfEra, i64_eq (by omega), Outcome.ok_bind, i64_eq (by omega), Outcome.ok_bind, if_pos (by omega),
    Outcome.pure_eq, Outcome.ok_bind]
  dsimp only
  rw [htdiv, i64_eq (by omega), Outcome.ok_bind, i64_eq (by omega), Outcome.ok_bind,
    u64_eq (n := (days + 719468) % 146097) (by omega) (by omega), Outcome.ok_bind, Outcome.pure_eq]

/-! ## The year -/

theorem marchDays_add_era (e y : ℕ) : marchDays (e * 400 + y) = e * 146097 + marchDays y := by
  rw [marchDays, marchDays]
  omega

theorem marchLength_add_era (e y : ℕ) : marchLength (e * 400 + y) = marchLength y := by
  have hleap : isLeap (e * 400 + y + 1) = isLeap (y + 1) := by
    rw [Bool.eq_iff_iff, isLeap_iff, isLeap_iff]
    omega
  rw [marchLength, marchLength, hleap]

theorem lt_marchLength {c q r k : ℕ} (hc : c < 4) (hr : r < 4)
    (hk : k < marchLength (100 * c + 4 * q + r)) : k < 365 ∨ k = 365 ∧ r = 3 ∧ (q = 24 → c = 3) := by
  rw [marchLength, marchYear] at hk
  split_ifs at hk with hleap
  · rw [isLeap_iff] at hleap
    omega
  · exact .inl hk

/-- What is added for the centuries is taken away on the last day of the era. -/
theorem century_eq {c j : ℕ} (hc : c < 4) (hj : j < 36524 ∨ j = 36524 ∧ c = 3) :
    (36524 * c + j) / 36524 - (36524 * c + j) / 146096 = c ∧
      (36524 * c + j) / 146096 ≤ (36524 * c + j) / 36524 := by
  rcases hj with hlt | ⟨rfl, rfl⟩
  · rw [show (36524 * c + j) / 36524 = c by omega, show (36524 * c + j) / 146096 = 0 by omega]
    exact ⟨rfl, Nat.zero_le _⟩
  · decide

/-- **The four divisions** find the year of an era. -/
theorem year_eq {c q r k doe : ℕ} (hc : c < 4) (hq : q < 25) (hr : r < 4)
    (hk : k < 365 ∨ k = 365 ∧ r = 3 ∧ (q = 24 → c = 3)) (hdoe : doe = 36524 * c + (1461 * q + 365 * r + k)) :
    (doe - doe / 1460 + doe / 36524 - doe / 146096) / 365 = 100 * c + 4 * q + r := by
  have hcentury := century_eq (j := 1461 * q + 365 * r + k) hc (by omega)
  -- the leap days have moved the fourth year by one at its end, or not yet
  have hquarter : doe / 1460 = 25 * c + q + (24 * c + q + 365 * r + k) / 1460 := by omega
  have hlate : (24 * c + q + 365 * r + k) / 1460 ≤ k ∧ k < 365 + (24 * c + q + 365 * r + k) / 1460 := by omega
  rw [← hdoe] at hcentury
  rw [hquarter]
  omega

/-- **The four divisions find the year**, on its last day and after it. -/
theorem yearOfEra_eq {y k doe : ℕ} (hy : y < 400) (hk : k < marchLength y) (hdoe : doe = marchDays y + k) :
    yearOfEra doe = .ok (y, k) := by
  obtain ⟨c, q, r, rfl, hc, hq, hr⟩ : ∃ c q r, y = 100 * c + 4 * q + r ∧ c < 4 ∧ q < 25 ∧ r < 4 :=
    ⟨y / 100, y % 100 / 4, y % 4, by omega, by omega, by omega, by omega⟩
  have hbound : k < 366 := Nat.lt_of_lt_of_le hk (marchLength_le _)
  have hsplit : doe = 36524 * c + (1461 * q + 365 * r + k) := by
    rw [hdoe, marchDays]
    omega
  have hyear := year_eq hc hq hr (lt_marchLength hc hr hk) hsplit
  rw [marchDays] at hdoe
  generalize 100 * c + 4 * q + r = y at *
  rw [yearOfEra, u64_eq (n := doe - doe / 1460) (by omega) (by omega), Outcome.ok_bind,
    u64_eq (n := doe - doe / 1460 + doe / 36524) (by omega) (by omega), Outcome.ok_bind,
    u64_eq (n := doe - doe / 1460 + doe / 36524 - doe / 146096) (by omega) (by omega), Outcome.ok_bind, hyear]
  dsimp only
  rw [u64_eq (n := 365 * y) (by omega) (by omega), Outcome.ok_bind,
    u64_eq (n := 365 * y + y / 4) (by omega) (by omega), Outcome.ok_bind,
    u64_eq (n := 365 * y + y / 4 - y / 100) (by omega) (by omega), Outcome.ok_bind,
    u64_eq (n := k) (by omega) (by omega), Outcome.ok_bind, Outcome.pure_eq]

theorem monthAndDay_eq {k : ℕ} (hk : k < 366) : monthAndDay k = .ok (marchPlace k).2 := by
  rw [monthAndDay, u64_eq (n := 5 * k) (by omega) (by omega), Outcome.ok_bind,
    u64_eq (n := 5 * k + 2) (by omega) (by omega), Outcome.ok_bind]
  dsimp only
  rw [u64_eq (n := 153 * ((5 * k + 2) / 153)) (by omega) (by omega), Outcome.ok_bind,
    u64_eq (n := 153 * ((5 * k + 2) / 153) + 2) (by omega) (by omega), Outcome.ok_bind,
    u64_eq (n := k - (153 * ((5 * k + 2) / 153) + 2) / 5) (by omega) (by omega), Outcome.ok_bind,
    u64_eq (n := k - (153 * ((5 * k + 2) / 153) + 2) / 5 + 1) (by omega) (by omega), Outcome.ok_bind]
  dsimp only [marchPlace]
  split_ifs with hmp
  · rw [u64_eq (n := (5 * k + 2) / 153 + 3) (by omega) (by omega)]
    rfl
  · rw [u64_eq (n := (5 * k + 2) / 153 - 9) (by omega) (by omega)]
    rfl

theorem marchPlace_carry {k : ℕ} (hk : k < 366) :
    (marchPlace k).1 = if (marchPlace k).2.1 ≤ 2 then 1 else 0 := by
  dsimp only [marchPlace]
  split_ifs <;> omega

/-! ## The text -/

/-- The time that so many seconds after the epoch is, as a text. -/
def text (t : DateTime) : String := iso8601 t.date.year t.date.month t.date.day t.hour t.minute t.second

/-- **The text is that of the time** so many seconds after the epoch. -/
theorem formatEpochToIso8601_eq (secs : UInt64) :
    formatEpochToIso8601 secs = .ok (text (DateTime.after secs.toNat)) := by
  have hsecs : secs.toNat < 2 ^ 64 := secs.toNat_lt
  rw [DateTime.after_eq, formatEpochToIso8601]
  dsimp only
  generalize hn : secs.toNat / 86400 = n
  have hdays : n < 2 ^ 62 := by omega
  obtain ⟨y, k, hrest, hk⟩ := exists_marchDays ((n + 719468) % 146097)
  have hy : y < 400 := by
    by_contra! hle
    have := monotone_marchDays hle
    rw [show marchDays 400 = 146097 by rfl] at this
    omega
  have hbound : k < 366 := Nat.lt_of_lt_of_le hk (marchLength_le _)
  have hdate : Date.next^[n] DateTime.epoch.date = Date.ofMarch ((n + 719468) / 146097 * 400 + y) k := by
    refine iterate_next_ofMarch (y := 1969) (k := 306) (by decide) ?_ ?_
    · rw [marchLength_add_era]
      exact hk
    · rw [marchDays_add_era, show marchDays 1969 = 719162 by rfl]
      omega
  have hcarry := marchPlace_carry hbound
  rw [dayOfEra_eq hdays, Outcome.ok_bind]
  dsimp only
  rw [yearOfEra_eq hy hk hrest, Outcome.ok_bind]
  dsimp only
  rw [i64_eq (by omega), Outcome.ok_bind, i64_eq (by omega), Outcome.ok_bind, i64_eq (by omega), Outcome.ok_bind,
    monthAndDay_eq hbound, Outcome.ok_bind]
  rw [hdate, text]
  have hyear : ((Date.ofMarch ((n + 719468) / 146097 * 400 + y) k).year : ℤ) =
      (y : ℤ) + ((n + 719468) / 146097 : ℕ) * 400 + (marchPlace k).1 := by
    rw [Date.ofMarch]
    dsimp only
    omega
  split_ifs with hm
  · rw [if_pos hm] at hcarry
    rw [hyear, hcarry, i64_eq (by omega)]
    rfl
  · rw [if_neg hm] at hcarry
    rw [hyear, hcarry, Nat.cast_zero, add_zero]
    rfl

/-- **ISO 8601 is the Gregorian calendar**: no operation overflows, the text shows the only valid time at the given
distance from 1970-01-01T00:00:00, and later counts show larger times. -/
theorem iso8601_gregorian :
    ∃ shown : UInt64 → DateTime,
      (∀ secs : UInt64, formatEpochToIso8601 secs = .ok (text (shown secs)) ∧ (shown secs).Valid ∧
        (shown secs).number = DateTime.epoch.number + secs.toNat ∧
        ∀ t : DateTime, t.Valid → t.number = DateTime.epoch.number + secs.toNat → t = shown secs) ∧
      ∀ a b : UInt64, a < b → (shown a).fields < (shown b).fields := by
  refine ⟨fun secs => DateTime.after secs.toNat, fun secs => ?_, ?_⟩
  · refine ⟨formatEpochToIso8601_eq secs, DateTime.valid_after _, DateTime.number_after _, ?_⟩
    intro t ht hnumber
    exact ht.eq_of_number_eq (DateTime.valid_after _) (hnumber.trans (DateTime.number_after _).symm)
  · intro a b hlt
    exact DateTime.strictMono_after (UInt64.lt_iff_toNat_lt.mp hlt)

example : formatEpochToIso8601 1704067200 = .ok "2024-01-01T00:00:00Z" := by decide +kernel

end VelocityMcp.Edge
