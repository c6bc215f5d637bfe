import Mathlib.Algebra.BigOperators.Intervals
import Mathlib.Algebra.Order.BigOperators.Group.Finset
import Mathlib.Data.List.Lex
import Mathlib.Logic.Function.Iterate
import Mathlib.Order.Monotone.Basic
import Mathlib.Tactic.Common

/-!
# Lib.Gregorian — the proleptic Gregorian calendar

`DateTime.number`: the seconds that the lengths of the years and months amount to.  `number_after`, `eq_of_number_eq`:
no other valid time is at the same distance from 1970-01-01T00:00:00.
-/

namespace Lib

open Finset

/-! ## Dates -/

def isLeap (y : ℕ) : Bool := y % 4 = 0 && (y % 100 ≠ 0 || y % 400 = 0)

theorem isLeap_iff {y : ℕ} : isLeap y = true ↔ y % 4 = 0 ∧ (y % 100 ≠ 0 ∨ y % 400 = 0) := by simp [isLeap]

def monthDays (leap : Bool) (m : ℕ) : ℕ :=
  if m = 2 then if leap then 29 else 28
  else if m = 4 ∨ m = 6 ∨ m = 9 ∨ m = 11 then 30 else 31

def monthLength (y m : ℕ) : ℕ := monthDays (isLeap y) m

theorem le_monthLength (y m : ℕ) : 28 ≤ monthLength y m := by
  rw [monthLength, monthDays]
  split_ifs <;> decide

structure Date where
  year : ℕ
  month : ℕ
  day : ℕ
deriving DecidableEq

structure Date.Valid (d : Date) : Prop where
  month : 1 ≤ d.month ∧ d.month ≤ 12
  day : 1 ≤ d.day ∧ d.day ≤ monthLength d.year d.month

/-- The day after. -/
def Date.next (d : Date) : Date :=
  if d.day < monthLength d.year d.month then ⟨d.year, d.month, d.day + 1⟩
  else if d.month < 12 then ⟨d.year, d.month + 1, 1⟩
  else ⟨d.year + 1, 1, 1⟩

theorem Date.Valid.next {d : Date} (h : d.Valid) : d.next.Valid := by
  have hlen (m : ℕ) := le_monthLength d.year m
  obtain ⟨hmonth, hday⟩ := h
  rw [Date.next]
  split_ifs with hd hm
  · exact ⟨hmonth, Nat.succ_le_succ (Nat.zero_le _), hd⟩
  · exact ⟨⟨Nat.succ_le_succ (Nat.zero_le _), hm⟩, le_rfl, le_trans (show 1 ≤ 28 by decide) (hlen _)⟩
  · exact ⟨⟨le_rfl, show 1 ≤ 12 by decide⟩, le_rfl, le_trans (show 1 ≤ 28 by decide) (le_monthLength _ 1)⟩

/-! ## Times -/

/-- A date of the Gregorian calendar and a time of day. -/
structure DateTime where
  date : Date
  hour : ℕ
  minute : ℕ
  second : ℕ
deriving DecidableEq

namespace DateTime

/-- The date is one of the calendar, the time one of the clock (without leap seconds). -/
structure Valid (t : DateTime) : Prop where
  date : t.date.Valid
  hour : t.hour < 24
  minute : t.minute < 60
  second : t.second < 60

/-- From the largest unit to the smallest. -/
def fields (t : DateTime) : List ℕ := [t.date.year, t.date.month, t.date.day, t.hour, t.minute, t.second]

/-- The second after. -/
def tick (t : DateTime) : DateTime :=
  if t.second < 59 then { t with second := t.second + 1 }
  else if t.minute < 59 then ⟨t.date, t.hour, t.minute + 1, 0⟩
  else if t.hour < 23 then ⟨t.date, t.hour + 1, 0, 0⟩
  else ⟨t.date.next, 0, 0, 0⟩

/-- The first of January 1970, at midnight. -/
def epoch : DateTime := ⟨⟨1970, 1, 1⟩, 0, 0, 0⟩

/-- So many seconds after 1970-01-01T00:00:00. -/
def after (n : ℕ) : DateTime := tick^[n] epoch

theorem after_succ (n : ℕ) : after (n + 1) = (after n).tick := Function.iterate_succ_apply' tick n epoch

theorem Valid.tick {t : DateTime} (h : t.Valid) : t.tick.Valid := by
  obtain ⟨hdate, hhour, hminute, hsecond⟩ := h
  rw [DateTime.tick]
  split_ifs with hs hm hh
  · exact ⟨hdate, hhour, hminute, Nat.succ_lt_succ hs⟩
  · exact ⟨hdate, hhour, Nat.succ_lt_succ hm, show 0 < 60 by decide⟩
  · exact ⟨hdate, Nat.succ_lt_succ hh, show 0 < 60 by decide, show 0 < 60 by decide⟩
  · exact ⟨hdate.next, show 0 < 24 by decide, show 0 < 60 by decide, show 0 < 60 by decide⟩

theorem valid_after (n : ℕ) : (after n).Valid := by
  induction n with
  | zero => exact ⟨⟨by decide, by decide⟩, by decide, by decide, by decide⟩
  | succ n ih =>
    rw [after_succ]
    exact ih.tick

theorem fields_lt_tick (t : DateTime) : t.fields < t.tick.fields := by
  simp only [fields, tick, Date.next]
  split_ifs <;> simp [List.cons_lt_cons_iff]

theorem strictMono_after : StrictMono fun n => (after n).fields := by
  refine strictMono_nat_of_lt_succ fun n => ?_
  rw [after_succ]
  exact fields_lt_tick _

end DateTime

/-! ## The distance between two times -/

def yearLength (y : ℕ) : ℕ := if isLeap y then 366 else 365

def yearStart (y : ℕ) : ℕ := ∑ i ∈ range y, yearLength i

/-- The days of a year before the first of a month. -/
def monthStart (y m : ℕ) : ℕ := ∑ i ∈ Ico 1 m, monthLength y i

theorem yearStart_succ (y : ℕ) : yearStart (y + 1) = yearStart y + yearLength y := sum_range_succ _ _

theorem monthStart_succ {y m : ℕ} (hm : 1 ≤ m) : monthStart y (m + 1) = monthStart y m + monthLength y m :=
  sum_Ico_succ_top hm _

theorem monthStart_thirteen (y : ℕ) : monthStart y 13 = yearLength y := by
  simp only [monthStart, monthLength, yearLength]
  cases isLeap y <;> rfl

theorem monotone_yearStart : Monotone yearStart := fun _ _ h => sum_le_sum_of_subset (range_subset_range.mpr h)

theorem monotone_monthStart (y : ℕ) : Monotone (monthStart y) := fun _ _ h =>
  sum_le_sum_of_subset (Ico_subset_Ico le_rfl h)

theorem eq_of_between {f : ℕ → ℕ} (hf : Monotone f) {a b n : ℕ} (ha : f a < n ∧ n ≤ f (a + 1))
    (hb : f b < n ∧ n ≤ f (b + 1)) : a = b := by
  rcases lt_trichotomy a b with hlt | heq | hgt
  · exact absurd (lt_of_le_of_lt (hf hlt) hb.1) (not_lt.mpr ha.2)
  · exact heq
  · exact absurd (lt_of_le_of_lt (hf hgt) ha.1) (not_lt.mpr hb.2)

namespace Date

/-- The days from the beginning of the year 0. -/
def number (d : Date) : ℕ := yearStart d.year + monthStart d.year d.month + d.day

theorem Valid.number_next {d : Date} (h : d.Valid) : d.next.number = d.number + 1 := by
  obtain ⟨hmonth, hday⟩ := h
  rw [Date.next]
  split_ifs with hd hm
  · rfl
  · rw [number, number, monthStart_succ hmonth.1]
    dsimp only
    omega
  · have hdecember : d.month = 12 := le_antisymm hmonth.2 (not_lt.mp hm)
    have hyear : monthStart d.year 1 + yearLength d.year = monthStart d.year 12 + monthLength d.year 12 := by
      rw [← monthStart_thirteen, ← monthStart_succ (by decide)]
      exact Nat.zero_add _
    have hstart (y : ℕ) : monthStart y 1 = 0 := rfl
    rw [number, number, yearStart_succ, hstart]
    rw [hstart] at hyear
    rw [hdecember] at hd hday ⊢
    dsimp only
    omega

theorem Valid.month_between {d : Date} (h : d.Valid) :
    monthStart d.year d.month < monthStart d.year d.month + d.day ∧
      monthStart d.year d.month + d.day ≤ monthStart d.year (d.month + 1) := by
  have hday := h.day
  rw [monthStart_succ h.month.1]
  omega

theorem Valid.year_between {d : Date} (h : d.Valid) :
    yearStart d.year < d.number ∧ d.number ≤ yearStart (d.year + 1) := by
  have hmonth := h.month_between
  have hlast : monthStart d.year (d.month + 1) ≤ monthStart d.year 13 :=
    monotone_monthStart _ (Nat.succ_le_succ h.month.2)
  rw [monthStart_thirteen] at hlast
  rw [yearStart_succ, number]
  omega

/-- **No two dates have the same number.** -/
theorem Valid.eq_of_number_eq {d d' : Date} (h : d.Valid) (h' : d'.Valid) (heq : d.number = d'.number) : d = d' := by
  obtain ⟨y, m, k⟩ := d
  obtain ⟨y', m', k'⟩ := d'
  obtain rfl : y = y' := eq_of_between monotone_yearStart (heq ▸ h.year_between) h'.year_between
  have hplace : monthStart y m + k = monthStart y m' + k' := by
    simp only [number] at heq
    omega
  obtain rfl : m = m' := eq_of_between (monotone_monthStart y) (hplace ▸ h.month_between) h'.month_between
  rw [Nat.add_left_cancel hplace]

end Date

namespace DateTime

/-- The seconds from the beginning of the year 0. -/
def number (t : DateTime) : ℕ := t.date.number * 86400 + t.hour * 3600 + t.minute * 60 + t.second

theorem Valid.number_tick {t : DateTime} (h : t.Valid) : t.tick.number = t.number + 1 := by
  obtain ⟨hdate, hhour, hminute, hsecond⟩ := h
  rw [DateTime.tick]
  split_ifs with hs hm hh
  · exact (Nat.add_assoc _ _ _).symm
  · simp only [number]
    omega
  · simp only [number]
    omega
  · simp only [number]
    rw [hdate.number_next]
    omega

/-- `after n` is so many seconds after the epoch. -/
theorem number_after (n : ℕ) : (after n).number = epoch.number + n := by
  induction n with
  | zero => exact (Nat.add_zero _).symm
  | succ n ih => rw [after_succ, (valid_after n).number_tick, ih, Nat.add_assoc]

/-- **No two times are at the same distance from another.** -/
theorem Valid.eq_of_number_eq {t t' : DateTime} (h : t.Valid) (h' : t'.Valid) (heq : t.number = t'.number) :
    t = t' := by
  obtain ⟨d, hr, mi, sc⟩ := t
  obtain ⟨d', hr', mi', sc'⟩ := t'
  obtain ⟨hdate, hhour, hminute, hsecond⟩ := h
  obtain ⟨hdate', hhour', hminute', hsecond'⟩ := h'
  simp only [number] at *
  obtain rfl : d = d' := hdate.eq_of_number_eq hdate' (by omega)
  obtain rfl : hr = hr' := by omega
  obtain rfl : mi = mi' := by omega
  obtain rfl : sc = sc' := by omega
  rfl

theorem after_eq (n : ℕ) :
    after n = ⟨Date.next^[n / 86400] epoch.date, n % 86400 / 3600, n % 86400 % 3600 / 60, n % 86400 % 60⟩ := by
  induction n with
  | zero => rfl
  | succ n ih =>
    rw [after_succ, ih, tick]
    dsimp only
    split_ifs with hs hm hh
    · simp only [DateTime.mk.injEq]
      refine ⟨?_, by omega, by omega, by omega⟩
      rw [show (n + 1) / 86400 = n / 86400 by omega]
    · simp only [DateTime.mk.injEq]
      refine ⟨?_, by omega, by omega, by omega⟩
      rw [show (n + 1) / 86400 = n / 86400 by omega]
    · simp only [DateTime.mk.injEq]
      refine ⟨?_, by omega, by omega, by omega⟩
      rw [show (n + 1) / 86400 = n / 86400 by omega]
    · simp only [DateTime.mk.injEq]
      refine ⟨?_, by omega, by omega, by omega⟩
      rw [show (n + 1) / 86400 = n / 86400 + 1 by omega, Function.iterate_succ_apply']

end DateTime

/-! ## Years from March to February -/

/-- The days before the first of March of a year: years begin in March here, so the leap day is their last one. -/
def marchDays (y : ℕ) : ℕ := 365 * y + y / 4 - y / 100 + y / 400

def marchYear (leap : Bool) : ℕ := if leap then 366 else 365

/-- How many days there are from the first of March of a year to that of the next. -/
def marchLength (y : ℕ) : ℕ := marchYear (isLeap (y + 1))

theorem marchDays_succ (y : ℕ) : marchDays (y + 1) = marchDays y + marchLength y := by
  have hle : y / 100 ≤ 365 * y + y / 4 := by omega
  have hleap : isLeap (y + 1) = true ↔ 4 ∣ y + 1 ∧ (¬100 ∣ y + 1 ∨ 400 ∣ y + 1) := by
    rw [isLeap_iff]
    omega
  rw [marchDays, marchDays, marchLength, marchYear, Nat.succ_div, Nat.succ_div, Nat.succ_div]
  generalize y / 100 = c, y / 4 = q, y / 400 = e at *
  by_cases h4 : 4 ∣ y + 1
  · by_cases h100 : 100 ∣ y + 1
    · by_cases h400 : 400 ∣ y + 1
      · rw [if_pos h4, if_pos h100, if_pos h400, if_pos (hleap.mpr ⟨h4, .inr h400⟩)]
        omega
      · rw [if_pos h4, if_pos h100, if_neg h400, if_neg fun h => (hleap.mp h).2.elim (· h100) h400]
        omega
    · rw [if_pos h4, if_neg h100, if_neg (by omega), if_pos (hleap.mpr ⟨h4, .inl h100⟩)]
      omega
  · rw [if_neg h4, if_neg (by omega), if_neg (by omega), if_neg fun h => h4 (hleap.mp h).1]
    omega

theorem exists_marchDays (z : ℕ) : ∃ y k, z = marchDays y + k ∧ k < marchLength y := by
  induction z with
  | zero => exact ⟨0, 0, rfl, by decide⟩
  | succ z ih =>
    obtain ⟨y, k, rfl, hk⟩ := ih
    by_cases hlast : k + 1 < marchLength y
    · exact ⟨y, k + 1, rfl, hlast⟩
    · refine ⟨y + 1, 0, ?_, ?_⟩
      · rw [marchDays_succ]
        omega
      · rw [marchLength, marchYear]
        split_ifs <;> decide

/-- Whether it is in the next year already, the month, and the day, so many days after the first of March. -/
def marchPlace (k : ℕ) : ℕ × ℕ × ℕ :=
  let mp := (5 * k + 2) / 153
  (if mp < 10 then 0 else 1, if mp < 10 then mp + 3 else mp - 9, k - (153 * mp + 2) / 5 + 1)

/-- The day that is so many days after the first of March of a year. -/
def Date.ofMarch (y k : ℕ) : Date := ⟨y + (marchPlace k).1, (marchPlace k).2.1, (marchPlace k).2.2⟩

/-- The day after, in a year that begins in March. -/
def nextPlace (leap : Bool) (p : ℕ × ℕ × ℕ) : ℕ × ℕ × ℕ :=
  if p.2.2 < monthDays leap p.2.1 then (p.1, p.2.1, p.2.2 + 1)
  else if p.2.1 < 12 then (p.1, p.2.1 + 1, 1)
  else (p.1 + 1, 1, 1)

theorem nextPlace_marchPlace : ∀ leap : Bool, ∀ k < marchYear leap,
    nextPlace leap (marchPlace k) = if k + 1 < marchYear leap then marchPlace (k + 1) else (1, 3, 1) := by
  decide +kernel

theorem marchPlace_ne_february : ∀ k < 366, (marchPlace k).1 = 1 ∨ (marchPlace k).1 = 0 ∧ (marchPlace k).2.1 ≠ 2 := by
  intro k hk
  unfold marchPlace
  dsimp only
  split_ifs with h
  · exact Or.inr ⟨rfl, by omega⟩
  · exact Or.inl rfl

theorem marchLength_le (y : ℕ) : marchLength y ≤ 366 := by
  rw [marchLength, marchYear]
  split_ifs <;> decide

/-- **The day after**, by the days since the first of March. -/
theorem next_ofMarch {y k : ℕ} (hk : k < marchLength y) :
    (Date.ofMarch y k).next = if k + 1 < marchLength y then Date.ofMarch y (k + 1) else Date.ofMarch (y + 1) 0 := by
  have hlength : monthLength (y + (marchPlace k).1) (marchPlace k).2.1 =
      monthDays (isLeap (y + 1)) (marchPlace k).2.1 := by
    rcases marchPlace_ne_february k (Nat.lt_of_lt_of_le hk (marchLength_le y)) with hnext | ⟨-, hfebruary⟩
    · rw [hnext, monthLength]
    · rw [monthLength, monthDays, monthDays, if_neg hfebruary, if_neg hfebruary]
  have hplace : (Date.ofMarch y k).next =
      ⟨y + (nextPlace (isLeap (y + 1)) (marchPlace k)).1, (nextPlace (isLeap (y + 1)) (marchPlace k)).2.1,
        (nextPlace (isLeap (y + 1)) (marchPlace k)).2.2⟩ := by
    rw [Date.next, Date.ofMarch, nextPlace]
    dsimp only
    rw [hlength]
    split_ifs <;> rfl
  rw [hplace, nextPlace_marchPlace _ k hk, marchLength]
  split_ifs <;> rfl

theorem monotone_marchDays : Monotone marchDays := by
  refine monotone_nat_of_le_succ fun y => ?_
  rw [marchDays_succ]
  exact Nat.le_add_right _ _

theorem iterate_next_ofMarch {y k y' k' n : ℕ} (hk : k < marchLength y) (hk' : k' < marchLength y')
    (h : marchDays y + k + n = marchDays y' + k') : Date.next^[n] (Date.ofMarch y k) = Date.ofMarch y' k' := by
  induction n generalizing y k with
  | zero =>
    have hsucc := marchDays_succ y
    have hsucc' := marchDays_succ y'
    obtain rfl : y = y' := eq_of_between monotone_marchDays (n := marchDays y + k + 1) (by omega) (by omega)
    obtain rfl : k = k' := Nat.add_left_cancel h
    rfl
  | succ n ih =>
    rw [Function.iterate_succ_apply, next_ofMarch hk]
    split_ifs with hlast
    · exact ih hlast (by omega)
    · refine ih ?_ ?_
      · rw [marchLength, marchYear]
        split_ifs <;> decide
      · rw [marchDays_succ]
        omega

end Lib
