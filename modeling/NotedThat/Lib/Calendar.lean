-- SUMMARY: The proleptic Gregorian calendar: dates, times of day, and their numbers.
import Mathlib.Tactic.IntervalCases

/-!
# The calendar

Years are counted from 0, months and days from 1. The number of a date is the number of days before it,
and it is what months and years add up to: nothing here divides by the length of a cycle except the
lemmas. Counted from March on, the leap day ends the year, and the months have a linear formula.
-/

namespace Calendar

def Leap (year : Nat) : Prop := 4 ∣ year ∧ (¬ 100 ∣ year ∨ 400 ∣ year)

instance (year : Nat) : Decidable (Leap year) := inferInstanceAs (Decidable (_ ∧ _))

def yearLength (year : Nat) : Nat := if Leap year then 366 else 365

def monthLength (year : Nat) : Nat → Nat
  | 1 | 3 | 5 | 7 | 8 | 10 | 12 => 31
  | 4 | 6 | 9 | 11 => 30
  | 2 => if Leap year then 29 else 28
  | _ => 0

/-- The days before a year, from the year 0 on. -/
def yearStart : Nat → Nat
  | 0 => 0
  | year + 1 => yearStart year + yearLength year

/-- The days of a year before a month. -/
def monthStart (year : Nat) : Nat → Nat
  | 0 => 0
  | month + 1 => monthStart year month + monthLength year month

/-- A day of the calendar. -/
@[ext] structure Date where
  year : Nat
  month : Nat
  day : Nat
  month_pos : 1 ≤ month
  month_le : month ≤ 12
  day_pos : 1 ≤ day
  day_le : day ≤ monthLength year month

/-- The first day of a year. -/
def Date.newYear (year : Nat) : Date where
  year := year
  month := 1
  day := 1
  month_pos := Nat.le_refl 1
  month_le := by decide
  day_pos := Nat.le_refl 1
  day_le := by
    have hjanuary : monthLength year 1 = 31 := rfl
    rw [hjanuary]
    decide

/-- The days before a date. -/
def Date.dayNumber (d : Date) : Nat := yearStart d.year + monthStart d.year d.month + (d.day - 1)

/-- A second of the calendar. -/
@[ext] structure Moment where
  date : Date
  hour : Nat
  minute : Nat
  second : Nat
  hour_lt : hour < 24
  minute_lt : minute < 60
  second_lt : second < 60

/-- The seconds before a moment. -/
def Moment.secondNumber (t : Moment) : Nat :=
  t.date.dayNumber * 86400 + (t.hour * 3600 + t.minute * 60 + t.second)

-- ---------------------------------------------------------------------------
-- Years and months
-- ---------------------------------------------------------------------------

theorem yearStart_mono {year year' : Nat} (h : year ≤ year') : yearStart year ≤ yearStart year' := by
  induction h with
  | refl => exact Nat.le_refl _
  | step _ ih => exact ih.trans (Nat.le_add_right _ _)

theorem monthStart_mono (year : Nat) {month month' : Nat} (h : month ≤ month') :
    monthStart year month ≤ monthStart year month' := by
  induction h with
  | refl => exact Nat.le_refl _
  | step _ ih => exact ih.trans (Nat.le_add_right _ _)

/-- Twelve months make a year. -/
theorem monthStart_end (year : Nat) : monthStart year 13 = yearLength year := by
  simp only [monthStart, monthLength, yearLength]
  split <;> rfl

/-- The days before a year, with the leap days before it counted by their rule. -/
theorem yearStart_eq (year : Nat) :
    yearStart year + (year + 99) / 100 = 365 * year + (year + 3) / 4 + (year + 399) / 400 := by
  induction year with
  | zero => rfl
  | succ year ih =>
    have h4 : (year + 1 + 3) / 4 = (year + 3) / 4 + if year % 4 = 0 then 1 else 0 := by split <;> omega
    have h100 : (year + 1 + 99) / 100 = (year + 99) / 100 + if year % 100 = 0 then 1 else 0 := by
      split <;> omega
    have h400 : (year + 1 + 399) / 400 = (year + 399) / 400 + if year % 400 = 0 then 1 else 0 := by
      split <;> omega
    rw [yearStart, yearLength, h4, h100, h400]
    generalize (year + 3) / 4 = fours at ih ⊢
    generalize (year + 99) / 100 = centuries at ih ⊢
    generalize (year + 399) / 400 = cycles at ih ⊢
    split_ifs with hleap _ _ _ <;> unfold Leap at hleap <;> omega

theorem yearLength_le (year : Nat) : yearLength year ≤ 366 := by
  unfold yearLength
  split <;> decide

theorem monthLength_le (year month : Nat) : monthLength year month ≤ 31 := by
  unfold monthLength
  split <;> first | decide | (split <;> decide)

-- ---------------------------------------------------------------------------
-- The order
-- ---------------------------------------------------------------------------

namespace Date

/-- The order of year, month and day. -/
instance : LT Date where
  lt d e := d.year < e.year ∨ d.year = e.year ∧
    (d.month < e.month ∨ d.month = e.month ∧ d.day < e.day)

theorem lt_def {d e : Date} : d < e ↔ d.year < e.year ∨ d.year = e.year ∧
    (d.month < e.month ∨ d.month = e.month ∧ d.day < e.day) := Iff.rfl

theorem dayNumber_newYear (year : Nat) : (newYear year).dayNumber = yearStart year := rfl

theorem trichotomy (d e : Date) : d < e ∨ d = e ∨ e < d := by
  rw [lt_def, lt_def, Date.ext_iff]
  omega

theorem dayNumber_lt_month (d : Date) :
    d.dayNumber < yearStart d.year + monthStart d.year (d.month + 1) := by
  have hle := d.day_le
  have hpos := d.day_pos
  rw [dayNumber, monthStart]
  omega

theorem dayNumber_lt_year (d : Date) : d.dayNumber < yearStart (d.year + 1) := by
  have hle : monthStart d.year (d.month + 1) ≤ yearLength d.year := by
    rw [← monthStart_end]
    exact monthStart_mono d.year (Nat.succ_le_succ d.month_le)
  have hlt := d.dayNumber_lt_month
  rw [yearStart]
  omega

variable {d e : Date}

/-- Days are numbered in the order of their dates. -/
theorem dayNumber_lt (h : d < e) : d.dayNumber < e.dayNumber := by
  rcases h with hyear | ⟨hyear, hmonth | ⟨hmonth, hday⟩⟩
  · calc
      d.dayNumber < yearStart (d.year + 1) := d.dayNumber_lt_year
      _ ≤ yearStart e.year := yearStart_mono hyear
      _ ≤ e.dayNumber := by rw [dayNumber]; omega
  · calc
      d.dayNumber < yearStart d.year + monthStart d.year (d.month + 1) := d.dayNumber_lt_month
      _ ≤ yearStart d.year + monthStart d.year e.month := Nat.add_le_add_left (monthStart_mono _ hmonth) _
      _ ≤ e.dayNumber := by rw [hyear, dayNumber]; omega
  · have hpos := d.day_pos
    rw [dayNumber, dayNumber, hyear, hmonth]
    omega

theorem dayNumber_lt_iff : d.dayNumber < e.dayNumber ↔ d < e := by
  refine ⟨fun h => ?_, dayNumber_lt⟩
  rcases trichotomy d e with hlt | rfl | hgt
  · exact hlt
  · exact absurd h (Nat.lt_irrefl _)
  · exact absurd h (Nat.lt_asymm (dayNumber_lt hgt))

theorem dayNumber_inj (h : d.dayNumber = e.dayNumber) : d = e := by
  rcases trichotomy d e with hlt | heq | hgt
  · exact absurd h (Nat.ne_of_lt (dayNumber_lt hlt))
  · exact heq
  · exact absurd h (Nat.ne_of_gt (dayNumber_lt hgt))

end Date

namespace Moment

variable {t u : Moment}

theorem secondNumber_div (t : Moment) : t.secondNumber / 86400 = t.date.dayNumber := by
  have hhour := t.hour_lt
  have hminute := t.minute_lt
  have hsecond := t.second_lt
  rw [secondNumber]
  omega

theorem secondNumber_inj (h : t.secondNumber = u.secondNumber) : t = u := by
  have hdate : t.date.dayNumber = u.date.dayNumber := by
    rw [← secondNumber_div, ← secondNumber_div, h]
  have hminute := t.minute_lt
  have hsecond := t.second_lt
  have hminute' := u.minute_lt
  have hsecond' := u.second_lt
  rw [secondNumber, secondNumber, hdate] at h
  refine Moment.ext (Date.dayNumber_inj hdate) ?_ ?_ ?_ <;> omega

/-- Of two moments one is earlier by the first field in which they differ. -/
theorem lex_of_secondNumber_lt (h : t.secondNumber < u.secondNumber) :
    t.date.year < u.date.year ∨ t.date.year = u.date.year ∧
      (t.date.month < u.date.month ∨ t.date.month = u.date.month ∧
        (t.date.day < u.date.day ∨ t.date.day = u.date.day ∧
          (t.hour < u.hour ∨ t.hour = u.hour ∧
            (t.minute < u.minute ∨ t.minute = u.minute ∧ t.second < u.second)))) := by
  have hle : t.date.dayNumber ≤ u.date.dayNumber := by
    rw [← secondNumber_div, ← secondNumber_div]
    exact Nat.div_le_div_right h.le
  rcases hle.lt_or_eq with hlt | heq
  · have hdate := Date.lt_def.mp (Date.dayNumber_lt_iff.mp hlt)
    omega
  · have hdate := Date.ext_iff.mp (Date.dayNumber_inj heq)
    have hminute := u.minute_lt
    have hsecond := u.second_lt
    rw [secondNumber, secondNumber, heq] at h
    omega

end Moment

-- ---------------------------------------------------------------------------
-- Years from March on
-- ---------------------------------------------------------------------------

/-- The days from 1 March of the year 0 to 1 March of a year. -/
def marchStart (year : Nat) : Nat := 365 * year + year / 4 - year / 100 + year / 400

theorem yearStart_january (year : Nat) : yearStart (year + 1) = marchStart year + 366 := by
  have hstart := yearStart_eq (year + 1)
  rw [marchStart]
  omega

/-- From March on a year has as many days as any other. -/
theorem yearLength_eq (year : Nat) : yearLength year = monthStart year 3 + 306 := by
  simp only [monthStart, monthLength, yearLength]
  split <;> rfl

/-- 1 March of the year 0 is the day number 60. -/
theorem yearStart_march (year : Nat) : yearStart year + monthStart year 3 = marchStart year + 60 := by
  have hend := yearStart_january year
  rw [yearStart, yearLength_eq] at hend
  omega

/-- The leap day of the calendar's next year ends the year. -/
theorem marchStart_succ (year : Nat) : marchStart (year + 1) = marchStart year + yearLength (year + 1) := by
  have hmarch := yearStart_march (year + 1)
  rw [yearStart_january] at hmarch
  rw [yearLength_eq]
  omega

/-- The month of a day of the year, with March as the month 0. -/
def marchMonth (day : Nat) : Nat := (5 * day + 2) / 153

/-- The days of the year before a month. -/
def marchMonthStart (month : Nat) : Nat := (153 * month + 2) / 5

theorem marchMonth_spec (day : Nat) :
    marchMonthStart (marchMonth day) ≤ day ∧ day < marchMonthStart (marchMonth day + 1) := by
  unfold marchMonth marchMonthStart
  omega

/-- The last two months of a year from March on are the first two of the calendar. -/
theorem marchMonth_winter {year day : Nat} (h : day < yearLength year) (hmonth : ¬ marchMonth day < 10) :
    marchMonth day = 10 ∨ marchMonth day = 11 := by
  unfold marchMonth at *
  unfold yearLength at h
  split at h <;> omega

theorem marchMonth_lt {year day : Nat} (h : day < yearLength year) : marchMonth day < 12 := by
  by_contra hge
  obtain hmonth | hmonth := marchMonth_winter h (by omega) <;> omega

theorem monthStart_march {month : Nat} (year : Nat) (h : month < 10) :
    monthStart year (month + 3) = monthStart year 3 + marchMonthStart month := by
  interval_cases month <;> simp [monthStart, monthLength, marchMonthStart, Nat.add_assoc]

theorem monthLength_march {month : Nat} (year : Nat) (h : month < 10) :
    marchMonthStart (month + 1) = marchMonthStart month + monthLength year (month + 3) := by
  interval_cases month <;> rfl

theorem yearLength_march (year : Nat) : yearLength year = marchMonthStart 11 + monthLength year 2 := by
  unfold yearLength monthLength
  split <;> rfl

/-- The calendar's year and month of a month counted from March on. -/
def Date.ofMarch (year day : Nat) (h : day < yearLength (year + 1)) : Date where
  year := if marchMonth day < 10 then year else year + 1
  month := if marchMonth day < 10 then marchMonth day + 3 else marchMonth day - 9
  day := day - marchMonthStart (marchMonth day) + 1
  month_pos := by
    split <;> omega
  month_le := by
    split
    · omega
    · next hmonth =>
      have := marchMonth_winter h hmonth
      omega
  day_pos := Nat.succ_pos _
  day_le := by
    obtain ⟨hle, hlt⟩ := marchMonth_spec day
    split
    · next hmonth =>
      rw [monthLength_march year hmonth] at hlt
      omega
    · next hmonth =>
      obtain hmonth | hmonth := marchMonth_winter h hmonth
      · rw [hmonth] at hle hlt ⊢
        exact Nat.le_of_lt_succ (Nat.succ_lt_succ (Nat.sub_lt_left_of_lt_add hle hlt))
      · rw [hmonth] at hle ⊢
        rw [yearLength_march] at h
        exact Nat.sub_lt_left_of_lt_add hle h

theorem Date.dayNumber_ofMarch {year day : Nat} (h : day < yearLength (year + 1)) :
    (Date.ofMarch year day h).dayNumber = marchStart year + day + 60 := by
  have hle := (marchMonth_spec day).1
  simp only [dayNumber, ofMarch, Nat.add_sub_cancel]
  split
  · next hmonth =>
    have hmarch := yearStart_march year
    rw [monthStart_march year hmonth]
    omega
  · next hmonth =>
    obtain hmonth | hmonth := marchMonth_winter h hmonth
    · rw [hmonth] at hle ⊢
      rw [yearStart_january]
      simp only [monthStart, monthLength, marchMonthStart] at hle ⊢
      omega
    · rw [hmonth] at hle ⊢
      rw [yearStart_january]
      simp only [monthStart, monthLength, marchMonthStart] at hle ⊢
      omega

-- ---------------------------------------------------------------------------
-- Cycles of 400 years
-- ---------------------------------------------------------------------------

/-- A day without the leap days before it in its cycle. -/
def withoutLeapDays (day : Nat) : Nat := day - day / 1460 + day / 36524 - day / 146096

/-- The year of a cycle that a day of the cycle lies in. -/
def yearOfCycle (day : Nat) : Nat := withoutLeapDays day / 365

theorem withoutLeapDays_mono {a b : Nat} (h : a ≤ b) : withoutLeapDays a ≤ withoutLeapDays b := by
  induction h with
  | refl => exact Nat.le_refl _
  | step _ ih =>
    refine ih.trans ?_
    unfold withoutLeapDays
    omega

/-- The first and the last day of a year of the cycle, year by year. -/
theorem withoutLeapDays_year : ∀ year < 400, 365 * year ≤ withoutLeapDays (marchStart year) ∧
    withoutLeapDays (marchStart (year + 1) - 1) < 365 * (year + 1) := by
  decide +kernel

theorem yearOfCycle_lt {day : Nat} (h : day < 146097) : yearOfCycle day < 400 := by
  unfold yearOfCycle withoutLeapDays
  omega

theorem yearOfCycle_spec {day : Nat} (h : day < 146097) :
    marchStart (yearOfCycle day) ≤ day ∧ day < marchStart (yearOfCycle day + 1) := by
  have hyear := yearOfCycle_lt h
  have hdiv : yearOfCycle day = withoutLeapDays day / 365 := rfl
  generalize yearOfCycle day = year at *
  constructor
  · -- a day before the year would have had its last day's count at most
    by_contra hlt
    obtain _ | year := year
    · exact hlt (Nat.zero_le _)
    · have hmono := withoutLeapDays_mono (Nat.le_sub_one_of_lt (Nat.not_le.mp hlt))
      have hlast := (withoutLeapDays_year year (by omega)).2
      omega
  · by_contra hge
    have hge := Nat.not_lt.mp hge
    obtain hlt | rfl : year + 1 < 400 ∨ year = 399 := by omega
    · have hmono := withoutLeapDays_mono hge
      have hfirst := (withoutLeapDays_year (year + 1) hlt).1
      omega
    · exact absurd (hge.trans_lt h) (by decide)

theorem marchStart_cycle (cycle year : Nat) :
    marchStart (year + cycle * 400) = cycle * 146097 + marchStart year := by
  unfold marchStart
  omega

/-- The year, from March on, of a day counted from 1 March of the year 0. -/
def marchYear (day : Nat) : Nat := yearOfCycle (day % 146097) + day / 146097 * 400

theorem marchYear_spec (day : Nat) :
    marchStart (marchYear day) ≤ day ∧ day - marchStart (marchYear day) < yearLength (marchYear day + 1) := by
  have hspec := yearOfCycle_spec (Nat.mod_lt day (show 0 < 146097 by decide))
  have hstart : marchStart (marchYear day) = day / 146097 * 146097 + marchStart (yearOfCycle (day % 146097)) :=
    marchStart_cycle _ _
  have hend : marchStart (marchYear day + 1) =
      day / 146097 * 146097 + marchStart (yearOfCycle (day % 146097) + 1) := by
    rw [marchYear, Nat.add_right_comm, marchStart_cycle]
  rw [marchStart_succ] at hend
  omega

/-- The day of a year is the one of its year in the cycle. -/
theorem sub_marchYear (day : Nat) :
    day % 146097 - marchStart (yearOfCycle (day % 146097)) = day - marchStart (marchYear day) := by
  rw [marchYear, marchStart_cycle]
  omega

/-- The date of a day counted from 1 March of the year 0. -/
def Date.ofDay (day : Nat) : Date := ofMarch (marchYear day) (day - marchStart (marchYear day)) (marchYear_spec day).2

theorem Date.dayNumber_ofDay (day : Nat) : (ofDay day).dayNumber = day + 60 := by
  rw [ofDay, dayNumber_ofMarch, Nat.add_sub_cancel' (marchYear_spec day).1]

end Calendar
