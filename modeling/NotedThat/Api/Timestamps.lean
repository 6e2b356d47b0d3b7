-- SUMMARY: Times as texts: the calendar's date and time of a number of seconds, which of two times comes first, and the arithmetic that finds them.
import NotedThat.Api.IndexHealth
import NotedThat.Lib.Calendar
import NotedThat.Lib.Decimal
import NotedThat.Lib.I64
import Mathlib.Data.Int.ConditionallyCompleteOrder
import Mathlib.Data.String.Basic

/-!
# Timestamps

Seconds since the epoch are written as a date and a time of day. The date is found from cycles of 400
years that begin in March. It is the one of the calendar, which is built from the lengths of its months
and years. Up to the year 9999 the texts are in the order of the times.
-/

open Calendar

namespace Api

-- ---------------------------------------------------------------------------
-- The calendar's text
-- ---------------------------------------------------------------------------

/-- A moment as a text, in UTC. -/
def rfc3339 (t : Moment) : String :=
  padded 4 t.date.year ++ "-" ++ padded 2 t.date.month ++ "-" ++ padded 2 t.date.day ++ "T" ++
    padded 2 t.hour ++ ":" ++ padded 2 t.minute ++ ":" ++ padded 2 t.second ++ "Z"

/-- The first second of the year 1970. -/
def epoch : Moment where
  date := Date.newYear 1970
  hour := 0
  minute := 0
  second := 0
  hour_lt := by decide
  minute_lt := by decide
  second_lt := by decide

/-- The seconds of a moment since the epoch. -/
def unixSeconds (t : Moment) : Int := t.secondNumber - epoch.secondNumber

theorem epoch_secondNumber : epoch.secondNumber = 719528 * 86400 := by
  have hstart := yearStart_eq 1970
  simp only [Moment.secondNumber, epoch, Date.dayNumber_newYear]
  generalize yearStart 1970 = start at *
  omega

/-- The moment a number of seconds after the epoch. -/
def moment (secs : Nat) : Moment where
  date := Date.ofDay (secs / 86400 + 719468)
  hour := secs % 86400 / 3600
  minute := secs % 86400 % 3600 / 60
  second := secs % 86400 % 60
  hour_lt := by omega
  minute_lt := by omega
  second_lt := by omega

theorem unixSeconds_moment (secs : Nat) : unixSeconds (moment secs) = secs := by
  have hnumber : (moment secs).secondNumber = (Date.ofDay (secs / 86400 + 719468)).dayNumber * 86400 +
      (secs % 86400 / 3600 * 3600 + secs % 86400 % 3600 / 60 * 60 + secs % 86400 % 60) := rfl
  rw [Date.dayNumber_ofDay] at hnumber
  rw [unixSeconds, epoch_secondNumber, hnumber]
  omega

theorem unixSeconds_inj {t u : Moment} (h : unixSeconds t = unixSeconds u) : t = u :=
  Moment.secondNumber_inj (Int.ofNat.inj (sub_left_injective h))

-- ---------------------------------------------------------------------------
-- The arithmetic
-- ---------------------------------------------------------------------------

/-- The year of an era, from a day of the era. `none` is an operation that overflows, here and below. -/
def checkedYoe (doe : Int) : Option Int := do
  I64.div (← I64.sub (← I64.add (← I64.sub doe (← I64.div doe 1460)) (← I64.div doe 36524))
    (← I64.div doe 146096)) 365

def checkedDoy (doe yoe : Int) : Option Int := do
  I64.sub doe (← I64.sub (← I64.add (← I64.mul 365 yoe) (← I64.div yoe 4)) (← I64.div yoe 100))

def checkedMp (doy : Int) : Option Int := do
  I64.div (← I64.add (← I64.mul 5 doy) 2) 153

def checkedDay (doy mp : Int) : Option Int := do
  I64.add (← I64.sub doy (← I64.div (← I64.add (← I64.mul 153 mp) 2) 5)) 1

def checkedMonth (mp : Int) : Option Int := if mp < 10 then I64.add mp 3 else I64.sub mp 9

def checkedYear (yoe era month : Int) : Option Int := do
  I64.add (← I64.add yoe (← I64.mul era 400)) (if month ≤ 2 then 1 else 0)

/-- `unixToRfc3339` in the arithmetic of 64-bit integers. -/
def checkedUnixToRfc3339 (secs : Int) : Option String := do
  let secs := max secs 0
  let days ← I64.divEuclid secs 86400
  let rem ← I64.remEuclid secs 86400
  let hh ← I64.div rem 3600
  let mm ← I64.div (← I64.rem rem 3600) 60
  let ss ← I64.rem rem 60
  let z ← I64.add days 719468
  let era ← I64.divEuclid z 146097
  let doe ← I64.remEuclid z 146097
  let yoe ← checkedYoe doe
  let doy ← checkedDoy doe yoe
  let mp ← checkedMp doy
  let day ← checkedDay doy mp
  let month ← checkedMonth mp
  let year ← checkedYear yoe era month
  return padded 4 year ++ "-" ++ padded 2 month ++ "-" ++ padded 2 day ++ "T" ++
    padded 2 hh ++ ":" ++ padded 2 mm ++ ":" ++ padded 2 ss ++ "Z"

theorem yoe_eq (doe : Nat) : ((doe : Int) - doe / 1460 + doe / 36524 - doe / 146096) / 365 = ↑(yearOfCycle doe) := by
  unfold yearOfCycle withoutLeapDays
  omega

theorem doy_eq {doe yoe : Nat} (hyoe : yoe < 400) (hle : marchStart yoe ≤ doe) :
    (doe : Int) - (365 * yoe + yoe / 4 - yoe / 100) = ↑(doe - marchStart yoe) := by
  unfold marchStart at *
  omega

theorem day_eq {doy mp : Nat} (hle : marchMonthStart mp ≤ doy) :
    (doy : Int) - (153 * mp + 2) / 5 + 1 = ↑(doy - marchMonthStart mp + 1) := by
  unfold marchMonthStart at *
  omega

/-- The calendar's month of a month from March on. -/
def monthOf (mp : Nat) : Nat := if mp < 10 then mp + 3 else mp - 9

theorem month_eq {mp : Nat} (h : mp < 12) : (if (mp : Int) < 10 then (mp : Int) + 3 else mp - 9) = ↑(monthOf mp) := by
  unfold monthOf
  split <;> split <;> omega

/-- The calendar's year changes in the eleventh of the months from March on. -/
theorem year_eq {mp : Nat} (yoe era : Nat) (h : mp < 12) :
    (yoe : Int) + era * 400 + (if (monthOf mp : Int) ≤ 2 then 1 else 0) =
      ↑(if mp < 10 then yoe + era * 400 else yoe + era * 400 + 1) := by
  unfold monthOf
  split <;> split <;> omega

theorem checkedYoe_eq {doe : Nat} (h : doe < 146097) : checkedYoe doe = some ↑(yearOfCycle doe) := by
  simp only [checkedYoe, Option.bind_eq_bind]
  rw [I64.div_eq (by omega) (by omega) (by decide), Option.bind_some,
    I64.sub_eq (by omega) (by omega), Option.bind_some,
    I64.div_eq (by omega) (by omega) (by decide), Option.bind_some,
    I64.add_eq (by omega) (by omega), Option.bind_some,
    I64.div_eq (by omega) (by omega) (by decide), Option.bind_some,
    I64.sub_eq (by omega) (by omega), Option.bind_some,
    I64.div_eq (by omega) (by omega) (by decide), yoe_eq]

theorem checkedDoy_eq {doe yoe : Nat} (h : doe < 146097) (hyoe : yoe < 400) (hle : marchStart yoe ≤ doe) :
    checkedDoy doe yoe = some ↑(doe - marchStart yoe) := by
  have heq := doy_eq hyoe hle
  simp only [checkedDoy, Option.bind_eq_bind]
  rw [I64.mul_eq (by omega) (by omega), Option.bind_some,
    I64.div_eq (by omega) (by omega) (by decide), Option.bind_some,
    I64.add_eq (by omega) (by omega), Option.bind_some,
    I64.div_eq (by omega) (by omega) (by decide), Option.bind_some,
    I64.sub_eq (by omega) (by omega), Option.bind_some,
    I64.sub_eq (by omega) (by omega), heq]

theorem checkedMp_eq {doy : Nat} (h : doy < 366) : checkedMp doy = some ↑(marchMonth doy) := by
  simp only [checkedMp, Option.bind_eq_bind]
  rw [I64.mul_eq (by omega) (by omega), Option.bind_some,
    I64.add_eq (by omega) (by omega), Option.bind_some,
    I64.div_eq (by omega) (by omega) (by decide)]
  rfl

theorem checkedDay_eq {doy mp : Nat} (h : doy < 366) (hle : marchMonthStart mp ≤ doy) :
    checkedDay doy mp = some ↑(doy - marchMonthStart mp + 1) := by
  have heq := day_eq hle
  simp only [checkedDay, Option.bind_eq_bind]
  rw [I64.mul_eq (by omega) (by omega), Option.bind_some,
    I64.add_eq (by omega) (by omega), Option.bind_some,
    I64.div_eq (by omega) (by omega) (by decide), Option.bind_some,
    I64.sub_eq (by omega) (by omega), Option.bind_some,
    I64.add_eq (by omega) (by omega), heq]

theorem checkedMonth_eq {mp : Nat} (h : mp < 12) : checkedMonth mp = some ↑(monthOf mp) := by
  rw [← month_eq h, checkedMonth]
  split
  · exact I64.add_eq (by omega) (by omega)
  · exact I64.sub_eq (by omega) (by omega)

theorem checkedYear_eq {yoe era mp : Nat} (hyoe : yoe < 400) (hera : era < 2 ^ 40) (h : mp < 12) :
    checkedYear yoe era (monthOf mp) = some ↑(if mp < 10 then yoe + era * 400 else yoe + era * 400 + 1) := by
  rw [← year_eq yoe era h]
  simp only [checkedYear, Option.bind_eq_bind]
  rw [I64.mul_eq (by omega) (by omega), Option.bind_some,
    I64.add_eq (by omega) (by omega), Option.bind_some]
  split <;> exact I64.add_eq (by omega) (by omega)

/-- The seconds that both functions start from. -/
theorem exists_secs {secs : Int} (h : secs < 2 ^ 63) : ∃ n : Nat, max secs 0 = n ∧ n < 2 ^ 63 := by
  refine ⟨(max secs 0).toNat, ?_, ?_⟩ <;> omega

theorem checkedUnixToRfc3339_eq {secs : Int} {n : Nat} (hn : max secs 0 = n) (hlt : n < 2 ^ 63) :
    checkedUnixToRfc3339 secs = some (rfc3339 (moment n)) := by
  have hmoment : (moment n).date = Date.ofDay (n / 86400 + 719468) := rfl
  obtain ⟨z, hz⟩ : ∃ z, n / 86400 + 719468 = z := ⟨_, rfl⟩
  have hzlt : z < 2 ^ 56 := by omega
  have hadd : I64.add (n / 86400) 719468 = some ↑z := by
    rw [I64.add_eq (by omega) (by omega)]
    exact congrArg some (by omega)
  have hera : I64.divEuclid z 146097 = some ↑(z / 146097) := I64.divEuclid_eq (by omega) (by omega) (by decide)
  have hdoe : I64.remEuclid z 146097 = some ↑(z % 146097) := I64.remEuclid_eq (by omega) (by omega) (by decide)
  have hdoelt : z % 146097 < 146097 := Nat.mod_lt _ (by decide)
  have hyoe := yearOfCycle_lt hdoelt
  have hspec := yearOfCycle_spec hdoelt
  have hdoylt := (marchYear_spec z).2
  have hmonth := marchMonth_lt hdoylt
  have hlength : z - marchStart (marchYear z) < 366 := hdoylt.trans_le (yearLength_le _)
  unfold checkedUnixToRfc3339
  rw [hn]
  refine I64.bind_of_eq (I64.divEuclid_eq (by omega) (by omega) (by decide)) ?_
  refine I64.bind_of_eq (I64.remEuclid_eq (by omega) (by omega) (by decide)) ?_
  refine I64.bind_of_eq (I64.div_eq (by omega) (by omega) (by decide)) ?_
  refine I64.bind_of_eq (I64.rem_eq (by omega) (by omega) (by decide)) ?_
  refine I64.bind_of_eq (I64.div_eq (by omega) (by omega) (by decide)) ?_
  refine I64.bind_of_eq (I64.rem_eq (by omega) (by omega) (by decide)) ?_
  refine I64.bind_of_eq hadd ?_
  refine I64.bind_of_eq hera ?_
  refine I64.bind_of_eq hdoe ?_
  refine I64.bind_of_eq (checkedYoe_eq hdoelt) ?_
  refine I64.bind_of_eq (checkedDoy_eq hdoelt hyoe hspec.1) ?_
  rw [sub_marchYear]
  refine I64.bind_of_eq (checkedMp_eq hlength) ?_
  refine I64.bind_of_eq (checkedDay_eq hlength (marchMonth_spec _).1) ?_
  refine I64.bind_of_eq (checkedMonth_eq hmonth) ?_
  refine I64.bind_of_eq (checkedYear_eq hyoe (by omega) hmonth) ?_
  rw [rfc3339, hmoment, hz]
  rfl

/-- The names of the function's intermediate values. -/
theorem unixToRfc3339_def {secs n z era doe yoe doy mp day month year : Int} (hn : max secs 0 = n)
    (hz : n / 86400 + 719468 = z) (hera : z / 146097 = era) (hdoe : z % 146097 = doe)
    (hyoe : (doe - doe / 1460 + doe / 36524 - doe / 146096) / 365 = yoe)
    (hdoy : doe - (365 * yoe + yoe / 4 - yoe / 100) = doy) (hmp : (5 * doy + 2) / 153 = mp)
    (hday : doy - (153 * mp + 2) / 5 + 1 = day) (hmonth : (if mp < 10 then mp + 3 else mp - 9) = month)
    (hyear : yoe + era * 400 + (if month ≤ 2 then 1 else 0) = year) :
    unixToRfc3339 secs = padded 4 year ++ "-" ++ padded 2 month ++ "-" ++ padded 2 day ++ "T" ++
      padded 2 (n % 86400 / 3600) ++ ":" ++ padded 2 (n % 86400 % 3600 / 60) ++ ":" ++
        padded 2 (n % 86400 % 60) ++ "Z" := by
  subst hn hz hera hdoe hyoe hdoy hmp hday hmonth hyear
  rfl

theorem unixToRfc3339_eq {secs : Int} {n : Nat} (hn : max secs 0 = n) :
    unixToRfc3339 secs = rfc3339 (moment n) := by
  have hmoment : (moment n).date = Date.ofDay (n / 86400 + 719468) := rfl
  obtain ⟨z, hz⟩ : ∃ z, n / 86400 + 719468 = z := ⟨_, rfl⟩
  have hz' : (n : Int) / 86400 + 719468 = z := by omega
  have hdoelt : z % 146097 < 146097 := Nat.mod_lt _ (by decide)
  have hmonth := marchMonth_lt (marchYear_spec z).2
  have heq := doy_eq (yearOfCycle_lt hdoelt) (yearOfCycle_spec hdoelt).1
  rw [sub_marchYear] at heq
  rw [unixToRfc3339_def hn hz' rfl rfl (yoe_eq (z % 146097)) heq rfl (day_eq (marchMonth_spec _).1)
    (month_eq hmonth) (year_eq _ (z / 146097) hmonth), rfc3339, hmoment, hz]
  rfl

-- ---------------------------------------------------------------------------
-- The order of the texts
-- ---------------------------------------------------------------------------

theorem toList_pushn (c : Char) (n : Nat) : ("".pushn c n).toList = List.replicate n c := by
  rw [String.pushn_eq_repeat_push]
  induction n with
  | zero => rfl
  | succ n ih => rw [Nat.repeat, String.toList_push, ih, List.replicate_succ']

theorem toList_padded {width n : Nat} (h : n < 10 ^ (width + 1)) :
    (padded (width + 1) n).toList = FixedWidth.digits (width + 1) n := by
  have hdigits : (toString (n : Int)).toList = Nat.toDigits 10 n := Numeral.toList_toString n
  rw [FixedWidth.digits_eq h, padded, String.toList_append, toList_pushn, hdigits, ← String.length_toList,
    hdigits]

/-- The first field in which two texts differ decides their order. -/
theorem padded_lt {width n m : Nat} {x y : Text} (hm : m < 10 ^ (width + 1)) (h : n < m ∨ n = m ∧ x < y) :
    (padded (width + 1) n).toList ++ x < (padded (width + 1) m).toList ++ y := by
  rcases h with hlt | ⟨rfl, hlt⟩
  · rw [toList_padded hm, toList_padded (hlt.trans hm)]
    refine FixedWidth.append_lt_append ?_ (FixedWidth.digits_lt hm hlt) x y
    rw [FixedWidth.length_digits, FixedWidth.length_digits]
  · exact List.append_left_lt hlt

/-- Of two moments up to the year 9999 the earlier one has the smaller text. -/
theorem rfc3339_lt {t u : Moment} (hyear : u.date.year < 10000) (h : t.secondNumber < u.secondNumber) :
    rfc3339 t < rfc3339 u := by
  have hmonth := u.date.month_le
  have hday := u.date.day_le.trans (monthLength_le _ _)
  have hhour := u.hour_lt
  have hminute := u.minute_lt
  have hsecond := u.second_lt
  rw [String.lt_iff_toList_lt, rfc3339, rfc3339]
  simp only [String.toList_append, List.append_assoc]
  refine padded_lt hyear ((Moment.lex_of_secondNumber_lt h).imp_right (And.imp_right fun h => ?_))
  refine List.append_left_lt (padded_lt (by omega) (h.imp_right (And.imp_right fun h => ?_)))
  refine List.append_left_lt (padded_lt (by omega) (h.imp_right (And.imp_right fun h => ?_)))
  refine List.append_left_lt (padded_lt (by omega) (h.imp_right (And.imp_right fun h => ?_)))
  refine List.append_left_lt (padded_lt (by omega) (h.imp_right (And.imp_right fun h => ?_)))
  exact List.append_left_lt (padded_lt (by omega) (.inl h))

/-- The times whose texts have a year of four digits. -/
def fourDigitTimes : Set Int := {secs | 0 ≤ secs ∧ ∃ t : Moment, unixSeconds t = secs ∧ t.date.year < 10000}

-- ---------------------------------------------------------------------------
-- Times
-- ---------------------------------------------------------------------------

theorem rfc3339_moment {secs : Int} (h : 0 ≤ secs) :
    ∃ t : Moment, unixSeconds t = secs ∧ unixToRfc3339 secs = rfc3339 t := by
  obtain ⟨n, rfl⟩ := Int.eq_ofNat_of_zero_le h
  exact ⟨moment n, unixSeconds_moment n, unixToRfc3339_eq (max_eq_left h)⟩

theorem checked_eq {secs : Int} (h : secs < 2 ^ 63) : checkedUnixToRfc3339 secs = some (unixToRfc3339 secs) := by
  obtain ⟨n, hn, hlt⟩ := exists_secs h
  rw [checkedUnixToRfc3339_eq hn hlt, unixToRfc3339_eq hn]

theorem unixToRfc3339_lt {secs secs' : Int} (h : secs ∈ fourDigitTimes) (h' : secs' ∈ fourDigitTimes)
    (hlt : secs < secs') : unixToRfc3339 secs < unixToRfc3339 secs' := by
  obtain ⟨t, rfl, ht⟩ := rfc3339_moment h.1
  obtain ⟨u, rfl, hu⟩ := rfc3339_moment h'.1
  obtain ⟨-, u', heq, hyear⟩ := h'
  rw [unixSeconds_inj heq] at hyear
  rw [ht, hu]
  refine rfc3339_lt hyear ?_
  unfold unixSeconds at hlt
  omega

/-- The text of a time is the date and time that the calendar gives it, and no operation overflows on the way
there. While the year has four digits, the texts have the order of the times. -/
theorem unixToRfc3339_exact :
    (∀ secs : Int, 0 ≤ secs → secs < 2 ^ 63 →
      checkedUnixToRfc3339 secs = some (unixToRfc3339 secs) ∧
        ∃ t : Moment, unixToRfc3339 secs = rfc3339 t ∧ ∀ u, unixSeconds u = secs ↔ u = t) ∧
      StrictMonoOn unixToRfc3339 fourDigitTimes := by
  refine ⟨fun secs hle hlt => ⟨checked_eq hlt, ?_⟩, fun _ h _ h' => unixToRfc3339_lt h h'⟩
  obtain ⟨t, rfl, htext⟩ := rfc3339_moment hle
  exact ⟨t, htext, fun u => ⟨unixSeconds_inj, fun heq => heq ▸ rfl⟩⟩

theorem unixToRfc3339_exact_leapDay : unixToRfc3339 951782400 = "2000-02-29T00:00:00Z" ∧
    ∃ t : Moment, unixToRfc3339 951782400 = rfc3339 t ∧ ∀ u, unixSeconds u = 951782400 ↔ u = t :=
  ⟨by decide, (unixToRfc3339_exact.1 951782400 (by decide) (by decide)).2⟩

end Api
