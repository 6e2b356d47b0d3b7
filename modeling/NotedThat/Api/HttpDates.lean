-- SUMMARY: The grammar of the dates in request headers, the instants they name, and what is assumed of the crate that reads them.
import NotedThat.Lib.Calendar
import NotedThat.Lib.Decimal

/-!
# HTTP dates

A date is written in one of three formats. What the grammar generates includes leap seconds and the years
before 1970; the crate that reads dates takes neither.
-/

open Calendar FixedWidth

/-- A second of the calendar, or a leap second, in a year of four digits. -/
structure HttpDate where
  date : Date
  year_le : date.year ≤ 9999
  hour : Nat
  minute : Nat
  second : Nat
  hour_lt : hour < 24
  minute_lt : minute < 60
  second_le : second ≤ 60

namespace HttpDate

/-- Seconds since the first day of 1970, the day number 719528. -/
def unixSeconds (d : HttpDate) : Int :=
  (d.date.dayNumber - 719528) * 86400 + (d.hour * 3600 + d.minute * 60 + d.second)

-- ---------------------------------------------------------------------------
-- The grammar
-- ---------------------------------------------------------------------------

def monthName : Nat → Text
  | 1 => "Jan".toList
  | 2 => "Feb".toList
  | 3 => "Mar".toList
  | 4 => "Apr".toList
  | 5 => "May".toList
  | 6 => "Jun".toList
  | 7 => "Jul".toList
  | 8 => "Aug".toList
  | 9 => "Sep".toList
  | 10 => "Oct".toList
  | 11 => "Nov".toList
  | _ => "Dec".toList

/-- Days of the week from Sunday on, as `rfc850-date` writes them. The other formats take three letters. -/
def weekdayName : Nat → Text
  | 0 => "Sunday".toList
  | 1 => "Monday".toList
  | 2 => "Tuesday".toList
  | 3 => "Wednesday".toList
  | 4 => "Thursday".toList
  | 5 => "Friday".toList
  | _ => "Saturday".toList

/-- The first day of the year 0 is a Saturday. -/
def weekday (d : HttpDate) : Text := weekdayName ((d.date.dayNumber + 6) % 7)

/-- `hour ":" minute ":" second`. -/
def timeOfDay (d : HttpDate) : Text :=
  digits 2 d.hour ++ ':' :: (digits 2 d.minute ++ ':' :: digits 2 d.second)

/-- `Sun, 06 Nov 1994 08:49:37 GMT`. -/
def imfFixdate (d : HttpDate) : Text :=
  d.weekday.take 3 ++ ", ".toList ++ digits 2 d.date.day ++ ' ' :: monthName d.date.month ++
    ' ' :: digits 4 d.date.year ++ ' ' :: d.timeOfDay ++ " GMT".toList

/-- `Sunday, 06-Nov-94 08:49:37 GMT`. -/
def rfc850Date (d : HttpDate) : Text :=
  d.weekday ++ ", ".toList ++ digits 2 d.date.day ++ '-' :: monthName d.date.month ++
    '-' :: digits 2 d.date.year ++ ' ' :: d.timeOfDay ++ " GMT".toList

/-- `Sun Nov  6 08:49:37 1994`; a day of one digit follows a space or a zero. -/
def asctimeDate (d : HttpDate) (day : Text) : Text :=
  d.weekday.take 3 ++ ' ' :: monthName d.date.month ++ ' ' :: day ++ ' ' :: d.timeOfDay ++
    ' ' :: digits 4 d.date.year

/-- `HTTP-date = IMF-fixdate / obs-date`. Years of two digits are those from 1970 to 2069. -/
inductive Spelled (d : HttpDate) : Text → Prop where
  | imfFixdate : Spelled d d.imfFixdate
  | rfc850Date (hfrom : 1970 ≤ d.date.year) (hto : d.date.year ≤ 2069) : Spelled d d.rfc850Date
  | asctimeDate : Spelled d (d.asctimeDate (digits 2 d.date.day))
  | asctimeDigit (hday : d.date.day < 10) : Spelled d (d.asctimeDate (' ' :: digits 1 d.date.day))

-- ---------------------------------------------------------------------------
-- What is read
-- ---------------------------------------------------------------------------

/-- From 1970 on, and no leap second. -/
def Readable (d : HttpDate) : Prop := 1970 ≤ d.date.year ∧ d.second < 60

instance (d : HttpDate) : Decidable d.Readable := inferInstanceAs (Decidable (_ ∧ _))

end HttpDate
