/-
Days of the proleptic Gregorian calendar.

A day is a year, a month and a day of the month, or its number counted from the start
of 1970.  Years are counted from March here, so that the leap day is the last day of its
year, in eras of 400 years or 146097 days.

* `CalendarDay.isValid` — whether the day exists;
* `CalendarDay.toDayNumber`, `CalendarDay.ofDayNumber` — the two forms of a day.
-/
import ShardAllocation.Binary.Decimal

namespace ShardAllocation

/-- A day of the proleptic Gregorian calendar. -/
structure CalendarDay where
  year : Int
  month : Nat
  day : Nat
  deriving DecidableEq, Repr

namespace CalendarDay

/-- Whether a year has 366 days. -/
def isLeapYear (year : Int) : Bool :=
  year % 4 == 0 && (year % 100 != 0 || year % 400 == 0)

/-- The number of days of a month. -/
def daysInMonth (year : Int) (month : Nat) : Nat :=
  if month = 2 then (if isLeapYear year then 29 else 28)
  else if month = 4 ∨ month = 6 ∨ month = 9 ∨ month = 11 then 30
  else 31

/-- Whether the month and the day exist in the year. -/
def isValid (d : CalendarDay) : Bool :=
  1 ≤ d.month && d.month ≤ 12 && 1 ≤ d.day && d.day ≤ daysInMonth d.year d.month

/-- The number of days from the start of 1970. -/
def toDayNumber (d : CalendarDay) : Int :=
  let year := if d.month ≤ 2 then d.year - 1 else d.year
  let month : Int := if d.month ≤ 2 then d.month + 9 else d.month - 3
  let era := year / 400
  let yearOfEra := year % 400
  let dayOfYear := (153 * month + 2) / 5 + d.day - 1
  let dayOfEra := yearOfEra * 365 + yearOfEra / 4 - yearOfEra / 100 + dayOfYear
  era * 146097 + dayOfEra - 719468

/-- The calendar day with the given number. -/
def ofDayNumber (n : Int) : CalendarDay :=
  let shifted := n + 719468
  let era := shifted / 146097
  let dayOfEra := shifted % 146097
  let yearOfEra := (dayOfEra - dayOfEra / 1460 + dayOfEra / 36524 - dayOfEra / 146096) / 365
  let dayOfYear := dayOfEra - (365 * yearOfEra + yearOfEra / 4 - yearOfEra / 100)
  let month := (5 * dayOfYear + 2) / 153
  let day := dayOfYear - (153 * month + 2) / 5 + 1
  let calendarMonth := if month < 10 then month + 3 else month - 9
  let year := yearOfEra + era * 400
  { year := if calendarMonth ≤ 2 then year + 1 else year
    month := calendarMonth.toNat
    day := day.toNat }

end CalendarDay

namespace Text

/-- The digits of `n`, with zeros in front up to a width. -/
def padded (width n : Nat) : String :=
  let ds := Binary.digits n
  String.ofList (List.replicate (width - ds.length) '0' ++ ds)

end Text

namespace CalendarDay

/-- Four digits for the years 0 to 9999, a sign and at least four digits for others. -/
def yearText (year : Int) : String :=
  if 0 ≤ year ∧ year ≤ 9999 then Text.padded 4 year.toNat
  else if year < 0 then "-" ++ Text.padded 4 year.natAbs
  else "+" ++ Text.padded 4 year.natAbs

/-- The year, the month and the day between dashes. -/
def text (d : CalendarDay) : String :=
  s!"{yearText d.year}-{Text.padded 2 d.month}-{Text.padded 2 d.day}"

end CalendarDay

end ShardAllocation
