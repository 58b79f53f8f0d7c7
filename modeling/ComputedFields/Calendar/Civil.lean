/-!
# `ComputedFields.Calendar.Civil` — instants and civil times

An instant is a number of milliseconds since 1970-01-01 00:00 UTC; a civil time is its year, month,
day and time of day in the Gregorian calendar, extended to all years. A year is counted here from
its first of March, so that a leap day is its last day, and 400 years are 146097 days.

* `Civil.ofInstant`, `Civil.toInstant` — the two directions;
* `weekday` — the day of the week;
* `daysInMonth` — the length of a month;
* `Civil.addMonths` — the shift by whole months, which stays inside the target month.
-/

namespace ComputedFields

/-- Milliseconds since 1970-01-01 00:00 UTC. -/
abbrev Instant := Int

/-- A date and a time of day. Fields outside of their ranges carry over when it is turned into an
instant. -/
structure Civil where
  year : Int := 1970
  month : Int := 1
  day : Int := 1
  hour : Int := 0
  minute : Int := 0
  second : Int := 0
  millisecond : Int := 0
  deriving Repr, DecidableEq

namespace Calendar

/-- The milliseconds of a day. -/
def millisecondsPerDay : Int := 86400000

/-- The years that are divisible by 4 but not by 100, and those that are divisible by 400. -/
def leapYear (year : Int) : Bool := (year % 4 == 0 && year % 100 != 0) || year % 400 == 0

/-- The number of days of a month; months after the twelfth are counted around. -/
def daysInMonth (year month : Int) : Int :=
  if month = 2 then if leapYear year then 29 else 28
  else ([31, 28, 31, 30, 31, 30, 31, 31, 30, 31, 30, 31][((month - 1) % 12).toNat]?).getD 31

/-- The days from 1970-01-01 to a day of a month from 1 to 12. Months from March on have
`(153 m + 2) / 5` days before them in their year. -/
def dayNumber (year month day : Int) : Int :=
  let y := if month ≤ 2 then year - 1 else year
  let m := (month + 9) % 12
  365 * y + y / 4 - y / 100 + y / 400 + (153 * m + 2) / 5 + (day - 1) - 719468

/-- The year, month and day of a day number. -/
def dateOfDay (days : Int) : Int × Int × Int :=
  let z := days + 719468
  let era := z / 146097
  let dayOfEra := z % 146097
  let yearOfEra := (dayOfEra - dayOfEra / 1460 + dayOfEra / 36524 - dayOfEra / 146096) / 365
  let dayOfYear := dayOfEra - (365 * yearOfEra + yearOfEra / 4 - yearOfEra / 100)
  let m := (5 * dayOfYear + 2) / 153
  let month := if m < 10 then m + 3 else m - 9
  (yearOfEra + 400 * era + (if month ≤ 2 then 1 else 0), month, dayOfYear - (153 * m + 2) / 5 + 1)

/-- The day of the week, from 0 for Sunday to 6 for Saturday; 1970-01-01 was a Thursday. -/
def weekday (t : Instant) : Int := (t / millisecondsPerDay + 4) % 7

end Calendar

namespace Civil

open Calendar

/-- The civil time of an instant. -/
def ofInstant (t : Instant) : Civil :=
  let (year, month, day) := dateOfDay (t / millisecondsPerDay)
  let rest := t % millisecondsPerDay
  { year, month, day
    hour := rest / 3600000
    minute := rest % 3600000 / 60000
    second := rest % 60000 / 1000
    millisecond := rest % 1000 }

/-- The instant of a civil time. -/
def toInstant (c : Civil) : Instant :=
  let year := c.year + (c.month - 1) / 12
  let month := (c.month - 1) % 12 + 1
  (dayNumber year month 1 + (c.day - 1)) * millisecondsPerDay
    + c.hour * 3600000 + c.minute * 60000 + c.second * 1000 + c.millisecond

/-- The same time of day `months` months later, on the same day of the month or, when the month is
too short for it, on its last day. -/
def addMonths (c : Civil) (months : Int) : Civil :=
  let total := c.year * 12 + (c.month - 1) + months
  let year := total / 12
  let month := total % 12 + 1
  { c with year, month, day := min c.day (daysInMonth year month) }

end Civil

end ComputedFields
