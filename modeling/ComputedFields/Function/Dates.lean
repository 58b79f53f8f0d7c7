import ComputedFields.Calendar.Iso
import ComputedFields.Function.Arguments
import ComputedFields.Number.Binary

/-!
# `ComputedFields.Function.Dates` — functions on instants

Dates are given in any form that `Value.toInstant` takes, and calculated dates are returned as ISO
text.

* `shift` — an instant moved by an amount of a unit;
* `shiftMonths` — the same by calendar months;
* `format` — the styles in which a date is shown.
-/

namespace ComputedFields.Function.Dates

/-- The unit of time at an index, in small letters; `days` when there is none. -/
def unitArgument (arguments : List Value) (i : Nat) : Text :=
  textArgumentOr arguments i (utf8 "days") |>.lower

/-- The text is one of some words. -/
def isAnyOf (s : Text) (words : List String) : Bool := words.any fun w => utf8 w == s

/-! ## Durations -/

/-- An amount of milliseconds in a unit: milliseconds as they are, longer units rounded to whole
ones. A unit that is not known counts as days. -/
def inUnit (milliseconds : Float) (unit : Text) : Float :=
  if isAnyOf unit ["milliseconds", "ms"] then milliseconds
  else if isAnyOf unit ["seconds", "s"] then Number.roundedTo (milliseconds / 1000) 0
  else if isAnyOf unit ["minutes", "m"] then Number.roundedTo (milliseconds / 60000) 0
  else if isAnyOf unit ["hours", "h"] then Number.roundedTo (milliseconds / 3600000) 0
  else Number.roundedTo (milliseconds / 86400000) 0

/-- The time from one date to another. -/
def duration : Builtin := fun arguments _ => do
  let start ← (argument arguments 0).toInstant
  let stop ← (argument arguments 1).toInstant
  pure (.number (inUnit (Float.ofInt (stop - start)) (unitArgument arguments 2)))

/-! ## Moving a date -/

/-- The largest number of months that can lead from one date to another. -/
def monthLimit : Float := 3300000

/-- An instant moved by whole calendar months; a fraction of a month is dropped. -/
def shiftMonths (t : Instant) (months : Float) : Except Fault Instant :=
  if months.isFinite && months.abs ≤ monthLimit then
    let moved := (Civil.ofInstant t).addMonths (Number.truncate months)
    instantOfNumber (Float.ofInt moved.toInstant)
  else .error (.monthsOutOfRange months)

/-- An instant moved by an amount of a unit that is so many milliseconds long. -/
def shiftBy (t : Instant) (amount unitLength : Float) : Except Fault Instant :=
  instantOfNumber (Float.ofInt t + amount * unitLength)

/-- An instant moved by an amount of a unit. A unit that is not known does not move it. -/
def shift (t : Instant) (amount : Float) (unit : Text) : Except Fault Instant :=
  if isAnyOf unit ["minutes", "m"] then shiftBy t amount 60000
  else if isAnyOf unit ["hours", "h"] then shiftBy t amount 3600000
  else if isAnyOf unit ["days", "d"] then shiftBy t amount 86400000
  else if isAnyOf unit ["weeks", "w"] then shiftBy t amount 604800000
  else if isAnyOf unit ["months"] then shiftMonths t amount
  else if isAnyOf unit ["years", "y"] then shiftMonths t (Number.truncated amount * 12)
  else pure t

/-- A date moved by an amount of a unit. -/
def dateAdd : Builtin := fun arguments _ => do
  let t ← (argument arguments 0).toInstant
  let amount ← (argument arguments 1).toNumber
  pure (.text (Calendar.writeIso (← shift t amount (unitArgument arguments 2))))

/-! ## Showing a date -/

/-- The months by name. -/
def monthNames : List String :=
  ["January", "February", "March", "April", "May", "June", "July", "August", "September", "October",
    "November", "December"]

/-- The days of the week by name. -/
def weekdayNames : List String :=
  ["Sunday", "Monday", "Tuesday", "Wednesday", "Thursday", "Friday", "Saturday"]

/-- A name from a list, by its index. -/
def named (names : List String) (i : Int) : Text := utf8 ((names[i.toNat]?).getD "")

/-- The name of a month from 1 to 12. -/
def monthName (month : Int) : Text := named monthNames (month - 1)

/-- The first three letters of a month's name. -/
def monthShort (month : Int) : Text := (monthName month).take 3

/-- A time of day on a dial of twelve hours. -/
def clock (c : Civil) : Text :=
  let hour := if c.hour % 12 = 0 then 12 else c.hour % 12
  Text.padded 2 hour ++ ':'.toUInt8 :: Text.padded 2 c.minute
    ++ utf8 (if c.hour < 12 then " AM" else " PM")

/-- An instant in a style; a style that is not known is `medium`. -/
def format (t : Instant) (style : Text) : Text :=
  let c := Civil.ofInstant t
  let day := monthShort c.month ++ ' '.toUInt8 :: Text.integer c.day
  let comma := utf8 ", "
  if isAnyOf style ["short"] then day
  else if isAnyOf style ["long"] then
    named weekdayNames (Calendar.weekday t) ++ comma ++ monthName c.month ++ ' '.toUInt8
      :: Text.integer c.day ++ comma ++ Text.integer c.year
  else if isAnyOf style ["iso"] then Calendar.writeDate c
  else if isAnyOf style ["time"] then clock c
  else if isAnyOf style ["datetime"] then day ++ comma ++ clock c
  else day ++ comma ++ Text.integer c.year

/-- A date in a style. -/
def formatDate : Builtin := fun arguments _ => do
  let t ← (argument arguments 0).toInstant
  pure (.text (format t (textArgumentOr arguments 1 (utf8 "medium"))))

/-- The day of the week of a date. -/
def dayOfWeek : Builtin := fun arguments _ => do
  let t ← (argument arguments 0).toInstant
  pure (.number (Float.ofInt (Calendar.weekday t)))

/-- The instant that counts as now. -/
def now : Builtin := fun _ context => pure (.text (Calendar.writeIso context.now))

/-- The date of the instant that counts as now. -/
def today : Builtin := fun _ context => pure (.text (Calendar.writeIsoDate context.now))

/-- The functions on instants. -/
def definitions : List Definition :=
  [define "Now" .date "Current date and time" "Now() → \"2024-01-15T10:30:00.000Z\"" [] "datetime"
      now,
    define "Today" .date "Current date (no time)" "Today() → \"2024-01-15\"" [] "date" today,
    define "Duration" .date "Calculate duration between two dates" "Duration(@start, @end) → 3"
      [required "start" "date" "Start date", required "end" "date" "End date",
        defaulted "unit" "string" "Unit (days/hours/minutes)" "days"] "number" duration,
    define "DateAdd" .date "Add duration to a date" "DateAdd(@date, 7, \"days\") → next week"
      [required "date" "date" "Base date", required "amount" "number" "Amount to add",
        defaulted "unit" "string" "Unit (days/hours/minutes)" "days"] "date" dateAdd,
    define "FormatDate" .date "Format date for display" "FormatDate(@date, \"short\") → \"Jan 15\""
      [required "date" "date" "Date to format",
        defaulted "format" "string" "Format style" "medium"] "string" formatDate,
    define "DayOfWeek" .date "Get day of week (0=Sunday, 6=Saturday)"
      "DayOfWeek(@date) → 1 (Monday)" [required "date" "date" "Date"] "number" dayOfWeek]

end ComputedFields.Function.Dates
