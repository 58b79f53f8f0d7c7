import ComputedFields.Text
import ComputedFields.Calendar.Civil

/-!
# `ComputedFields.Calendar.Iso` — instants as ISO 8601 text

An instant is written `2024-01-15T10:30:00.000Z`, and its date alone `2024-01-15`. More is read than
is written: the time may be missing, may follow a space, may stop at the minutes or the seconds, and
may end with an offset from UTC.

* `writeIso`, `writeIsoDate` — the written forms;
* `readIso` — the instant that a text writes.
-/

namespace ComputedFields.Calendar

open Text

/-- The written form of a date. -/
def writeDate (c : Civil) : Text :=
  padded 4 c.year ++ '-'.toUInt8 :: padded 2 c.month ++ '-'.toUInt8 :: padded 2 c.day

/-- The written form of a time of day. -/
def writeClock (c : Civil) : Text :=
  padded 2 c.hour ++ ':'.toUInt8 :: padded 2 c.minute ++ ':'.toUInt8 :: padded 2 c.second
    ++ '.'.toUInt8 :: padded 3 c.millisecond

/-- An instant as `2024-01-15T10:30:00.000Z`. -/
def writeIso (t : Instant) : Text :=
  let c := Civil.ofInstant t
  writeDate c ++ 'T'.toUInt8 :: writeClock c ++ ['Z'.toUInt8]

/-- The date of an instant, as `2024-01-15`. -/
def writeIsoDate (t : Instant) : Text := writeDate (Civil.ofInstant t)

/-! ## Reading -/

/-- The text after the byte `c`, when the text starts with it. -/
def after? (c : Char) : Text → Option Text
  | [] => none
  | b :: s => if b == c.toUInt8 then some s else none

/-- The number in exactly `n` digits, and the text after them. -/
def fixedDigits (n : Nat) (s : Text) : Option (Int × Text) :=
  let digits := s.take n
  if digits.length = n ∧ digits.all digit then some (numeral digits, s.drop n) else none

/-- The milliseconds of a fraction of a second: its first three digits, missing ones being zero. -/
def milliseconds (fraction : Text) : Int :=
  numeral ((fraction ++ List.replicate 3 '0'.toUInt8).take 3)

/-- The date at the start of a text, and the text after it. -/
def readDate (s : Text) : Option (Civil × Text) := do
  let (year, s) ← fixedDigits 4 s
  let (month, s) ← fixedDigits 2 (← after? '-' s)
  let (day, s) ← fixedDigits 2 (← after? '-' s)
  if 1 ≤ month ∧ month ≤ 12 ∧ 1 ≤ day ∧ day ≤ daysInMonth year month then
    pure ({ year, month, day }, s)
  else none

/-- The fraction of a second after a point, in milliseconds; a point is followed by a digit. -/
def readFraction (s : Text) : Option (Int × Text) :=
  match after? '.' s with
  | none => some (0, s)
  | some s =>
    match s.takeWhile digit with
    | [] => none
    | fraction => some (milliseconds fraction, s.dropWhile digit)

/-- The seconds with their fraction after a colon; without a colon there are none. -/
def readSeconds (s : Text) : Option (Int × Int × Text) :=
  match after? ':' s with
  | none => some (0, 0, s)
  | some s => do
    let (second, s) ← fixedDigits 2 s
    let (millisecond, s) ← readFraction s
    pure (second, millisecond, s)

/-- The time of day at the start of a text, put into a date, and the text after it. -/
def readClock (date : Civil) (s : Text) : Option (Civil × Text) := do
  let (hour, s) ← fixedDigits 2 s
  let (minute, s) ← fixedDigits 2 (← after? ':' s)
  let (second, millisecond, s) ← readSeconds s
  if hour ≤ 23 ∧ minute ≤ 59 ∧ second ≤ 59 then
    pure ({ date with hour, minute, second, millisecond }, s)
  else none

/-- The minutes of an offset after its sign: two digits for hours and two for minutes, with or
without a colon between them. -/
def readOffset (s : Text) : Option (Int × Text) := do
  let (hours, s) ← fixedDigits 2 s
  let (minutes, s) ← fixedDigits 2 ((after? ':' s).getD s)
  pure (hours * 60 + minutes, s)

/-- The minutes by which a time is ahead of UTC, and the text after them. -/
def readZone (s : Text) : Option (Int × Text) :=
  match after? 'Z' s with
  | some s => some (0, s)
  | none =>
    match after? '-' s, after? '+' s with
    | some s, _ => (readOffset s).map fun (minutes, s) => (-minutes, s)
    | none, some s => readOffset s
    | none, none => some (0, s)

/-- The instant that a whole text writes. -/
def readIso (s : Text) : Option Instant := do
  let (date, s) ← readDate s
  let (time, offset, s) ←
    match after? 'T' s <|> after? ' ' s with
    | none => pure (date, 0, s)
    | some s => do
      let (time, s) ← readClock date s
      let (offset, s) ← readZone s
      pure (time, offset, s)
  if s.isEmpty then pure (time.toInstant - offset * 60000) else none

end ComputedFields.Calendar
