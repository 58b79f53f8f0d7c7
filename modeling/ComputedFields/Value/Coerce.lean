import ComputedFields.Calendar.Iso
import ComputedFields.Fault
import ComputedFields.Number.Numeral

/-!
# `ComputedFields.Value.Coerce` — values as numbers and as instants

* `toNumber` — truth values are 1 and 0, and a text is the number at its start;
* `toInstant` — a number is milliseconds since 1970, and a text is read as ISO 8601;
* `instantOfNumber` — the instants that a number may name lie within 8.64e15 milliseconds of 1970.
-/

namespace ComputedFields

/-- The number for a truth value. -/
def numberOfBool (b : Bool) : Float := if b then 1 else 0

/-- The largest distance of an instant from 1970 that a number may name: 100,000,000 days. -/
def instantLimit : Float := 8640000000000000

/-- The instant nearest to a number of milliseconds. -/
def instantOfNumber (x : Float) : Except Fault Instant :=
  if x.isFinite && x.abs ≤ instantLimit then .ok (Number.roundHalfAway x)
  else .error (.dateOutOfRange x)

namespace Value

/-- A value as a number. -/
def toNumber : Value → Except Fault Float
  | .number x => .ok x
  | .boolean b => .ok (numberOfBool b)
  | .text s =>
    match Number.read s with
    | some (x, _) => .ok x
    | none => .error (.textNotNumber s)
  | v => .error (.kindNotNumber v.kind)

/-- A value as an instant. -/
def toInstant : Value → Except Fault Instant
  | .date t => .ok t
  | .number x => instantOfNumber x
  | .text s =>
    match Calendar.readIso s with
    | some t => .ok t
    | none => .error (.textNotDate s)
  | v => .error (.kindNotDate v.kind)

end Value

end ComputedFields
