import ComputedFields.Calendar.Iso
import ComputedFields.Number.Notation
import ComputedFields.Value.Basic

/-!
# `ComputedFields.Value.Json` — values as text

A value is displayed as its own text where it has one, and as JSON otherwise. In JSON an instant is
the string of its ISO form, and a number that is not finite is null.
-/

namespace ComputedFields

namespace Text

/-- A hexadecimal digit. -/
def hexByte (n : Nat) : UInt8 :=
  if n < 10 then '0'.toUInt8 + UInt8.ofNat n else 'a'.toUInt8 + UInt8.ofNat (n - 10)

/-- A byte in a JSON string. Quotes, backslashes and control characters are escaped. -/
def jsonByte (b : UInt8) : Text :=
  if b == '"'.toUInt8 then utf8 "\\\""
  else if b == '\\'.toUInt8 then utf8 "\\\\"
  else if b == 10 then utf8 "\\n"
  else if b == 13 then utf8 "\\r"
  else if b == 9 then utf8 "\\t"
  else if b < 32 then utf8 "\\u00" ++ [hexByte (b.toNat / 16), hexByte (b.toNat % 16)]
  else [b]

/-- A text as a JSON string. -/
def json (s : Text) : Text := '"'.toUInt8 :: s.flatMap jsonByte ++ ['"'.toUInt8]

end Text

namespace Value

/-- The text of a truth value. -/
def booleanText (b : Bool) : Text := utf8 (if b then "true" else "false")

/-- Parts between two brackets, with commas between them. -/
def bracketed (opening closing : Char) (parts : List Text) : Text :=
  opening.toUInt8 :: Text.join [','.toUInt8] parts ++ [closing.toUInt8]

mutual

/-- A value in JSON. -/
def json : Value → Text
  | .null => utf8 "null"
  | .boolean b => booleanText b
  | .number x => if x.isFinite then Number.write x else utf8 "null"
  | .text s => s.json
  | .date t => (Calendar.writeIso t).json
  | .array items => bracketed '[' ']' (jsonItems items)
  | .object entries => bracketed '{' '}' (jsonEntries entries)

/-- The items of an array, each in JSON. -/
def jsonItems : List Value → List Text
  | [] => []
  | v :: rest => v.json :: jsonItems rest

/-- The entries of an object, each in JSON. -/
def jsonEntries : List (Text × Value) → List Text
  | [] => []
  | (key, v) :: rest => (key.json ++ ':'.toUInt8 :: v.json) :: jsonEntries rest

end

/-- A value as it is displayed. -/
def display : Value → Text
  | .null => []
  | .boolean b => booleanText b
  | .number x => Number.write x
  | .text s => s
  | .date t => Calendar.writeIso t
  | v => v.json

end Value

end ComputedFields
