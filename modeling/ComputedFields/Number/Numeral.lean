import ComputedFields.Text

/-!
# `ComputedFields.Number.Numeral` — the number at the start of a text

A numeral is a sign that may be missing, followed by decimal digits with an optional fraction and
exponent, by `0x` and hexadecimal digits with an optional fraction and binary exponent, or by one of
the words `inf`, `infinity`, `nan` and `nan(…)` in any letter case. The longest numeral counts: an
exponent without digits, or `0x` without digits, is not part of it. Blanks before it are skipped,
and a zero byte ends the text.

* `read` — the number at the start of a text, with what follows it;
* `ofSpelling` — the number that digits with an optional fraction spell;
* `readWhole` — the number that a text consists of.
-/

namespace ComputedFields.Number

open Text

namespace Numeral

/-- The text after `b`, when the text starts with it in either letter case. -/
def after? (b : Char) : Text → Option Text
  | [] => none
  | c :: s => if lowerByte c == b.toUInt8 then some s else none

/-- The text after a word, when the text starts with it in any letter case; the word is given in
small letters. -/
def afterWord? (word : String) (s : Text) : Option Text :=
  let word := utf8 word
  if word.isPrefixOf (lower s) then some (s.drop word.length) else none

/-- A sign, and the text after it; no sign is a plus. -/
def sign (s : Text) : Bool × Text :=
  match after? '-' s with
  | some rest => (true, rest)
  | none => (false, (after? '+' s).getD s)

/-- The exponent after its `mark`, and the text after it; zero when there is no complete exponent.
-/
def exponent (mark : Char) (s : Text) : Int × Text :=
  match after? mark s with
  | none => (0, s)
  | some rest =>
    let (negative, rest) := sign rest
    match rest.takeWhile digit with
    | [] => (0, s)
    | digits =>
      (if negative then -(numeral digits : Int) else numeral digits, rest.dropWhile digit)

/-- The digits of a class before and after a point, and the text after them; none when there is no
digit. A point belongs to the digits on either side of it. -/
def positional (isDigit : UInt8 → Bool) (s : Text) : Option (Text × Text × Text) :=
  let before := s.takeWhile isDigit
  let rest := s.dropWhile isDigit
  match after? '.' rest with
  | none => if before.isEmpty then none else some (before, [], rest)
  | some rest =>
    let fraction := rest.takeWhile isDigit
    if before.isEmpty && fraction.isEmpty then none
    else some (before, fraction, rest.dropWhile isDigit)

/-- Infinity. -/
def infinity : Float := 1.0 / 0.0

/-- The double nearest to `m · 10 ^ e`. From `10 ^ 310` on every number rounds to infinity, and
below `10 ^ -330` to zero. -/
def ofDecimal (m : Nat) (e : Int) : Float :=
  let leading := e + (decimal m).length
  if m = 0 || leading < -330 then 0
  else if 310 < leading then infinity
  else Float.ofScientific m (e < 0) e.natAbs

/-- The double nearest to `m · 2 ^ e`, where a negative power of two is `5 ^ k · 10 ^ -k`. From
`2 ^ 1030` on every number rounds to infinity, and below `2 ^ -1100` to zero. -/
def ofBinary (m : Nat) (e : Int) : Float :=
  let leading := e + Nat.log2 m
  if m = 0 || leading < -1100 then 0
  else if 1030 < leading then infinity
  else if e < 0 then Float.ofScientific (m * Nat.pow 5 e.natAbs) true e.natAbs
  else Float.ofScientific (m * Nat.pow 2 e.toNat) false 0

/-- A decimal numeral without a sign. -/
def decimalNumeral (s : Text) : Option (Float × Text) := do
  let (before, fraction, rest) ← positional digit s
  let (e, rest) := exponent 'e' rest
  pure (ofDecimal (numeral (before ++ fraction)) (e - fraction.length), rest)

/-- A hexadecimal digit. -/
def hexDigit (b : UInt8) : Bool :=
  digit b || ('a'.toUInt8 ≤ lowerByte b && lowerByte b ≤ 'f'.toUInt8)

/-- The value of a hexadecimal digit. -/
def hexValue (b : UInt8) : Nat :=
  if digit b then digitValue b else (lowerByte b).toNat - 87

/-- A hexadecimal numeral without a sign. -/
def hexadecimal (s : Text) : Option (Float × Text) := do
  let s ← afterWord? "0x" s
  let (before, fraction, rest) ← positional hexDigit s
  let (e, rest) := exponent 'p' rest
  let m := (before ++ fraction).foldl (fun n b => 16 * n + hexValue b) 0
  pure (ofBinary m (e - 4 * fraction.length), rest)

/-- The text after the parenthesis that may follow the word `nan`: letters, digits and underscores.
-/
def afterPayload (s : Text) : Text :=
  match after? '(' s with
  | none => s
  | some rest => (after? ')' (rest.dropWhile nameByte)).getD s

/-- A word that stands for a number. -/
def word (s : Text) : Option (Float × Text) :=
  match afterWord? "inf" s with
  | some rest => some (infinity, (afterWord? "inity" rest).getD rest)
  | none => (afterWord? "nan" s).map fun rest => (0.0 / 0.0, afterPayload rest)

end Numeral

/-- The number at the start of a text after blanks, and the text after it, up to the first zero
byte. -/
def read (s : Text) : Option (Float × Text) := do
  let (negative, s) := Numeral.sign (trimStart (untilNul s))
  let (x, rest) ← Numeral.word s <|> Numeral.hexadecimal s <|> Numeral.decimalNumeral s
  pure (if negative then -x else x, rest)

/-- The number that digits with an optional fraction spell. -/
def ofSpelling (s : Text) : Float := ((Numeral.decimalNumeral s).map (·.1)).getD 0

/-- The number that a text consists of, with blanks around it disregarded. -/
def readWhole (s : Text) : Option Float := do
  let (x, rest) ← read s
  if rest.all blank then pure x else none

end ComputedFields.Number
