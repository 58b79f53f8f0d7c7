import ComputedFields.Text
import ComputedFields.Number.Shortest

/-!
# `ComputedFields.Number.Notation` — how a number is written

A number is written with its shortest digits, positionally from `0.000001` up to below `10 ^ 21`,
and outside of that range with one digit before the point and an exponent: `1e+21`, `1.5e-7`.
-/

namespace ComputedFields.Number

open Text (decimal)

/-- The text of `0.d₁d₂…dₖ · 10 ^ point`, for a nonempty run of digits with `d₁` not zero. -/
def layout (negative : Bool) (digits : Text) (point : Int) : Text :=
  let sign : Text := if negative then ['-'.toUInt8] else []
  let zeros (n : Int) : Text := List.replicate n.toNat '0'.toUInt8
  if digits.length ≤ point ∧ point ≤ 21 then sign ++ digits ++ zeros (point - digits.length)
  else if 0 < point ∧ point ≤ 21 then
    sign ++ digits.take point.toNat ++ '.'.toUInt8 :: digits.drop point.toNat
  else if -6 < point ∧ point ≤ 0 then sign ++ utf8 "0." ++ zeros (-point) ++ digits
  else
    let fraction := digits.drop 1
    let exponent := point - 1
    sign ++ digits.take 1 ++ (if fraction.isEmpty then [] else '.'.toUInt8 :: fraction)
      ++ ['e'.toUInt8, if exponent < 0 then '-'.toUInt8 else '+'.toUInt8]
      ++ decimal exponent.natAbs

/-- The text of a number. Both zeros are written `0`. -/
def write (x : Float) : Text :=
  if x.isNaN then utf8 "NaN"
  else if !x.isFinite then utf8 (if x < 0 then "-Infinity" else "Infinity")
  else if x == 0 then utf8 "0"
  else
    let b := Binary.ofFloat x
    let d := shortest b
    let digits := decimal d.coefficient
    layout b.negative digits (d.exponent + digits.length)

end ComputedFields.Number
