import ComputedFields.Function.Arguments
import ComputedFields.Number.Binary

/-!
# `ComputedFields.Function.Math` — functions on numbers

`Sum`, `Average`, `Min` and `Max` range over all arguments and the items of arrays among them, and
are zero when there is none.
-/

namespace ComputedFields.Function.Math

/-- The sum of some numbers, from the left. -/
def total (xs : List Float) : Float := xs.foldl (· + ·) 0

/-- The first of the least numbers. -/
def least : List Float → Float
  | [] => 0
  | x :: xs => xs.foldl (fun m y => if y < m then y else m) x

/-- The first of the greatest numbers. -/
def greatest : List Float → Float
  | [] => 0
  | x :: xs => xs.foldl (fun m y => if m < y then y else m) x

/-- The mean of some numbers. -/
def mean (xs : List Float) : Float :=
  if xs.isEmpty then 0 else total xs / Float.ofNat xs.length

/-- A function of all numbers among the arguments. -/
def ofNumbers (f : List Float → Float) : Builtin := fun arguments _ => do
  pure (.number (f (← numbers arguments)))

/-- The number of places to round to: null and NaN are none, and beyond 15 places a double has
nothing left to round. -/
def places (v : Value) : Except Fault Int := do
  let x ← if v.kind = .null then pure 0 else v.toNumber
  if x.isNaN then pure 0
  else if x < -15 then pure (-15)
  else if 15 < x then pure 15
  else pure (Number.truncate x)

/-- A number rounded to the places that are asked for. -/
def round : Builtin := fun arguments _ => do
  let x ← (argument arguments 0).toNumber
  pure (.number (Number.roundedTo x (← places (argument arguments 1))))

/-- The magnitude of a number. -/
def absolute : Builtin := fun arguments _ => do
  pure (.number (← (argument arguments 0).toNumber).abs)

/-- The functions on numbers. -/
def definitions : List Definition :=
  [define "Sum" .math "Sum of all numeric arguments or array elements" "Sum(1, 2, 3) → 6"
      [variadic "values" "number[]" "Numbers to sum"] "number" (ofNumbers total),
    define "Average" .math "Average of all numeric arguments" "Average(10, 20, 30) → 20"
      [variadic "values" "number[]" "Numbers to average"] "number" (ofNumbers mean),
    define "Min" .math "Minimum value" "Min(5, 3, 8) → 3"
      [variadic "values" "number[]" "Numbers to compare"] "number" (ofNumbers least),
    define "Max" .math "Maximum value" "Max(5, 3, 8) → 8"
      [variadic "values" "number[]" "Numbers to compare"] "number" (ofNumbers greatest),
    define "Round" .math "Round to specified decimal places" "Round(3.14159, 2) → 3.14"
      [required "value" "number" "Number to round",
        defaulted "decimals" "number" "Decimal places" "0"] "number" round,
    define "Abs" .math "Absolute value" "Abs(-5) → 5"
      [required "value" "number" "Number"] "number" absolute]

end ComputedFields.Function.Math
