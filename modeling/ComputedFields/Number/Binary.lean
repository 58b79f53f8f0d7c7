/-!
# `ComputedFields.Number.Binary` — a double as a whole number times a power of two

Every finite double is `± m · 2 ^ q` with whole `m` and `q`. What the engine needs beyond the
arithmetic of `Float` — rounding to a whole number, the remainder of a division — is computed on `m`
and `q` without error.

* `Binary.ofFloat` — the parts of a finite double;
* `truncate`, `roundHalfAway` — to whole numbers;
* `remainder` — what is left of `x` after taking away whole multiples of `y`.
-/

namespace ComputedFields.Number

/-- The number `± mantissa · 2 ^ exponent`. -/
structure Binary where
  negative : Bool
  mantissa : Nat
  exponent : Int
  deriving Repr, DecidableEq

namespace Binary

/-- The parts of a finite double, read off its bits: 52 of fraction, 11 of exponent, one of sign. -/
def ofFloat (x : Float) : Binary :=
  let bits := x.toBits.toNat
  let fraction : Nat := bits % Nat.pow 2 52
  let scale : Nat := bits / Nat.pow 2 52 % Nat.pow 2 11
  let negative := bits / Nat.pow 2 63 == 1
  if scale = 0 then ⟨negative, fraction, -1074⟩
  else ⟨negative, Nat.pow 2 52 + fraction, (scale : Int) - 1075⟩

/-- The whole part of the magnitude. -/
def whole (x : Binary) : Nat :=
  if 0 ≤ x.exponent then x.mantissa * Nat.pow 2 x.exponent.toNat
  else x.mantissa / Nat.pow 2 x.exponent.natAbs

/-- The whole number nearest to the magnitude, a half going up. -/
def nearest (x : Binary) : Nat :=
  if 0 ≤ x.exponent then x.mantissa * Nat.pow 2 x.exponent.toNat
  else (2 * x.mantissa / Nat.pow 2 x.exponent.natAbs + 1) / 2

/-- The magnitude `n` with the sign of the number. -/
def withSign (x : Binary) (n : Nat) : Int := if x.negative then -n else n

end Binary

/-- The double `2 ^ q`, for `q` from -1074 to 1023. -/
def powerOfTwo (q : Int) : Float :=
  if q < -1022 then Float.ofBits (UInt64.ofNat (Nat.pow 2 (q + 1074).toNat))
  else Float.ofBits (UInt64.ofNat ((q + 1023).toNat * Nat.pow 2 52))

/-- The magnitude `m` with the sign of `x`; it keeps the sign of a zero. -/
def signed (x : Binary) (m : Float) : Float := if x.negative then -m else m

/-- A finite double without its fraction. -/
def truncate (x : Float) : Int := (Binary.ofFloat x).withSign (Binary.ofFloat x).whole

/-- The whole number nearest to a finite double, a half going away from zero. -/
def roundHalfAway (x : Float) : Int := (Binary.ofFloat x).withSign (Binary.ofFloat x).nearest

/-- A double without its fraction, as a double; what is not finite stays. -/
def truncated (x : Float) : Float :=
  if x.isFinite then signed (Binary.ofFloat x) (Float.ofNat (Binary.ofFloat x).whole) else x

/-- `x` to the nearest whole number, a half going away from zero, as a double; what is not finite
stays. -/
def rounded (x : Float) : Float :=
  if x.isFinite then signed (Binary.ofFloat x) (Float.ofNat (Binary.ofFloat x).nearest) else x

/-- `x` rounded to `places` decimal places, a half going away from zero. -/
def roundedTo (x : Float) (places : Int) : Float :=
  if x.isFinite then
    let factor := Float.pow 10 (Float.ofInt places)
    rounded (x * factor) / factor
  else x

/-- What is left of `x` after taking away as many whole multiples of `y` as its magnitude holds. It
has the sign of `x`, and it is exact: on the finer of the two scales both are whole numbers, and the
remainder of these has no more digits than a double holds. -/
def remainder (x y : Float) : Float :=
  if !x.isFinite || y.isNaN || y == 0 then 0.0 / 0.0
  else if !y.isFinite then x
  else
    let a := Binary.ofFloat x
    let b := Binary.ofFloat y
    let q := min a.exponent b.exponent
    let m := a.mantissa * Nat.pow 2 (a.exponent - q).toNat
    let n := b.mantissa * Nat.pow 2 (b.exponent - q).toNat
    signed a (Float.ofNat (m % n) * powerOfTwo q)

end ComputedFields.Number
