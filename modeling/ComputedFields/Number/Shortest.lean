import ComputedFields.Number.Binary

/-!
# `ComputedFields.Number.Shortest` — the fewest decimal digits that identify a double

A decimal identifies a double when it lies in the interval of reals that round to it. On the grids
of multiples of `10 ^ k`, from the coarsest one that is not above the double downwards, the first
one with a point in that interval has the fewest digits; of two such points the nearer one is taken,
and of two at equal distance the one with an even last digit.
-/

namespace ComputedFields.Number

/-- The decimal `coefficient · 10 ^ exponent`. -/
structure Decimal where
  coefficient : Nat
  exponent : Int
  deriving Repr, DecidableEq

namespace Decimal

/-- The same decimal without trailing zeros in its coefficient, of which at most `n` are taken. -/
def strip : Nat → Decimal → Decimal
  | 0, d => d
  | n + 1, d =>
    if d.coefficient ≠ 0 ∧ d.coefficient % 10 = 0 then strip n ⟨d.coefficient / 10, d.exponent + 1⟩
    else d

end Decimal

/-- A positive quotient of whole numbers with the interval of the reals that round to it. All of
them are over one denominator, and the ends belong to the interval or not together. -/
structure Rounding where
  lower : Nat
  value : Nat
  upper : Nat
  denominator : Nat
  closed : Bool
  deriving Repr

namespace Rounding

/-- The interval of a positive finite double `m · 2 ^ q`. Its ends lie half way to the neighbours;
the neighbour below a power of two is only half as far away. The ends belong to it when `m` is even.
-/
def ofBinary (x : Binary) : Rounding :=
  let up := Nat.pow 2 (x.exponent - 2).toNat
  let below := if x.mantissa = Nat.pow 2 52 ∧ -1074 < x.exponent then 1 else 2
  ⟨(4 * x.mantissa - below) * up, 4 * x.mantissa * up, (4 * x.mantissa + 2) * up,
    Nat.pow 2 (2 - x.exponent).toNat, x.mantissa % 2 == 0⟩

/-- The multiple `c · 10 ^ k` lies in the interval. -/
def holds (r : Rounding) (c : Nat) (k : Int) : Bool :=
  let n := c * Nat.pow 10 k.toNat * r.denominator
  let scale := Nat.pow 10 k.natAbs
  let d := if k < 0 then scale else 1
  if r.closed then r.lower * d ≤ n && n ≤ r.upper * d else r.lower * d < n && n < r.upper * d

/-- The multiple of `10 ^ k` that is taken for the quotient, when one of the two next to it lies in
the interval. -/
def onGrid (r : Rounding) (k : Int) : Option Decimal :=
  let n := r.value * Nat.pow 10 (-k).toNat
  let d := r.denominator * Nat.pow 10 k.toNat
  let c := n / d
  let rest := n % d
  match r.holds c k, r.holds (c + 1) k with
  | false, false => none
  | true, false => some ⟨c, k⟩
  | false, true => some ⟨c + 1, k⟩
  | true, true =>
    if 2 * rest < d || (2 * rest == d && c % 2 == 0) then some ⟨c, k⟩ else some ⟨c + 1, k⟩

/-- The first hit on the grids `10 ^ k`, `10 ^ (k - 1)`, …, of which `n` are tried. -/
def search (r : Rounding) : Nat → Int → Decimal
  | 0, _ => ⟨0, 0⟩
  | n + 1, k => (r.onGrid k).getD (r.search n (k - 1))

/-- The quotient is below `10 ^ k`. -/
def below (r : Rounding) (k : Int) : Bool :=
  r.value * Nat.pow 10 (-k).toNat < r.denominator * Nat.pow 10 k.toNat

/-- The greatest power of ten that is not above the quotient, searched downwards from `10 ^ k` in at
most `n` steps. -/
def leading (r : Rounding) : Nat → Int → Int
  | 0, k => k
  | n + 1, k => if r.below k then r.leading n (k - 1) else k

end Rounding

/-- The shortest decimal that identifies a nonzero finite double's magnitude. A double has at most
17 digits, and its binary logarithm tells the first of them to within a few places. -/
def shortest (x : Binary) : Decimal :=
  let r := Rounding.ofBinary x
  let estimate := ((Nat.log2 x.mantissa : Int) + 1 + x.exponent) * 30103 / 100000 + 1
  (r.search 18 (r.leading 5 estimate)).strip 20

end ComputedFields.Number
