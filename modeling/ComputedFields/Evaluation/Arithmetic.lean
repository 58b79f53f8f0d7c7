import ComputedFields.Number.Binary
import ComputedFields.Value.Compare
import ComputedFields.Value.Json

/-!
# `ComputedFields.Evaluation.Arithmetic` — what operators do to values

* `Value.negate` — the minus;
* `Operator.apply` — the operators with two operands.
-/

namespace ComputedFields

/-- The negative of a value's number. -/
def Value.negate (v : Value) : Except Fault Value := do pure (.number (-(← v.toNumber)))

/-- Texts are put together, and a text with the other operand as it is displayed; other operands are
added as numbers. -/
def Value.add (a b : Value) : Except Fault Value :=
  if a.kind = .text ∨ b.kind = .text then .ok (.text (a.display ++ b.display))
  else do pure (.number ((← a.toNumber) + (← b.toNumber)))

namespace Operator

/-- A function of two numbers on values; the left operand is the first to fail. -/
def onNumbers (f : Float → Float → Float) (a b : Value) : Except Fault Value := do
  let x ← a.toNumber
  let y ← b.toNumber
  pure (.number (f x y))

/-- The same for functions that have no value when the right operand is zero. -/
def onDivisor (f : Float → Float → Float) (a b : Value) : Except Fault Value := do
  let x ← a.toNumber
  let y ← b.toNumber
  if y == 0 then .error .divisionByZero else pure (.number (f x y))

/-- A test of the order of two values. -/
def onOrder (test : Ordering → Bool) (a b : Value) : Except Fault Value := do
  pure (.boolean (test (← a.order b)))

/-- The value of an operator on two values. -/
def apply : Operator → Value → Value → Except Fault Value
  | .add, a, b => a.add b
  | .subtract, a, b => onNumbers (· - ·) a b
  | .multiply, a, b => onNumbers (· * ·) a b
  | .divide, a, b => onDivisor (· / ·) a b
  | .modulo, a, b => onDivisor Number.remainder a b
  | .equal, a, b | .doubleEqual, a, b => .ok (.boolean (a.looselyEqual b))
  | .notEqual, a, b | .lessGreater, a, b => .ok (.boolean !a.looselyEqual b)
  | .less, a, b => onOrder Ordering.isLT a b
  | .greater, a, b => onOrder Ordering.isGT a b
  | .lessEqual, a, b => onOrder Ordering.isLE a b
  | .greaterEqual, a, b => onOrder Ordering.isGE a b

end Operator

end ComputedFields
