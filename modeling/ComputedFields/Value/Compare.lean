import ComputedFields.Value.Coerce

/-!
# `ComputedFields.Value.Compare` — the comparisons of formulas

* `looselyEqual` — equality that crosses kinds: a number equals a truth value or a text that stand
  for it, and an instant equals a text that writes it;
* `order` — the order of texts by their bytes, of instants in time, and of all else as numbers.
-/

namespace ComputedFields.Value

/-- The number that a value stands for in a comparison; a text has to be a number as a whole. -/
def numeric? : Value → Option Float
  | .number x => some x
  | .boolean b => some (numberOfBool b)
  | .text s => Number.readWhole s
  | _ => none

/-- An instant equals a text that writes it. -/
def instantEquals (t : Instant) : Value → Bool
  | .text s => Calendar.readIso s == some t
  | _ => false

/-- The equality of formulas. Values of one kind are equal when they are the same. -/
def looselyEqual (a b : Value) : Bool :=
  if a.kind = b.kind then a.same b
  else
    match a, b with
    | .date t, other => instantEquals t other
    | other, .date t => instantEquals t other
    | a, b =>
      match a.numeric?, b.numeric? with
      | some x, some y => x == y
      | _, _ => false

/-- The order of two doubles: neither is less when one is a NaN. -/
def orderNumbers (x y : Float) : Ordering := if x < y then .lt else if y < x then .gt else .eq

/-- The order of two values of formulas. -/
def order (a b : Value) : Except Fault Ordering :=
  match a, b with
  | .text s, .text t => .ok (if s < t then .lt else if t < s then .gt else .eq)
  | .date _, .date _ | .date _, .text _ | .text _, .date _ => do
    pure (compare (← a.toInstant) (← b.toInstant))
  | .number _, .number _ | .number _, .boolean _ | .number _, .text _
  | .boolean _, .number _ | .boolean _, .boolean _ | .boolean _, .text _
  | .text _, .number _ | .text _, .boolean _ => do
    pure (orderNumbers (← a.toNumber) (← b.toNumber))
  | _, _ => .error (.notComparable a.kind b.kind)

end ComputedFields.Value
