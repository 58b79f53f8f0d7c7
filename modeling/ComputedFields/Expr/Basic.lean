import ComputedFields.Token.Basic

/-!
# `ComputedFields.Expr.Basic` — formulas as trees

Every node carries the offset of the token that makes it: a binary operator, the question mark of a
conditional, the point of a member, the minus of a negation, the bracket of an array, the name of a
call, and of a leaf the leaf itself.

* `Expr.position` — the offset of the root;
* `Expr.same` — equality of trees, offsets included.
-/

namespace ComputedFields

/-- A formula. -/
inductive Expr where
  | number (position : Nat) (value : Float)
  | text (position : Nat) (contents : Text)
  | field (position : Nat) (name : Text)
  | mention (position : Nat) (name : Text)
  | member (position : Nat) (object : Expr) (property : Text)
  | call (position : Nat) (function : Text) (arguments : List Expr)
  | negate (position : Nat) (operand : Expr)
  | binary (position : Nat) (op : Operator) (left right : Expr)
  | conditional (position : Nat) (condition whenTrue whenFalse : Expr)
  | array (position : Nat) (items : List Expr)
  deriving Inhabited

namespace Expr

/-- The offset of the token that makes the root. -/
def position : Expr → Nat
  | .number p _ | .text p _ | .field p _ | .mention p _ | .member p _ _ | .call p _ _ => p
  | .negate p _ | .binary p _ _ _ | .conditional p _ _ _ | .array p _ => p

mutual

/-- Equality of trees with their offsets; numbers are equal as doubles. -/
def same : Expr → Expr → Bool
  | .number p x, .number q y => p == q && x == y
  | .text p s, .text q t => p == q && s == t
  | .field p s, .field q t => p == q && s == t
  | .mention p s, .mention q t => p == q && s == t
  | .member p a s, .member q b t => p == q && s == t && a.same b
  | .call p s xs, .call q t ys => p == q && s == t && sameItems xs ys
  | .negate p a, .negate q b => p == q && a.same b
  | .binary p op a b, .binary q op' a' b' => p == q && op == op' && a.same a' && b.same b'
  | .conditional p a b c, .conditional q a' b' c' =>
    p == q && a.same a' && b.same b' && c.same c'
  | .array p xs, .array q ys => p == q && sameItems xs ys
  | _, _ => false

/-- Equality of lists of trees, one by one. -/
def sameItems : List Expr → List Expr → Bool
  | [], [] => true
  | x :: xs, y :: ys => x.same y && sameItems xs ys
  | _, _ => false

end

end Expr

end ComputedFields
