import ComputedFields.Evaluation.Arithmetic
import ComputedFields.Expr.References
import ComputedFields.Function.Definition

/-!
# `ComputedFields.Evaluation.Walk` — the value of a tree

A tree is evaluated from the left and from the leaves, and the first failure ends it. All operands
of an operator and all arguments of a call are evaluated; of a conditional only the branch that is
taken. A failure without a place gets the offset of the node at which it arises.
-/

namespace ComputedFields

/-- What a tree is evaluated in: a context with the functions it may call, what its mentions find,
and whether a name that is no field is a failure or stands for itself. -/
structure Environment where
  context : Context
  registry : Function.Registry
  strict : Bool
  mention : Text → Except Failure Value

/-- A result whose failure gets an offset, unless it has one. -/
def located {α : Type} (position : Nat) (result : Except Failure α) : Except Failure α :=
  result.mapError (·.orAt position)

/-- A result whose fault arose at an offset. -/
def faultAt {α : Type} (position : Nat) (result : Except Fault α) : Except Failure α :=
  result.mapError fun fault => .placed fault position

/-- A property of an object: its own, or else that of its `properties`. Other values have none. -/
def Value.property (name : Text) (v : Value) : Value :=
  ((v.find? name) <|> (v.find? (utf8 "properties")).bind (Value.find? name)).getD .null

namespace Environment

/-- The value of a field; a name that is no field stands for itself, or is a fault in strict mode.
-/
def field (env : Environment) (name : Text) : Except Fault Value :=
  match Table.find? name env.context.fields with
  | some v => .ok v
  | none => if env.strict then .error (.unknownReference name) else .ok (.text name)

end Environment

namespace Expr

mutual

/-- The value of a tree. -/
def eval (env : Environment) : Expr → Except Failure Value
  | .number _ x => .ok (.number x)
  | .text _ s => .ok (.text s)
  | .field p name => faultAt p (env.field name)
  | .mention p name => located p (env.mention name)
  | .member _ object property => do
    let v ← object.eval env
    pure (v.property property)
  | .call p function arguments =>
    match env.registry.find? function with
    | none => .error (.placed (.unknownFunction function) p)
    | some d => do
      let vs ← evalAll env arguments
      located p (d.apply vs env.context)
  | .negate p operand => do
    let v ← operand.eval env
    faultAt p v.negate
  | .binary p op left right => do
    let v ← left.eval env
    let w ← right.eval env
    faultAt p (op.apply v w)
  | .conditional _ condition whenTrue whenFalse => do
    let v ← condition.eval env
    if v.truthy then whenTrue.eval env else whenFalse.eval env
  | .array _ items => do
    let vs ← evalAll env items
    pure (.array vs)

/-- The values of trees, from the left. -/
def evalAll (env : Environment) : List Expr → Except Failure (List Value)
  | [] => .ok []
  | e :: rest => do
    let v ← e.eval env
    let vs ← evalAll env rest
    pure (v :: vs)

end

end Expr

end ComputedFields
