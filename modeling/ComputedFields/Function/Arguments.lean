import ComputedFields.Function.Definition
import ComputedFields.Value.Coerce
import ComputedFields.Value.Json

/-!
# `ComputedFields.Function.Arguments` — how the catalog's functions read their arguments

The functions of the catalog fail with faults of the engine alone. An argument that is not given is
null.
-/

namespace ComputedFields.Function

/-- A function of the catalog: what it may raise is a fault. -/
abbrev Builtin := List Value → Context → Except Fault Value

/-- A function of the catalog as one that may raise anything. -/
def Builtin.implementation (f : Builtin) : Implementation := fun arguments context =>
  (f arguments context).mapError fun fault => .failure ⟨fault, none⟩

/-- The argument at an index, or null. -/
def argument (arguments : List Value) (i : Nat) : Value := (arguments[i]?).getD .null

/-- The text of the argument at an index. -/
def textArgument (arguments : List Value) (i : Nat) : Text := (argument arguments i).display

/-- The text of the argument at an index, or another one when the argument counts as false. -/
def textArgumentOr (arguments : List Value) (i : Nat) (other : Text) : Text :=
  if (argument arguments i).truthy then textArgument arguments i else other

/-- What an argument contributes to a list: an array its items, null nothing, all else itself. -/
def contribution : Value → List Value
  | .array items => items
  | .null => []
  | v => [v]

/-- The numbers of all arguments and of the items of those that are arrays. -/
def numbers (arguments : List Value) : Except Fault (List Float) :=
  (arguments.flatMap contribution).mapM Value.toNumber

/-- The value of a natural number. -/
def count (n : Nat) : Value := .number (Float.ofNat n)

/-! ## Parameters -/

/-- A parameter that is required. -/
def required (name type description : String) : Parameter := { name, type, description }

/-- A parameter that may be missing. -/
def optional (name type description : String) : Parameter :=
  { name, type, description, required := false }

/-- A parameter that stands for a given text when it is missing. -/
def defaulted (name type description default : String) : Parameter :=
  { name, type, description, required := false, default? := some default }

/-- A parameter for any number of arguments. -/
def variadic (name type description : String) : Parameter :=
  { name, type, description, variadic := true }

/-- A function of the catalog with its description. -/
def define (name : String) (category : Category) (description sample : String)
    (parameters : List Parameter) (returns : String) (f : Builtin) : Definition :=
  { name := utf8 name, category, description, sample, parameters, returns
    implementation := f.implementation }

end ComputedFields.Function
