import ComputedFields.Context
import ComputedFields.Fault

/-!
# `ComputedFields.Function.Definition` — functions that formulas may call

A function has a description for its users and an implementation. Implementations other than those
of the catalog may raise anything: a failure of a formula, an exception with words, or one without.

* `Definition.least`, `Definition.most` — how many arguments a function takes;
* `Definition.apply` — a call, with the number of its arguments checked;
* `Registry.ofList`, `Registry.find?` — functions by name, whose letter case is disregarded.
-/

namespace ComputedFields

/-- What code outside of the engine may raise: a failure, or an exception with or without words. -/
inductive Raised where
  | failure (failure : Failure)
  | described (reason : Text)
  | undescribed

/-- The failure for what was raised: a failure is passed on, and an exception is the reason of a
fault. -/
def Raised.toFailure (wrap : Option Text → Fault) : Raised → Failure
  | .failure f => f
  | .described reason => ⟨wrap (some reason.untilNul), none⟩
  | .undescribed => ⟨wrap none, none⟩

namespace Function

/-- The groups of functions. -/
inductive Category where
  | math | string | date | logic | aggregate | lookup | travel | reference
  deriving Repr, DecidableEq

namespace Category

/-- The name of a group. -/
def name : Category → String
  | .math => "math"
  | .string => "string"
  | .date => "date"
  | .logic => "logic"
  | .aggregate => "aggregate"
  | .lookup => "lookup"
  | .travel => "travel"
  | .reference => "reference"

/-- The groups. -/
def all : List Category :=
  [.math, .string, .date, .logic, .aggregate, .lookup, .travel, .reference]

/-- The group of a name. -/
def ofName? (name : Text) : Option Category := all.find? fun c => utf8 c.name == name

end Category

/-- A parameter of a function. -/
structure Parameter where
  name : String := ""
  type : String := ""
  description : String := ""
  required : Bool := true
  variadic : Bool := false
  default? : Option String := none
  deriving Repr

/-- A function on the arguments of a call. -/
abbrev Implementation := List Value → Context → Except Raised Value

/-- A function with what its users are told about it. -/
structure Definition where
  name : Text
  category : Category
  description : String := ""
  sample : String := ""
  parameters : List Parameter := []
  returns : String := ""
  deferred : Bool := false
  implementation : Implementation

namespace Definition

/-- The least number of arguments: one for each parameter that is required. -/
def least (d : Definition) : Nat := d.parameters.countP fun p => p.required && !p.variadic

/-- The greatest number of arguments; a variadic parameter takes any number. -/
def most (d : Definition) : Option Nat :=
  if d.parameters.any (·.variadic) then none else some d.parameters.length

/-- The function takes `n` arguments. -/
def accepts (d : Definition) (n : Nat) : Bool := d.least ≤ n && d.most.all (n ≤ ·)

/-- The value of a call. -/
def apply (d : Definition) (arguments : List Value) (context : Context) : Except Failure Value :=
  if d.accepts arguments.length then
    (d.implementation arguments context).mapError (·.toFailure (.functionFailed d.name))
  else .error ⟨.argumentCount d.name d.least d.most arguments.length, none⟩

end Definition

/-! ## Functions by name -/

/-- The functions that formulas may call, no two of one name. -/
structure Registry where
  definitions : List Definition
  distinct : ((definitions.map (·.name)).map Text.lower).Nodup

namespace Registry

/-- The registry of some functions, unless two of them have one name. -/
def ofList (definitions : List Definition) : Except Repetition Registry :=
  match h : Text.repeated? Text.lower [] (definitions.map (·.name)) with
  | some name => .error (.function name)
  | none => .ok ⟨definitions, (Text.repeated?_eq_none_iff.mp h).1⟩

/-- The function of a name. -/
def find? (registry : Registry) (name : Text) : Option Definition :=
  registry.definitions.find? fun d => Text.sameLetters d.name name

/-- The functions of a group; there are none in a group that does not exist. -/
def inCategory (registry : Registry) (category : Text) : List Definition :=
  match Category.ofName? category with
  | none => []
  | some c => registry.definitions.filter (·.category == c)

end Registry

end Function

end ComputedFields
