import ComputedFields.Function.Arguments

/-!
# `ComputedFields.Function.Logic` — choices and tests

The arguments of a call are all evaluated before it, those that a choice does not take included.
-/

namespace ComputedFields.Function.Logic

/-- The second argument when the first counts as true, and the third otherwise. -/
def choose : Builtin := fun arguments _ =>
  pure (if (argument arguments 0).truthy then argument arguments 1 else argument arguments 2)

/-- All arguments count as true. -/
def all : Builtin := fun arguments _ => pure (.boolean (arguments.all Value.truthy))

/-- Some argument counts as true. -/
def any : Builtin := fun arguments _ => pure (.boolean (arguments.any Value.truthy))

/-- The argument counts as false. -/
def negation : Builtin := fun arguments _ => pure (.boolean !(argument arguments 0).truthy)

/-- Null, texts of blanks, and arrays and objects without contents are empty. -/
def empty : Value → Bool
  | .null => true
  | .text s => s.all Text.blank
  | .array items => items.isEmpty
  | .object entries => entries.isEmpty
  | _ => false

/-- The argument is empty. -/
def isEmpty : Builtin := fun arguments _ => pure (.boolean (empty (argument arguments 0)))

/-- Null and the text without bytes are passed over. -/
def passedOver : Value → Bool
  | .null => true
  | .text s => s.isEmpty
  | _ => false

/-- The first argument that is not passed over, or null. -/
def coalesce : Builtin := fun arguments _ =>
  pure ((arguments.find? fun v => !passedOver v).getD .null)

/-- The choices and tests. -/
def definitions : List Definition :=
  [define "If" .logic "Conditional expression" "If(status = \"done\", \"✓\", \"○\") → \"✓\""
      [required "condition" "boolean" "Condition to test", required "ifTrue" "any" "Value if true",
        required "ifFalse" "any" "Value if false"] "any" choose,
    define "And" .logic "Logical AND" "And(true, true) → true"
      [variadic "conditions" "boolean[]" "Conditions"] "boolean" all,
    define "Or" .logic "Logical OR" "Or(false, true) → true"
      [variadic "conditions" "boolean[]" "Conditions"] "boolean" any,
    define "Not" .logic "Logical NOT" "Not(false) → true"
      [required "value" "boolean" "Value to negate"] "boolean" negation,
    define "IsEmpty" .logic "Check if value is empty" "IsEmpty(\"\") → true"
      [required "value" "any" "Value to check"] "boolean" isEmpty,
    define "Coalesce" .logic "Return first non-empty value"
      "Coalesce(null, \"\", \"default\") → \"default\""
      [variadic "values" "any[]" "Values to check"] "any" coalesce]

end ComputedFields.Function.Logic
