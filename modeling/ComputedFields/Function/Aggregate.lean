import ComputedFields.Function.Arguments
import ComputedFields.Number.Numeral

/-!
# `ComputedFields.Function.Aggregate` — functions on collections of records

A collection is an array, or the word `siblings` for the records beside the block. A record is an
object that has its fields in an object under `fields`, in itself, or in both.
-/

namespace ComputedFields.Function.Aggregate

/-- The items of a collection. A value that is no collection is its only item, and null has none. -/
def collection (context : Context) : Value → List Value
  | .text s => if s = utf8 "siblings" then context.siblings else [.text s]
  | .array items => items
  | .null => []
  | v => [v]

/-- A record's field among those under `fields`. -/
def inner? (name : Text) (item : Value) : Option Value :=
  (item.find? (utf8 "fields")).bind (Value.find? name)

/-- A record's field, those under `fields` first. -/
def recordField? (name : Text) (item : Value) : Option Value :=
  inner? name item <|> item.find? name

/-- One of the record's two fields of a name has the value that is wanted. -/
def hasField (name : Text) (wanted : Value) (item : Value) : Bool :=
  (inner? name item).any (·.same wanted) || (item.find? name).any (·.same wanted)

/-- The items of the first argument; with a second argument only those in which the field that it
names has the value of the third. -/
def selected (arguments : List Value) (context : Context) : List Value :=
  let items := collection context (argument arguments 0)
  if arguments.length < 2 then items
  else items.filter (hasField (textArgument arguments 1) (argument arguments 2))

/-- The number of selected items. -/
def countSelected : Builtin := fun arguments context =>
  pure (count (selected arguments context).length)

/-- The selected items. -/
def filter : Builtin := fun arguments context => pure (.array (selected arguments context))

/-- What a field adds to a sum: numbers, and texts that start with a number. -/
def addend? : Value → Option Float
  | .number x => some x
  | .text s =>
    match Number.read s with
    | some (x, _) => if x.isNaN then none else some x
    | none => none
  | _ => none

/-- The sum of a field over the items of a collection. -/
def sumField : Builtin := fun arguments context =>
  let name := textArgument arguments 1
  let items := collection context (argument arguments 0)
  let addends := items.filterMap fun item => (recordField? name item).bind addend?
  pure (.number (addends.foldl (· + ·) 0))

/-- The functions on collections. -/
def definitions : List Definition :=
  [define "Count" .aggregate "Count items matching a filter"
      "Count(siblings, \"status\", \"done\")"
      [required "collection" "array" "Items to count",
        optional "field" "string" "Field to filter on", optional "value" "any" "Value to match"]
      "number" countSelected,
    define "SumField" .aggregate "Sum a specific field across items"
      "SumField(siblings, \"amount\")"
      [required "collection" "array" "Items to sum", required "field" "string" "Field to sum"]
      "number" sumField,
    define "Filter" .aggregate "Filter items by field value"
      "Filter(siblings, \"status\", \"done\")"
      [required "collection" "array" "Items to filter", required "field" "string" "Field to match",
        required "value" "any" "Value to match"] "array" filter]

end ComputedFields.Function.Aggregate
