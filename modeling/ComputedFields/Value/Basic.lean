import ComputedFields.Calendar.Civil
import ComputedFields.Table

/-!
# `ComputedFields.Value.Basic` — the values of formulas

A value is null, a truth value, a double, a text, an instant, an array or an object. An object's
entries are a `Table`.

* `Kind`, `Value.kind` — the seven kinds and their names;
* `Value.same` — equality of kind and contents;
* `Value.truthy` — what counts as true.
-/

namespace ComputedFields

/-- A value of a formula. -/
inductive Value where
  | null
  | boolean (b : Bool)
  | number (x : Float)
  | text (s : Text)
  | date (t : Instant)
  | array (items : List Value)
  | object (entries : List (Text × Value))
  deriving Inhabited

/-! ## Kinds -/

/-- The kinds of values. -/
inductive Kind where
  | null | boolean | number | text | date | array | object
  deriving Repr, DecidableEq

/-- The name of a kind in messages and reports. -/
def Kind.name : Kind → Text
  | .null => utf8 "null"
  | .boolean => utf8 "boolean"
  | .number => utf8 "number"
  | .text => utf8 "string"
  | .date => utf8 "date"
  | .array => utf8 "array"
  | .object => utf8 "object"

namespace Value

/-- The kind of a value. -/
def kind : Value → Kind
  | .null => .null
  | .boolean _ => .boolean
  | .number _ => .number
  | .text _ => .text
  | .date _ => .date
  | .array _ => .array
  | .object _ => .object

/-- The value of a key of an object; other values have no keys. -/
def find? (key : Text) : Value → Option Value
  | .object entries => Table.find? key entries
  | _ => none

/-! ## Equality -/

mutual

/-- Equality of kind and contents. Numbers are equal as doubles, so that the two zeros are equal and
a NaN differs from itself. -/
def same : Value → Value → Bool
  | .null, .null => true
  | .boolean a, .boolean b => a == b
  | .number x, .number y => x == y
  | .text s, .text t => s == t
  | .date s, .date t => s == t
  | .array xs, .array ys => sameItems xs ys
  | .object xs, .object ys => sameEntries xs ys
  | _, _ => false

/-- Equality of arrays, item by item. -/
def sameItems : List Value → List Value → Bool
  | [], [] => true
  | x :: xs, y :: ys => x.same y && sameItems xs ys
  | _, _ => false

/-- Equality of objects, entry by entry. -/
def sameEntries : List (Text × Value) → List (Text × Value) → Bool
  | [], [] => true
  | (k, x) :: xs, (l, y) :: ys => k == l && x.same y && sameEntries xs ys
  | _, _ => false

end

/-- Null, false, the zeros, NaN and the empty text count as false; all else counts as true. -/
def truthy : Value → Bool
  | .null => false
  | .boolean b => b
  | .number x => x != 0 && !x.isNaN
  | .text s => !s.isEmpty
  | _ => true

end Value

end ComputedFields
