import ComputedFields.Expr.Basic

/-!
# `ComputedFields.Expr.References` — the names that a formula reads

* `fieldNames`, `mentionNames` — every occurrence, in the order of the source;
* `fields`, `mentions` — the names without repetition, each where it occurs first;
* `dependencies` — fields, then mentions with their `@`.
-/

namespace ComputedFields.Expr

mutual

/-- The fields of a formula, at each occurrence. Of a member only its root is read. -/
def fieldNames : Expr → List Text
  | .field _ name => [name]
  | .number .. | .text .. | .mention .. => []
  | .member _ object _ => object.fieldNames
  | .call _ _ arguments => fieldNamesOfAll arguments
  | .negate _ operand => operand.fieldNames
  | .binary _ _ left right => left.fieldNames ++ right.fieldNames
  | .conditional _ c a b => c.fieldNames ++ a.fieldNames ++ b.fieldNames
  | .array _ items => fieldNamesOfAll items

/-- The fields of several formulas. -/
def fieldNamesOfAll : List Expr → List Text
  | [] => []
  | e :: rest => e.fieldNames ++ fieldNamesOfAll rest

end

mutual

/-- The mentions of a formula, at each occurrence. -/
def mentionNames : Expr → List Text
  | .mention _ name => [name]
  | .number .. | .text .. | .field .. => []
  | .member _ object _ => object.mentionNames
  | .call _ _ arguments => mentionNamesOfAll arguments
  | .negate _ operand => operand.mentionNames
  | .binary _ _ left right => left.mentionNames ++ right.mentionNames
  | .conditional _ c a b => c.mentionNames ++ a.mentionNames ++ b.mentionNames
  | .array _ items => mentionNamesOfAll items

/-- The mentions of several formulas. -/
def mentionNamesOfAll : List Expr → List Text
  | [] => []
  | e :: rest => e.mentionNames ++ mentionNamesOfAll rest

end

/-- The fields that a formula reads. -/
def fields (e : Expr) : List Text := e.fieldNames.eraseDups

/-- The mentions that a formula reads. -/
def mentions (e : Expr) : List Text := e.mentionNames.eraseDups

/-- The mentions that a formula reads, with their `@`. -/
def mentionDependencies (e : Expr) : List Text := e.mentions.map ('@'.toUInt8 :: ·)

/-- All that a formula reads. -/
def dependencies (e : Expr) : List Text := e.fields ++ e.mentionDependencies

end ComputedFields.Expr
