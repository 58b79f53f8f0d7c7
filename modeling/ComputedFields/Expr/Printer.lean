import ComputedFields.Expr.Basic
import ComputedFields.Value.Json

/-!
# `ComputedFields.Expr.Printer` — formulas as s-expressions

A tree is written without its offsets: leaves as themselves, a text as a JSON string, an array
between brackets, and every other node between parentheses behind a word for what it is.
-/

namespace ComputedFields.Expr

/-- Parts with a space between each two of them. -/
def spaced (parts : List Text) : Text := Text.join [' '.toUInt8] parts

/-- Parts between parentheses. -/
def form (parts : List Text) : Text := '('.toUInt8 :: spaced parts ++ [')'.toUInt8]

mutual

/-- A tree as an s-expression. -/
def render : Expr → Text
  | .number _ x => Number.write x
  | .text _ s => s.json
  | .field _ name => name
  | .mention _ name => '@'.toUInt8 :: name
  | .member _ object property => form [utf8 ".", object.render, property]
  | .call _ function arguments => form (utf8 "call" :: function :: renderItems arguments)
  | .negate _ operand => form [utf8 "neg", operand.render]
  | .binary _ op left right => form [op.spelling, left.render, right.render]
  | .conditional _ c a b => form [utf8 "?", c.render, a.render, b.render]
  | .array _ items => '['.toUInt8 :: spaced (renderItems items) ++ [']'.toUInt8]

/-- Trees as s-expressions, one by one. -/
def renderItems : List Expr → List Text
  | [] => []
  | e :: rest => e.render :: renderItems rest

end

end ComputedFields.Expr
