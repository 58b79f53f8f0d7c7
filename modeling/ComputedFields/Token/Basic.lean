import ComputedFields.Text

/-!
# `ComputedFields.Token.Basic` — the lexical items of a formula

A token is a lexeme with the offset of its first byte. Operators keep the spelling that the source
uses: `=` and `==` are two operators of one meaning, and so are `!=` and `<>`.
-/

namespace ComputedFields

/-- The operators with two operands, one for each spelling. -/
inductive Operator where
  | add | subtract | multiply | divide | modulo
  | equal | doubleEqual | notEqual | lessGreater
  | less | greater | lessEqual | greaterEqual
  deriving Repr, DecidableEq

namespace Operator

/-- The spelling of an operator. -/
def spelling : Operator → Text
  | .add => utf8 "+"
  | .subtract => utf8 "-"
  | .multiply => utf8 "*"
  | .divide => utf8 "/"
  | .modulo => utf8 "%"
  | .equal => utf8 "="
  | .doubleEqual => utf8 "=="
  | .notEqual => utf8 "!="
  | .lessGreater => utf8 "<>"
  | .less => utf8 "<"
  | .greater => utf8 ">"
  | .lessEqual => utf8 "<="
  | .greaterEqual => utf8 ">="

/-- How tightly an operator binds: products before sums, sums before comparisons. -/
def precedence : Operator → Nat
  | .multiply | .divide | .modulo => 3
  | .add | .subtract => 2
  | _ => 1

/-- The operators that compare. -/
def compares (op : Operator) : Bool := op.precedence == 1

end Operator

/-- The punctuation that formulas use. -/
inductive Mark where
  | openParen | closeParen | openBracket | closeBracket | comma | dot | question | colon
  deriving Repr, DecidableEq

/-- The byte of a punctuation mark. -/
def Mark.byte : Mark → UInt8
  | .openParen => '('.toUInt8
  | .closeParen => ')'.toUInt8
  | .openBracket => '['.toUInt8
  | .closeBracket => ']'.toUInt8
  | .comma => ','.toUInt8
  | .dot => '.'.toUInt8
  | .question => '?'.toUInt8
  | .colon => ':'.toUInt8

/-- The content of a token: a number as it is spelled, a text without its quotes and escapes, a
name, an operator, a punctuation mark, a byte that no formula uses there, a mention without its `@`,
or the end of the source. -/
inductive Lexeme where
  | number (spelling : Text)
  | text (contents : Text)
  | name (name : Text)
  | operator (op : Operator)
  | mark (mark : Mark)
  | stray (byte : UInt8)
  | mention (name : Text)
  | eof
  deriving Repr, DecidableEq

namespace Lexeme

/-- The bytes that a lexeme stands for. -/
def bytes : Lexeme → Text
  | .number s | .text s | .name s | .mention s => s
  | .operator op => op.spelling
  | .mark m => [m.byte]
  | .stray b => [b]
  | .eof => []

/-- The name of a lexeme's class. -/
def className : Lexeme → String
  | .number _ => "number"
  | .text _ => "string"
  | .name _ => "identifier"
  | .operator _ => "operator"
  | .mark _ | .stray _ => "punctuation"
  | .mention _ => "mention"
  | .eof => "eof"

end Lexeme

/-- A lexeme and the offset of its first byte in the source. -/
structure Token where
  lexeme : Lexeme
  position : Nat
  deriving Repr, DecidableEq

end ComputedFields
