import ComputedFields.Number.Notation
import ComputedFields.Token.Basic
import ComputedFields.Value.Basic

/-!
# `ComputedFields.Fault` — why a formula fails

A fault is a cause. Its code and its message are functions of it, and where in the source it arose
is kept beside it in a `Failure`.

* `Misreading` — why a source is not a formula;
* `Fault` — why a formula has no value;
* `Failure` — a fault with the offset at which it arose, if that is known;
* `Repetition` — why a registry or a batch is refused.
-/

namespace ComputedFields

/-- The classes of faults. -/
inductive ErrorCode where
  | parseError | unknownFunction | invalidArguments | unknownReference | divisionByZero | typeError
  | circularReference | asyncError | timeout
  deriving Repr, DecidableEq

/-- The name of a class of faults in reports. -/
def ErrorCode.name : ErrorCode → String
  | .parseError => "PARSE_ERROR"
  | .unknownFunction => "UNKNOWN_FUNCTION"
  | .invalidArguments => "INVALID_ARGUMENTS"
  | .unknownReference => "UNKNOWN_REFERENCE"
  | .divisionByZero => "DIVISION_BY_ZERO"
  | .typeError => "TYPE_ERROR"
  | .circularReference => "CIRCULAR_REFERENCE"
  | .asyncError => "ASYNC_ERROR"
  | .timeout => "TIMEOUT"

/-- The codes that a name may stand for. -/
def ErrorCode.all : List ErrorCode :=
  [.parseError, .unknownFunction, .invalidArguments, .unknownReference, .divisionByZero, .typeError,
    .circularReference, .asyncError, .timeout]

/-- The text `s` between single quotes. -/
def inQuotes (s : Text) : Text := '\''.toUInt8 :: s ++ ['\''.toUInt8]

/-! ## Sources that are not formulas -/

/-- The constructs that a mark has to complete. -/
inductive Unclosed where
  | conditional | arguments | parenthesis | array
  deriving Repr, DecidableEq

/-- The mark that completes a construct. -/
def Unclosed.mark : Unclosed → Mark
  | .conditional => .colon
  | .arguments => .closeParen
  | .parenthesis => .closeParen
  | .array => .closeBracket

/-- What a completing mark is missed for. -/
def Unclosed.purpose : Unclosed → Text
  | .conditional => utf8 "in conditional expression"
  | .arguments => utf8 "to close argument list"
  | .parenthesis => utf8 "to close '('"
  | .array => utf8 "to close '['"

/-- Why a source is not a formula. -/
inductive Misreading where
  | empty
  | trailing (found : Text)
  | unclosed (construct : Unclosed)
  | tooDeep
  | noProperty
  | openText
  | unexpected (found : UInt8)
  | noOperand (before : Operator)
  | endOfFormula
  deriving Repr, DecidableEq

/-- The message for a source that is not a formula. -/
def Misreading.message : Misreading → Text
  | .empty => utf8 "Empty formula"
  | .trailing found => utf8 "Unexpected " ++ inQuotes found ++ utf8 " after end of expression"
  | .unclosed construct =>
    utf8 "Expected " ++ inQuotes [construct.mark.byte] ++ utf8 " " ++ construct.purpose
  | .tooDeep => utf8 "Expression nested too deeply"
  | .noProperty => utf8 "Expected property name after '.'"
  | .openText => utf8 "Unterminated string literal"
  | .unexpected found => utf8 "Unexpected " ++ inQuotes [found]
  | .noOperand op => utf8 "Expected operand before " ++ inQuotes op.spelling
  | .endOfFormula => utf8 "Unexpected end of formula"

/-- Why a source is not a formula, and the offset of the token at which that shows. -/
structure ParseError where
  cause : Misreading
  position : Nat
  deriving Repr, DecidableEq

/-! ## Formulas without a value -/

/-- Why a formula has no value. A function or a lookup that is not part of the engine may fail for a
reason of its own, which may come without words. -/
inductive Fault where
  | misread (cause : Misreading)
  | unknownReference (name : Text)
  | unknownFunction (name : Text)
  | argumentCount (function : Text) (least : Nat) (most : Option Nat) (got : Nat)
  | functionFailed (function : Text) (reason : Option Text)
  | textNotNumber (s : Text)
  | kindNotNumber (kind : Kind)
  | textNotDate (s : Text)
  | kindNotDate (kind : Kind)
  | dateOutOfRange (milliseconds : Float)
  | monthsOutOfRange (months : Float)
  | notComparable (left right : Kind)
  | divisionByZero
  | noLookup (mention : Text)
  | lookupTimedOut (mention : Text)
  | lookupFailed (mention : Text) (reason : Option Text)
  | circular (names : List Text)
  | foreign (code : ErrorCode) (message : Text)

namespace Fault

/-- The class of a fault. -/
def code : Fault → ErrorCode
  | .misread _ => .parseError
  | .unknownReference _ => .unknownReference
  | .unknownFunction _ => .unknownFunction
  | .argumentCount .. | .functionFailed .. => .invalidArguments
  | .textNotNumber _ | .kindNotNumber _ | .textNotDate _ | .kindNotDate _ => .typeError
  | .dateOutOfRange _ | .monthsOutOfRange _ | .notComparable .. => .typeError
  | .divisionByZero => .divisionByZero
  | .noLookup _ | .lookupFailed .. => .asyncError
  | .lookupTimedOut _ => .timeout
  | .circular _ => .circularReference
  | .foreign code _ => code

/-- How many arguments a function takes, in words. -/
def argumentRange (least : Nat) : Option Nat → Text
  | none => utf8 "at least " ++ Text.decimal least
  | some most =>
    if least = most then Text.decimal least
    else Text.decimal least ++ utf8 " to " ++ Text.decimal most

/-- A reason in words. -/
def reasonText (reason : Option Text) : Text := reason.getD (utf8 "unknown error")

/-- The whole message of a fault. -/
def fullMessage : Fault → Text
  | .misread cause => cause.message
  | .unknownReference name => utf8 "Unknown reference " ++ inQuotes name
  | .unknownFunction name => utf8 "Unknown function: " ++ name
  | .argumentCount function least most got =>
    function ++ utf8 " expects " ++ argumentRange least most ++ utf8 " argument(s), got "
      ++ Text.decimal got
  | .functionFailed function reason => function ++ utf8 ": " ++ reasonText reason
  | .textNotNumber s => utf8 "Cannot convert string \"" ++ s ++ utf8 "\" to number"
  | .kindNotNumber kind => utf8 "Cannot convert " ++ kind.name ++ utf8 " to number"
  | .textNotDate s => utf8 "Cannot convert string \"" ++ s ++ utf8 "\" to date"
  | .kindNotDate kind => utf8 "Cannot convert " ++ kind.name ++ utf8 " to date"
  | .dateOutOfRange x => utf8 "Date value " ++ Number.write x ++ utf8 " is out of range"
  | .monthsOutOfRange x => utf8 "DateAdd amount " ++ Number.write x ++ utf8 " is out of range"
  | .notComparable left right =>
    utf8 "Cannot compare " ++ left.name ++ utf8 " with " ++ right.name
  | .divisionByZero => utf8 "Division by zero"
  | .noLookup mention => utf8 "Mention @" ++ mention ++ utf8 " has no pending lookup"
  | .lookupTimedOut mention => utf8 "Timed out resolving @" ++ mention
  | .lookupFailed mention reason =>
    utf8 "Failed to resolve @" ++ mention ++ utf8 ": " ++ reasonText reason
  | .circular names =>
    utf8 "Circular reference among " ++ Text.join (utf8 ", ") (names.map inQuotes)
  | .foreign _ message => message

/-- The message of a fault as it is reported: it ends before its first zero byte, except that the
formulas of a circle are named in full. -/
def message : Fault → Text
  | .circular names => fullMessage (.circular names)
  | fault => fault.fullMessage.untilNul

end Fault

/-- A fault and the offset at which it arose, if that is known. -/
structure Failure where
  fault : Fault
  position : Option Nat := none

namespace Failure

/-- A fault at an offset. -/
def placed (fault : Fault) (position : Nat) : Failure := ⟨fault, some position⟩

/-- The failure, placed at an offset unless it has a place already. -/
def orAt (failure : Failure) (position : Nat) : Failure :=
  { failure with position := failure.position <|> some position }

/-- The message of a failure: that of its fault, followed by its place. -/
def message (failure : Failure) : Text :=
  match failure.position with
  | none => failure.fault.message
  | some p => failure.fault.message ++ utf8 " (at position " ++ Text.decimal p ++ utf8 ")"

/-- The failure of a source that is not a formula. -/
def ofParse (e : ParseError) : Failure := ⟨.misread e.cause, some e.position⟩

end Failure

/-! ## Names that are not distinct -/

/-- A name that two functions of a registry have, or two formulas of a batch. -/
inductive Repetition where
  | function (name : Text)
  | formula (name : Text)
  deriving Repr, DecidableEq

/-- The message for a repeated name, which ends before its first zero byte. -/
def Repetition.message : Repetition → Text
  | .function name => (utf8 "Duplicate function name: " ++ name).untilNul
  | .formula name => (utf8 "Duplicate formula name: " ++ name).untilNul

end ComputedFields
