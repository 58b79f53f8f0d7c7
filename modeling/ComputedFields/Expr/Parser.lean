import ComputedFields.Expr.Basic
import ComputedFields.Fault
import ComputedFields.Number.Numeral
import ComputedFields.Token.Lexer

/-!
# `ComputedFields.Expr.Parser` — reading formulas

A formula is a condition with two branches, or a comparison. Comparisons, sums and products are
chains of operators from the left; their operands are negations, members and primaries. At most 256
constructs may be open at once: an expression, a minus and every operator and point of a chain count
as one each, a chain for as long as it goes on.

The parsers that may still open `n + 1` constructs are made from those that may open `n`, in a
`Level`; with no construct left, whatever would open one fails.

* `Level.ofBelow` — the parsers of one level from those of the level below;
* `parse` — the formula of a source, or the first token at which there is none.
-/

namespace ComputedFields

namespace Parser

/-- A parser takes tokens from the front of a list. -/
abbrev Step (α : Type) := List Token → Except ParseError (α × List Token)

/-- The parsers that may open a given number of constructs. -/
structure Level where
  /-- An expression. -/
  expression : Step Expr
  /-- Operands joined by operators of at least the given precedence. -/
  chain : Nat → Step Expr
  /-- The rest of such a chain after an operand. -/
  links : Nat → Expr → Step Expr
  /-- An operand. -/
  operand : Step Expr
  /-- The properties after a value. -/
  members : Expr → Step Expr

variable (stop : Nat)

/-- The offset of the next token, or that of the end of the source. -/
def position : List Token → Nat
  | [] => stop
  | token :: _ => token.position

/-- Failure at the next token. -/
def fail {α : Type} (cause : Misreading) (tokens : List Token) : Except ParseError α :=
  .error ⟨cause, position stop tokens⟩

/-- The tokens after the mark that completes a construct. -/
def close (construct : Unclosed) (tokens : List Token) : Except ParseError (List Token) :=
  match tokens with
  | ⟨.mark m, _⟩ :: rest =>
    if m = construct.mark then .ok rest else fail stop (.unclosed construct) tokens
  | _ => fail stop (.unclosed construct) tokens

/-- At most `n` expressions with commas between them, up to the mark that completes them. As each
takes a token, more than there are tokens are never needed. -/
def itemsFrom (expression : Step Expr) (construct : Unclosed) : Nat → Step (List Expr)
  | 0, tokens => fail stop (.unclosed construct) tokens
  | n + 1, tokens => do
    let (e, tokens) ← expression tokens
    match tokens with
    | ⟨.mark .comma, _⟩ :: tokens =>
      let (rest, tokens) ← itemsFrom expression construct n tokens
      pure (e :: rest, tokens)
    | _ =>
      let tokens ← close stop construct tokens
      pure ([e], tokens)

/-- Expressions with commas between them, possibly none, up to the mark that completes them. -/
def items (expression : Step Expr) (construct : Unclosed) : Step (List Expr)
  | tokens =>
    match close stop construct tokens with
    | .ok rest => .ok ([], rest)
    | .error _ => itemsFrom stop expression construct (tokens.length + 1) tokens

/-- A literal, a name, a call, an expression in parentheses or an array. -/
def primary (expression : Step Expr) : Step Expr
  | ⟨.number spelling, p⟩ :: rest => .ok (.number p (Number.ofSpelling spelling), rest)
  | ⟨.text contents, p⟩ :: rest => .ok (.text p contents, rest)
  | ⟨.mention name, p⟩ :: rest => .ok (.mention p name, rest)
  | ⟨.name function, p⟩ :: ⟨.mark .openParen, _⟩ :: rest => do
    let (arguments, rest) ← items stop expression .arguments rest
    pure (.call p function arguments, rest)
  | ⟨.name name, p⟩ :: rest => .ok (.field p name, rest)
  | ⟨.mark .openParen, _⟩ :: rest => do
    let (e, rest) ← expression rest
    pure (e, ← close stop .parenthesis rest)
  | ⟨.mark .openBracket, p⟩ :: rest => do
    let (elements, rest) ← items stop expression .array rest
    pure (.array p elements, rest)
  | ⟨.mark m, p⟩ :: _ => .error ⟨.unexpected m.byte, p⟩
  | ⟨.stray b, p⟩ :: _ =>
    .error ⟨if b == '"'.toUInt8 || b == '\''.toUInt8 then .openText else .unexpected b, p⟩
  | ⟨.operator op, p⟩ :: _ => .error ⟨.noOperand op, p⟩
  | ⟨.eof, p⟩ :: _ => .error ⟨.endOfFormula, p⟩
  | [] => .error ⟨.endOfFormula, stop⟩

/-- A condition, and its branches when a question mark follows. -/
def conditional (branch condition : Step Expr) : Step Expr
  | tokens => do
    let (c, tokens) ← condition tokens
    match tokens with
    | ⟨.mark .question, p⟩ :: tokens =>
      let (a, tokens) ← branch tokens
      let tokens ← close stop .conditional tokens
      let (b, tokens) ← branch tokens
      pure (.conditional p c a b, tokens)
    | _ => pure (c, tokens)

/-- The properties after a value: each point opens a construct. -/
def membersOf (below : Option Level) (object : Expr) : Step Expr
  | ⟨.mark .dot, p⟩ :: rest =>
    match below with
    | none => .error ⟨.tooDeep, p⟩
    | some level =>
      match rest with
      | ⟨.name property, _⟩ :: rest => level.members (.member p object property) rest
      | _ => fail stop .noProperty rest
  | tokens => .ok (object, tokens)

/-- A minus, which opens a construct, or a primary with its properties. -/
def operandOf (below : Option Level) (expression : Step Expr) : Step Expr
  | ⟨.operator .subtract, p⟩ :: rest =>
    match below with
    | none => .error ⟨.tooDeep, p⟩
    | some level => do
      let (e, rest) ← level.operand rest
      pure (.negate p e, rest)
  | tokens => do
    let (e, rest) ← primary stop expression tokens
    membersOf stop below e rest

/-- The rest of a chain: each operator opens a construct, which stays open until the chain ends. The
right operand is a chain of tighter operators. -/
def linksOf (below : Option Level) (least : Nat) (left : Expr) : Step Expr
  | tokens@(⟨.operator op, p⟩ :: rest) =>
    if op.precedence < least then .ok (left, tokens)
    else
      match below with
      | none => .error ⟨.tooDeep, p⟩
      | some level => do
        let (right, rest) ← level.chain (op.precedence + 1) rest
        level.links least (.binary p op left right) rest
  | tokens => .ok (left, tokens)

/-- An expression opens a construct. -/
def expressionOf (below : Option Level) : Step Expr :=
  match below with
  | none => fail stop .tooDeep
  | some level => conditional stop level.expression (level.chain 1)

/-- The parsers of one level from those of the level below, if there is one. -/
def Level.ofBelow (below : Option Level) : Level :=
  let expression := expressionOf stop below
  let operand := operandOf stop below expression
  let links := linksOf below
  { expression, operand, links
    chain := fun least tokens => do
      let (e, rest) ← operand tokens
      links least e rest
    members := membersOf stop below }

/-- The parsers that may open `n` constructs. -/
def level : Nat → Level
  | 0 => Level.ofBelow stop none
  | n + 1 => Level.ofBelow stop (some (level n))

/-- The greatest number of constructs that may be open at once. -/
def depth : Nat := 256

/-- The formula that all of some tokens make up. -/
def formula (tokens : List Token) : Except ParseError Expr :=
  match tokens with
  | [] => .error ⟨.empty, stop⟩
  | tokens => do
    let (e, rest) ← (level stop depth).expression tokens
    match rest with
    | [] => .ok e
    | token :: _ => .error ⟨.trailing token.lexeme.bytes, token.position⟩

end Parser

/-- The formula of a source. -/
def parse (source : Text) : Except ParseError Expr :=
  Parser.formula source.length (Token.scan source)

end ComputedFields
