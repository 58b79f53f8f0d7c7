import ComputedFields.Expr.Basic
import ComputedFields.Number.Numeral

/-!
# `ComputedFields.Proofs.Grammar` — what a formula is

Formulas are layered. A phrase of a layer is made from phrases of the next one, so that a tighter
operator never has a looser one for an operand unless parentheses stand around it; and a chain of
operators of one layer is read from the left, as only its left operand may be of the same layer.

    expression := comparison ['?' expression ':' expression]
    comparison := sum (comparing-operator sum)*
    sum        := product (('+' | '-') product)*
    product    := negation (('*' | '/' | '%') negation)*
    negation   := '-' negation | path
    path       := primary ('.' name)*
    primary    := number | text | mention | name | name '(' list ')' | '(' expression ')' | '[' list ']'
    list       := [expression (',' expression)*]

Nothing here depends on how formulas are read, and nothing limits how deep they nest.

* `Layer`, `Operator.layer` — the layers and their operators;
* `Separated` — the phrases of a list between their commas;
* `Derives` — the phrases of a layer with their trees.
-/

namespace ComputedFields

/-- The layers of the grammar, from the loosest to the tightest. -/
inductive Layer where
  | expression | comparison | sum | product | negation | path | primary
  deriving Repr, DecidableEq

/-- The layer of which a phrase is one of the given layer too, as it stands. -/
def Layer.next? : Layer → Option Layer
  | .expression => some .comparison
  | .comparison => some .sum
  | .sum => some .product
  | .product => some .negation
  | .negation => some .path
  | .path => some .primary
  | .primary => none

/-- The layer of the chains that an operator links. -/
def Operator.layer : Operator → Layer
  | .equal | .doubleEqual | .notEqual | .lessGreater => .comparison
  | .less | .greater | .lessEqual | .greaterEqual => .comparison
  | .add | .subtract => .sum
  | .multiply | .divide | .modulo => .product

/-- Token lists with a comma between each two of them. -/
inductive Separated : List (List Token) → List Token → Prop
  | nil : Separated [] []
  | one (tokens : List Token) : Separated [tokens] tokens
  | more {tokens second all : List Token} {others : List (List Token)} {p : Nat} :
    Separated (second :: others) all →
    Separated (tokens :: second :: others) (tokens ++ ⟨.mark .comma, p⟩ :: all)

/-- The phrases of a layer with the trees that the rules build. The parts of a list are given with
their trees, in order. -/
inductive Derives : Layer → List Token → Expr → Prop
  | next {layer next : Layer} {tokens : List Token} {e : Expr} :
    layer.next? = some next → Derives next tokens e → Derives layer tokens e
  | conditional {condition whenTrue whenFalse : List Token} {c a b : Expr} {p q : Nat} :
    Derives .comparison condition c → Derives .expression whenTrue a →
    Derives .expression whenFalse b →
    Derives .expression
      (condition ++ ⟨.mark .question, p⟩ :: (whenTrue ++ ⟨.mark .colon, q⟩ :: whenFalse))
      (.conditional p c a b)
  | binary {layer next : Layer} {op : Operator} {left right : List Token} {a b : Expr} {p : Nat} :
    op.layer = layer → layer.next? = some next → Derives layer left a → Derives next right b →
    Derives layer (left ++ ⟨.operator op, p⟩ :: right) (.binary p op a b)
  | negate {operand : List Token} {e : Expr} {p : Nat} :
    Derives .negation operand e →
    Derives .negation (⟨.operator .subtract, p⟩ :: operand) (.negate p e)
  | member {object : List Token} {e : Expr} {p q : Nat} {property : Text} :
    Derives .path object e →
    Derives .path (object ++ [⟨.mark .dot, p⟩, ⟨.name property, q⟩]) (.member p e property)
  | number (spelling : Text) (p : Nat) :
    Derives .primary [⟨.number spelling, p⟩] (.number p (Number.ofSpelling spelling))
  | text (contents : Text) (p : Nat) : Derives .primary [⟨.text contents, p⟩] (.text p contents)
  | mention (name : Text) (p : Nat) : Derives .primary [⟨.mention name, p⟩] (.mention p name)
  | field (name : Text) (p : Nat) : Derives .primary [⟨.name name, p⟩] (.field p name)
  | call {parts : List (List Token × Expr)} {list : List Token} {function : Text} {p q r : Nat} :
    (∀ part ∈ parts, Derives .expression part.1 part.2) → Separated (parts.map (·.1)) list →
    Derives .primary
      (⟨.name function, p⟩ :: ⟨.mark .openParen, q⟩ :: (list ++ [⟨.mark .closeParen, r⟩]))
      (.call p function (parts.map (·.2)))
  | parenthesis {inner : List Token} {e : Expr} {p q : Nat} :
    Derives .expression inner e →
    Derives .primary (⟨.mark .openParen, p⟩ :: (inner ++ [⟨.mark .closeParen, q⟩])) e
  | array {parts : List (List Token × Expr)} {list : List Token} {p q : Nat} :
    (∀ part ∈ parts, Derives .expression part.1 part.2) → Separated (parts.map (·.1)) list →
    Derives .primary (⟨.mark .openBracket, p⟩ :: (list ++ [⟨.mark .closeBracket, q⟩]))
      (.array p (parts.map (·.2)))

end ComputedFields
