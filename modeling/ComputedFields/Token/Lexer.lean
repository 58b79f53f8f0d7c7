import ComputedFields.Token.Basic

/-!
# `ComputedFields.Token.Lexer` — the tokens of a source

Every byte string has tokens. At each byte that is not blank a lexeme starts, and it takes as many
of the bytes after it as it can. A byte that starts no lexeme is a token of its own, and so is the
quote of a text that is not closed: the bytes after that quote are read as if it were not there.

* `Lexeme.start` — the lexeme that starts with a byte, and how many bytes after it it takes;
* `Token.scan` — the tokens of a source;
* `tokenize` — the same with the end of the source as the last token.
-/

namespace ComputedFields

open Text

namespace Lexeme

/-- The byte that an escape stands for: `\n` and `\t` are a line feed and a tab, and any other byte
after a backslash stands for itself. -/
def unescape (b : UInt8) : UInt8 :=
  if b == 'n'.toUInt8 then 10 else if b == 't'.toUInt8 then 9 else b

/-- The contents of a text up to its closing quote, with the number of bytes up to and with that
quote; none when the quote is missing. -/
def quoted (quote : UInt8) : Text → Option (Text × Nat)
  | [] => none
  | b :: s =>
    if b == quote then some ([], 1)
    else if b == '\\'.toUInt8 then
      match s with
      | [] => none
      | e :: s => (quoted quote s).map fun (contents, n) => (unescape e :: contents, n + 2)
    else (quoted quote s).map fun (contents, n) => (b :: contents, n + 1)

/-- The fraction of a number: a point and at least one digit. -/
def fraction : Text → Text
  | b :: c :: s => if b == '.'.toUInt8 && digit c then b :: c :: s.takeWhile digit else []
  | _ => []

/-- The digits of a number and its fraction after the first digit. -/
def digits (s : Text) : Text := s.takeWhile digit ++ fraction (s.dropWhile digit)

/-- The operator that two bytes spell. -/
def pair? (b c : UInt8) : Option Operator :=
  [Operator.doubleEqual, .notEqual, .lessEqual, .greaterEqual, .lessGreater].find?
    fun op => op.spelling == [b, c]

/-- The operator that one byte spells. -/
def single? (b : UInt8) : Option Operator :=
  [Operator.add, .subtract, .multiply, .divide, .modulo, .equal, .less, .greater].find?
    fun op => op.spelling == [b]

/-- The punctuation mark of a byte. -/
def mark? (b : UInt8) : Option Mark :=
  [Mark.openParen, .closeParen, .openBracket, .closeBracket, .comma, .dot, .question, .colon].find?
    fun m => m.byte == b

/-- An operator, of two bytes if there is one, and the number of bytes after the first. -/
def operator? (b : UInt8) (s : Text) : Option (Operator × Nat) :=
  match s.head?.bind (pair? b) with
  | some op => some (op, 1)
  | none => (single? b).map (·, 0)

/-- The lexeme that starts with the byte `b`, which is not blank, when the bytes `s` follow it; and
how many of them belong to it. -/
def start (b : UInt8) (s : Text) : Lexeme × Nat :=
  match operator? b s with
  | some (op, n) => (.operator op, n)
  | none =>
    if b == '"'.toUInt8 || b == '\''.toUInt8 then
      match quoted b s with
      | some (contents, n) => (.text contents, n)
      | none => (.stray b, 0)
    else if b == '@'.toUInt8 && (s.head?.map nameStart).getD false then
      (.mention (s.takeWhile nameByte), (s.takeWhile nameByte).length)
    else if nameStart b then
      (.name (b :: s.takeWhile nameByte), (s.takeWhile nameByte).length)
    else if digit b then (.number (b :: digits s), (digits s).length)
    else
      match mark? b with
      | some m => (.mark m, 0)
      | none => (.stray b, 0)

end Lexeme

namespace Token

/-- The tokens of the bytes from `position` on, of which the first `skip` belong to a token already
taken. -/
def scanFrom : (skip : Nat) → (position : Nat) → Text → List Token
  | _, _, [] => []
  | skip + 1, position, _ :: s => scanFrom skip (position + 1) s
  | 0, position, b :: s =>
    if blank b then scanFrom 0 (position + 1) s
    else
      let (lexeme, n) := Lexeme.start b s
      ⟨lexeme, position⟩ :: scanFrom n (position + 1) s

/-- The tokens of a source, without its end. -/
def scan (source : Text) : List Token := scanFrom 0 0 source

end Token

/-- The tokens of a source, of which the last is its end. -/
def tokenize (source : Text) : List Token := Token.scan source ++ [⟨.eof, source.length⟩]

end ComputedFields
