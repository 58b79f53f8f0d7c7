import ComputedFields.Proofs.Completeness
import ComputedFields.Proofs.Phrases
import ComputedFields.Proofs.Scanning
import ComputedFields.Proofs.Substitution

/-!
# `ComputedFields.Proofs.Moving` — formulas elsewhere, and blanks between tokens

The parser passes the offsets of tokens on to its tree and its errors, and decides nothing by them:
from tokens that stand elsewhere it reads the same tree with its nodes elsewhere, or comes to the
same error elsewhere. So a parser commutes with moving tokens. This is proved of each parser from
those that it calls, level by level.

Blanks that are put before a token move this token and all that come after it. The tokens before it
stay where they are and what they are, if each of them is part of a formula: a quote that is not
closed is the one token that looks further than it reaches.

* `Expr.moved`, `Token.moved` — nodes and tokens at other offsets;
* `Parser.movedTo` — an outcome at other offsets, with the rule for one parser after another;
* `Parser.level_moves`, `Parser.formula_moved` — what is read from tokens at other offsets;
* `Token.scan_insert_blanks` — the tokens after blanks have been put between them;
* `parse_insert_blanks` — the formula after blanks have been put between its tokens.
-/

namespace ComputedFields

open Text

namespace Expr

/-! ## Trees at other offsets -/

mutual

/-- The tree with other offsets: where an offset was `p`, it is `f p`. -/
def moved (f : Nat → Nat) : Expr → Expr
  | .number p x => .number (f p) x
  | .text p s => .text (f p) s
  | .field p name => .field (f p) name
  | .mention p name => .mention (f p) name
  | .member p object property => .member (f p) (object.moved f) property
  | .call p function arguments => .call (f p) function (movedAll f arguments)
  | .negate p operand => .negate (f p) (operand.moved f)
  | .binary p op left right => .binary (f p) op (left.moved f) (right.moved f)
  | .conditional p c a b => .conditional (f p) (c.moved f) (a.moved f) (b.moved f)
  | .array p items => .array (f p) (movedAll f items)

/-- Several trees with other offsets. -/
def movedAll (f : Nat → Nat) : List Expr → List Expr
  | [] => []
  | e :: rest => e.moved f :: movedAll f rest

end

variable (f : Nat → Nat)

theorem movedAll_eq (es : List Expr) : movedAll f es = es.map (moved f) := by
  induction es with
  | nil => rfl
  | cons e rest ih => rw [movedAll, ih, List.map_cons]

theorem fieldNames_moved (e : Expr) : (e.moved f).fieldNames = e.fieldNames := by
  induction e with
  | number | text | field | mention => rfl
  | member _ _ _ ih | negate _ _ ih => exact ih
  | binary _ _ _ _ ihl ihr => simp only [moved, fieldNames, ihl, ihr]
  | conditional _ _ _ _ ihc iha ihb => simp only [moved, fieldNames, ihc, iha, ihb]
  | call _ _ _ ih | array _ _ ih =>
    simp only [moved, fieldNames, movedAll_eq, fieldNamesOfAll_eq, List.flatMap_map]
    exact List.flatMap_congr ih

theorem mentionNames_moved (e : Expr) : (e.moved f).mentionNames = e.mentionNames := by
  induction e with
  | number | text | field | mention => rfl
  | member _ _ _ ih | negate _ _ ih => exact ih
  | binary _ _ _ _ ihl ihr => simp only [moved, mentionNames, ihl, ihr]
  | conditional _ _ _ _ ihc iha ihb => simp only [moved, mentionNames, ihc, iha, ihb]
  | call _ _ _ ih | array _ _ ih =>
    simp only [moved, mentionNames, movedAll_eq, mentionNamesOfAll_eq, List.flatMap_map]
    exact List.flatMap_congr ih

end Expr

/-- The token with its offset changed. -/
def Token.moved (f : Nat → Nat) (token : Token) : Token := ⟨token.lexeme, f token.position⟩

namespace Parser

/-! ## Outcomes at other offsets -/

variable {α β : Type} {f : Nat → Nat} {stop : Nat}

/-- An outcome at other offsets: of a result this is `g`, and of an error its place. -/
def movedTo (f : Nat → Nat) (g : α → α) : Except ParseError α → Except ParseError α
  | .ok a => .ok (g a)
  | .error error => .error ⟨error.cause, f error.position⟩

/-- Tokens at other offsets. -/
abbrev movedTokens (f : Nat → Nat) (tokens : List Token) : List Token := tokens.map (Token.moved f)

/-- A result and the tokens left, at other offsets. -/
def withTokens (f : Nat → Nat) (g : α → α) (result : α × List Token) : α × List Token :=
  (g result.1, movedTokens f result.2)

theorem bind_movedTo {g : α → α} {g' : β → β} (x : Except ParseError α)
    {k k' : α → Except ParseError β} (h : ∀ a, k' (g a) = movedTo f g' (k a)) :
    (movedTo f g x >>= k') = movedTo f g' (x >>= k) := by
  cases x with
  | error => rfl
  | ok a => exact h a

theorem position_movedTokens (tokens : List Token) :
    position (f stop) (movedTokens f tokens) = f (position stop tokens) := by
  cases tokens <;> rfl

theorem fail_moved (g : α → α) (cause : Misreading) (tokens : List Token) :
    fail (f stop) cause (movedTokens f tokens) = movedTo f g (fail stop cause tokens) := by
  rw [fail, position_movedTokens]
  rfl

theorem close_moved (construct : Unclosed) (tokens : List Token) :
    close (f stop) construct (movedTokens f tokens) =
      movedTo f (movedTokens f) (close stop construct tokens) := by
  match tokens with
  | [] => rfl
  | ⟨lexeme, p⟩ :: rest =>
    cases lexeme with
    | mark m =>
      show ite _ _ _ = movedTo f _ (ite _ _ _)
      split
      · rfl
      · exact fail_moved _ _ (⟨.mark m, p⟩ :: rest)
    | _ => rfl

/-! ## Parsers -/

/-- From tokens at other offsets, a parser reads what another one reads from the tokens, at these
offsets. -/
def Moves (f : Nat → Nat) (g : α → α) (parser parser' : Step α) : Prop :=
  ∀ tokens, parser' (movedTokens f tokens) = movedTo f (withTokens f g) (parser tokens)

section

variable {expression expression' : Step Expr}
  (he : Moves f (Expr.moved f) expression expression')
include he

theorem itemsFrom_moved (construct : Unclosed) (n : Nat) :
    Moves f (Expr.movedAll f) (itemsFrom stop expression construct n)
      (itemsFrom (f stop) expression' construct n) := by
  induction n with
  | zero => exact fun tokens => fail_moved _ _ tokens
  | succ n ih =>
    intro tokens
    rw [itemsFrom, itemsFrom, he]
    refine bind_movedTo _ fun (e, rest) => ?_
    -- after an expression comes another one behind a comma, or the end of the list
    have last : (close (f stop) construct (movedTokens f rest) >>= fun rest =>
        .ok ([e.moved f], rest)) = movedTo f (withTokens f (Expr.movedAll f))
          (close stop construct rest >>= fun rest => .ok ([e], rest)) := by
      rw [close_moved]
      exact bind_movedTo _ fun _ => rfl
    match rest with
    | [] => exact last
    | ⟨lexeme, p⟩ :: rest =>
      cases lexeme with
      | mark m =>
        cases m with
        | comma =>
          show (itemsFrom _ _ _ _ (movedTokens f rest) >>= _) = _
          rw [ih]
          exact bind_movedTo _ fun _ => rfl
        | _ => exact last
      | _ => exact last

theorem items_moved (construct : Unclosed) :
    Moves f (Expr.movedAll f) (items stop expression construct)
      (items (f stop) expression' construct) := by
  intro tokens
  rw [items, items, close_moved]
  cases close stop construct tokens with
  | ok rest => rfl
  | error error =>
    show itemsFrom _ _ _ ((movedTokens f tokens).length + 1) _ = _
    rw [List.length_map]
    exact itemsFrom_moved he construct _ tokens

theorem primary_moved :
    Moves f (Expr.moved f) (primary stop expression) (primary (f stop) expression') := by
  intro tokens
  match tokens with
  | [] => rfl
  | ⟨lexeme, p⟩ :: rest =>
    cases lexeme with
    | number | text | mention | stray | operator | eof => rfl
    | name name =>
      match rest with
      | [] => rfl
      | ⟨lexeme, q⟩ :: rest =>
        cases lexeme with
        | mark m =>
          cases m with
          | openParen =>
            show (items _ _ _ (movedTokens f rest) >>= _) = _
            rw [items_moved he]
            exact bind_movedTo _ fun _ => rfl
          | _ => rfl
        | _ => rfl
    | mark m =>
      cases m with
      | openParen =>
        show (expression' (movedTokens f rest) >>= _) = _
        rw [he]
        refine bind_movedTo _ fun (e, rest) => ?_
        show (close _ _ (movedTokens f rest) >>= _) = _
        rw [close_moved]
        exact bind_movedTo _ fun _ => rfl
      | openBracket =>
        show (items _ _ _ (movedTokens f rest) >>= _) = _
        rw [items_moved he]
        exact bind_movedTo _ fun _ => rfl
      | _ => rfl

theorem conditional_moved {condition condition' : Step Expr}
    (hc : Moves f (Expr.moved f) condition condition') :
    Moves f (Expr.moved f) (conditional stop expression condition)
      (conditional (f stop) expression' condition') := by
  intro tokens
  rw [conditional, conditional, hc]
  apply bind_movedTo
  rintro ⟨c, _ | ⟨⟨lexeme, p⟩, rest⟩⟩
  · rfl
  · cases lexeme with
    | mark m =>
      cases m with
      | question =>
        show (expression' (movedTokens f rest) >>= _) = _
        rw [he]
        apply bind_movedTo
        rintro ⟨a, rest⟩
        show (close _ _ (movedTokens f rest) >>= _) = _
        rw [close_moved]
        refine bind_movedTo _ fun rest => ?_
        show (expression' (movedTokens f rest) >>= _) = _
        rw [he]
        exact bind_movedTo _ fun _ => rfl
      | _ => rfl
    | _ => rfl

end

/-- All parsers of a level move with the tokens, and with the tree that is under way. -/
structure Level.Moves (f : Nat → Nat) (stop n : Nat) : Prop where
  expression : Parser.Moves f (Expr.moved f) (level stop n).expression (level (f stop) n).expression
  chain : ∀ least,
    Parser.Moves f (Expr.moved f) ((level stop n).chain least) ((level (f stop) n).chain least)
  links : ∀ least left, Parser.Moves f (Expr.moved f) ((level stop n).links least left)
    ((level (f stop) n).links least (left.moved f))
  operand : Parser.Moves f (Expr.moved f) (level stop n).operand (level (f stop) n).operand
  members : ∀ object, Parser.Moves f (Expr.moved f) ((level stop n).members object)
    ((level (f stop) n).members (object.moved f))

section

variable {n : Nat} (h : ∀ m, n = m + 1 → Level.Moves f stop m)
include h

theorem membersOf_moved (object : Expr) :
    Moves f (Expr.moved f) (membersOf stop (below? stop n) object)
      (membersOf (f stop) (below? (f stop) n) (object.moved f)) := by
  intro tokens
  match tokens with
  | [] => rfl
  | ⟨lexeme, p⟩ :: rest =>
    cases lexeme with
    | mark m =>
      cases m with
      | dot =>
        cases n with
        | zero => rfl
        | succ n =>
          match rest with
          | [] => rfl
          | ⟨lexeme, q⟩ :: rest =>
            cases lexeme with
            | name property => exact (h n rfl).members (.member p object property) rest
            | _ => rfl
      | _ => rfl
    | _ => rfl

theorem linksOf_moved (least : Nat) (left : Expr) :
    Moves f (Expr.moved f) (linksOf (below? stop n) least left)
      (linksOf (below? (f stop) n) least (left.moved f)) := by
  intro tokens
  match tokens with
  | [] => rfl
  | ⟨lexeme, p⟩ :: rest =>
    cases lexeme with
    | operator op =>
      show ite _ _ _ = movedTo f _ (ite _ _ _)
      split
      · rfl
      · cases n with
        | zero => rfl
        | succ n =>
          show ((level _ n).chain _ (movedTokens f rest) >>= _) = _
          rw [(h n rfl).chain]
          exact bind_movedTo _ fun (right, rest) =>
            (h n rfl).links least (.binary p op left right) rest
    | _ => rfl

theorem expressionOf_moved :
    Moves f (Expr.moved f) (expressionOf stop (below? stop n))
      (expressionOf (f stop) (below? (f stop) n)) := by
  cases n with
  | zero => exact fun tokens => fail_moved _ _ tokens
  | succ n => exact conditional_moved (h n rfl).expression ((h n rfl).chain 1)

theorem operandOf_moved :
    Moves f (Expr.moved f)
      (operandOf stop (below? stop n) (expressionOf stop (below? stop n)))
      (operandOf (f stop) (below? (f stop) n) (expressionOf (f stop) (below? (f stop) n))) := by
  have value (tokens : List Token) :
      (primary (f stop) (expressionOf (f stop) (below? (f stop) n)) (movedTokens f tokens) >>=
        fun read => membersOf (f stop) (below? (f stop) n) read.1 read.2) =
      movedTo f (withTokens f (Expr.moved f))
        (primary stop (expressionOf stop (below? stop n)) tokens >>=
          fun read => membersOf stop (below? stop n) read.1 read.2) := by
    rw [primary_moved (expressionOf_moved h)]
    exact bind_movedTo _ fun read => membersOf_moved h read.1 read.2
  rintro (_ | ⟨⟨lexeme, p⟩, rest⟩)
  · exact value []
  · cases lexeme with
    | operator op =>
      cases op with
      | subtract =>
        cases n with
        | zero => rfl
        | succ n =>
          show ((level _ n).operand (movedTokens f rest) >>= _) = _
          rw [(h n rfl).operand]
          exact bind_movedTo _ fun _ => rfl
      | _ => exact value (⟨_, p⟩ :: rest)
    | _ => exact value (⟨_, p⟩ :: rest)

theorem Level.Moves.of_below : Level.Moves f stop n := by
  have operand := operandOf_moved h
  constructor <;> simp only [level_eq]
  · exact expressionOf_moved h
  · intro least tokens
    show (operandOf _ _ _ (movedTokens f tokens) >>= _) = _
    rw [operand]
    exact bind_movedTo _ fun (e, rest) => linksOf_moved h least e rest
  · exact linksOf_moved h
  · exact operand
  · exact membersOf_moved h

end

theorem level_moves (f : Nat → Nat) (stop : Nat) : ∀ n, Level.Moves f stop n
  | 0 => .of_below nofun
  | n + 1 => .of_below fun _ same => Nat.succ.inj same ▸ level_moves f stop n

/-- The formula of tokens at other offsets. -/
theorem formula_moved (f : Nat → Nat) (stop : Nat) (tokens : List Token) :
    formula (f stop) (movedTokens f tokens) = movedTo f (Expr.moved f) (formula stop tokens) := by
  match tokens with
  | [] => rfl
  | token :: rest =>
    show ((level _ depth).expression (movedTokens f (token :: rest)) >>= _) = _
    rw [(level_moves f stop depth).expression]
    refine bind_movedTo _ fun (e, left) => ?_
    cases left <;> rfl

end Parser

/-! ## Blanks between tokens -/

/-- The source with bytes put in at an offset. -/
def insertAt (position : Nat) (w source : Text) : Text :=
  source.take position ++ (w ++ source.drop position)

/-- Where an offset is when `n` bytes have been put in at `position`. -/
def afterInsert (position n : Nat) (p : Nat) : Nat := if position ≤ p then p + n else p

namespace Token

theorem scanFrom_add (skip position n : Nat) (s : Text) :
    scanFrom skip (position + n) s = (scanFrom skip position s).map (Token.moved (· + n)) := by
  induction s generalizing skip position with
  | nil => cases skip <;> rfl
  | cons b s ih =>
    have later (skip : Nat) : scanFrom skip (position + n + 1) s =
        (scanFrom skip (position + 1) s).map (Token.moved (· + n)) := by
      rw [Nat.add_right_comm]
      exact ih skip (position + 1)
    cases skip with
    | succ skip => exact later skip
    | zero =>
      rw [scanFrom, scanFrom]
      split
      · exact later 0
      · exact congrArg _ (later _)

section

variable {source w : Text} {before after : List Token} {token : Token}
  (h : tokenize source = before ++ token :: after)
  (regular : ∀ token ∈ before, ∀ c, token.lexeme ≠ .stray c)
  (blanks : ∀ b ∈ w, blank b = true)
include h regular blanks

/-- The tokens before the blanks stay, and those after them are as far behind as the blanks are
long. -/
theorem scan_insertAt :
    scan (insertAt token.position w source) =
      before ++ scanFrom 0 (token.position + w.length) (source.drop token.position) := by
  cases w with
  | nil =>
    rw [insertAt, List.nil_append, List.take_append_drop]
    exact scan_of_cut h regular
  | cons c w =>
    obtain ⟨first, others⟩ := List.forall_mem_cons.mp blanks
    have length : token.position + 1 + w.length = token.position + (c :: w).length := by
      rw [List.length_cons]
      omega
    rw [insertAt, List.cons_append, scan_append_blank h regular first, scanFrom_blanks others,
      length]

theorem scan_insert_blanks :
    scan (insertAt token.position w source) =
      (scan source).map (Token.moved (afterInsert token.position w.length)) := by
  have ordered := pairwise_tokenize source
  rw [h, List.pairwise_append] at ordered
  have stay : before.map (Token.moved (afterInsert token.position w.length)) = before := by
    refine (List.map_congr_left fun other mem => ?_).trans (List.map_id before)
    have earlier := ordered.2.2 other mem token (List.mem_cons_self ..)
    rw [Token.moved, afterInsert, if_neg (Nat.not_le.mpr earlier)]
    rfl
  have go : (scanFrom 0 token.position (source.drop token.position)).map
      (Token.moved (afterInsert token.position w.length)) =
        scanFrom 0 (token.position + w.length) (source.drop token.position) := by
    rw [scanFrom_add]
    refine List.map_congr_left fun other mem => ?_
    have lower : token.position ≤ other.position :=
      ((pairwise_scanFrom 0 token.position _).1 other mem).2.1
    rw [Token.moved, afterInsert, if_pos lower]
    rfl
  rw [scan_insertAt h regular blanks, scan_of_cut h regular, List.map_append, stay, go]

end

end Token

/-- What a source is read as after blanks have been put in before a token, when each of the tokens
before it is part of a formula: the same formula or the same error, with other offsets. -/
theorem parse_insertAt {source w : Text} {before after : List Token} {token : Token}
    (h : tokenize source = before ++ token :: after)
    (regular : ∀ token ∈ before, ∀ c, token.lexeme ≠ .stray c)
    (blanks : ∀ b ∈ w, blank b = true) :
    parse (insertAt token.position w source) =
      Parser.movedTo (afterInsert token.position w.length)
        (Expr.moved (afterInsert token.position w.length)) (parse source) := by
  have within : token.position ≤ source.length :=
    Token.position_le_of_mem (h ▸ List.mem_append_right _ (List.mem_cons_self ..))
  have length : (insertAt token.position w source).length =
      afterInsert token.position w.length source.length := by
    rw [afterInsert, if_pos within, insertAt, List.length_append, List.length_append,
      List.length_take_of_le within, List.length_drop]
    omega
  rw [parse, Token.scan_insert_blanks h regular blanks, length]
  exact Parser.formula_moved _ _ _

/-- When blanks are put in before a token of a formula, or at its end, it is still read, and as the
same tree: only the nodes from there on stand as many bytes further back as there are blanks. So it
reads the same fields and mentions. -/
theorem parse_insert_blanks {source w : Text} {e : Expr} {token : Token}
    (h : parse source = .ok e) (mem : token ∈ tokenize source) (blanks : ∀ b ∈ w, blank b = true) :
    let moved := e.moved (afterInsert token.position w.length)
    parse (insertAt token.position w source) = .ok moved ∧
      moved.fields = e.fields ∧ moved.mentionDependencies = e.mentionDependencies := by
  intro moved
  obtain ⟨before, after, split⟩ := List.append_of_mem mem
  have scanned : Token.scan source = before ++ (token :: after).dropLast := by
    have inner := congrArg List.dropLast split
    rwa [tokenize, List.dropLast_concat, List.dropLast_append_cons] at inner
  have regular : ∀ token ∈ before, ∀ c, token.lexeme ≠ .stray c := by
    intro other isBefore
    have inside : other ∈ Token.scan source := scanned ▸ List.mem_append_left _ isBefore
    exact ((derives_of_parse h).regular other inside).2
  refine ⟨?_, ?_, ?_⟩
  · rw [parse_insertAt split regular blanks, h]
    rfl
  · rw [Expr.fields, Expr.fieldNames_moved, Expr.fields]
  · rw [Expr.mentionDependencies, Expr.mentions, Expr.mentionNames_moved]
    rfl

/-- Blanks before an operator of two bytes, which stands between a name and a text that ends with a
backslash, and in front of a mention with a property. -/
theorem parse_insert_blanks_before_operator :
    let source := utf8 "a<=\"\\\\\"-@b.c"
    let token : Token := ⟨.operator .lessEqual, 1⟩
    let w := utf8 "\t\n "
    ∃ e, parse source = .ok e ∧ token ∈ tokenize source ∧ (∀ b ∈ w, blank b = true) ∧
      insertAt token.position w source = utf8 "a\t\n <=\"\\\\\"-@b.c" ∧
      parse (insertAt token.position w source) = .ok (e.moved (afterInsert 1 3)) ∧
      (e.moved (afterInsert 1 3)).fields = e.fields ∧
      (e.moved (afterInsert 1 3)).mentionDependencies = e.mentionDependencies := by
  intro source token w
  obtain ⟨e, parsed⟩ : ∃ e, parse source = .ok e := ⟨_, rfl⟩
  have mem : token ∈ tokenize source := by decide +kernel
  have blanks : ∀ b ∈ w, blank b = true := by decide +kernel
  exact ⟨e, parsed, mem, blanks, rfl, parse_insert_blanks parsed mem blanks⟩

end ComputedFields
