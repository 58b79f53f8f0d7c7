import ComputedFields.Expr.Parser
import ComputedFields.Proofs.Grammar
import Mathlib.Data.List.Basic

/-!
# `ComputedFields.Proofs.Soundness` — what is read is a phrase

A parser takes tokens from the front of a list. `Keeps` says three things of what it comes to: the
tokens that it leaves are the end of those that it was given, what it took and the result belong
together in a given way, and an error is at one of the tokens or at the end of the source. It is
proved of one parser from the parsers that it calls, by the rules for a result, for an error and for
one parser after another; so what makes a phrase is said once for each rule of the grammar.

The parser knows no layers, only precedences. A chain that it reads has the layer of the loosest
operator that it may have, and while the chain goes on its operators only become looser: this is what
makes it a chain from the left (`linksOf_reads`).

* `Keeps` — what a parser does to the tokens, with its rules;
* `Encloses`, `primary_keeps` — what stands alone or between delimiters;
* `Layer.ofPrecedence` — the layers as precedences;
* `Level.Reads`, `level_reads` — each parser of a level reads phrases of its layer;
* `formula_keeps` — what is so of all expressions is so of all formulas.
-/

namespace ComputedFields

namespace Parser

/-! ## What a parser does to the tokens -/

/-- What a parser may come to: a result, with the tokens that it took from the front and those that
it left, or an error at one of the tokens or at the end. -/
def Keeps {α : Type} (stop : Nat) (post : List Token → α → List Token → Prop)
    (tokens : List Token) : Except ParseError (α × List Token) → Prop
  | .ok (a, rest) => ∃ used, tokens = used ++ rest ∧ post used a rest
  | .error error => error.position ∈ tokens.map (·.position) ∨ error.position = stop

section

variable {α β : Type} {stop : Nat} {tokens : List Token} {cause : Misreading}

theorem position_mem (stop : Nat) (tokens : List Token) :
    position stop tokens ∈ tokens.map (·.position) ∨ position stop tokens = stop := by
  cases tokens with
  | nil => exact .inr rfl
  | cons token rest => exact .inl (List.mem_cons_self ..)

namespace Keeps

theorem pure {post : List Token → α → List Token → Prop} {a : α} (h : post [] a tokens) :
    Keeps stop post tokens (.ok (a, tokens)) :=
  ⟨[], rfl, h⟩

theorem fail {post : List Token → α → List Token → Prop} :
    Keeps stop post tokens (fail stop cause tokens) :=
  position_mem stop tokens

/-- An error at the next token. -/
theorem error {post : List Token → α → List Token → Prop} {token : Token} {rest : List Token} :
    Keeps stop post (token :: rest) (.error ⟨cause, token.position⟩) :=
  .inl (List.mem_cons_self ..)

theorem mono {post post' : List Token → α → List Token → Prop}
    {x : Except ParseError (α × List Token)} (h : Keeps stop post tokens x)
    (weaker : ∀ used a rest, post used a rest → post' used a rest) : Keeps stop post' tokens x := by
  match x, h with
  | .ok (a, rest), ⟨used, split, given⟩ => exact ⟨used, split, weaker used a rest given⟩
  | .error _, located => exact located

/-- A parser that goes on where tokens were taken already. -/
theorem append {post : List Token → α → List Token → Prop} (used : List Token) {rest : List Token}
    {x : Except ParseError (α × List Token)}
    (h : Keeps stop (fun more a left => post (used ++ more) a left) rest x) :
    Keeps stop post (used ++ rest) x := by
  match x, h with
  | .ok (a, left), ⟨more, split, given⟩ =>
    exact ⟨used ++ more, by rw [split, List.append_assoc], given⟩
  | .error _, located =>
    refine located.imp_left fun mem => ?_
    rw [List.map_append]
    exact List.mem_append_right _ mem

/-- One parser after another. -/
theorem bind {post : List Token → α → List Token → Prop} {post' : List Token → β → List Token → Prop}
    {x : Except ParseError (α × List Token)} {f : α × List Token → Except ParseError (β × List Token)}
    (h : Keeps stop post tokens x)
    (next : ∀ used a rest, post used a rest →
      Keeps stop (fun more b left => post' (used ++ more) b left) rest (f (a, rest))) :
    Keeps stop post' tokens (x >>= f) := by
  match x, h with
  | .ok (a, rest), ⟨used, split, given⟩ =>
    rw [split]
    exact (next used a rest given).append used
  | .error _, located => exact located

end Keeps

@[simp] theorem close_mark (construct : Unclosed) (p : Nat) (rest : List Token) :
    close stop construct (⟨.mark construct.mark, p⟩ :: rest) = .ok rest :=
  if_pos rfl

/-- The mark that completes a construct is there and is taken, or it is missed at the next token. -/
theorem close_cases (stop : Nat) (construct : Unclosed) (tokens : List Token) :
    (∃ p rest, tokens = ⟨.mark construct.mark, p⟩ :: rest ∧
      close stop construct tokens = .ok rest) ∨
    close stop construct tokens = fail stop (.unclosed construct) tokens := by
  match tokens with
  | [] => exact .inr rfl
  | ⟨lexeme, p⟩ :: rest =>
    cases lexeme with
    | mark m =>
      by_cases same : m = construct.mark
      · exact .inl ⟨p, rest, by rw [same], if_pos same⟩
      · exact .inr (if_neg same)
    | _ => exact .inr rfl

/-- Going on after the mark that completes a construct. -/
theorem Keeps.close_bind {post : List Token → β → List Token → Prop} {construct : Unclosed}
    {f : List Token → Except ParseError (β × List Token)}
    (next : ∀ p rest,
      Keeps stop (fun more b left => post (⟨.mark construct.mark, p⟩ :: more) b left) rest (f rest)) :
    Keeps stop post tokens (close stop construct tokens >>= f) := by
  rcases close_cases stop construct tokens with ⟨p, rest, rfl, closed⟩ | missed
  · rw [closed]
    exact (next p rest).append [_]
  · rw [missed]
    exact position_mem stop tokens

end

/-! ## Lists -/

/-- The tokens of a list up to the mark that completes it, when each of its parts with its tree is of
a kind. -/
def Listed (part : List Token → Expr → Prop) (construct : Unclosed) (used : List Token)
    (trees : List Expr) : Prop :=
  ∃ (parts : List (List Token × Expr)) (list : List Token) (q : Nat),
    used = list ++ [⟨.mark construct.mark, q⟩] ∧ trees = parts.map (·.2) ∧
    Separated (parts.map (·.1)) list ∧ ∀ each ∈ parts, part each.1 each.2

namespace Listed

variable {part : List Token → Expr → Prop} {construct : Unclosed} {used : List Token} {e : Expr}

theorem nil (part : List Token → Expr → Prop) (construct : Unclosed) (q : Nat) :
    Listed part construct [⟨.mark construct.mark, q⟩] [] :=
  ⟨[], [], q, rfl, rfl, .nil, List.forall_mem_nil _⟩

theorem one (h : part used e) (construct : Unclosed) (q : Nat) :
    Listed part construct (used ++ [⟨.mark construct.mark, q⟩]) [e] :=
  ⟨[(used, e)], used, q, rfl, rfl, .one used, List.forall_mem_singleton.mpr h⟩

theorem more (h : part used e) (p : Nat) {others : List Token} {second : Expr} {rest : List Expr}
    (listed : Listed part construct others (second :: rest)) :
    Listed part construct (used ++ ⟨.mark .comma, p⟩ :: others) (e :: second :: rest) := by
  obtain ⟨parts, list, q, rfl, trees, separated, each⟩ := listed
  match parts, trees with
  | (tokens, _) :: parts, trees =>
    refine ⟨(used, e) :: (tokens, _) :: parts, used ++ ⟨.mark .comma, p⟩ :: list, q, ?_, ?_,
      separated.more, List.forall_mem_cons.mpr ⟨h, each⟩⟩
    · rw [List.append_assoc, List.cons_append]
    · rw [List.map_cons, trees]

end Listed

section

variable {stop : Nat} {expression : Step Expr} {part : List Token → Expr → Prop}

theorem itemsFrom_keeps
    (h : ∀ tokens, Keeps stop (fun used e _ => part used e) tokens (expression tokens))
    (construct : Unclosed) (n : Nat) (tokens : List Token) :
    Keeps stop (fun used trees _ => trees ≠ [] ∧ Listed part construct used trees) tokens
      (itemsFrom stop expression construct n tokens) := by
  induction n generalizing tokens with
  | zero => exact .fail
  | succ n ih =>
    refine (h tokens).bind fun used e rest given => ?_
    dsimp only
    split
    · refine Keeps.append [_] ((ih _).bind fun others trees left listed => ?_)
      match trees, listed with
      | second :: trees, ⟨_, listed⟩ =>
        refine .pure ⟨List.cons_ne_nil _ _, ?_⟩
        rw [List.append_nil]
        exact listed.more given _
    · refine Keeps.close_bind fun q left => .pure ⟨List.cons_ne_nil _ _, ?_⟩
      exact Listed.one given construct q

theorem items_keeps
    (h : ∀ tokens, Keeps stop (fun used e _ => part used e) tokens (expression tokens))
    (construct : Unclosed) (tokens : List Token) :
    Keeps stop (fun used trees _ => Listed part construct used trees) tokens
      (items stop expression construct tokens) := by
  rw [items]
  rcases close_cases stop construct tokens with ⟨q, rest, rfl, closed⟩ | missed
  · rw [closed]
    exact ⟨[_], rfl, .nil part construct q⟩
  · rw [missed]
    exact (itemsFrom_keeps h construct _ tokens).mono fun _ _ _ listed => listed.2

/-! ## Primaries and conditions -/

/-- A kind of phrases has the literals and the names in it, and whatever can be made with delimiters
from expressions of a kind. -/
structure Encloses (part phrase : List Token → Expr → Prop) : Prop where
  number : ∀ spelling p, phrase [⟨.number spelling, p⟩] (.number p (Number.ofSpelling spelling))
  text : ∀ contents p, phrase [⟨.text contents, p⟩] (.text p contents)
  mention : ∀ name p, phrase [⟨.mention name, p⟩] (.mention p name)
  field : ∀ name p, phrase [⟨.name name, p⟩] (.field p name)
  call : ∀ function p q used trees, Listed part .arguments used trees →
    phrase (⟨.name function, p⟩ :: ⟨.mark .openParen, q⟩ :: used) (.call p function trees)
  parenthesis : ∀ p q used e, part used e →
    phrase (⟨.mark .openParen, p⟩ :: (used ++ [⟨.mark .closeParen, q⟩])) e
  array : ∀ p used trees, Listed part .array used trees →
    phrase (⟨.mark .openBracket, p⟩ :: used) (.array p trees)

theorem primary_keeps {phrase : List Token → Expr → Prop}
    (h : ∀ tokens, Keeps stop (fun used e _ => part used e) tokens (expression tokens))
    (closed : Encloses part phrase) (tokens : List Token) :
    Keeps stop (fun used e _ => phrase used e) tokens (primary stop expression tokens) := by
  unfold primary
  split
  · exact ⟨[_], rfl, closed.number ..⟩
  · exact ⟨[_], rfl, closed.text ..⟩
  · exact ⟨[_], rfl, closed.mention ..⟩
  · refine Keeps.append [_, _] ?_
    refine (items_keeps h .arguments _).bind fun used trees rest listed => .pure ?_
    rw [List.append_nil]
    exact closed.call _ _ _ used trees listed
  · exact ⟨[_], rfl, closed.field ..⟩
  · refine Keeps.append [_] ((h _).bind fun used e rest given => ?_)
    exact Keeps.close_bind fun q left => .pure (closed.parenthesis _ q used e given)
  · refine Keeps.append [_] ?_
    refine (items_keeps h .array _).bind fun used trees rest listed => .pure ?_
    rw [List.append_nil]
    exact closed.array _ used trees listed
  · exact .error
  · exact .error
  · exact .error
  · exact .error
  · exact .inr rfl

/-- The primaries of the grammar. -/
theorem encloses : Encloses (Derives .expression) (Derives .primary) where
  number := .number
  text := .text
  mention := .mention
  field := .field
  call _ _ _ _ _ := by
    rintro ⟨parts, list, r, rfl, rfl, separated, each⟩
    exact .call each separated
  parenthesis _ _ _ _ inner := .parenthesis inner
  array _ _ _ := by
    rintro ⟨parts, list, r, rfl, rfl, separated, each⟩
    exact .array each separated

theorem conditional_keeps {branch condition : Step Expr} {first : List Token → Expr → Prop}
    {phrase : List Token → Expr → Prop}
    (hb : ∀ tokens, Keeps stop (fun used e _ => part used e) tokens (branch tokens))
    (hc : ∀ tokens, Keeps stop (fun used e _ => first used e) tokens (condition tokens))
    (alone : ∀ used e, first used e → phrase used e)
    (whole : ∀ used c p used₁ a q used₂ b, first used c → part used₁ a → part used₂ b →
      phrase (used ++ ⟨.mark .question, p⟩ :: (used₁ ++ ⟨.mark .colon, q⟩ :: used₂))
        (.conditional p c a b)) (tokens : List Token) :
    Keeps stop (fun used e _ => phrase used e) tokens (conditional stop branch condition tokens) := by
  refine (hc tokens).bind fun used c rest condition => ?_
  dsimp only
  split
  · refine Keeps.append [_] ((hb _).bind fun used₁ a rest₁ whenTrue => ?_)
    refine Keeps.close_bind fun q rest₂ => (hb rest₂).bind fun used₂ b rest₃ whenFalse => .pure ?_
    rw [List.append_nil]
    exact whole used c _ used₁ a q used₂ b condition whenTrue whenFalse
  · refine .pure ?_
    rw [List.append_nil]
    exact alone used c condition

end

/-! ## Chains -/

/-- The tokens do not go on with an operator of at least a precedence. -/
def StopsBelow (least : Nat) (tokens : List Token) : Prop :=
  ∀ op p rest, tokens = ⟨.operator op, p⟩ :: rest → op.precedence < least

end Parser

/-- The layer of the chains whose operators have at least a precedence. -/
def Layer.ofPrecedence : Nat → Layer
  | 0 | 1 => .comparison
  | 2 => .sum
  | 3 => .product
  | _ => .negation

theorem Operator.layer_eq (op : Operator) : op.layer = .ofPrecedence op.precedence := by
  cases op <;> rfl

theorem Operator.next?_layer (op : Operator) :
    op.layer.next? = some (.ofPrecedence (op.precedence + 1)) := by
  cases op <;> rfl

theorem Operator.precedence_le (op : Operator) : op.precedence ≤ 3 := by
  cases op <;> decide

theorem Layer.ofPrecedence_of_le {k : Nat} (le : 4 ≤ k) : ofPrecedence k = .negation := by
  obtain ⟨k, rfl⟩ := Nat.exists_eq_add_of_le' le
  rfl

/-- A phrase of a tighter chain is one of a looser chain. The induction is on how much looser. -/
theorem Derives.loosen {least k : Nat} (le : least ≤ k) {tokens : List Token} {e : Expr}
    (h : Derives (.ofPrecedence k) tokens e) : Derives (.ofPrecedence least) tokens e := by
  induction le with
  | refl => exact h
  | @step k _ ih =>
    refine ih ?_
    match k, h with
    | 0, h => exact h
    | 1, h | 2, h | 3, h => exact .next rfl h
    | _ + 4, h => exact h

namespace Parser

/-! ## Levels -/

/-- What the parsers of a level read. Of a chain that is under way, the left operand and the tokens
before are given: it is a chain of operators of a precedence `k`, and no operator of a higher
precedence follows. -/
structure Level.Reads (stop : Nat) (l : Level) : Prop where
  expression : ∀ tokens,
    Keeps stop (fun used e _ => Derives .expression used e) tokens (l.expression tokens)
  chain : ∀ least tokens,
    Keeps stop (fun used e rest => Derives (.ofPrecedence least) used e ∧ StopsBelow least rest)
      tokens (l.chain least tokens)
  links : ∀ least k before left tokens, least ≤ k → Derives (.ofPrecedence k) before left →
    StopsBelow (k + 1) tokens →
    Keeps stop
      (fun used e rest => Derives (.ofPrecedence least) (before ++ used) e ∧ StopsBelow least rest)
      tokens (l.links least left tokens)
  operand : ∀ tokens,
    Keeps stop (fun used e _ => Derives .negation used e) tokens (l.operand tokens)
  members : ∀ before object tokens, Derives .path before object →
    Keeps stop (fun used e _ => Derives .path (before ++ used) e) tokens (l.members object tokens)

section

variable {stop : Nat} {below : Option Level} (h : ∀ l ∈ below, l.Reads stop)
include h

theorem membersOf_reads (before : List Token) (object : Expr) (tokens : List Token)
    (path : Derives .path before object) :
    Keeps stop (fun used e _ => Derives .path (before ++ used) e) tokens
      (membersOf stop below object tokens) := by
  unfold membersOf
  split
  · next p rest =>
    split
    · exact .error
    · next l =>
      split
      · next property q rest =>
        have longer : Derives .path (before ++ [⟨.mark .dot, p⟩, ⟨.name property, q⟩])
            (.member p object property) := path.member
        have reads := (h l rfl).members _ _ rest longer
        refine Keeps.append [_, _] (reads.mono fun used e left derives => ?_)
        rwa [List.append_assoc] at derives
      · exact Keeps.append [_] .fail
  · refine .pure ?_
    rwa [List.append_nil]

theorem expressionOf_reads (tokens : List Token) :
    Keeps stop (fun used e _ => Derives .expression used e) tokens
      (expressionOf stop below tokens) := by
  match below, h with
  | none, _ => exact .fail
  | some l, h =>
    have reads := h l rfl
    have comparison : ∀ tokens,
        Keeps stop (fun used e _ => Derives .comparison used e) tokens (l.chain 1 tokens) :=
      fun tokens => (reads.chain 1 tokens).mono fun _ _ _ => And.left
    refine conditional_keeps reads.expression comparison ?_ ?_ tokens
    · exact fun _ _ condition => .next rfl condition
    · exact fun _ _ _ _ _ _ _ _ condition whenTrue whenFalse =>
        .conditional condition whenTrue whenFalse

theorem operandOf_reads {expression : Step Expr}
    (he : ∀ tokens, Keeps stop (fun used e _ => Derives .expression used e) tokens
      (expression tokens)) (tokens : List Token) :
    Keeps stop (fun used e _ => Derives .negation used e) tokens
      (operandOf stop below expression tokens) := by
  unfold operandOf
  split
  · next p rest =>
    split
    · exact .error
    · next l =>
      refine Keeps.append [_] (((h l rfl).operand rest).bind ?_)
      refine fun used e left derives => .pure ?_
      rw [List.append_nil]
      exact derives.negate
  · refine (primary_keeps he encloses _).bind fun used e rest primary => ?_
    exact (membersOf_reads h used e rest (.next rfl primary)).mono fun _ _ _ => .next rfl

/-- A chain goes on with an operator of at most the precedence that it has so far, and from then on
has that of the operator. -/
theorem linksOf_reads (least k : Nat) (before : List Token) (left : Expr) (tokens : List Token)
    (le : least ≤ k) (chain : Derives (.ofPrecedence k) before left)
    (stops : StopsBelow (k + 1) tokens) :
    Keeps stop
      (fun used e rest => Derives (.ofPrecedence least) (before ++ used) e ∧ StopsBelow least rest)
      tokens (linksOf below least left tokens) := by
  unfold linksOf
  split
  · next op p rest =>
    split
    · next looser =>
      refine .pure ⟨?_, ?_⟩
      · rw [List.append_nil]
        exact chain.loosen le
      · rintro op' p' rest' same
        injection same with first
        injection first with first
        injection first with first
        rwa [← first]
    · next tighter =>
      split
      · exact .error
      · next l =>
        -- the operator is no tighter than the chain so far, which is its left operand
        have atMost : op.precedence ≤ k := Nat.le_of_lt_succ (stops op p rest rfl)
        have operand : Derives op.layer before left := op.layer_eq ▸ chain.loosen atMost
        refine Keeps.append [_] (((h l rfl).chain _ rest).bind ?_)
        rintro used right rest' ⟨derives, stops'⟩
        have linked : Derives (.ofPrecedence op.precedence)
            (before ++ ⟨.operator op, p⟩ :: used) (.binary p op left right) :=
          op.layer_eq ▸ Derives.binary rfl op.next?_layer operand derives
        have reads := (h l rfl).links least op.precedence _ _ rest' (Nat.le_of_not_lt tighter)
          linked stops'
        refine reads.mono fun more e left given => ?_
        rwa [List.append_assoc] at given
  · next none =>
    refine .pure ⟨?_, ?_⟩
    · rw [List.append_nil]
      exact chain.loosen le
    · exact fun op p rest same => absurd same (none op p rest)

theorem Level.ofBelow_reads : (Level.ofBelow stop below).Reads stop := by
  have operand := operandOf_reads h (expressionOf_reads h)
  refine
    { expression := expressionOf_reads h
      links := linksOf_reads h
      operand := operand
      members := membersOf_reads h
      chain := fun least tokens => (operand tokens).bind fun used e rest derives => ?_ }
  -- an operand counts as a chain of operators tighter than all that there are
  refine linksOf_reads h least (max least 4) used e rest (Nat.le_max_left ..) ?_ ?_
  · rwa [Layer.ofPrecedence_of_le (Nat.le_max_right ..)]
  · exact fun op _ _ _ => Nat.lt_of_le_of_lt op.precedence_le (by omega)

end

theorem level_reads (stop : Nat) : ∀ n, (level stop n).Reads stop
  | 0 => Level.ofBelow_reads fun _ none => nomatch none
  | n + 1 => Level.ofBelow_reads fun _ below => Option.some.inj below ▸ level_reads stop n

/-- What expressions are of, the formula that all of some tokens make up is too; and where there is
none, that shows at one of the tokens or at the end. -/
theorem formula_keeps {stop : Nat} {phrase : List Token → Expr → Prop}
    (h : ∀ tokens, Keeps stop (fun used e _ => phrase used e) tokens
      ((level stop depth).expression tokens)) (tokens : List Token) :
    match formula stop tokens with
    | .ok e => phrase tokens e
    | .error error => error.position ∈ tokens.map (·.position) ∨ error.position = stop := by
  match tokens with
  | [] => exact .inr rfl
  | token :: rest =>
    have keeps := h (token :: rest)
    simp only [formula]
    match (level stop depth).expression (token :: rest), keeps with
    | .error _, located => exact located
    | .ok (e, []), ⟨used, split, given⟩ =>
      rw [List.append_nil] at split
      exact split ▸ given
    | .ok (e, next :: left), ⟨used, split, _⟩ =>
      -- tokens are left over, and the first of them is the error
      refine .inl ?_
      rw [split, List.map_append]
      exact List.mem_append_right _ (List.mem_cons_self ..)

/-- The tokens of a formula that is read are an expression with its tree. -/
theorem derives_of_formula {stop : Nat} {tokens : List Token} {e : Expr}
    (h : formula stop tokens = .ok e) : Derives .expression tokens e := by
  have reads := formula_keeps (level_reads stop depth).expression tokens
  rwa [h] at reads

end Parser

theorem derives_of_parse {source : Text} {e : Expr} (h : parse source = .ok e) :
    Derives .expression (Token.scan source) e :=
  Parser.derives_of_formula h

/-- A parse error is at one of the tokens or at the end of the source. -/
theorem position_mem_of_parse {source : Text} {error : ParseError} (h : parse source = .error error) :
    error.position ∈ (tokenize source).map (·.position) := by
  have reads := Parser.formula_keeps (Parser.level_reads source.length Parser.depth).expression
    (Token.scan source)
  rw [← parse, h] at reads
  rw [tokenize, List.map_append, List.mem_append]
  exact reads.imp_right List.mem_singleton.mpr

end ComputedFields
