import ComputedFields.Proofs.Mending
import ComputedFields.Proofs.Phrases

/-!
# `ComputedFields.Proofs.FirstError` — errors are at the first token that is wrong

The place of a parse error is that of one token, and it is the right one: some formula begins with
the tokens before it, and none with these and the token itself. The first part is about what might
come instead of the token. Parentheses, brackets, calls and conditions may be open there, each at a
level of its own, and all of them have to be completed within the limit. This needs no more than a
name for what is missing, and then the marks of what is open, from the inside to the outside; and
where a name would be one construct too many, this would have been the error.

So every parser is `Prompt`, level by level. What remains is to find a source for the tokens before
an error and those that complete them: the part of the given source before the error, and then each
lexeme that is added, with a blank after it.

* `list`, `conditionalAfter` — parsers in the form of one parser after another;
* `Level.Prompts`, `level_prompts` — the parsers of each level are prompt;
* `Completable`, `Misread`, `exists_misread` — the same of formulas;
* `parse_first_error` — an error is neither too early nor too late.
-/

namespace ComputedFields

namespace Parser

variable {stop : Nat}

/-! ## Lists -/

section

variable {expression : Step Expr} {construct : Unclosed} {tokens : List Token}

/-- More steps than there are tokens make no difference. -/
theorem itemsFrom_congr
    (shorter : ∀ tokens e rest, expression tokens = .ok (e, rest) → rest.length ≤ tokens.length)
    {m n : Nat} (hm : tokens.length < m) (hn : tokens.length < n) :
    itemsFrom stop expression construct m tokens =
      itemsFrom stop expression construct n tokens := by
  induction m generalizing n tokens with
  | zero => exact absurd hm (Nat.not_lt_zero _)
  | succ m ih =>
    obtain ⟨n, rfl⟩ := Nat.exists_eq_succ_of_ne_zero (Nat.ne_zero_of_lt hn)
    simp only [itemsFrom]
    cases read : expression tokens with
    | error => rfl
    | ok result =>
      obtain ⟨e, rest⟩ := result
      have le := shorter tokens e rest read
      simp only [bind, Except.bind]
      split
      · next left =>
        rw [List.length_cons] at le
        rw [ih (show left.length < m by omega) (show left.length < n by omega)]
      · rfl

/-- A list of at least one item, with as many steps as there may be to read. -/
def list (construct : Unclosed) (n stop : Nat) : Step (List Expr) := fun tokens =>
  itemsFrom stop (level stop n).expression construct (tokens.length + 1) tokens

/-- The rest of such a list after an item: others after a comma, or the mark that completes it. -/
def listAfter (construct : Unclosed) (n stop : Nat) : Expr × List Token →
    Except ParseError (List Expr × List Token)
  | (e, ⟨.mark .comma, _⟩ :: tokens) => do
    let (rest, tokens) ← list construct n stop tokens
    pure (e :: rest, tokens)
  | (e, tokens) => do
    let tokens ← close stop construct tokens
    pure ([e], tokens)

theorem length_le_of_expression {n : Nat} {e : Expr} {rest : List Token}
    (read : (level stop n).expression tokens = .ok (e, rest)) : rest.length ≤ tokens.length := by
  have keeps := (level_reads stop n).expression tokens
  rw [read] at keeps
  obtain ⟨used, rfl, -⟩ := keeps
  rw [List.length_append]
  exact Nat.le_add_left ..

/-- A list is an item and then its rest. -/
theorem list_eq (construct : Unclosed) (n stop : Nat) (tokens : List Token) :
    list construct n stop tokens =
      ((level stop n).expression tokens >>= listAfter construct n stop) := by
  rw [list, itemsFrom]
  cases read : (level stop n).expression tokens with
  | error => rfl
  | ok result =>
    obtain ⟨e, rest⟩ := result
    have le := length_le_of_expression read
    simp only [bind, Except.bind]
    split
    · next left =>
      rw [List.length_cons] at le
      have fewer : left.length < tokens.length := by omega
      rw [itemsFrom_congr (fun _ _ _ => length_le_of_expression) fewer left.length.lt_succ_self]
      rfl
    · next noComma =>
      rw [listAfter]
      · rfl
      · exact noComma

/-- There is a list to read unless it is completed at once. -/
theorem items_eq_list {n : Nat} (h : Lacks construct.mark tokens) :
    items stop (level stop n).expression construct tokens = list construct n stop tokens := by
  rw [items, close_of_lacks h]
  rfl

end

/-! ## Conditionals -/

/-- The rest of an expression after its condition. -/
def conditionalAfter (m stop : Nat) : Expr × List Token → Except ParseError (Expr × List Token)
  | (c, ⟨.mark .question, p⟩ :: tokens) => do
    let (a, tokens) ← (level stop m).expression tokens
    let tokens ← close stop .conditional tokens
    let (b, tokens) ← (level stop m).expression tokens
    pure (.conditional p c a b, tokens)
  | (c, tokens) => .ok (c, tokens)

theorem conditionalAfter_of_lacks {m : Nat} {c : Expr} {t : List Token} (h : Lacks .question t) :
    conditionalAfter m stop (c, t) = .ok (c, t) := by
  rw [conditionalAfter]
  exact h

/-- An expression is a condition and then its rest. -/
theorem conditional_eq (m stop : Nat) (tokens : List Token) :
    expressionOf stop (some (level stop m)) tokens =
      ((level stop m).chain 1 tokens >>= conditionalAfter m stop) := by
  show conditional stop _ _ tokens = _
  rw [conditional]
  cases (level stop m).chain 1 tokens with
  | error => rfl
  | ok result =>
    obtain ⟨c, rest⟩ := result
    simp only [bind, Except.bind]
    split
    · rfl
    · next none =>
      rw [conditionalAfter_of_lacks none]
      rfl

/-! ## The parsers of a level -/

theorem Ends.stopsBelow {rest : List Token} (h : Ends rest) (least : Nat) :
    StopsBelow least rest := by
  intro op p left same
  have none := h.operator op p left same
  cases op <;> exact absurd none (by decide)

/-- All parsers of a level are prompt. -/
structure Level.Prompts (n : Nat) : Prop where
  expression : ∀ stop tokens,
    Prompt (Starts filler) (fun stop => (level stop n).expression) stop tokens
  chain : ∀ least stop tokens,
    Prompt (Starts filler) (fun stop => (level stop n).chain least) stop tokens
  links : ∀ least left stop tokens,
    Prompt Ends (fun stop => (level stop n).links least left) stop tokens
  operand : ∀ stop tokens, Prompt (Starts filler) (fun stop => (level stop n).operand) stop tokens
  members : ∀ object stop tokens,
    Prompt Ends (fun stop => (level stop n).members object) stop tokens

section

variable {n : Nat}

theorem lacks_comma_of_starts {construct : Unclosed} {t : List Token}
    (h : Starts (.mark construct.mark) t) : Lacks .comma t := by
  obtain ⟨p, rest, rfl⟩ := h
  cases construct <;> nofun

theorem listAfter_of_lacks {construct : Unclosed} {e : Expr} {t : List Token} (h : Lacks .comma t) :
    listAfter construct n stop (e, t) = close stop construct t >>= fun t => .ok ([e], t) := by
  rw [listAfter]
  · rfl
  · exact h

theorem listAfter_mended (construct : Unclosed) (e : Expr) :
    Mended (Starts (.mark construct.mark)) (fun stop t => listAfter construct n stop (e, t)) []
      [.mark construct.mark] :=
  ((Mended.pure [e]).close_bind construct).congr fun _ _ begins =>
    listAfter_of_lacks (lacks_comma_of_starts (begins rfl))

theorem listAfter_prompt {construct : Unclosed} {tokens : List Token} (e : Expr)
    (others : ∀ p rest, tokens = ⟨.mark .comma, p⟩ :: rest →
      Prompt (Starts filler) (list construct n) stop rest) :
    Prompt (Starts (.mark construct.mark)) (fun stop t => listAfter construct n stop (e, t)) stop
      tokens := by
  rcases lacks_or_starts .comma tokens with lacks | ⟨p, rest, rfl⟩
  · refine (Prompt.close_bind (.pure [e]) fun _ _ _ => .pure [e]).congr fun stop t begins => ?_
    exact listAfter_of_lacks (begins.elim lacks.congr lacks_comma_of_starts)
  · exact .append [⟨.mark .comma, p⟩] nofun (fun _ _ => rfl)
      ((others p rest rfl).bind (fun _ => .pure _) fun _ _ _ _ => .pure _)

theorem primary_mended :
    Mended (Starts filler) (fun stop => primary stop (level stop n).expression) [] [filler] :=
  .filler fun p => ⟨.field p (utf8 "a"), fun _ _ ends => primary_field _ p ends.openParen⟩

theorem primary_failure {cause : Misreading} {token : Token} {rest : List Token}
    (h : ∀ stop rest, primary stop (level stop n).expression (token :: rest) =
      fail stop cause (token :: rest)) :
    Prompt (Starts filler) (fun stop => primary stop (level stop n).expression) stop
      (token :: rest) := by
  refine .fail cause (fun t same => ?_) primary_mended
  obtain ⟨rest, rfl⟩ := List.head?_eq_some_iff.mp same
  exact h stop rest

/-- A name is an expression whenever one construct may be opened. -/
theorem expression_mended (k : Nat) :
    Mended (Starts filler) (fun stop => (level stop (k + 1)).expression) [] [filler] :=
  .filler fun p => ⟨.field p (utf8 "a"), fun _ _ ends => expression_field _ p k ends⟩

section

variable (he : ∀ stop tokens,
  Prompt (Starts filler) (fun stop => (level stop n).expression) stop tokens)
include he

/-- After a comma there are fewer tokens, on which the induction is. -/
theorem list_prompt (construct : Unclosed) (stop : Nat) (tokens : List Token) :
    Prompt (Starts filler) (list construct n) stop tokens := by
  induction length : tokens.length using Nat.strongRecOn generalizing tokens with
  | ind k ih =>
    refine Prompt.congr ?_ fun stop t _ => list_eq construct n stop t
    refine (he stop tokens).bind (fun e => (listAfter_mended construct e).mono fun _ => .of_starts)
      fun used e rest split => ?_
    refine (listAfter_prompt e fun p left next => ?_).mono fun _ => .of_starts
    refine ih _ ?_ left rfl
    rw [← length, split, next, List.length_append, List.length_cons]
    omega

theorem items_prompt (construct : Unclosed) (stop : Nat) (tokens : List Token) :
    Prompt (Starts filler) (fun stop => items stop (level stop n).expression construct) stop
      tokens := by
  rcases lacks_or_starts construct.mark tokens with lacks | ⟨p, rest, rfl⟩
  · refine (list_prompt he construct stop tokens).congr fun stop t begins => items_eq_list ?_
    refine begins.elim lacks.congr ?_
    rintro ⟨p, rest, rfl⟩
    nofun
  · refine .append [⟨.mark construct.mark, p⟩] nofun (fun stop t => ?_) (.pure [])
    rw [List.singleton_append, items, close_mark]

theorem primary_prompt (stop : Nat) (tokens : List Token) :
    Prompt (Starts filler) (fun stop => primary stop (level stop n).expression) stop tokens := by
  match tokens with
  | [] =>
    refine .fail .endOfFormula (fun t same => ?_) primary_mended
    rw [List.head?_eq_none_iff.mp same]
    rfl
  | ⟨lexeme, p⟩ :: rest =>
    cases lexeme with
    | number | text | mention => exact .append [_] nofun (fun _ _ => rfl) (.pure _)
    | name name =>
      rcases lacks_or_starts .openParen rest with lacks | ⟨q, rest, rfl⟩
      · refine .result (.field p name) [⟨.name name, p⟩] nofun fun stop left follows => ?_
        exact primary_field name p (follows.elim lacks.congr fun ends => ends.openParen)
      · exact .append [⟨.name name, p⟩, ⟨.mark .openParen, q⟩] nofun (fun _ _ => rfl)
          ((items_prompt he .arguments stop rest).bind (fun _ => .pure _) fun _ _ _ _ => .pure _)
    | mark m =>
      cases m with
      | openParen =>
        exact .append [⟨.mark .openParen, p⟩] nofun (fun _ _ => rfl)
          ((he stop rest).bind
            (fun e => ((Mended.pure e).close_bind .parenthesis).mono fun _ => .of_starts)
            fun _ e _ _ => (Prompt.close_bind (.pure e) fun _ _ _ => .pure e).mono
              fun _ => .of_starts)
      | openBracket =>
        exact .append [⟨.mark .openBracket, p⟩] nofun (fun _ _ => rfl)
          ((items_prompt he .array stop rest).bind (fun _ => .pure _) fun _ _ _ _ => .pure _)
      | _ => exact primary_failure fun _ _ => rfl
    | operator | stray | eof => exact primary_failure fun _ _ => rfl

end

theorem conditionalAfter_prompt {m : Nat} (h : Level.Prompts m) (c : Expr) (stop : Nat)
    (tokens : List Token) :
    Prompt Ends (fun stop t => conditionalAfter m stop (c, t)) stop tokens := by
  rcases lacks_or_starts .question tokens with lacks | ⟨p, rest, rfl⟩
  · refine (Prompt.pure c).congr fun stop t begins => conditionalAfter_of_lacks ?_
    exact begins.elim lacks.congr fun ends => ends.question
  · cases m with
    | zero => exact .tooDeep rfl
    | succ k =>
      -- when the colon is missing, the branch after it is supplied too
      have whenFalse (a : Expr) : Mended (Starts filler) (fun stop t =>
          (level stop (k + 1)).expression t >>= fun (b, t) => .ok (Expr.conditional p c a b, t)) []
            [filler] :=
        (expression_mended k).bind fun b => .pure (Expr.conditional p c a b)
      have last (a : Expr) (rest : List Token) : Prompt (Starts filler) (fun stop t =>
          (level stop (k + 1)).expression t >>= fun (b, t) => .ok (Expr.conditional p c a b, t))
            stop rest :=
        (h.expression stop rest).bind (fun b => .pure (Expr.conditional p c a b))
          fun _ b _ _ => .pure (Expr.conditional p c a b)
      exact .append [⟨.mark .question, p⟩] nofun (fun _ _ => rfl)
        ((h.expression stop rest).bind
          (fun a => ((whenFalse a).close_bind .conditional).mono fun _ => .of_starts)
          fun _ a rest _ => (Prompt.close_bind (whenFalse a) fun _ rest _ => last a rest).mono
            fun _ => .of_starts)

section

variable (h : ∀ m, n = m + 1 → Level.Prompts m)
include h

theorem membersOf_prompt (object : Expr) (stop : Nat) (tokens : List Token) :
    Prompt Ends (fun stop => membersOf stop (below? stop n) object) stop tokens := by
  rcases lacks_or_starts .dot tokens with lacks | ⟨p, rest, rfl⟩
  · refine (Prompt.pure object).congr fun stop t begins => membersOf_of_lacks ?_
    exact begins.elim lacks.congr fun ends => ends.dot
  · cases n with
    | zero => exact .tooDeep rfl
    | succ m =>
      by_cases named : ∃ property q left, rest = ⟨.name property, q⟩ :: left
      · obtain ⟨property, q, left, rfl⟩ := named
        exact .append [⟨.mark .dot, p⟩, ⟨.name property, q⟩] nofun (fun _ _ => rfl)
          ((h m rfl).members (.member p object property) stop left)
      · have property : Mended Ends (fun stop => membersOf stop (below? stop (m + 1)) object)
            ([⟨.mark .dot, p⟩] ++ []) [Parser.filler] :=
          .append nofun (fun _ _ => rfl) (.filler fun _ =>
            ⟨.member p object (utf8 "a"), fun _ _ ends => level_members_of_lacks m _ ends.dot⟩)
        refine .failure .noProperty (fun left same => ?_) property
        simp only [List.singleton_append, membersOf, below?]
        split
        · next name q rest' =>
          obtain ⟨rest, rfl⟩ := List.head?_eq_some_iff.mp same.symm
          exact absurd ⟨name, q, rest, rfl⟩ named
        · rfl

theorem linksOf_prompt (least : Nat) (left : Expr) (stop : Nat) (tokens : List Token) :
    Prompt Ends (fun stop => linksOf (below? stop n) least left) stop tokens := by
  by_cases stops : StopsBelow least tokens
  · refine (Prompt.pure left).congr fun stop t begins => linksOf_of_stopsBelow ?_
    exact begins.elim stops.congr fun ends => ends.stopsBelow least
  · simp only [StopsBelow, not_forall] at stops
    obtain ⟨op, p, rest, rfl, links⟩ := stops
    cases n with
    | zero => exact .tooDeep (if_neg links)
    | succ m =>
      exact .append [⟨.operator op, p⟩] nofun (fun _ _ => if_neg links)
        (((h m rfl).chain (op.precedence + 1) stop rest).bind
          (fun right => (Mended.pure (.binary p op left right)).congr fun _ _ begins =>
            level_links_of_stopsBelow m _ ((begins rfl).stopsBelow least))
          fun _ right rest _ => (h m rfl).links least (.binary p op left right) stop rest)

theorem expressionOf_prompt (stop : Nat) (tokens : List Token) :
    Prompt (Starts filler) (fun stop => expressionOf stop (below? stop n)) stop tokens := by
  cases n with
  | zero => exact .tooDeep rfl
  | succ m =>
    refine Prompt.congr ?_ fun stop t _ => conditional_eq m stop t
    exact ((h m rfl).chain 1 stop tokens).bind
      (fun c => (Mended.pure c).congr fun _ _ begins =>
        conditionalAfter_of_lacks (begins rfl).question)
      fun _ c rest _ => conditionalAfter_prompt (h m rfl) c stop rest

/-- An operand begins with a minus, or else with a primary. -/
theorem operandOf_prompt
    (he : ∀ stop tokens, Prompt (Starts filler) (fun stop => (level stop n).expression) stop tokens)
    (stop : Nat) (tokens : List Token) :
    Prompt (Starts filler)
      (fun stop => operandOf stop (below? stop n) (level stop n).expression) stop tokens := by
  by_cases minus : Starts (.operator .subtract) tokens
  · obtain ⟨p, rest, rfl⟩ := minus
    cases n with
    | zero => exact .tooDeep rfl
    | succ m =>
      exact .append [⟨.operator .subtract, p⟩] nofun (fun _ _ => rfl)
        (((h m rfl).operand stop rest).bind (fun _ => .pure _) fun _ _ _ _ => .pure _)
  · refine Prompt.congr ((primary_prompt he stop tokens).bind
      (f := fun stop (e, rest) => membersOf stop (below? stop n) e rest)
      (fun e => (Mended.pure e).congr fun stop t begins => membersOf_of_lacks (begins rfl).dot)
      fun _ e rest _ => membersOf_prompt h e stop rest) fun stop t begins => ?_
    refine operandOf_eq ?_
    rintro p rest rfl
    rcases begins with same | ⟨q, rest', same⟩
    · obtain ⟨rest, rfl⟩ := List.head?_eq_some_iff.mp same.symm
      exact minus ⟨p, rest, rfl⟩
    · cases same

end

/-- Each level is made from parsers that are prompt. -/
theorem Level.Prompts.of_below (h : ∀ m, n = m + 1 → Level.Prompts m) : Level.Prompts n := by
  have expression (stop : Nat) (tokens : List Token) :
      Prompt (Starts filler) (fun stop => (level stop n).expression) stop tokens :=
    (expressionOf_prompt h stop tokens).congr fun stop t _ => by cases n <;> rfl
  have operand (stop : Nat) (tokens : List Token) :
      Prompt (Starts filler) (fun stop => (level stop n).operand) stop tokens :=
    (operandOf_prompt h expression stop tokens).congr fun stop t _ => by cases n <;> rfl
  have links (least : Nat) (left : Expr) (stop : Nat) (tokens : List Token) :
      Prompt Ends (fun stop => (level stop n).links least left) stop tokens :=
    (linksOf_prompt h least left stop tokens).congr fun stop t _ => by cases n <;> rfl
  have members (object : Expr) (stop : Nat) (tokens : List Token) :
      Prompt Ends (fun stop => (level stop n).members object) stop tokens :=
    (membersOf_prompt h object stop tokens).congr fun stop t _ => by cases n <;> rfl
  refine { expression, operand, links, members, chain := fun least stop tokens => ?_ }
  refine Prompt.congr ((operand stop tokens).bind
    (f := fun stop (e, rest) => (level stop n).links least e rest)
    (fun e => (Mended.pure e).congr fun stop t begins => ?_)
    fun _ e rest _ => links least e stop rest) fun stop t _ => by cases n <;> rfl
  exact level_links_of_stopsBelow n e ((begins rfl).stopsBelow least)

theorem level_prompts : ∀ n, Level.Prompts n
  | 0 => .of_below fun _ none => nomatch none
  | n + 1 => .of_below fun _ below => Nat.succ.inj below ▸ level_prompts n

end

/-! ## Formulas -/

/-- A formula is an expression with nothing after it. -/
def whole : Expr × List Token → Except ParseError Expr
  | (e, []) => .ok e
  | (_, token :: _) => .error ⟨.trailing token.lexeme.bytes, token.position⟩

theorem formula_of_ne_nil {tokens : List Token} (h : tokens ≠ []) :
    formula stop tokens = ((level stop depth).expression tokens >>= whole) := by
  rw [formula]
  · refine congrArg _ (funext fun result => ?_)
    obtain ⟨e, left⟩ := result
    cases left <;> rfl
  · exact h

/-- The tokens begin a formula, which certain lexemes complete wherever they stand. -/
def Completable (before : List Token) : Prop :=
  ∃ lexemes, (∀ lexeme ∈ lexemes, Lexeme.OneByte lexeme) ∧
    ∀ tail, tail.map (·.lexeme) = lexemes → ∃ e, ∀ stop, formula stop (before ++ tail) = .ok e

/-- Tokens go wrong at the first of `after`, or at the end if there is none: it does not matter what
comes behind that, and nothing is wrong with the tokens before it. -/
structure Misread (stop : Nat) (cause : Misreading) (before after : List Token) : Prop where
  fails : ∀ left, left.head? = after.head? →
    formula stop (before ++ left) = fail stop cause left
  completable : Completable before

/-- Mended tokens are a formula. -/
theorem Completable.of_mended {before : List Token} {lexemes : List Lexeme}
    (h : Mended (Starts filler) (fun stop => (level stop depth).expression) before lexemes) :
    Completable before := by
  refine ⟨lexemes, h.oneByte, fun tail mends => ?_⟩
  obtain ⟨e, reads⟩ := h.reads tail mends
  have nonempty : before ++ tail ≠ [] := by
    intro none
    obtain ⟨rfl, rfl⟩ := List.append_eq_nil_iff.mp none
    obtain ⟨p, rest, same⟩ := h.begins rfl [] [] mends .nil
    cases same
  refine ⟨e, fun stop => ?_⟩
  have read := reads stop [] .nil
  rw [List.append_nil] at read
  rw [formula_of_ne_nil nonempty]
  exact bind_of_eq_ok read rfl

theorem Misread.nil : Misread stop .empty [] [] where
  fails left same := by
    rw [List.head?_eq_none_iff.mp same]
    rfl
  completable := .of_mended (expression_mended 255)

/-- The error of the expression is that of the formula. -/
theorem Misread.of_mended {before after : List Token} {cause : Misreading} {lexemes : List Lexeme}
    (fails : ∀ left, left.head? = after.head? →
      (level stop depth).expression (before ++ left) = fail stop cause left)
    (mended : Mended (Starts filler) (fun stop => (level stop depth).expression) before lexemes)
    (nonempty : before ++ after ≠ []) : Misread stop cause before after where
  fails left same := by
    have begins : before ++ left ≠ [] := by
      intro none
      obtain ⟨rfl, rfl⟩ := List.append_eq_nil_iff.mp none
      exact nonempty (List.head?_eq_none_iff.mp same.symm)
    rw [formula_of_ne_nil begins]
    exact bind_of_eq_error (fails left same)
  completable := .of_mended mended

/-- An expression that is a formula by itself goes wrong at the token after it. -/
theorem Misread.of_trailing {used rest : List Token} {token : Token} {e : Expr} (taken : used ≠ [])
    (reads : ∀ stop left, left.head? = some token ∨ Ends left →
      (level stop depth).expression (used ++ left) = .ok (e, left)) :
    Misread stop (.trailing token.lexeme.bytes) used (token :: rest) where
  fails left same := by
    obtain ⟨left, rfl⟩ := List.head?_eq_some_iff.mp same
    rw [formula_of_ne_nil (List.append_ne_nil_of_left_ne_nil taken _)]
    exact bind_of_eq_ok (reads stop (token :: left) (.inl rfl)) rfl
  completable := by
    refine ⟨[], List.forall_mem_nil _, fun tail none => ⟨e, fun stop => ?_⟩⟩
    rw [List.map_eq_nil_iff.mp none,
      formula_of_ne_nil (List.append_ne_nil_of_left_ne_nil taken _)]
    exact bind_of_eq_ok (reads stop [] (.inr .nil)) rfl

/-- Tokens that are not a formula go wrong at one of them or at the end. -/
theorem exists_misread {tokens : List Token} {error : ParseError}
    (h : formula stop tokens = .error error) (shallow : error.cause ≠ .tooDeep) :
    ∃ before after, tokens = before ++ after ∧ error.position = position stop after ∧
      Misread stop error.cause before after := by
  by_cases empty : tokens = []
  · subst empty
    cases h
    exact ⟨[], [], rfl, rfl, .nil⟩
  · rw [formula_of_ne_nil empty] at h
    cases (level_prompts depth).expression stop tokens with
    | @result e used rest nonempty reads =>
      rw [reads stop rest (.inl rfl)] at h
      have taken : used ≠ [] := fun none => by
        obtain ⟨p, rest, same⟩ := nonempty none [] .nil
        cases same
      cases rest with
      | nil => cases h
      | cons token rest =>
        cases h
        exact ⟨used, token :: rest, rfl, rfl, Misread.of_trailing taken reads⟩
    | tooDeep fails =>
      rw [fails] at h
      cases h
      exact absurd rfl shallow
    | @failure cause before after lexemes fails mended =>
      rw [fails after rfl] at h
      cases h
      exact ⟨before, after, rfl, rfl, Misread.of_mended fails mended empty⟩

/-- With the token at which an error is, or with the end when that is where it is, the tokens before
it do not begin a formula. -/
theorem Misread.not_prefix {before after : List Token} {cause : Misreading}
    (misread : Misread stop cause before after) (shallow : cause ≠ .tooDeep)
    (regular : ∀ token ∈ after, token.lexeme ≠ .eof) {stop' : Nat} {tokens : List Token} {e : Expr}
    (h : formula stop' tokens = .ok e) :
    ¬ before.map (·.lexeme) ++ [(after.head?.map (·.lexeme)).getD .eof] <+:
      tokens.map (·.lexeme) ++ [.eof] := by
  have phrase := derives_of_formula h
  -- the lexemes of a formula that begins like this are refused at the places of the source too
  have none (left : List Token) (head : left.head? = after.head?)
      (same : (before ++ left).map (·.lexeme) = tokens.map (·.lexeme)) : False := by
    obtain ⟨e', derives⟩ := phrase.of_lexemes same
    have refused := misread.fails left head
    rcases @formula_of_derives stop _ _ derives with read | ⟨p, deep⟩
    · rw [refused] at read
      cases read
    · rw [refused] at deep
      cases deep
      exact shallow rfl
  intro begins
  rcases List.prefix_concat_iff.mp begins with same | inside
  · obtain ⟨alike, last⟩ := List.append_inj' same rfl
    cases after with
    | nil => exact none [] rfl (by rw [List.append_nil]; exact alike)
    | cons token rest =>
      exact regular token (List.mem_cons_self ..) (List.singleton_inj.mp last)
  · cases after with
    | nil =>
      have mem : Lexeme.eof ∈ tokens.map (·.lexeme) :=
        inside.subset (List.mem_append_right _ (List.mem_singleton_self _))
      obtain ⟨token, inTokens, isEof⟩ := List.mem_map.mp mem
      exact (phrase.regular token inTokens).1 isEof
    | cons token rest =>
      obtain ⟨more, same⟩ := inside
      refine none (token :: more.map (Token.mk · 0)) rfl ?_
      rw [← same]
      simp [Function.comp_def]

/-- There is a source for tokens of another source with those that complete them. -/
theorem Completable.exists_source {before : List Token} (completable : Completable before)
    {source : Text} {token : Token} {after : List Token}
    (split : tokenize source = before ++ token :: after) :
    ∃ completed e, parse completed = .ok e ∧ before <+: tokenize completed := by
  obtain ⟨lexemes, oneByte, completes⟩ := completable
  have regular : ∀ token ∈ before, ∀ b, token.lexeme ≠ .stray b := by
    obtain ⟨e, read⟩ := completes (lexemes.map (Token.mk · 0)) (by simp [Function.comp_def])
    have phrase := (derives_of_formula (read 0)).regular
    exact fun token mem => (phrase token (List.mem_append_left _ mem)).2
  have isBlank : Text.blank 32 = true := rfl
  have scan := Token.scan_append_blank split regular isBlank (Lexeme.spaced lexemes)
  obtain ⟨e, read⟩ := completes _ (Lexeme.map_lexeme_scanFrom_spaced oneByte (token.position + 1))
  refine ⟨source.take token.position ++ 32 :: Lexeme.spaced lexemes, e, ?_, ?_⟩
  · rw [parse, scan]
    exact read _
  · rw [tokenize, scan, List.append_assoc]
    exact List.prefix_append ..

end Parser

/-- Where a source is not a formula, that shows at its first token with which no formula goes on:
the tokens before it begin a formula, and with it they begin none, wherever they stand. The
exception is nesting that is too deep, which is an error of its own. -/
theorem parse_first_error {source : Text} {error : ParseError} (h : parse source = .error error)
    (shallow : error.cause ≠ .tooDeep) :
    ∃ before token after, tokenize source = before ++ token :: after ∧
      token.position = error.position ∧
      (∀ other ∈ before ++ after, other.position ≠ error.position) ∧
      (∃ completed e, parse completed = .ok e ∧ before <+: tokenize completed) ∧
      ∀ stop tokens e, Parser.formula stop tokens = .ok e →
        ¬ (before ++ [token]).map (·.lexeme) <+: tokens.map (·.lexeme) ++ [.eof] := by
  obtain ⟨before, rest, scanned, located, misread⟩ := Parser.exists_misread h shallow
  -- the error is at the first of the rest, or at the end of the source if there is no rest
  obtain ⟨token, after, ending, place, lexeme⟩ : ∃ token after,
      rest ++ [⟨.eof, source.length⟩] = token :: after ∧
      token.position = Parser.position source.length rest ∧
      token.lexeme = (rest.head?.map (·.lexeme)).getD .eof := by
    cases rest with
    | nil => exact ⟨_, [], rfl, rfl, rfl⟩
    | cons token rest => exact ⟨token, _, rfl, rfl, rfl⟩
  have split : tokenize source = before ++ token :: after := by
    rw [tokenize, scanned, List.append_assoc, ending]
  have regular : ∀ token ∈ rest, token.lexeme ≠ .eof := by
    have regular := (Token.pairwise_scanFrom 0 0 source).1
    rw [← Token.scan, scanned] at regular
    exact fun token mem => (regular token (List.mem_append_right before mem)).1
  rw [← located] at place
  refine ⟨before, token, after, split, place, ?_, misread.completable.exists_source split,
    fun stop tokens e read => ?_⟩
  · rw [← place]
    exact Token.position_ne_of_eq_append split
  · rw [List.map_append, List.map_singleton, lexeme]
    exact misread.not_prefix shallow regular read

/-- A condition in a call lacks its second branch, which shows at the mark that closes the call. -/
theorem parse_first_error_of_one_branch :
    let source := utf8 "f(a ? b)"
    let error : ParseError := ⟨.unclosed .conditional, 7⟩
    parse source = .error error ∧ error.cause ≠ .tooDeep ∧
      ∃ before token after, tokenize source = before ++ token :: after ∧ token.position = 7 ∧
        (∀ other ∈ before ++ after, other.position ≠ 7) ∧
        (∃ completed e, parse completed = .ok e ∧ before <+: tokenize completed) ∧
        ∀ stop tokens e, Parser.formula stop tokens = .ok e →
          ¬ (before ++ [token]).map (·.lexeme) <+: tokens.map (·.lexeme) ++ [.eof] := by
  intro source error
  have refused : parse source = .error error := by rfl
  have shallow : error.cause ≠ .tooDeep := nofun
  exact ⟨refused, shallow, parse_first_error refused shallow⟩

end ComputedFields
