import ComputedFields.Proofs.Soundness

/-!
# `ComputedFields.Proofs.Completeness` — what is a phrase is read

The parser never looks back, so whether it reads a phrase as a whole depends on what comes after it.
After `a * b` an operator of a sum ends the product, but a point belongs to `b`. `Follows` and `Ends`
say of each layer what may come next, and a phrase is read up to there.

The limit on nesting may get in the way at every step, and a chain opens constructs that are closed
only after it: when a chain has been read, the rest is left to the parser of some level below, and it
does not matter which. So what holds of a phrase is said of all levels at once, up to the error for
nesting too deeply, and is proved by induction on the derivation.

* `Derives.exists_first` — how phrases begin;
* `UpToDepth` — an outcome, or the error for nesting too deeply;
* `Follows`, `Ends` — what may come after a chain and after an expression;
* `Accepts`, `accepts_of_derives` — a phrase of each layer is read;
* `parse_grammar` — what is read is grammatical, what is grammatical is read, and all else is a parse
  error with a position.
-/

namespace ComputedFields

/-! ## How phrases begin -/

/-- A phrase has a first token, which is no mark but an opening one; and only from negations on may
it be an operator. -/
theorem Derives.exists_first {layer : Layer} {tokens : List Token} {e : Expr}
    (h : Derives layer tokens e) : ∃ first rest, tokens = first :: rest ∧
      (∀ m, first.lexeme = .mark m → m = .openParen ∨ m = .openBracket) ∧
      ((layer = .path ∨ layer = .primary) → ∀ op, first.lexeme ≠ .operator op) := by
  induction h with
  | @next layer next tokens e step _ ih =>
    obtain ⟨first, rest, rfl, mark, operator⟩ := ih
    refine ⟨first, rest, rfl, mark, fun tight => operator ?_⟩
    rcases tight with rfl | rfl
    · exact .inr (Option.some.inj step).symm
    · cases step
  | conditional _ _ _ ih _ _ =>
    obtain ⟨first, rest, rfl, mark, -⟩ := ih
    exact ⟨first, _, rfl, mark, fun tight => by simp at tight⟩
  | @binary layer next op _ _ _ _ _ same _ _ _ ih _ =>
    obtain ⟨first, rest, rfl, mark, -⟩ := ih
    refine ⟨first, _, rfl, mark, fun tight => ?_⟩
    -- the layer of an operator is none of the two
    subst same
    cases op <;> simp [Operator.layer] at tight
  | negate => exact ⟨_, _, rfl, nofun, fun tight => by simp at tight⟩
  | member _ ih =>
    obtain ⟨first, rest, rfl, mark, operator⟩ := ih
    exact ⟨first, _, rfl, mark, fun _ => operator (.inl rfl)⟩
  | number | text | mention | field | call => exact ⟨_, _, rfl, nofun, fun _ => nofun⟩
  | parenthesis =>
    exact ⟨_, _, rfl, fun m same => .inl (Lexeme.mark.inj same).symm, fun _ => nofun⟩
  | array =>
    exact ⟨_, _, rfl, fun m same => .inr (Lexeme.mark.inj same).symm, fun _ => nofun⟩

namespace Parser

/-! ## Outcomes up to the limit on nesting -/

/-- What comes after a parser that has succeeded. -/
theorem bind_of_eq_ok {α β : Type} {x : Except ParseError α} {a : α} (h : x = .ok a)
    {f : α → Except ParseError β} {y : Except ParseError β} (next : f a = y) : (x >>= f) = y := by
  rw [h]
  exact next

theorem bind_of_eq_error {α β : Type} {x : Except ParseError α} {error : ParseError} (h : x = .error error)
    {f : α → Except ParseError β} : (x >>= f) = .error error := by
  rw [h]
  rfl

/-- An outcome is a given one, unless the limit on nesting is in the way. -/
def UpToDepth {α : Type} (x y : Except ParseError α) : Prop :=
  x = y ∨ ∃ p, x = .error ⟨.tooDeep, p⟩

namespace UpToDepth

variable {α β : Type}

theorem refl (x : Except ParseError α) : UpToDepth x x := .inl rfl

theorem trans {x y z : Except ParseError α} (h : UpToDepth x y) (h' : UpToDepth y z) :
    UpToDepth x z := by
  rcases h with rfl | deep
  · exact h'
  · exact .inr deep

theorem bind {x : Except ParseError α} {a : α} (h : UpToDepth x (.ok a))
    {f : α → Except ParseError β} {y : Except ParseError β} (next : UpToDepth (f a) y) :
    UpToDepth (x >>= f) y := by
  rcases h with rfl | ⟨p, rfl⟩
  · exact next
  · exact .inr ⟨p, rfl⟩

end UpToDepth

/-! ## How phrases end -/

/-- The tokens do not begin with a mark. -/
def Lacks (m : Mark) (tokens : List Token) : Prop :=
  ∀ p rest, tokens ≠ ⟨.mark m, p⟩ :: rest

/-- What comes after a chain of operators of a precedence does not go on with its last operand, nor
with a tighter operator. -/
structure Follows (k : Nat) (rest : List Token) : Prop where
  openParen : Lacks .openParen rest
  dot : Lacks .dot rest
  operator : StopsBelow (k + 1) rest

/-- What comes after an expression does not go on with it. -/
structure Ends (rest : List Token) : Prop extends Follows 0 rest where
  question : Lacks .question rest

theorem Ends.nil : Ends [] := ⟨⟨nofun, nofun, nofun⟩, nofun⟩

theorem Ends.comma (p : Nat) (rest : List Token) : Ends (⟨.mark .comma, p⟩ :: rest) :=
  ⟨⟨nofun, nofun, nofun⟩, nofun⟩

theorem Ends.close (construct : Unclosed) (p : Nat) (rest : List Token) :
    Ends (⟨.mark construct.mark, p⟩ :: rest) := by
  cases construct <;> exact ⟨⟨nofun, nofun, nofun⟩, nofun⟩

theorem Follows.mono {k l : Nat} (le : k ≤ l) {rest : List Token} (h : Follows k rest) :
    Follows l rest where
  openParen := h.openParen
  dot := h.dot
  operator op p left same := Nat.lt_of_lt_of_le (h.operator op p left same) (Nat.succ_le_succ le)

theorem Follows.of_operator (op : Operator) (p : Nat) (rest : List Token) :
    Follows op.precedence (⟨.operator op, p⟩ :: rest) := by
  refine ⟨nofun, nofun, fun op' p' rest' same => ?_⟩
  injection same with first
  injection first with first
  injection first with first
  exact first ▸ Nat.lt_succ_self _

theorem Follows.question (k p : Nat) (rest : List Token) :
    Follows k (⟨.mark .question, p⟩ :: rest) :=
  ⟨nofun, nofun, nofun⟩

variable {stop : Nat}

theorem membersOf_of_lacks {below : Option Level} {object : Expr} {rest : List Token}
    (h : Lacks .dot rest) : membersOf stop below object rest = .ok (object, rest) := by
  unfold membersOf
  split
  · exact absurd rfl (h _ _)
  · rfl

theorem linksOf_of_stopsBelow {below : Option Level} {least : Nat} {left : Expr}
    {rest : List Token} (h : StopsBelow least rest) :
    linksOf below least left rest = .ok (left, rest) := by
  unfold linksOf
  split
  · exact if_pos (h _ _ _ rfl)
  · rfl

theorem conditional_eq_of_lacks {branch condition : Step Expr} {c : Expr}
    {tokens rest : List Token} (h : condition tokens = .ok (c, rest))
    (lacks : Lacks .question rest) :
    conditional stop branch condition tokens = .ok (c, rest) := by
  refine bind_of_eq_ok h ?_
  dsimp only
  split
  · exact absurd rfl (lacks _ _)
  · rfl

theorem conditional_of_lacks {branch condition : Step Expr} {c : Expr} {tokens rest : List Token}
    (h : UpToDepth (condition tokens) (.ok (c, rest))) (lacks : Lacks .question rest) :
    UpToDepth (conditional stop branch condition tokens) (.ok (c, rest)) := by
  rcases h with same | ⟨p, deep⟩
  · exact .inl (conditional_eq_of_lacks same lacks)
  · rw [conditional, deep]
    exact .inr ⟨p, rfl⟩

/-! ## Lists -/

/-- A list with its completing mark is read, with as many steps as it has parts. -/
theorem itemsFrom_accepts {expression : Step Expr} {parts : List (List Token × Expr)}
    {list : List Token} (construct : Unclosed) (q : Nat) (rest : List Token)
    (separated : Separated (parts.map (·.1)) list) (nonempty : parts ≠ [])
    (accepts : ∀ part ∈ parts, ∀ rest, Ends rest →
      UpToDepth (expression (part.1 ++ rest)) (.ok (part.2, rest)))
    {n : Nat} (enough : parts.length ≤ n) :
    UpToDepth
      (itemsFrom stop expression construct n (list ++ ⟨.mark construct.mark, q⟩ :: rest))
      (.ok (parts.map (·.2), rest)) := by
  induction parts generalizing list n with
  | nil => exact absurd rfl nonempty
  | cons part others ih =>
    obtain ⟨tokens, e⟩ := part
    obtain ⟨n, rfl⟩ := Nat.exists_eq_add_of_le' enough
    obtain ⟨first, later⟩ := List.forall_mem_cons.mp accepts
    cases others with
    | nil =>
      cases separated
      refine (first _ (.close construct q rest)).bind ?_
      cases construct <;> exact .refl _
    | cons second others =>
      cases separated with
      | @more _ _ all _ p separated =>
        rw [List.append_assoc]
        refine (first _ (.comma p _)).bind ?_
        refine (ih separated (List.cons_ne_nil _ _) later ?_).bind (.refl _)
        exact Nat.le_add_left _ _

theorem length_le_of_separated {parts : List (List Token)} {list : List Token}
    (h : Separated parts list) : parts.length ≤ list.length + 1 := by
  induction h with
  | nil => exact Nat.zero_le _
  | one => exact Nat.le_add_left _ _
  | more _ ih =>
    simp only [List.length_cons, List.length_append] at ih ⊢
    omega

theorem exists_append_of_separated {tokens list : List Token} {others : List (List Token)}
    (h : Separated (tokens :: others) list) : ∃ rest, list = tokens ++ rest := by
  cases h with
  | one => exact ⟨[], (List.append_nil _).symm⟩
  | more => exact ⟨_, rfl⟩

theorem close_of_lacks {construct : Unclosed} {tokens : List Token}
    (h : Lacks construct.mark tokens) :
    close stop construct tokens = fail stop (.unclosed construct) tokens := by
  rcases close_cases stop construct tokens with ⟨p, rest, rfl, -⟩ | missed
  · exact absurd rfl (h p rest)
  · exact missed

theorem close_of_ne {construct : Unclosed} {first : Token} {rest : List Token}
    (h : first.lexeme ≠ .mark construct.mark) :
    close stop construct (first :: rest) = fail stop (.unclosed construct) (first :: rest) :=
  close_of_lacks fun _ _ same => h (congrArg Token.lexeme (List.cons.inj same).1)

/-- A list is not taken for an empty one: its first phrase does not begin with a closing mark. -/
theorem items_accepts {expression : Step Expr} {parts : List (List Token × Expr)}
    {list : List Token} (construct : Unclosed) (q : Nat) (rest : List Token)
    (separated : Separated (parts.map (·.1)) list)
    (derives : ∀ part ∈ parts, Derives .expression part.1 part.2)
    (accepts : ∀ part ∈ parts, ∀ rest, Ends rest →
      UpToDepth (expression (part.1 ++ rest)) (.ok (part.2, rest))) :
    UpToDepth (items stop expression construct (list ++ ⟨.mark construct.mark, q⟩ :: rest))
      (.ok (parts.map (·.2), rest)) := by
  match parts, separated, derives, accepts with
  | [], .nil, _, _ =>
    rw [items, List.nil_append, close_mark]
    exact .refl _
  | (tokens, e) :: others, separated, derives, accepts =>
    obtain ⟨first, inner, rfl, opening, -⟩ :=
      (derives (tokens, e) (List.mem_cons_self ..)).exists_first
    obtain ⟨later, rfl⟩ := exists_append_of_separated separated
    -- opening marks close nothing
    have other : first.lexeme ≠ .mark construct.mark := by
      intro same
      rcases opening _ same with open_ | open_ <;> cases construct <;> cases open_
    have missed : close stop construct
        (first :: (inner ++ later ++ ⟨.mark construct.mark, q⟩ :: rest)) = fail _ _ _ :=
      close_of_ne other
    have short := length_le_of_separated separated
    rw [List.map_cons, List.length_cons, List.length_map] at short
    simp only [List.cons_append] at missed separated short ⊢
    rw [items, missed]
    refine itemsFrom_accepts construct q rest separated (List.cons_ne_nil _ _) accepts ?_
    simp only [List.length_cons, List.length_append] at short ⊢
    omega

/-! ## Phrases that are read -/

/-- A chain is read up to what follows it: what is left to do are the links after it, at some level,
which may be none. -/
def AcceptsChain (stop k : Nat) (tokens : List Token) (e : Expr) : Prop :=
  ∀ n least rest, least ≤ k → Follows k rest → ∃ m,
    UpToDepth ((level stop n).chain least (tokens ++ rest)) ((level stop m).links least e rest)

/-- At every level, a phrase of a layer is read up to what follows it, unless the limit on nesting is
in the way. Of the layers that the parser reads in a loop, what is left is the rest of that loop. -/
def Accepts (stop : Nat) : Layer → List Token → Expr → Prop
  | .expression, tokens, e => ∀ n rest, Ends rest →
    UpToDepth ((level stop n).expression (tokens ++ rest)) (.ok (e, rest))
  | .comparison, tokens, e => AcceptsChain stop 1 tokens e
  | .sum, tokens, e => AcceptsChain stop 2 tokens e
  | .product, tokens, e => AcceptsChain stop 3 tokens e
  | .negation, tokens, e => ∀ n rest, Follows 4 rest →
    UpToDepth ((level stop n).operand (tokens ++ rest)) (.ok (e, rest))
  | .path, tokens, e => ∀ n rest, Lacks .openParen rest → ∃ m,
    UpToDepth ((level stop n).operand (tokens ++ rest)) ((level stop m).members e rest)
  | .primary, tokens, e => ∀ n rest, Lacks .openParen rest →
    UpToDepth (primary stop (level stop n).expression (tokens ++ rest)) (.ok (e, rest))

section

variable {tokens : List Token} {e : Expr}

/-- The level below, if there is one. -/
def below? (stop : Nat) : Nat → Option Level
  | 0 => none
  | n + 1 => some (level stop n)

theorem level_eq (stop n : Nat) : level stop n = Level.ofBelow stop (below? stop n) := by
  cases n <;> rfl

theorem level_members_of_lacks {rest : List Token} (n : Nat) (object : Expr)
    (h : Lacks .dot rest) : (level stop n).members object rest = .ok (object, rest) := by
  rw [level_eq]
  exact membersOf_of_lacks h

theorem level_links_of_stopsBelow {rest : List Token} {least : Nat} (n : Nat) (left : Expr)
    (h : StopsBelow least rest) : (level stop n).links least left rest = .ok (left, rest) := by
  rw [level_eq]
  exact linksOf_of_stopsBelow h

/-- A chain that is read up to tokens that end it is read. -/
theorem AcceptsChain.accepts {k : Nat} (h : AcceptsChain stop k tokens e) (n : Nat)
    {rest : List Token} (follows : Follows k rest) (stops : StopsBelow k rest) :
    UpToDepth ((level stop n).chain k (tokens ++ rest)) (.ok (e, rest)) := by
  obtain ⟨m, reads⟩ := h n k rest (Nat.le_refl k) follows
  rwa [level_links_of_stopsBelow m e stops] at reads

/-- An operand is a chain that has no link yet. -/
theorem AcceptsChain.of_negation (h : Accepts stop .negation tokens e) :
    AcceptsChain stop 4 tokens e := by
  intro n least rest _ follows
  refine ⟨n, ?_⟩
  have reads := h n rest follows
  cases n <;> exact reads.bind (.refl _)

theorem AcceptsChain.loosen {k : Nat} (h : AcceptsChain stop (k + 1) tokens e) :
    AcceptsChain stop k tokens e := by
  intro n least rest le follows
  exact h n least rest (Nat.le_succ_of_le le) (follows.mono (Nat.le_succ k))

/-- A chain and one operand more. -/
theorem AcceptsChain.link {op : Operator} {left right : List Token} {a b : Expr} {p : Nat}
    (ha : AcceptsChain stop op.precedence left a)
    (hb : AcceptsChain stop (op.precedence + 1) right b) :
    AcceptsChain stop op.precedence (left ++ ⟨.operator op, p⟩ :: right) (.binary p op a b) := by
  intro n least rest le follows
  obtain ⟨m, reads⟩ := ha n least _ le (.of_operator op p (right ++ rest))
  rw [List.append_assoc, List.cons_append]
  match m, reads with
  | 0, reads =>
    -- the operator is one construct too many
    refine ⟨0, reads.trans (.inr ⟨p, ?_⟩)⟩
    exact if_neg (Nat.not_lt.mpr le)
  | m + 1, reads =>
    -- the right operand is read at the level below, where the chain then goes on
    refine ⟨m, reads.trans ?_⟩
    have operand := hb.accepts m (follows.mono (Nat.le_succ _)) follows.operator
    have step : (level stop (m + 1)).links least a (⟨.operator op, p⟩ :: (right ++ rest)) =
        ((level stop m).chain (op.precedence + 1) (right ++ rest) >>= fun operand =>
          (level stop m).links least (.binary p op a operand.1) operand.2) :=
      if_neg (Nat.not_lt.mpr le)
    rw [step]
    exact operand.bind (.refl _)

theorem accepts_expression (h : Accepts stop .comparison tokens e) :
    Accepts stop .expression tokens e := by
  intro n rest ends
  match n with
  | 0 => exact .inr ⟨_, rfl⟩
  | n + 1 =>
    have reads := AcceptsChain.accepts h n (ends.toFollows.mono (Nat.zero_le 1)) ends.operator
    exact conditional_of_lacks reads ends.question

theorem accepts_conditional {condition whenTrue whenFalse : List Token} {c a b : Expr} {p q : Nat}
    (hc : Accepts stop .comparison condition c) (ha : Accepts stop .expression whenTrue a)
    (hb : Accepts stop .expression whenFalse b) :
    Accepts stop .expression
      (condition ++ ⟨.mark .question, p⟩ :: (whenTrue ++ ⟨.mark .colon, q⟩ :: whenFalse))
      (.conditional p c a b) := by
  intro n rest ends
  match n with
  | 0 => exact .inr ⟨_, rfl⟩
  | n + 1 =>
    simp only [List.append_assoc, List.cons_append]
    have stops := fun left => (Follows.question 0 p left).operator
    refine (AcceptsChain.accepts hc n (.question 1 p _) (stops _)).bind ?_
    refine (ha n _ (.close .conditional q _)).bind ?_
    exact (hb n rest ends).bind (.refl _)

theorem accepts_negate {p : Nat} (h : Accepts stop .negation tokens e) :
    Accepts stop .negation (⟨.operator .subtract, p⟩ :: tokens) (.negate p e) := by
  intro n rest follows
  match n with
  | 0 => exact .inr ⟨p, rfl⟩
  | n + 1 => exact (h n rest follows).bind (.refl _)

theorem accepts_negation (h : Accepts stop .path tokens e) : Accepts stop .negation tokens e := by
  intro n rest follows
  obtain ⟨m, reads⟩ := h n rest follows.openParen
  rwa [level_members_of_lacks m e follows.dot] at reads

theorem accepts_member {p q : Nat} {property : Text} (h : Accepts stop .path tokens e) :
    Accepts stop .path (tokens ++ [⟨.mark .dot, p⟩, ⟨.name property, q⟩])
      (.member p e property) := by
  intro n rest _
  rw [List.append_assoc]
  obtain ⟨m, reads⟩ := h n (⟨.mark .dot, p⟩ :: ⟨.name property, q⟩ :: rest) nofun
  match m, reads with
  | 0, reads => exact ⟨0, reads.trans (.inr ⟨p, rfl⟩)⟩
  | m + 1, reads => exact ⟨m, reads⟩

theorem operandOf_eq {below : Option Level} {expression : Step Expr}
    (h : ∀ p rest, tokens ≠ ⟨.operator .subtract, p⟩ :: rest) :
    operandOf stop below expression tokens =
      (primary stop expression tokens >>= fun (e, rest) => membersOf stop below e rest) := by
  unfold operandOf
  split
  · exact absurd rfl (h _ _)
  · rfl

/-- A primary does not begin with a minus, so that it is what an operand starts with. -/
theorem accepts_path (derives : Derives .primary tokens e) (h : Accepts stop .primary tokens e) :
    Accepts stop .path tokens e := by
  intro n rest lacks
  have reads := h n rest lacks
  obtain ⟨first, inner, rfl, -, operand⟩ := derives.exists_first
  refine ⟨n, ?_⟩
  rw [level_eq] at reads ⊢
  show UpToDepth (operandOf stop _ _ (first :: (inner ++ rest))) _
  have noMinus : ∀ p left, first :: (inner ++ rest) ≠ ⟨.operator .subtract, p⟩ :: left :=
    fun p left same => operand (.inr rfl) .subtract (congrArg Token.lexeme (List.cons.inj same).1)
  rw [operandOf_eq noMinus]
  exact reads.bind (.refl _)

theorem primary_field {expression : Step Expr} (name : Text) (p : Nat) {rest : List Token}
    (h : Lacks .openParen rest) :
    primary stop expression (⟨.name name, p⟩ :: rest) = .ok (.field p name, rest) := by
  match rest, h with
  | [], _ => rfl
  | ⟨lexeme, q⟩ :: left, h =>
    cases lexeme with
    | mark m =>
      cases m with
      | openParen => exact absurd rfl (h q left)
      | _ => rfl
    | _ => rfl

/-- A primary that nothing goes on with is a chain by itself. -/
theorem chain_of_primary {n k : Nat} {rest : List Token}
    (noMinus : ∀ p left, tokens ≠ ⟨.operator .subtract, p⟩ :: left)
    (h : primary stop (level stop n).expression tokens = .ok (e, rest)) (follows : Follows k rest) :
    (level stop n).chain (k + 1) tokens = .ok (e, rest) := by
  rw [level_eq] at h ⊢
  have operand : (Level.ofBelow stop (below? stop n)).operand tokens = .ok (e, rest) := by
    show operandOf stop _ _ tokens = _
    rw [operandOf_eq noMinus]
    exact bind_of_eq_ok h (membersOf_of_lacks follows.dot)
  exact bind_of_eq_ok operand (linksOf_of_stopsBelow follows.operator)

theorem expression_of_primary {n : Nat} {rest : List Token}
    (noMinus : ∀ p left, tokens ≠ ⟨.operator .subtract, p⟩ :: left)
    (h : primary stop (level stop n).expression tokens = .ok (e, rest)) (ends : Ends rest) :
    (level stop (n + 1)).expression tokens = .ok (e, rest) :=
  conditional_eq_of_lacks (chain_of_primary noMinus h ends.toFollows) ends.question

theorem chain_field (name : Text) (p n : Nat) {k : Nat} {rest : List Token}
    (follows : Follows k rest) :
    (level stop n).chain (k + 1) (⟨.name name, p⟩ :: rest) = .ok (.field p name, rest) :=
  chain_of_primary nofun (primary_field name p follows.openParen) follows

theorem expression_field (name : Text) (p n : Nat) {rest : List Token} (ends : Ends rest) :
    (level stop (n + 1)).expression (⟨.name name, p⟩ :: rest) = .ok (.field p name, rest) :=
  expression_of_primary nofun (primary_field name p ends.openParen) ends

theorem expression_mention (name : Text) (p n : Nat) {rest : List Token} (ends : Ends rest) :
    (level stop (n + 1)).expression (⟨.mention name, p⟩ :: rest) = .ok (.mention p name, rest) :=
  expression_of_primary nofun rfl ends

theorem accepts_field (name : Text) (p : Nat) :
    Accepts stop .primary [⟨.name name, p⟩] (.field p name) :=
  fun _ _ lacks => .inl (primary_field name p lacks)

theorem accepts_call {parts : List (List Token × Expr)} {list : List Token} {function : Text}
    {p q r : Nat} (derives : ∀ part ∈ parts, Derives .expression part.1 part.2)
    (separated : Separated (parts.map (·.1)) list)
    (accepts : ∀ part ∈ parts, Accepts stop .expression part.1 part.2) :
    Accepts stop .primary
      (⟨.name function, p⟩ :: ⟨.mark .openParen, q⟩ :: (list ++ [⟨.mark .closeParen, r⟩]))
      (.call p function (parts.map (·.2))) := by
  intro n rest _
  simp only [List.append_assoc, List.cons_append]
  refine UpToDepth.bind (items_accepts .arguments r rest separated derives ?_) (.refl _)
  exact fun part mem => accepts part mem n

theorem accepts_parenthesis {p q : Nat} (h : Accepts stop .expression tokens e) :
    Accepts stop .primary (⟨.mark .openParen, p⟩ :: (tokens ++ [⟨.mark .closeParen, q⟩])) e := by
  intro n rest _
  simp only [List.append_assoc, List.cons_append]
  exact (h n _ (.close .parenthesis q rest)).bind (.refl _)

theorem accepts_array {parts : List (List Token × Expr)} {list : List Token}
    {p q : Nat} (derives : ∀ part ∈ parts, Derives .expression part.1 part.2)
    (separated : Separated (parts.map (·.1)) list)
    (accepts : ∀ part ∈ parts, Accepts stop .expression part.1 part.2) :
    Accepts stop .primary
      (⟨.mark .openBracket, p⟩ :: (list ++ [⟨.mark .closeBracket, q⟩]))
      (.array p (parts.map (·.2))) := by
  intro n rest _
  simp only [List.append_assoc, List.cons_append]
  refine UpToDepth.bind (items_accepts .array q rest separated derives ?_) (.refl _)
  exact fun part mem => accepts part mem n

end

/-- The layers of chains by the precedence of their operators, and the layer of their operands. -/
theorem accepts_ofPrecedence_iff {op : Operator} {tokens : List Token} {e : Expr} :
    Accepts stop op.layer tokens e ↔ AcceptsChain stop op.precedence tokens e := by
  cases op <;> exact Iff.rfl

theorem acceptsChain_of_next {op : Operator} {tokens : List Token} {e : Expr}
    (h : Accepts stop (.ofPrecedence (op.precedence + 1)) tokens e) :
    AcceptsChain stop (op.precedence + 1) tokens e := by
  cases op with
  | multiply | divide | modulo => exact .of_negation h
  | _ => exact h

/-- Every phrase is read up to what follows it. -/
theorem accepts_of_derives {layer : Layer} {tokens : List Token} {e : Expr}
    (h : Derives layer tokens e) : Accepts stop layer tokens e := by
  induction h with
  | @next layer next tokens e step derives ih =>
    -- one case for each step from a layer to the next
    cases layer <;> cases step
    case next.expression.refl => exact accepts_expression ih
    case next.comparison.refl => exact AcceptsChain.loosen ih
    case next.sum.refl => exact AcceptsChain.loosen ih
    case next.product.refl => exact (AcceptsChain.of_negation ih).loosen
    case next.negation.refl => exact accepts_negation ih
    case next.path.refl => exact accepts_path derives ih
  | conditional _ _ _ ihc iha ihb => exact accepts_conditional ihc iha ihb
  | @binary layer next op _ _ _ _ _ same step _ _ ihl ihr =>
    subst same
    rw [op.next?_layer, Option.some.injEq] at step
    subst step
    exact accepts_ofPrecedence_iff.mpr
      (.link (accepts_ofPrecedence_iff.mp ihl) (acceptsChain_of_next ihr))
  | negate _ ih => exact accepts_negate ih
  | member _ ih => exact accepts_member ih
  | number | text | mention => exact fun _ _ _ => .refl _
  | field name p => exact accepts_field name p
  | call derives separated ih => exact accepts_call derives separated ih
  | parenthesis _ ih => exact accepts_parenthesis ih
  | array derives separated ih => exact accepts_array derives separated ih

/-- The formula of a grammatical token list is its tree, unless the limit on nesting is in the way. -/
theorem formula_of_derives {tokens : List Token} {e : Expr}
    (h : Derives .expression tokens e) : UpToDepth (formula stop tokens) (.ok e) := by
  obtain ⟨first, rest, rfl, -, -⟩ := h.exists_first
  have reads : UpToDepth ((level stop depth).expression (first :: rest ++ [])) (.ok (e, [])) :=
    accepts_of_derives h depth [] .nil
  rw [List.append_nil] at reads
  exact reads.bind (.refl _)

end Parser

/-- A source that is read has the tree that its tokens have in the grammar; tokens that have a tree
are read as that tree, or nest too deeply; and a source whose tokens have none is refused with a parse
error, at one of its tokens or at its end. -/
theorem parse_grammar (source : Text) :
    (∀ e, parse source = .ok e → Derives .expression (Token.scan source) e) ∧
    (∀ e, Derives .expression (Token.scan source) e →
      parse source = .ok e ∨ ∃ p, parse source = .error ⟨.tooDeep, p⟩) ∧
    ((∀ e, ¬ Derives .expression (Token.scan source) e) →
      ∃ error, parse source = .error error ∧ (Failure.ofParse error).fault.code = .parseError ∧
        ∃ p ∈ (tokenize source).map (·.position), (Failure.ofParse error).position = some p) := by
  refine ⟨fun e => derives_of_parse, fun e => Parser.formula_of_derives, fun none => ?_⟩
  match parsed : parse source with
  | .ok e => exact absurd (derives_of_parse parsed) (none e)
  | .error error => exact ⟨error, rfl, rfl, error.position, position_mem_of_parse parsed, rfl⟩

/-- A formula with something of every layer, and a list that ends with a comma. -/
theorem parse_grammar_of_layers :
    let source := utf8 "a ? f(-b.c * d, [\"x\"]) + (e) : @m < g()"
    let listed := utf8 "f(a,)"
    (∃ e, parse source = .ok e ∧ Derives .expression (Token.scan source) e) ∧
      (∀ e, ¬ Derives .expression (Token.scan listed) e) ∧
      ∃ error, parse listed = .error error ∧ (Failure.ofParse error).fault.code = .parseError ∧
        ∃ p ∈ (tokenize listed).map (·.position), (Failure.ofParse error).position = some p := by
  intro source listed
  have refused : parse listed = .error ⟨.unexpected ')'.toUInt8, 4⟩ := by rfl
  have none : ∀ e, ¬ Derives .expression (Token.scan listed) e := by
    intro e derives
    rcases (parse_grammar listed).2.1 e derives with parsed | ⟨p, deep⟩
    · rw [refused] at parsed
      cases parsed
    · rw [refused] at deep
      cases deep
  exact ⟨⟨_, rfl, (parse_grammar source).1 _ rfl⟩, none, (parse_grammar listed).2.2 none⟩

end ComputedFields
