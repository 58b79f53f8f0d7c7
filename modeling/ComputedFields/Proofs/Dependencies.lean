import ComputedFields.Proofs.Completeness
import ComputedFields.Proofs.Substitution

/-!
# `ComputedFields.Proofs.Dependencies` — what a formula reads, from its tokens

The names that a formula reads are collected from its tree. They can be read off its tokens as well,
without reading the formula: a name is a field unless it is the name of a function, which an opening
parenthesis follows, or that of a property, which a point precedes. So reading a formula neither
loses nor repeats a name, and keeps them in the order of the source.

What a token tells depends on the tokens beside it. Of a phrase of the grammar this is only the
first token after it: no phrase ends with a point, and where a phrase begins no point comes before.
The induction on phrases is therefore about a phrase with whatever comes after it, unless that is an
opening parenthesis.

* `Token.fieldNames`, `Token.mentionNames` — the names of fields and of mentions among tokens;
* `fieldNames_of_derives`, `mentionNames_of_derives` — those of a phrase and of its tree;
* `dependencies_of_parse` — the dependencies of a formula that is read.
-/

namespace ComputedFields

namespace Token

/-- The names of fields among some tokens, when `before` is the lexeme just before them: the names
that no opening parenthesis follows and no point precedes. -/
def fieldNames (before : Option Lexeme) : List Token → List Text
  | [] => []
  | token :: rest =>
    (match token.lexeme with
      | .name name =>
        if before = some (.mark .dot) ∨ rest.head?.map (·.lexeme) = some (.mark .openParen) then []
        else [name]
      | _ => []) ++ fieldNames (some token.lexeme) rest

/-- The names of mentions among some tokens. -/
def mentionNames (tokens : List Token) : List Text :=
  tokens.filterMap fun token =>
    match token.lexeme with
    | .mention name => some name
    | _ => none

theorem mentionNames_append (tokens others : List Token) :
    mentionNames (tokens ++ others) = mentionNames tokens ++ mentionNames others :=
  List.filterMap_append

theorem mem_mentionNames {tokens : List Token} {name : Text} :
    name ∈ mentionNames tokens ↔ ∃ token ∈ tokens, token.lexeme = .mention name := by
  simp only [mentionNames, List.mem_filterMap]
  refine exists_congr fun token => and_congr_right fun _ => ?_
  cases token.lexeme <;> simp

theorem exists_of_mem_fieldNames {before : Option Lexeme} {tokens : List Token} {name : Text}
    (mem : name ∈ fieldNames before tokens) : ∃ token ∈ tokens, token.lexeme = .name name := by
  induction tokens generalizing before with
  | nil => cases mem
  | cons token rest ih =>
    rcases List.mem_append.mp mem with here | later
    · refine ⟨token, List.mem_cons_self .., ?_⟩
      split at here
      · next found =>
        split at here
        · cases here
        · rw [found, List.mem_singleton.mp here]
      · cases here
    · obtain ⟨other, inRest, same⟩ := ih later
      exact ⟨other, List.mem_cons_of_mem _ inRest, same⟩

/-- A token that is no mention. -/
theorem mentionNames_skip {token : Token} (h : ∀ name, token.lexeme ≠ .mention name)
    (rest : List Token) : mentionNames (token :: rest) = mentionNames rest := by
  refine List.filterMap_cons_none ?_
  cases lexeme : token.lexeme with
  | mention name => exact absurd lexeme (h name)
  | _ => rfl

/-- A lexeme before some tokens matters only if it is a point. -/
theorem fieldNames_some {lexeme : Lexeme} (other : lexeme ≠ .mark .dot) (tokens : List Token) :
    fieldNames (some lexeme) tokens = fieldNames none tokens := by
  cases tokens with
  | nil => rfl
  | cons token rest => simp only [fieldNames, Option.some.injEq, other, reduceCtorEq]

/-- A token that is neither a name nor a point. -/
theorem fieldNames_skip {token : Token} (noName : ∀ name, token.lexeme ≠ .name name)
    (noDot : token.lexeme ≠ .mark .dot) (before : Option Lexeme) (rest : List Token) :
    fieldNames before (token :: rest) = fieldNames none rest := by
  rw [fieldNames, fieldNames_some noDot]
  cases lexeme : token.lexeme with
  | name name => exact absurd lexeme (noName name)
  | _ => rfl

/-- A name of a function. -/
theorem fieldNames_call (function : Text) (p q : Nat) (rest : List Token) :
    fieldNames none (⟨.name function, p⟩ :: ⟨.mark .openParen, q⟩ :: rest) =
      fieldNames none rest := by
  have parenthesis : fieldNames (some (.name function)) (⟨.mark .openParen, q⟩ :: rest) =
      fieldNames none rest := by
    rw [fieldNames_skip] <;> simp
  simpa [fieldNames] using parenthesis

/-- A name of a property. -/
theorem fieldNames_property (property : Text) (p q : Nat) (rest : List Token) :
    fieldNames none (⟨.mark .dot, p⟩ :: ⟨.name property, q⟩ :: rest) = fieldNames none rest := by
  simp [fieldNames, fieldNames_some]

/-- A name of a field. -/
theorem fieldNames_field (name : Text) (p : Nat) {rest : List Token}
    (h : Parser.Lacks .openParen rest) :
    fieldNames none (⟨.name name, p⟩ :: rest) = name :: fieldNames none rest := by
  have lacks : rest.head?.map (·.lexeme) ≠ some (.mark .openParen) := by
    cases rest with
    | nil => nofun
    | cons first rest =>
      intro same
      obtain ⟨lexeme, q⟩ := first
      obtain rfl : lexeme = .mark .openParen := Option.some.inj same
      exact h q rest rfl
  simp [fieldNames, lacks, fieldNames_some]

end Token

namespace Parser

open Token

/-! ## Phrases -/

/-- The names of fields in a list, when those of its parts are those of their trees. -/
theorem fieldNames_of_separated {parts : List (List Token × Expr)} {list : List Token}
    (separated : Separated (parts.map (·.1)) list)
    (each : ∀ part ∈ parts, ∀ {rest}, Lacks .openParen rest →
      fieldNames none (part.1 ++ rest) = part.2.fieldNames ++ fieldNames none rest)
    {rest : List Token} (lacks : Lacks .openParen rest) :
    fieldNames none (list ++ rest) =
      Expr.fieldNamesOfAll (parts.map (·.2)) ++ fieldNames none rest := by
  induction parts generalizing list with
  | nil =>
    cases separated
    rfl
  | cons part others ih =>
    obtain ⟨first, later⟩ := List.forall_mem_cons.mp each
    rw [List.map_cons, Expr.fieldNamesOfAll]
    cases others with
    | nil =>
      cases separated
      rw [List.map_nil, Expr.fieldNamesOfAll, List.append_nil, first lacks]
    | cons second others =>
      cases separated with
      | more separated =>
        rw [List.append_assoc, List.cons_append, first, fieldNames_skip, ih separated later,
          List.append_assoc]
        all_goals simp [Lacks]

/-- The names of fields among the tokens of a phrase are those of its tree. -/
theorem fieldNames_of_derives {layer : Layer} {tokens : List Token} {e : Expr}
    (h : Derives layer tokens e) {rest : List Token} (lacks : Lacks .openParen rest) :
    fieldNames none (tokens ++ rest) = e.fieldNames ++ fieldNames none rest := by
  induction h generalizing rest with
  | next _ _ ih => exact ih lacks
  | conditional _ _ _ ihc iha ihb =>
    simp only [List.append_assoc, List.cons_append, Expr.fieldNames]
    rw [ihc, fieldNames_skip, iha, fieldNames_skip, ihb lacks]
    all_goals simp [Lacks]
  | binary _ _ _ _ ihl ihr =>
    simp only [List.append_assoc, List.cons_append, Expr.fieldNames]
    rw [ihl, fieldNames_skip, ihr lacks]
    all_goals simp [Lacks]
  | negate _ ih =>
    rw [List.cons_append, fieldNames_skip, ih lacks, Expr.fieldNames]
    all_goals simp
  | member _ ih =>
    simp only [List.append_assoc, List.cons_append, List.nil_append, Expr.fieldNames]
    rw [ih, fieldNames_property]
    simp [Lacks]
  | number | text | mention =>
    rw [List.cons_append, fieldNames_skip]
    · rfl
    all_goals simp
  | field name p => exact fieldNames_field name p lacks
  | call _ separated ih =>
    simp only [List.append_assoc, List.cons_append, List.nil_append, Expr.fieldNames]
    rw [fieldNames_call, fieldNames_of_separated separated ih, fieldNames_skip]
    all_goals simp [Lacks]
  | parenthesis _ ih =>
    simp only [List.append_assoc, List.cons_append, List.nil_append]
    rw [fieldNames_skip, ih, fieldNames_skip]
    all_goals simp [Lacks]
  | array _ separated ih =>
    simp only [List.append_assoc, List.cons_append, List.nil_append, Expr.fieldNames]
    rw [fieldNames_skip, fieldNames_of_separated separated ih, fieldNames_skip]
    all_goals simp [Lacks]

theorem mentionNames_of_separated {parts : List (List Token × Expr)} {list : List Token}
    (separated : Separated (parts.map (·.1)) list)
    (each : ∀ part ∈ parts, mentionNames part.1 = part.2.mentionNames) :
    mentionNames list = Expr.mentionNamesOfAll (parts.map (·.2)) := by
  induction parts generalizing list with
  | nil =>
    cases separated
    rfl
  | cons part others ih =>
    obtain ⟨first, later⟩ := List.forall_mem_cons.mp each
    rw [List.map_cons, Expr.mentionNamesOfAll]
    cases others with
    | nil =>
      cases separated
      rw [List.map_nil, Expr.mentionNamesOfAll, List.append_nil, first]
    | cons second others =>
      cases separated with
      | more separated =>
        rw [← first, ← ih separated later]
        exact List.filterMap_append

/-- The mentions among the tokens of a phrase are those of its tree. -/
theorem mentionNames_of_derives {layer : Layer} {tokens : List Token} {e : Expr}
    (h : Derives layer tokens e) : mentionNames tokens = e.mentionNames := by
  induction h with
  | next _ _ ih => exact ih
  | conditional _ _ _ ihc iha ihb =>
    rw [mentionNames_append, mentionNames_skip, mentionNames_append, mentionNames_skip, ihc, iha,
      ihb, Expr.mentionNames, List.append_assoc]
    all_goals simp
  | binary _ _ _ _ ihl ihr =>
    rw [mentionNames_append, mentionNames_skip, ihl, ihr, Expr.mentionNames]
    simp
  | negate _ ih => exact ih
  | member _ ih =>
    rw [mentionNames_append, ih, Expr.mentionNames]
    exact List.append_nil _
  | number | text | mention | field => rfl
  | call _ separated ih =>
    rw [mentionNames_skip, mentionNames_skip, mentionNames_append,
      mentionNames_of_separated separated ih, Expr.mentionNames]
    · exact List.append_nil _
    all_goals simp
  | parenthesis _ ih =>
    rw [mentionNames_skip, mentionNames_append, ih]
    · exact List.append_nil _
    · simp
  | array _ separated ih =>
    rw [mentionNames_skip, mentionNames_append, mentionNames_of_separated separated ih,
      Expr.mentionNames]
    · exact List.append_nil _
    · simp

end Parser

/-! ## Formulas -/

/-- Repetitions are the same repetitions after an injective function. -/
theorem eraseDups_map {f : Text → Text} (injective : Function.Injective f) :
    ∀ names : List Text, (names.map f).eraseDups = names.eraseDups.map f
  | [] => rfl
  | name :: rest => by
    have others : (rest.map f).filter (fun b => !b == f name) =
        (rest.filter fun b => !b == name).map f := by
      rw [List.filter_map]
      congr 1
      refine List.filter_congr fun b _ => ?_
      simp [injective.eq_iff]
    rw [List.map_cons, List.eraseDups_cons, List.eraseDups_cons, List.map_cons, others,
      eraseDups_map injective]
termination_by names => names.length
decreasing_by exact Nat.lt_succ_of_le (List.length_filter_le ..)

/-- The mentions of a formula that is read are those among its tokens. -/
theorem mentionNames_of_parse {source : Text} {e : Expr} (h : parse source = .ok e) :
    Token.mentionNames (tokenize source) = e.mentionNames := by
  rw [tokenize, Token.mentionNames_append, Parser.mentionNames_of_derives (derives_of_parse h)]
  exact List.append_nil _

/-- The dependencies of a formula that is read are the names among its tokens that no parenthesis
follows and no point precedes, and its mentions are the mentions among its tokens, with their `@`;
both in the order of the source, each where it occurs first. -/
theorem dependencies_of_parse {source : Text} {e : Expr} (h : parse source = .ok e) :
    e.fields = (Token.fieldNames none (tokenize source)).eraseDups ∧
      e.mentionDependencies =
        ((Token.mentionNames (tokenize source)).map ('@'.toUInt8 :: ·)).eraseDups := by
  have derives := derives_of_parse h
  have fields : Token.fieldNames none (tokenize source) = e.fieldNames := by
    rw [tokenize, Parser.fieldNames_of_derives derives (by simp [Parser.Lacks]),
      Token.fieldNames_skip]
    · exact List.append_nil _
    all_goals simp
  have mentions : Token.mentionNames (tokenize source) = e.mentionNames := by
    rw [tokenize, Token.mentionNames_append, Parser.mentionNames_of_derives derives]
    exact List.append_nil _
  rw [fields, mentions, eraseDups_map fun _ _ same => (List.cons.inj same).2]
  exact ⟨rfl, rfl⟩

/-- A formula in which a field, a property, a function and a mention have one name. -/
theorem dependencies_of_parse_sameName :
    let source := utf8 "f(a.f, @f) + f ? [@a, a.b] : @f"
    ∃ e, parse source = .ok e ∧
      e.fields = (Token.fieldNames none (tokenize source)).eraseDups ∧
      e.mentionDependencies =
        ((Token.mentionNames (tokenize source)).map ('@'.toUInt8 :: ·)).eraseDups ∧
      e.fields = [utf8 "a", utf8 "f"] ∧ e.mentionDependencies = [utf8 "@f", utf8 "@a"] := by
  intro source
  obtain ⟨e, parsed⟩ : ∃ e, parse source = .ok e := ⟨_, rfl⟩
  obtain ⟨fields, mentions⟩ := dependencies_of_parse parsed
  refine ⟨e, parsed, fields, mentions, fields.trans ?_, mentions.trans ?_⟩ <;> decide +kernel

end ComputedFields
