import ComputedFields.Proofs.Completeness
import ComputedFields.Proofs.Scanning

/-!
# `ComputedFields.Proofs.Mending` — parsers that fail in time

A parser that never looks back may fail too late, when it has taken a token with which nothing that
it reads goes on, and it may fail too early, at a token that only needs others after it. `Prompt`
says that it does neither. A result and an error depend on the tokens that were taken and on the
next one, and on nothing behind that. And at an error, names and marks can be put in place of the
next token and of all that follow, so that the parser reads them with the tokens that it took: these
are `Mended`.

After what mends it, a parser leaves whatever ends an expression. So when the first of two parsers
fails, it is mended, and then the second, which has taken nothing yet, is mended in its turn; and
when the second fails, the first has read all that comes before. A parser is taken with the offset
of the end of the source, as mending moves the end.

* `Mended`, `Prompt` — tokens that can be mended, and parsers that fail in time;
* `Mended.bind`, `Prompt.bind` — one parser after another;
* `Prompt.append`, `Prompt.congr` — what a parser does after it has looked at the next tokens.
-/

namespace ComputedFields

namespace Parser

variable {α β : Type} {stop : Nat}

/-! ## The next token -/

/-- Whether lists begin alike is decided by what comes first in them. -/
theorem head?_append_or {p : List Token → Prop} {used left rest : List Token}
    (h : used = [] → left.head? = rest.head? ∨ p left) :
    (used ++ left).head? = (used ++ rest).head? ∨ p (used ++ left) := by
  cases used with
  | nil => exact h rfl
  | cons => exact .inl rfl

theorem Lacks.congr {m : Mark} {s t : List Token} (h : Lacks m s) (same : t.head? = s.head?) :
    Lacks m t := by
  rintro p rest rfl
  cases s <;> cases same
  exact h p _ rfl

theorem StopsBelow.congr {least : Nat} {s t : List Token} (h : StopsBelow least s)
    (same : t.head? = s.head?) : StopsBelow least t := by
  rintro op p rest rfl
  cases s <;> cases same
  exact h op p _ rfl

/-- The tokens begin with a lexeme. -/
def Starts (lexeme : Lexeme) (tokens : List Token) : Prop :=
  ∃ p rest, tokens = ⟨lexeme, p⟩ :: rest

theorem lacks_or_starts (m : Mark) (tokens : List Token) :
    Lacks m tokens ∨ Starts (.mark m) tokens := by
  by_cases h : Starts (.mark m) tokens
  · exact .inr h
  · exact .inl fun p rest same => h ⟨p, rest, same⟩

theorem Ends.of_starts {construct : Unclosed} {tokens : List Token}
    (h : Starts (.mark construct.mark) tokens) : Ends tokens := by
  obtain ⟨p, rest, rfl⟩ := h
  exact .close construct p rest

/-- A name, with which every operand that is missing may be supplied. -/
def filler : Lexeme := .name (utf8 "a")

/-! ## Tokens that can be mended -/

/-- When tokens with the given lexemes come after `before`, all of them are read, whatever ends an
expression after that. If `before` is empty, what is read begins as `next` says. -/
structure Mended (next : List Token → Prop) (parser : Nat → Step α) (before : List Token)
    (lexemes : List Lexeme) : Prop where
  oneByte : ∀ lexeme ∈ lexemes, lexeme.OneByte
  begins : before = [] → ∀ tail rest, tail.map (·.lexeme) = lexemes → Ends rest →
    next (tail ++ rest)
  reads : ∀ tail, tail.map (·.lexeme) = lexemes → ∃ a, ∀ stop rest, Ends rest →
    parser stop (before ++ (tail ++ rest)) = .ok (a, rest)

section

variable {next next' : List Token → Prop} {parser parser' : Nat → Step α}
  {before tokens : List Token} {lexemes more : List Lexeme}

namespace Mended

theorem mono (h : Mended next parser before lexemes)
    (weaker : ∀ tokens, next tokens → next' tokens) : Mended next' parser before lexemes where
  oneByte := h.oneByte
  begins none tail rest same ends := weaker _ (h.begins none tail rest same ends)
  reads := h.reads

theorem pure (a : α) : Mended Ends (fun _ tokens => .ok (a, tokens)) [] [] where
  oneByte := List.forall_mem_nil _
  begins _ tail rest none ends := by
    obtain rfl := List.map_eq_nil_iff.mp none
    exact ends
  reads tail none := by
    obtain rfl := List.map_eq_nil_iff.mp none
    exact ⟨a, fun _ _ _ => rfl⟩

/-- A parser that reads a name as it stands. -/
theorem filler (reads : ∀ p, ∃ a, ∀ stop rest, Ends rest →
      parser stop (⟨filler, p⟩ :: rest) = .ok (a, rest)) :
    Mended (Starts filler) parser [] [filler] where
  oneByte := List.forall_mem_singleton.mpr ⟨_, rfl, rfl, fun _ => rfl⟩
  begins _ tail rest mends _ := by
    obtain ⟨⟨_, p⟩, left, rfl, rfl, -⟩ := List.map_eq_cons_iff.mp mends
    exact ⟨p, left ++ rest, rfl⟩
  reads tail mends := by
    obtain ⟨⟨_, p⟩, _, rfl, rfl, none⟩ := List.map_eq_cons_iff.mp mends
    obtain rfl := List.map_eq_nil_iff.mp none
    exact reads p

/-- A mark that is missing, and what comes after it. -/
theorem close_bind (construct : Unclosed) {f : Nat → Step α} (h : Mended next f [] lexemes) :
    Mended (Starts (.mark construct.mark)) (fun stop t => close stop construct t >>= f stop) []
      (.mark construct.mark :: lexemes) where
  oneByte := List.forall_mem_cons.mpr ⟨Lexeme.oneByte_mark _, h.oneByte⟩
  begins _ tail rest mends _ := by
    obtain ⟨⟨_, p⟩, left, rfl, rfl, -⟩ := List.map_eq_cons_iff.mp mends
    exact ⟨p, left ++ rest, rfl⟩
  reads tail mends := by
    obtain ⟨⟨_, p⟩, left, rfl, rfl, others⟩ := List.map_eq_cons_iff.mp mends
    obtain ⟨a, reads⟩ := h.reads left others
    exact ⟨a, fun stop rest ends => bind_of_eq_ok (close_mark construct p _) (reads stop rest ends)⟩

/-- What is mended for a parser that goes on after some tokens is mended with these. -/
theorem append {used : List Token} (nonempty : used ≠ [])
    (taken : ∀ stop t, parser stop (used ++ t) = parser' stop t)
    (h : Mended next' parser' before lexemes) : Mended next parser (used ++ before) lexemes where
  oneByte := h.oneByte
  begins none := absurd (List.append_eq_nil_iff.mp none).1 nonempty
  reads tail mends := by
    obtain ⟨a, reads⟩ := h.reads tail mends
    refine ⟨a, fun stop rest ends => ?_⟩
    rw [List.append_assoc, taken]
    exact reads stop rest ends

theorem congr (h : Mended next parser' before lexemes)
    (same : ∀ stop t, (before = [] → next t) →
      parser stop (before ++ t) = parser' stop (before ++ t)) :
    Mended next parser before lexemes where
  oneByte := h.oneByte
  begins := h.begins
  reads tail mends := by
    obtain ⟨a, reads⟩ := h.reads tail mends
    refine ⟨a, fun stop rest ends => (same stop _ fun none => ?_).trans (reads stop rest ends)⟩
    exact h.begins none tail rest mends ends

/-- What is mended for a parser that goes on after another one is mended with what that took. -/
theorem after {f : Nat → α × List Token → Except ParseError (β × List Token)} {a : α}
    {used rest : List Token} (empty : used = [] → ∀ left, Ends left → next left)
    (reads : ∀ stop left, left.head? = (before ++ rest).head? ∨ Ends left →
      parser stop (used ++ left) = .ok (a, left))
    (h : Mended Ends (fun stop t => f stop (a, t)) before lexemes) :
    Mended next (fun stop t => parser stop t >>= f stop) (used ++ before) lexemes where
  oneByte := h.oneByte
  begins none tail rest same ends := by
    obtain ⟨rfl, rfl⟩ := List.append_eq_nil_iff.mp none
    exact empty rfl _ (h.begins rfl tail rest same ends)
  reads tail same := by
    obtain ⟨b, reads'⟩ := h.reads tail same
    refine ⟨b, fun stop rest ends => ?_⟩
    rw [List.append_assoc]
    refine bind_of_eq_ok (reads stop _ ?_) (reads' stop rest ends)
    exact head?_append_or fun none => .inr (h.begins none tail rest same ends)

/-- One parser after another, of which the second is mended wherever the first ends. -/
theorem bind {f : Nat → α × List Token → Except ParseError (β × List Token)}
    (h : Mended next parser before lexemes)
    (finish : ∀ a, Mended Ends (fun stop t => f stop (a, t)) [] more) :
    Mended next (fun stop t => parser stop t >>= f stop) before (lexemes ++ more) where
  oneByte := by
    obtain ⟨a, -⟩ := h.reads (lexemes.map (Token.mk · 0)) (by simp [Function.comp_def])
    exact List.forall_mem_append.mpr ⟨h.oneByte, (finish a).oneByte⟩
  begins none tail rest mends ends := by
    obtain ⟨tail, tail', rfl, first, second⟩ := List.map_eq_append_iff.mp mends
    obtain ⟨a, -⟩ := h.reads tail first
    rw [List.append_assoc]
    exact h.begins none tail _ first ((finish a).begins rfl tail' rest second ends)
  reads tail mends := by
    obtain ⟨tail, tail', rfl, first, second⟩ := List.map_eq_append_iff.mp mends
    obtain ⟨a, reads⟩ := h.reads tail first
    obtain ⟨b, reads'⟩ := (finish a).reads tail' second
    refine ⟨b, fun stop rest ends => ?_⟩
    rw [List.append_assoc]
    exact bind_of_eq_ok (reads stop _ ((finish a).begins rfl tail' rest second ends))
      (reads' stop rest ends)

end Mended

/-! ## Parsers that are prompt -/

/-- What a parser does with some tokens does not depend on what comes after the next one that it has
not taken: neither a result nor, unless the nesting is at fault, a failure. And before a failure the
tokens can be mended. -/
inductive Prompt (next : List Token → Prop) (parser : Nat → Step α) (stop : Nat) : List Token → Prop
  | result (a : α) (used : List Token) {rest : List Token}
    (empty : used = [] → ∀ left, Ends left → next left)
    (reads : ∀ stop left, left.head? = rest.head? ∨ Ends left →
      parser stop (used ++ left) = .ok (a, left)) :
    Prompt next parser stop (used ++ rest)
  | tooDeep {tokens : List Token} {p : Nat} (fails : parser stop tokens = .error ⟨.tooDeep, p⟩) :
    Prompt next parser stop tokens
  | failure (cause : Misreading) {before after : List Token} {lexemes : List Lexeme}
    (fails : ∀ left, left.head? = after.head? →
      parser stop (before ++ left) = fail stop cause left)
    (mended : Mended next parser before lexemes) : Prompt next parser stop (before ++ after)

namespace Prompt

theorem mono (h : Prompt next parser stop tokens) (weaker : ∀ tokens, next tokens → next' tokens) :
    Prompt next' parser stop tokens := by
  cases h with
  | result a used empty reads =>
    exact .result a used (fun none left ends => weaker _ (empty none left ends)) reads
  | tooDeep fails => exact .tooDeep fails
  | failure cause fails mended => exact .failure cause fails (mended.mono weaker)

theorem pure (a : α) : Prompt Ends (fun _ tokens => .ok (a, tokens)) stop tokens :=
  .result a [] (fun _ _ => id) (fun _ _ _ => rfl)

/-- Failure at the next token, when nothing else matters for it. -/
theorem fail (cause : Misreading)
    (fails : ∀ left, left.head? = tokens.head? → parser stop left = Parser.fail stop cause left)
    (mended : Mended next parser [] lexemes) : Prompt next parser stop tokens := by
  have failure : Prompt next parser stop ([] ++ tokens) := .failure cause fails mended
  exact failure

/-- A parser that goes on where tokens were taken already. -/
theorem append (used : List Token) (nonempty : used ≠ [])
    (taken : ∀ stop t, parser stop (used ++ t) = parser' stop t)
    (h : Prompt next' parser' stop tokens) : Prompt next parser stop (used ++ tokens) := by
  cases h with
  | result a more _ reads =>
    rw [← List.append_assoc]
    refine .result a (used ++ more) ?_ fun stop left follows => ?_
    · exact fun none => absurd (List.append_eq_nil_iff.mp none).1 nonempty
    · rw [List.append_assoc, taken]
      exact reads stop left follows
  | tooDeep fails => exact .tooDeep ((taken ..).trans fails)
  | failure cause fails mended =>
    rw [← List.append_assoc]
    refine .failure cause (fun left same => ?_) (mended.append nonempty taken)
    rw [List.append_assoc, taken]
    exact fails left same

/-- Two parsers that do the same with what begins with the next token, and with what may be read in
its place. -/
theorem congr (h : Prompt next parser' stop tokens)
    (same : ∀ stop t, t.head? = tokens.head? ∨ next t → parser stop t = parser' stop t) :
    Prompt next parser stop tokens := by
  cases h with
  | result a used empty reads =>
    refine .result a used empty fun stop left follows =>
      (same stop _ ?_).trans (reads stop left follows)
    exact head?_append_or fun none => follows.imp_right (empty none left)
  | tooDeep fails => exact .tooDeep ((same stop tokens (.inl rfl)).trans fails)
  | failure cause fails mended =>
    refine .failure cause (fun left alike => (same stop _ ?_).trans (fails left alike))
      (mended.congr fun stop t begins => same stop _ ?_)
    · exact head?_append_or fun _ => .inl alike
    · exact head?_append_or fun none => .inr (begins none)

/-- One parser after another. Where the first fails, what mends it is followed by what mends the
second. -/
theorem bind {f : Nat → α × List Token → Except ParseError (β × List Token)}
    (h : Prompt next parser stop tokens)
    (finish : ∀ a, Mended Ends (fun stop t => f stop (a, t)) [] more)
    (later : ∀ used a rest, tokens = used ++ rest →
      Prompt Ends (fun stop t => f stop (a, t)) stop rest) :
    Prompt next (fun stop t => parser stop t >>= f stop) stop tokens := by
  cases h with
  | @result a used rest empty reads =>
    have second := later used a rest rfl
    cases second with
    | result b used' empty' reads' =>
      rw [← List.append_assoc]
      refine .result b (used ++ used') (fun none => ?_) fun stop left follows => ?_
      · obtain ⟨rfl, rfl⟩ := List.append_eq_nil_iff.mp none
        exact empty rfl
      · rw [List.append_assoc]
        exact bind_of_eq_ok (reads stop _ (head?_append_or fun _ => follows))
          (reads' stop left follows)
    | tooDeep fails => exact .tooDeep (bind_of_eq_ok (reads stop rest (.inl rfl)) fails)
    | failure cause fails mended =>
      rw [← List.append_assoc]
      refine .failure cause (fun left alike => ?_) (mended.after empty reads)
      rw [List.append_assoc]
      exact bind_of_eq_ok (reads stop _ (head?_append_or fun _ => .inl alike)) (fails left alike)
  | tooDeep fails => exact .tooDeep (bind_of_eq_error fails)
  | failure cause fails mended =>
    exact .failure cause (fun left alike => bind_of_eq_error (fails left alike))
      (mended.bind finish)

/-- Going on after the mark that completes a construct. -/
theorem close_bind {construct : Unclosed} {f : Nat → Step α} (finish : Mended next f [] lexemes)
    (later : ∀ p rest, tokens = ⟨.mark construct.mark, p⟩ :: rest → Prompt next' f stop rest) :
    Prompt (Starts (.mark construct.mark)) (fun stop t => close stop construct t >>= f stop) stop
      tokens := by
  rcases lacks_or_starts construct.mark tokens with lacks | ⟨p, rest, rfl⟩
  · refine .fail (.unclosed construct) (fun left same => ?_) (finish.close_bind construct)
    exact bind_of_eq_error (close_of_lacks (lacks.congr same))
  · refine append [⟨.mark construct.mark, p⟩] nofun (fun stop t => ?_)
      (later p rest rfl)
    exact bind_of_eq_ok (close_mark construct p t) rfl

end Prompt

end

end Parser

end ComputedFields
