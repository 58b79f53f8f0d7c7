import ComputedFields.Proofs.Grammar
import Mathlib.Data.List.Basic

/-!
# `ComputedFields.Proofs.Phrases` — the lexemes of phrases

Whether tokens are a phrase is a matter of their lexemes: elsewhere in a source the same lexemes are
a phrase of the same layer, of which the tree only has other offsets. And the lexemes of a phrase
are those that the grammar names, so that neither the end of a source is among them nor a byte that
starts no lexeme.

* `Lexeme.Regular`, `Derives.regular` — the lexemes that a phrase may have;
* `Derives.of_lexemes` — tokens with the lexemes of a phrase.
-/

namespace ComputedFields

theorem mem_of_separated {parts : List (List Token)} {list : List Token} (h : Separated parts list)
    {token : Token} (mem : token ∈ list) :
    token.lexeme = .mark .comma ∨ ∃ part ∈ parts, token ∈ part := by
  induction h with
  | nil => cases mem
  | one tokens => exact .inr ⟨tokens, List.mem_singleton_self _, mem⟩
  | more _ ih =>
    rcases List.mem_append.mp mem with inside | later
    · exact .inr ⟨_, List.mem_cons_self .., inside⟩
    · rcases List.mem_cons.mp later with rfl | later
      · exact .inl rfl
      · refine (ih later).imp_right ?_
        rintro ⟨part, inParts, inside⟩
        exact ⟨part, List.mem_cons_of_mem _ inParts, inside⟩

/-- A lexeme that may be part of a formula. -/
def Lexeme.Regular (lexeme : Lexeme) : Prop := lexeme ≠ .eof ∧ ∀ b, lexeme ≠ .stray b

theorem Derives.regular {layer : Layer} {tokens : List Token} {e : Expr}
    (h : Derives layer tokens e) : ∀ token ∈ tokens, token.lexeme.Regular := by
  have plain {lexeme : Lexeme} (h : lexeme ≠ .eof) (h' : ∀ b, lexeme ≠ .stray b) :
      lexeme.Regular := ⟨h, h'⟩
  have listed {parts : List (List Token × Expr)} {list : List Token}
      (separated : Separated (parts.map (·.1)) list)
      (each : ∀ part ∈ parts, ∀ token ∈ part.1, token.lexeme.Regular) :
      ∀ token ∈ list, token.lexeme.Regular := by
    intro token mem
    rcases mem_of_separated separated mem with comma | ⟨_, inParts, inside⟩
    · exact comma ▸ plain nofun nofun
    · obtain ⟨part, mem, rfl⟩ := List.mem_map.mp inParts
      exact each part mem token inside
  induction h with
  | next _ _ ih => exact ih
  | conditional _ _ _ ihc iha ihb =>
    simp only [List.forall_mem_append, List.forall_mem_cons]
    exact ⟨ihc, plain nofun nofun, iha, plain nofun nofun, ihb⟩
  | binary _ _ _ _ ihl ihr =>
    simp only [List.forall_mem_append, List.forall_mem_cons]
    exact ⟨ihl, plain nofun nofun, ihr⟩
  | negate _ ih => exact List.forall_mem_cons.mpr ⟨plain nofun nofun, ih⟩
  | member _ ih =>
    simp only [List.forall_mem_append, List.forall_mem_cons]
    exact ⟨ih, plain nofun nofun, plain nofun nofun, List.forall_mem_nil _⟩
  | number | text | mention | field => exact List.forall_mem_singleton.mpr (plain nofun nofun)
  | call _ separated ih =>
    simp only [List.forall_mem_append, List.forall_mem_cons]
    exact ⟨plain nofun nofun, plain nofun nofun, listed separated ih, plain nofun nofun,
      List.forall_mem_nil _⟩
  | array _ separated ih =>
    simp only [List.forall_mem_append, List.forall_mem_cons]
    exact ⟨plain nofun nofun, listed separated ih, plain nofun nofun, List.forall_mem_nil _⟩
  | parenthesis _ ih =>
    simp only [List.forall_mem_append, List.forall_mem_cons]
    exact ⟨plain nofun nofun, ih, plain nofun nofun, List.forall_mem_nil _⟩

theorem eq_singleton_of_lexemes {tokens : List Token} {token : Token}
    (same : tokens.map (·.lexeme) = [token].map (·.lexeme)) :
    ∃ p, tokens = [⟨token.lexeme, p⟩] := by
  obtain ⟨⟨_, p⟩, _, rfl, rfl, none⟩ := List.map_eq_cons_iff.mp same
  exact ⟨p, congrArg _ (List.map_eq_nil_iff.mp none)⟩

/-- The parts of a list, for tokens of the same lexemes. -/
theorem exists_of_separated {parts : List (List Token × Expr)} {list list' : List Token}
    (separated : Separated (parts.map (·.1)) list)
    (same : list'.map (·.lexeme) = list.map (·.lexeme))
    (each : ∀ part ∈ parts, ∀ tokens, tokens.map (·.lexeme) = part.1.map (·.lexeme) →
      ∃ e, Derives .expression tokens e) :
    ∃ parts' : List (List Token × Expr), parts'.length = parts.length ∧
      Separated (parts'.map (·.1)) list' ∧ ∀ part ∈ parts', Derives .expression part.1 part.2 := by
  induction parts generalizing list list' with
  | nil =>
    cases separated
    obtain rfl := List.map_eq_nil_iff.mp same
    exact ⟨[], rfl, .nil, List.forall_mem_nil _⟩
  | cons part others ih =>
    obtain ⟨first, later⟩ := List.forall_mem_cons.mp each
    cases others with
    | nil =>
      cases separated
      obtain ⟨e, derives⟩ := first list' same
      exact ⟨[(list', e)], rfl, .one list', List.forall_mem_singleton.mpr derives⟩
    | cons second others =>
      cases separated with
      | more separated =>
        simp only [List.map_append, List.map_cons, List.map_eq_append_iff,
          List.map_eq_cons_iff] at same
        obtain ⟨tokens, _, rfl, alike, ⟨_, p⟩, rest, rfl, rfl, others⟩ := same
        obtain ⟨e, derives⟩ := first tokens alike
        obtain ⟨parts, length, separated', derive⟩ := ih separated others later
        match parts, length with
        | second :: parts, length =>
          exact ⟨(tokens, e) :: second :: parts, congrArg (· + 1) length, separated'.more,
            List.forall_mem_cons.mpr ⟨derives, derive⟩⟩

/-- Where the tokens of a phrase stand does not matter. -/
theorem Derives.of_lexemes {layer : Layer} {tokens tokens' : List Token} {e : Expr}
    (h : Derives layer tokens e) (same : tokens'.map (·.lexeme) = tokens.map (·.lexeme)) :
    ∃ e, Derives layer tokens' e := by
  induction h generalizing tokens' with
  | next step _ ih =>
    obtain ⟨e, derives⟩ := ih same
    exact ⟨e, .next step derives⟩
  | conditional _ _ _ ihc iha ihb =>
    simp only [List.map_append, List.map_cons, List.map_eq_append_iff, List.map_eq_cons_iff] at same
    obtain ⟨_, _, rfl, hc, ⟨_, p⟩, _, rfl, rfl, _, _, rfl, ha, ⟨_, q⟩, _, rfl, rfl, hb⟩ := same
    obtain ⟨c, condition⟩ := ihc hc
    obtain ⟨a, whenTrue⟩ := iha ha
    obtain ⟨b, whenFalse⟩ := ihb hb
    exact ⟨_, .conditional condition whenTrue whenFalse⟩
  | binary layer step _ _ ihl ihr =>
    simp only [List.map_append, List.map_cons, List.map_eq_append_iff, List.map_eq_cons_iff] at same
    obtain ⟨_, _, rfl, hl, ⟨_, p⟩, _, rfl, rfl, hr⟩ := same
    obtain ⟨a, left⟩ := ihl hl
    obtain ⟨b, right⟩ := ihr hr
    exact ⟨_, .binary layer step left right⟩
  | negate _ ih =>
    obtain ⟨⟨_, p⟩, _, rfl, rfl, operand⟩ := List.map_eq_cons_iff.mp same
    obtain ⟨e, derives⟩ := ih operand
    exact ⟨_, derives.negate⟩
  | member _ ih =>
    simp only [List.map_append, List.map_cons, List.map_nil, List.map_eq_append_iff,
      List.map_eq_cons_iff, List.map_eq_nil_iff] at same
    obtain ⟨_, _, rfl, object, ⟨_, p⟩, _, rfl, rfl, ⟨_, q⟩, _, rfl, rfl, rfl⟩ := same
    obtain ⟨e, derives⟩ := ih object
    exact ⟨_, derives.member⟩
  | number spelling =>
    obtain ⟨p, rfl⟩ := eq_singleton_of_lexemes same
    exact ⟨_, .number spelling p⟩
  | text contents =>
    obtain ⟨p, rfl⟩ := eq_singleton_of_lexemes same
    exact ⟨_, .text contents p⟩
  | mention name =>
    obtain ⟨p, rfl⟩ := eq_singleton_of_lexemes same
    exact ⟨_, .mention name p⟩
  | field name =>
    obtain ⟨p, rfl⟩ := eq_singleton_of_lexemes same
    exact ⟨_, .field name p⟩
  | call _ separated ih =>
    simp only [List.map_append, List.map_cons, List.map_nil, List.map_eq_append_iff,
      List.map_eq_cons_iff, List.map_eq_nil_iff] at same
    obtain ⟨⟨_, p⟩, _, rfl, rfl, ⟨_, q⟩, _, rfl, rfl, _, _, rfl, listed, ⟨_, r⟩, _, rfl, rfl,
      rfl⟩ := same
    obtain ⟨parts, -, separated', derive⟩ :=
      exists_of_separated separated listed fun part mem _ => ih part mem
    exact ⟨_, .call derive separated'⟩
  | parenthesis _ ih =>
    simp only [List.map_append, List.map_cons, List.map_nil, List.map_eq_append_iff,
      List.map_eq_cons_iff, List.map_eq_nil_iff] at same
    obtain ⟨⟨_, p⟩, _, rfl, rfl, _, _, rfl, inner, ⟨_, q⟩, _, rfl, rfl, rfl⟩ := same
    obtain ⟨e, derives⟩ := ih inner
    exact ⟨e, derives.parenthesis⟩
  | array _ separated ih =>
    simp only [List.map_append, List.map_cons, List.map_nil, List.map_eq_append_iff,
      List.map_eq_cons_iff, List.map_eq_nil_iff] at same
    obtain ⟨⟨_, p⟩, _, rfl, rfl, _, _, rfl, listed, ⟨_, q⟩, _, rfl, rfl, rfl⟩ := same
    obtain ⟨parts, -, separated', derive⟩ :=
      exists_of_separated separated listed fun part mem _ => ih part mem
    exact ⟨_, .array derive separated'⟩

end ComputedFields
