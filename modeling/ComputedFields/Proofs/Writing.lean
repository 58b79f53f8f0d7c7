import ComputedFields.Proofs.Tiling
import Mathlib.Data.List.Basic

/-!
# `ComputedFields.Proofs.Writing` — tokens that are written and read back

Whoever builds a formula writes it token by token. An `Item` is what can be written so: every token
that formulas have, and no other. A text is written between two quotes of either kind, with a
backslash before each backslash and each quote of that kind, and all else is written as it is.

A token takes as many of the bytes after it as it can, so two items may be written side by side only
if the first does not go on into the second: `Item.Stops` says when it does not. A blank stops every
item, and that is all that a writer has to know, who can put one between each two items. But a name
also stops before a mark, so that a call may be written without any blank.

* `Item`, `Item.spelling`, `Item.lexeme` — what can be written, how, and what it stands for;
* `Item.start_spelling` — an item is read back, up to where it stops;
* `Item.writeAll`, `Item.tokens` — items one after another, and the tokens at their offsets;
* `Item.Legible`, `Item.scanFrom_writeAll` — items that stop where they end are read back;
* `Item.tokenize_writeAll` — and so are all items with blanks between them.
-/

namespace ComputedFields

open Text

namespace Text

/-! ## Names and numbers -/

/-- A name is a letter or an underscore, and then letters, underscores and digits. -/
def IsName : Text → Prop
  | [] => False
  | b :: s => nameStart b = true ∧ ∀ c ∈ s, nameByte c = true

/-- One digit or more. -/
def IsDigits (s : Text) : Prop := s ≠ [] ∧ ∀ b ∈ s, digit b = true

/-- A number is written with digits, and with a point and further digits if it has a fraction. -/
inductive IsNumber : Text → Prop
  | whole {s : Text} : IsDigits s → IsNumber s
  | fraction {s f : Text} : IsDigits s → IsDigits f → IsNumber (s ++ '.'.toUInt8 :: f)

instance : DecidablePred IsName
  | [] => inferInstanceAs (Decidable False)
  | b :: s => inferInstanceAs (Decidable (nameStart b = true ∧ ∀ c ∈ s, nameByte c = true))

instance : DecidablePred IsDigits :=
  fun s => inferInstanceAs (Decidable (s ≠ [] ∧ ∀ b ∈ s, digit b = true))

theorem IsNumber.ne_nil {s : Text} (h : IsNumber s) : s ≠ [] := by
  cases h with
  | whole isDigits => exact isDigits.1
  | fraction => simp

theorem IsName.nameByte {s : Text} (h : IsName s) : ∀ b ∈ s, nameByte b = true := by
  cases s with
  | nil => exact h.elim
  | cons b s => exact List.forall_mem_cons.mpr ⟨by rw [Text.nameByte, h.1, Bool.true_or], h.2⟩

/-- No name starts with a digit. -/
theorem nameStart_of_digit {b : UInt8} (h : digit b = true) : nameStart b = false := by
  simp only [digit, Bool.and_eq_true, decide_eq_true_eq, UInt8.le_iff_toNat_le] at h
  obtain ⟨lower, upper⟩ := h
  change 48 ≤ b.toNat at lower
  change b.toNat ≤ 57 at upper
  have noCapital : capital b = false := by
    simp only [capital, Bool.and_eq_false_iff, decide_eq_false_iff_not, UInt8.le_iff_toNat_le]
    left
    show ¬ 65 ≤ b.toNat
    omega
  have noSmall : small b = false := by
    simp only [small, Bool.and_eq_false_iff, decide_eq_false_iff_not, UInt8.le_iff_toNat_le]
    left
    show ¬ 97 ≤ b.toNat
    omega
  have noUnderscore : (b == '_'.toUInt8) = false := by
    rw [beq_eq_false_iff_ne]
    rintro rfl
    exact absurd upper (by decide)
  rw [nameStart, noCapital, noSmall, noUnderscore]
  rfl

/-- A byte of a name is not blank. -/
theorem blank_of_nameByte {b : UInt8} (h : nameByte b = true) : blank b = false := by
  rw [Bool.eq_false_iff]
  intro isBlank
  rw [nameByte_of_blank isBlank] at h
  cases h

/-- What a text goes on with: nothing, or a byte outside of a class. -/
def Leaves (p : UInt8 → Bool) (t : Text) : Prop := ∀ b ∈ t.head?, p b = false

theorem leaves_nil (p : UInt8 → Bool) : Leaves p [] := by
  rintro _ ⟨⟩

theorem leaves_cons {p : UInt8 → Bool} {b : UInt8} (h : p b = false) (s : Text) :
    Leaves p (b :: s) := by
  rintro _ ⟨⟩
  exact h

theorem takeWhile_append_of_leaves {p : UInt8 → Bool} {s t : Text} (inside : ∀ b ∈ s, p b = true)
    (leaves : Leaves p t) : (s ++ t).takeWhile p = s ∧ (s ++ t).dropWhile p = t := by
  rw [List.takeWhile_append_of_pos inside, List.dropWhile_append_of_pos inside]
  cases t with
  | nil => exact ⟨List.append_nil s, rfl⟩
  | cons b t =>
    have other : p b = false := leaves b rfl
    simp [other]

/-- Two texts of one class of bytes are the same when what follows them leaves the class. -/
theorem append_inj_of_leaves {p : UInt8 → Bool} {s s' t t' : Text} (inside : ∀ b ∈ s, p b = true)
    (inside' : ∀ b ∈ s', p b = true) (leaves : Leaves p t) (leaves' : Leaves p t')
    (same : s ++ t = s' ++ t') : s' = s ∧ t' = t := by
  obtain ⟨taken, dropped⟩ := takeWhile_append_of_leaves inside leaves
  obtain ⟨taken', dropped'⟩ := takeWhile_append_of_leaves inside' leaves'
  rw [same] at taken dropped
  exact ⟨taken'.symm.trans taken, dropped'.symm.trans dropped⟩

end Text

namespace Lexeme

/-! ## Bytes that start no operator -/

theorem operator?_eq_none {b : UInt8} (h : ∀ op : Operator, op.spelling.head? ≠ some b)
    (s : Text) : operator? b s = none := by
  match read : operator? b s with
  | none => rfl
  | some (op, n) => exact absurd (congrArg List.head? (spelling_of_operator? read).symm) (h op)

theorem head?_spelling_ne_of_nameByte {b : UInt8} (h : nameByte b = true) (op : Operator) :
    op.spelling.head? ≠ some b := by
  intro same
  obtain rfl : op.spelling.head?.getD 0 = b := by rw [same]; rfl
  cases op <;> revert h <;> decide

/-- An operator of one byte, unless it makes one of two bytes with the next one. -/
theorem operator?_of_leaves {b : UInt8} {t : Text}
    (h : Leaves (fun c => c == '='.toUInt8 || c == '>'.toUInt8) t) :
    operator? b t = (single? b).map (·, 0) := by
  have none : t.head?.bind (pair? b) = none := by
    cases t with
    | nil => rfl
    | cons c t =>
      refine List.find?_eq_none.mpr fun op mem spelled => ?_
      have last : op.spelling.getLast? = some c := congrArg List.getLast? (eq_of_beq spelled)
      have other := h c rfl
      obtain rfl : op.spelling.getLast?.getD 0 = c := by rw [last]; rfl
      simp only [List.mem_cons, List.not_mem_nil, or_false] at mem
      rcases mem with rfl | rfl | rfl | rfl | rfl <;> revert other <;> decide
  rw [operator?, none]

/-! ## Quotes -/

/-- Contents between quotes with a backslash before each backslash and each such quote. -/
def escape (quote : UInt8) (s : Text) : Text :=
  s.flatMap fun b => if b == '\\'.toUInt8 || b == quote then ['\\'.toUInt8, b] else [b]

theorem escaped_escape {quote : UInt8} (isQuote : quote = '"'.toUInt8 ∨ quote = '\''.toUInt8)
    (s : Text) : Escaped quote (escape quote s) s := by
  induction s with
  | nil => exact .nil
  | cons b s ih =>
    rw [escape, List.flatMap_cons, ← escape]
    split
    · next special =>
      have itself : unescape b = b := by
        rcases Bool.or_eq_true_iff.mp special with isEscape | same
        · rw [eq_of_beq isEscape]
          rfl
        · rw [eq_of_beq same]
          rcases isQuote with rfl | rfl <;> rfl
      have escaped := Escaped.escape (b := b) ih
      rwa [itself] at escaped
    · next plain =>
      rw [Bool.or_eq_true_iff, not_or, beq_iff_eq, beq_iff_eq] at plain
      exact .plain plain.2 plain.1 ih

/-- What is written between quotes is read up to the closing one. -/
theorem quoted_of_escaped {quote : UInt8} {inner contents : Text} (noEscape : quote ≠ '\\'.toUInt8)
    (h : Escaped quote inner contents) (t : Text) :
    quoted quote (inner ++ quote :: t) = some (contents, inner.length + 1) := by
  induction h with
  | nil => unfold quoted; simp
  | plain notQuote notEscape _ ih => unfold quoted; simp [notQuote, notEscape, ih]
  | escape _ ih => simp [quoted, noEscape.symm, ih]

/-! ## Items at the front of a source -/

/-- A byte of a name is none of the bytes that are not. -/
theorem beq_eq_false_of_nameByte {b c : UInt8} (h : nameByte b = true) (other : nameByte c = false) :
    (b == c) = false := by
  rw [beq_eq_false_iff_ne]
  rintro rfl
  rw [h] at other
  cases other

/-- What starts with a byte of a name is a name or a number. -/
theorem start_of_nameByte {b : UInt8} (h : nameByte b = true) (s : Text) :
    start b s =
      if nameStart b then (.name (b :: s.takeWhile nameByte), (s.takeWhile nameByte).length)
      else (.number (b :: digits s), (digits s).length) := by
  have none := operator?_eq_none (head?_spelling_ne_of_nameByte h) s
  have noQuote : (b == '"'.toUInt8 || b == '\''.toUInt8) = false := by
    rw [beq_eq_false_of_nameByte h rfl, beq_eq_false_of_nameByte h rfl]
    rfl
  have noAt : (b == '@'.toUInt8) = false := beq_eq_false_of_nameByte h rfl
  have inside : nameStart b = false → digit b = true := fun other => by
    rwa [nameByte, other, Bool.false_or] at h
  simp only [start, none, noQuote, noAt, Bool.false_and, Bool.false_eq_true, if_false]
  split
  · rfl
  · next other => rw [if_pos (inside (Bool.not_eq_true _ ▸ other))]

theorem start_name {b : UInt8} {s t : Text} (isName : IsName (b :: s))
    (leaves : Leaves nameByte t) : start b (s ++ t) = (.name (b :: s), s.length) := by
  have inside := isName.nameByte b (List.mem_cons_self ..)
  rw [start_of_nameByte inside, if_pos isName.1, (takeWhile_append_of_leaves isName.2 leaves).1]

theorem start_mention {s t : Text} (isName : IsName s) (leaves : Leaves nameByte t) :
    start '@'.toUInt8 (s ++ t) = (.mention s, s.length) := by
  match s, isName with
  | b :: s, isName =>
    have none : operator? '@'.toUInt8 (b :: s ++ t) = none :=
      operator?_eq_none (fun op => by cases op <;> decide) _
    have word := (takeWhile_append_of_leaves isName.nameByte leaves).1
    have first : ((b :: s ++ t).head?.map nameStart).getD false = true := isName.1
    rw [start, none, first, word]
    rfl

/-- The digits of a whole number, and what comes after them. -/
theorem digits_append {s t : Text} (isDigits : ∀ b ∈ s, digit b = true)
    (leaves : Leaves digit t) : digits (s ++ t) = s ++ fraction t := by
  obtain ⟨taken, left⟩ := takeWhile_append_of_leaves isDigits leaves
  rw [digits, taken, left]

theorem digits_of_isNumber {b : UInt8} {s t : Text} (isNumber : IsNumber (b :: s))
    (leaves : Leaves digit t) (noFraction : '.'.toUInt8 ∉ b :: s → fraction t = []) :
    digit b = true ∧ digits (s ++ t) = s := by
  generalize same : b :: s = spelling at isNumber
  cases isNumber with
  | whole isDigits =>
    obtain ⟨first, others⟩ := List.forall_mem_cons.mp (same ▸ isDigits.2)
    have noPoint : '.'.toUInt8 ∉ b :: s := fun mem => by
      have inside := isDigits.2 _ (same ▸ mem)
      revert inside
      decide
    rw [digits_append others leaves, noFraction noPoint, List.append_nil]
    exact ⟨first, rfl⟩
  | @fraction whole f isWhole isFraction =>
    obtain ⟨some, others⟩ := isFraction
    obtain ⟨c, whole, rfl⟩ := List.exists_cons_of_ne_nil isWhole.1
    obtain ⟨d, f, rfl⟩ := List.exists_cons_of_ne_nil some
    obtain ⟨rfl, rfl⟩ := List.cons.inj same
    obtain ⟨first, more⟩ := List.forall_mem_cons.mp isWhole.2
    obtain ⟨firstOfFraction, others⟩ := List.forall_mem_cons.mp others
    refine ⟨first, ?_⟩
    have point : Leaves digit ('.'.toUInt8 :: (d :: f ++ t)) := by
      rintro _ ⟨⟩
      rfl
    show digits (whole ++ '.'.toUInt8 :: d :: f ++ t) = whole ++ '.'.toUInt8 :: d :: f
    rw [List.append_assoc, List.cons_append, digits_append more point]
    simp [fraction, firstOfFraction, (takeWhile_append_of_leaves others leaves).1]

theorem start_number {b : UInt8} {s t : Text} (isNumber : IsNumber (b :: s))
    (leaves : Leaves digit t) (noFraction : '.'.toUInt8 ∉ b :: s → fraction t = []) :
    start b (s ++ t) = (.number (b :: s), s.length) := by
  obtain ⟨first, rest⟩ := digits_of_isNumber isNumber leaves noFraction
  have inside : nameByte b = true := by rw [nameByte, first, Bool.or_true]
  rw [start_of_nameByte inside, nameStart_of_digit first, rest]
  rfl

theorem start_text {quote : UInt8} (isQuote : quote = '"'.toUInt8 ∨ quote = '\''.toUInt8)
    (contents t : Text) :
    start quote (escape quote contents ++ [quote] ++ t) =
      (.text contents, (escape quote contents).length + 1) := by
  have none (s : Text) : operator? quote s = none :=
    operator?_eq_none (fun op => by rcases isQuote with rfl | rfl <;> cases op <;> decide) s
  have noEscape : quote ≠ '\\'.toUInt8 := by rcases isQuote with rfl | rfl <;> decide
  have closed := quoted_of_escaped noEscape (escaped_escape isQuote contents) t
  rw [List.append_assoc, List.singleton_append, start, none, closed]
  rcases isQuote with rfl | rfl <;> rfl

theorem start_mark (m : Mark) (t : Text) : start m.byte t = (.mark m, 0) := by
  have none : operator? m.byte t = none :=
    operator?_eq_none (fun op => by cases m <;> cases op <;> decide) t
  rw [start, none]
  cases m <;> rfl

theorem start_operator (op : Operator) {t : Text}
    (leaves : Leaves (fun c => c == '='.toUInt8 || c == '>'.toUInt8) t) :
    ∃ b s, op.spelling = b :: s ∧ start b (s ++ t) = (.operator op, s.length) := by
  have single (b : UInt8) (h : single? b = some op) : start b t = (.operator op, 0) := by
    rw [start, operator?_of_leaves leaves, h]
    rfl
  cases op with
  | doubleEqual | notEqual | lessGreater | lessEqual | greaterEqual => exact ⟨_, _, rfl, rfl⟩
  | _ => exact ⟨_, [], rfl, single _ rfl⟩

end Lexeme

/-! ## Items -/

/-- What can be written: a token of a formula, and of a text also the quotes around it. -/
inductive Item where
  | name (s : Text) (isName : s.IsName)
  | mention (s : Text) (isName : s.IsName)
  | number (s : Text) (isNumber : s.IsNumber)
  | operator (op : Operator)
  | mark (m : Mark)
  | text (quote : UInt8) (isQuote : quote = '"'.toUInt8 ∨ quote = '\''.toUInt8) (contents : Text)

namespace Item

/-- The bytes of an item. -/
def spelling : Item → Text
  | .name s _ | .number s _ => s
  | .mention s _ => '@'.toUInt8 :: s
  | .operator op => op.spelling
  | .mark m => [m.byte]
  | .text quote _ contents => quote :: (Lexeme.escape quote contents ++ [quote])

/-- The lexeme that an item stands for. -/
def lexeme : Item → Lexeme
  | .name s _ => .name s
  | .mention s _ => .mention s
  | .number s _ => .number s
  | .operator op => .operator op
  | .mark m => .mark m
  | .text _ _ contents => .text contents

/-- The bytes after an item do not go on with it: no byte of a name after a name, no digit after a
number, nor a fraction after a whole one, and neither `=` nor `>` after an operator. -/
def Stops (t : Text) : Item → Prop
  | .name .. | .mention .. => Leaves nameByte t
  | .number s _ => Leaves digit t ∧ ('.'.toUInt8 ∉ s → Lexeme.fraction t = [])
  | .operator _ => Leaves (fun b => b == '='.toUInt8 || b == '>'.toUInt8) t
  | .mark _ | .text .. => True

/-- An item is read back when the bytes after it do not go on with it. -/
theorem start_spelling {item : Item} {t : Text} (stops : item.Stops t) :
    ∃ b s, item.spelling = b :: s ∧ blank b = false ∧
      Lexeme.start b (s ++ t) = (item.lexeme, s.length) := by
  cases item with
  | name s isName =>
    match s, isName with
    | b :: s, isName =>
      have inside := isName.nameByte b (List.mem_cons_self ..)
      exact ⟨b, s, rfl, blank_of_nameByte inside, Lexeme.start_name isName stops⟩
  | mention s isName => exact ⟨_, s, rfl, rfl, Lexeme.start_mention isName stops⟩
  | number s isNumber =>
    obtain ⟨b, s, rfl⟩ := List.exists_cons_of_ne_nil isNumber.ne_nil
    have first := (Lexeme.digits_of_isNumber isNumber stops.1 stops.2).1
    have inside : nameByte b = true := by rw [nameByte, first, Bool.or_true]
    exact ⟨b, s, rfl, blank_of_nameByte inside, Lexeme.start_number isNumber stops.1 stops.2⟩
  | operator op =>
    obtain ⟨b, s, spelled, read⟩ := Lexeme.start_operator op stops
    refine ⟨b, s, spelled, ?_, read⟩
    obtain rfl : op.spelling.head?.getD 0 = b := by rw [spelled]; rfl
    cases op <;> rfl
  | mark m => exact ⟨_, [], rfl, by cases m <;> rfl, Lexeme.start_mark m t⟩
  | text quote isQuote contents =>
    refine ⟨quote, _, rfl, by rcases isQuote with rfl | rfl <;> rfl, ?_⟩
    rw [Lexeme.start_text isQuote, List.length_append]
    rfl

/-- A blank goes on with nothing, and nor does the end of the source. -/
theorem stops_of_leaves {t : Text} (h : ∀ b ∈ t.head?, blank b = true) (item : Item) :
    item.Stops t := by
  have names : Leaves nameByte t := fun b first => nameByte_of_blank (h b first)
  cases item with
  | name | mention => exact names
  | number =>
    refine ⟨fun b first => digit_of_nameByte (names b first), fun _ => ?_⟩
    cases t with
    | nil => rfl
    | cons b t =>
      rcases eq_of_blank (h b rfl) with rfl | rfl | rfl | rfl | rfl | rfl <;> cases t <;> rfl
  | operator =>
    intro b first
    rcases eq_of_blank (h b first) with rfl | rfl | rfl | rfl | rfl | rfl <;> rfl
  | mark | text => trivial

/-! ## Sources -/

/-- Items one after another, each with the bytes that are put after it. -/
def writeAll : List (Item × Text) → Text
  | [] => []
  | (item, gap) :: rest => item.spelling ++ (gap ++ writeAll rest)

/-- The tokens of these items, when the first of them stands at an offset. -/
def tokens (position : Nat) : List (Item × Text) → List Token
  | [] => []
  | (item, gap) :: rest =>
    ⟨item.lexeme, position⟩ :: tokens (position + item.spelling.length + gap.length) rest

/-- There are blanks between the items, if anything, and each item stops where it ends. -/
def Legible : List (Item × Text) → Prop
  | [] => True
  | (item, gap) :: rest =>
    (∀ b ∈ gap, blank b = true) ∧ item.Stops (gap ++ writeAll rest) ∧ Legible rest

theorem scanFrom_writeAll {items : List (Item × Text)} (legible : Legible items) (position : Nat) :
    Token.scanFrom 0 position (writeAll items) = tokens position items := by
  induction items generalizing position with
  | nil => rfl
  | cons x rest ih =>
    obtain ⟨item, gap⟩ := x
    obtain ⟨blanks, stops, legible⟩ := legible
    obtain ⟨b, s, spelled, notBlank, read⟩ := start_spelling stops
    have first : Token.scanFrom 0 position (b :: (s ++ (gap ++ writeAll rest))) =
        ⟨item.lexeme, position⟩ ::
          Token.scanFrom s.length (position + 1) (s ++ (gap ++ writeAll rest)) := by
      rw [Token.scanFrom, notBlank, read]
      rfl
    have next : position + 1 + s.length + gap.length =
        position + item.spelling.length + gap.length := by
      rw [spelled, List.length_cons]
      omega
    rw [writeAll, spelled, List.cons_append, first, Token.scanFrom_length, Token.scanFrom_blanks blanks,
      ih legible, next]
    rfl

/-- Blanks between each two items are enough. -/
theorem legible_of_apart {items : List (Item × Text)}
    (blanks : ∀ x ∈ items, ∀ b ∈ x.2, blank b = true) (apart : ∀ x ∈ items.dropLast, x.2 ≠ []) :
    Legible items := by
  induction items with
  | nil => trivial
  | cons x rest ih =>
    obtain ⟨item, gap⟩ := x
    obtain ⟨first, others⟩ := List.forall_mem_cons.mp blanks
    refine ⟨first, stops_of_leaves (fun b isFirst => ?_) item, ih others fun x mem => ?_⟩
    · cases gap with
      | cons c gap =>
        obtain rfl : c = b := Option.some.inj isFirst
        exact first c (List.mem_cons_self ..)
      | nil =>
        cases rest with
        | nil => cases isFirst
        | cons y rest => exact absurd rfl (apart (item, []) (List.mem_cons_self ..))
    · cases rest with
      | nil => cases mem
      | cons y rest => exact apart x (List.mem_cons_of_mem _ mem)

/-- Items that are written one after another, with blanks between each two of them, are the tokens
of what is written, each at the offset where it stands. -/
theorem tokenize_writeAll {lead : Text} {items : List (Item × Text)}
    (blanksBefore : ∀ b ∈ lead, blank b = true) (blanks : ∀ x ∈ items, ∀ b ∈ x.2, blank b = true)
    (apart : ∀ x ∈ items.dropLast, x.2 ≠ []) :
    tokenize (lead ++ writeAll items) =
      tokens lead.length items ++ [⟨.eof, (lead ++ writeAll items).length⟩] := by
  rw [tokenize, Token.scan, Token.scanFrom_blanks blanksBefore,
    scanFrom_writeAll (legible_of_apart blanks apart), Nat.zero_add]

/-- A point between numbers, two operators that would make one, and a text that holds its own quote,
a backslash and a mention. -/
theorem tokenize_writeAll_of_neighbours :
    let items : List (Item × Text) :=
      [(.number _ (.whole (s := utf8 "1") (by decide +kernel)), utf8 " "), (.mark .dot, utf8 "\t"),
        (.number _ (.fraction (s := utf8 "2") (f := utf8 "50") (by decide +kernel) (by decide +kernel)), utf8 "\n"),
        (.operator .less, utf8 " "), (.operator .greater, utf8 "  "),
        (.text '"'.toUInt8 (.inl rfl) (utf8 "\\@a\" 'b'"), utf8 " "),
        (.mention (utf8 "b") (by decide +kernel), [])]
    let source := utf8 " 1 .\t2.50\n< >  \"\\\\@a\\\" 'b'\" @b"
    (∀ b ∈ utf8 " ", blank b = true) ∧ (∀ x ∈ items, ∀ b ∈ x.2, blank b = true) ∧
      (∀ x ∈ items.dropLast, x.2 ≠ []) ∧ source = utf8 " " ++ writeAll items ∧
      tokenize source = tokens 1 items ++ [⟨.eof, source.length⟩] := by
  intro items source
  have lead : ∀ b ∈ utf8 " ", blank b = true := by decide +kernel
  have blanks : ∀ x ∈ items, ∀ b ∈ x.2, blank b = true := by decide +kernel
  have apart : ∀ x ∈ items.dropLast, x.2 ≠ [] := by decide +kernel
  have written : source = utf8 " " ++ writeAll items := by decide +kernel
  refine ⟨lead, blanks, apart, written, ?_⟩
  rw [written]
  exact tokenize_writeAll lead blanks apart

end Item

end ComputedFields
