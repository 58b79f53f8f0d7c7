import ComputedFields.Proofs.Numerals
import Mathlib.Data.List.Nodup

/-!
# `ComputedFields.Proofs.JsonGrammar` — what a JSON text says

The grammar of JSON on bytes:

    text      := blanks value blanks
    value     := 'null' | 'true' | 'false' | number | string
               | '[' (blanks | text (',' text)*) ']' | '{' (blanks | member (',' member)*) '}'
    member    := blanks string blanks ':' text
    number    := ['-'] ('0' | nonzero-digit digit*) ['.' digit+] [('e' | 'E') ['+' | '-'] digit+]
    string    := '"' character* '"'
    character := byte | '\' escape | '\u' hex hex hex hex | '\u' hex hex hex hex '\u' hex hex hex hex

A byte of 0x20 or above other than a quote and a backslash stands for itself, whatever stands beside
it. The other characters stand for the UTF-8 of a code point, which two escapes give together when
it is above 0xFFFF; half of such a pair stands for nothing. A number says how it is spelled, and an
object says its members in their order.

The grammar is unambiguous: a text says one thing at most. For a value that is followed by more the
bytes after it have to be such that they do not go on with a number.

* `Json`, `Json.Denotes`, `Json.IsText` — the grammar;
* `Json.Only` — a phrase is found in one way;
* `Json.IsText.unique` — a text says one thing.
-/

namespace ComputedFields

open Text Number.Numeral

/-- What a JSON text says. -/
inductive Json where
  | null
  | boolean (b : Bool)
  | number (spelling : Text)
  | string (s : Text)
  | array (items : List Json)
  | object (members : List (Text × Json))

namespace Json

/-! ## Numbers -/

/-- The whole part of a number has no zero before other digits. -/
inductive IsWhole : Text → Prop
  | zero : IsWhole ['0'.toUInt8]
  | digits {b : UInt8} {s : Text} : digit b = true → b ≠ '0'.toUInt8 → (∀ c ∈ s, digit c = true) →
    IsWhole (b :: s)

/-- A point and digits. -/
inductive IsFraction : Text → Prop
  | intro {s : Text} : IsDigits s → IsFraction ('.'.toUInt8 :: s)

/-- A number, whose sign, fraction and exponent may be missing. -/
inductive IsNumber : Text → Prop
  | intro {sign whole fraction exponent : Text} :
    sign = [] ∨ sign = ['-'.toUInt8] → IsWhole whole → fraction = [] ∨ IsFraction fraction →
    exponent = [] ∨ IsExponent exponent → IsNumber (sign ++ whole ++ fraction ++ exponent)

/-! ## Strings -/

/-- The bytes that may follow a backslash, with those that they stand for then. -/
def escapes : List (UInt8 × UInt8) :=
  [('"'.toUInt8, '"'.toUInt8), ('\\'.toUInt8, '\\'.toUInt8), ('/'.toUInt8, '/'.toUInt8),
    ('b'.toUInt8, 8), ('f'.toUInt8, 12), ('n'.toUInt8, 10), ('r'.toUInt8, 13), ('t'.toUInt8, 9)]

/-- Four hexadecimal digits and their number. -/
inductive IsCode : Text → Nat → Prop
  | intro {a b c d : UInt8} : (∀ x ∈ [a, b, c, d], hexDigit x = true) →
    IsCode [a, b, c, d] (((hexValue a * 16 + hexValue b) * 16 + hexValue c) * 16 + hexValue d)

/-- The UTF-8 of a code point. -/
def encoded (code : Nat) : Text := String.utf8EncodeChar (Char.ofNat code)

/-- What may follow a backslash, and what it stands for then. -/
inductive Escape : Text → Text → Prop
  | byte {b c : UInt8} : (b, c) ∈ escapes → Escape [b] [c]
  | code {digits : Text} {n : Nat} : IsCode digits n → n < 0xD800 ∨ 0xDFFF < n →
    Escape ('u'.toUInt8 :: digits) (encoded n)
  | pair {high low : Text} {m n : Nat} : IsCode high m → 0xD800 ≤ m → m ≤ 0xDBFF → IsCode low n →
    0xDC00 ≤ n → n ≤ 0xDFFF →
    Escape ('u'.toUInt8 :: (high ++ '\\'.toUInt8 :: 'u'.toUInt8 :: low))
      (encoded (0x10000 + (m - 0xD800) * 0x400 + (n - 0xDC00)))

/-- A character in a string, and what it stands for. -/
inductive Character : Text → Text → Prop
  | byte {b : UInt8} : 0x20 ≤ b → b ≠ '"'.toUInt8 → b ≠ '\\'.toUInt8 → Character [b] [b]
  | escape {s m : Text} : Escape s m → Character ('\\'.toUInt8 :: s) m

/-- Characters one after another, and what they stand for. -/
inductive Characters : Text → Text → Prop
  | nil : Characters [] []
  | cons {c m cs ms : Text} : Character c m → Characters cs ms → Characters (c ++ cs) (m ++ ms)

/-- A string. -/
inductive IsString : Text → Text → Prop
  | intro {cs s : Text} : Characters cs s →
    IsString ('"'.toUInt8 :: (cs ++ ['"'.toUInt8])) s

/-! ## Values -/

/-- What may stand around a value: spaces, tabs, line feeds and carriage returns. -/
def blankByte (b : UInt8) : Bool := b == 0x20 || b == 0x09 || b == 0x0A || b == 0x0D

section

variable {α : Type}

/-- A phrase with blanks around it. -/
inductive Padded (p : Text → α → Prop) : Text → α → Prop
  | intro {before s after : Text} {a : α} : (∀ b ∈ before, blankByte b = true) → p s a →
    (∀ b ∈ after, blankByte b = true) → Padded p (before ++ (s ++ after)) a

/-- A key with a colon and a phrase after it. -/
inductive Member (p : Text → α → Prop) : Text → Text × α → Prop
  | intro {k s key : Text} {a : α} : Padded IsString k key → p s a →
    Member p (k ++ ':'.toUInt8 :: s) (key, a)

/-- Phrases with commas between them, one at least. -/
inductive Sequence (p : Text → α → Prop) : Text → List α → Prop
  | one {s : Text} {a : α} : p s a → Sequence p s [a]
  | more {s t : Text} {a : α} {as : List α} : p s a → Sequence p t as →
    Sequence p (s ++ ','.toUInt8 :: t) (a :: as)

/-- Between two brackets, phrases with commas between them, or blanks. -/
inductive Bracketed (opening closing : Char) (p : Text → α → Prop) : Text → List α → Prop
  | empty {s : Text} : (∀ b ∈ s, blankByte b = true) →
    Bracketed opening closing p (opening.toUInt8 :: (s ++ [closing.toUInt8])) []
  | list {s : Text} {as : List α} : Sequence p s as →
    Bracketed opening closing p (opening.toUInt8 :: (s ++ [closing.toUInt8])) as

end

/-- A value. -/
inductive Denotes : Text → Json → Prop
  | null : Denotes (utf8 "null") .null
  | true : Denotes (utf8 "true") (.boolean true)
  | false : Denotes (utf8 "false") (.boolean false)
  | number {s : Text} : IsNumber s → Denotes s (.number s)
  | string {s t : Text} : IsString s t → Denotes s (.string t)
  | array {s : Text} {items : List Json} :
    Bracketed '[' ']' (Padded Denotes) s items → Denotes s (.array items)
  | object {s : Text} {members : List (Text × Json)} :
    Bracketed '\x7b' '\x7d' (Member (Padded Denotes)) s members → Denotes s (.object members)

/-- A JSON text and what it says. -/
def IsText : Text → Json → Prop := Padded Denotes

/-! ## Beginnings -/

/-- What a text says, as far as its first byte tells. -/
inductive Shape where
  | null | true | false | number | string | array | object

/-- What is said by texts that start with a byte. -/
def Shape.ofByte? (b : UInt8) : Option Shape :=
  if digit b || b == '-'.toUInt8 then some .number
  else if b == 'n'.toUInt8 then some .null
  else if b == 't'.toUInt8 then some .true
  else if b == 'f'.toUInt8 then some .false
  else if b == '"'.toUInt8 then some .string
  else if b == '['.toUInt8 then some .array
  else if b == '\x7b'.toUInt8 then some .object
  else none

/-- What a text says, without its parts. -/
def shape : Json → Shape
  | .null => .null
  | .boolean true => .true
  | .boolean false => .false
  | .number _ => .number
  | .string _ => .string
  | .array _ => .array
  | .object _ => .object

/-- The text starts as those do that say something of a shape. -/
def Starts (shape : Shape) (s : Text) : Prop :=
  ∃ b t, s = b :: t ∧ Shape.ofByte? b = some shape

theorem IsNumber.starts {s : Text} (h : IsNumber s) : Starts .number s := by
  cases h with
  | intro isSign isWhole =>
    rcases isSign with rfl | rfl
    · cases isWhole with
      | zero => exact ⟨_, _, rfl, rfl⟩
      | digits isDigit => exact ⟨_, _, rfl, if_pos (by rw [isDigit]; rfl)⟩
    · exact ⟨_, _, rfl, rfl⟩

theorem IsString.starts {s t : Text} (h : IsString s t) : Starts .string s := by
  cases h
  exact ⟨_, _, rfl, rfl⟩

/-- The first byte of a value tells its shape. -/
theorem Denotes.starts {s : Text} {j : Json} (h : Denotes s j) : Starts j.shape s := by
  cases h with
  | null | true | false => exact ⟨_, _, rfl, rfl⟩
  | number isNumber => exact isNumber.starts
  | string isString => exact isString.starts
  | array bracketed | object bracketed => cases bracketed <;> exact ⟨_, _, rfl, rfl⟩

theorem Denotes.shape_eq {s s' rest rest' : Text} {j j' : Json} (h : Denotes s j)
    (h' : Denotes s' j') (same : s ++ rest = s' ++ rest') : j'.shape = j.shape := by
  obtain ⟨b, t, rfl, shape⟩ := h.starts
  obtain ⟨b', t', rfl, shape'⟩ := h'.starts
  obtain ⟨rfl, -⟩ := List.cons.inj same
  exact Option.some.inj (shape'.symm.trans shape)

/-- No value starts with a blank. -/
theorem Starts.leaves {shape : Shape} {s : Text} (h : Starts shape s) (t : Text) :
    Leaves blankByte (s ++ t) := by
  obtain ⟨b, s, rfl, starts⟩ := h
  rintro _ ⟨⟩
  rw [Bool.eq_false_iff]
  intro isBlank
  simp only [blankByte, Bool.or_eq_true, beq_iff_eq] at isBlank
  rcases isBlank with ((rfl | rfl) | rfl) | rfl <;> cases starts

/-- After its blanks, the text starts as a value does. -/
def Opens (s : Text) : Prop :=
  ∃ before t shape, s = before ++ t ∧ (∀ b ∈ before, blankByte b = true) ∧ Starts shape t

theorem Opens.append {s : Text} (h : Opens s) (t : Text) : Opens (s ++ t) := by
  obtain ⟨before, _, shape, rfl, isBefore, b, u, rfl, starts⟩ := h
  exact ⟨before, _, shape, List.append_assoc .., isBefore, b, u ++ t, rfl, starts⟩

section

variable {α : Type} {p : Text → α → Prop} {a : α}

theorem Padded.opens (shape : α → Shape) {s : Text}
    (starts : ∀ {s : Text} {a : α}, p s a → Starts (shape a) s) (h : Padded p s a) : Opens s := by
  cases h with
  | intro isBefore phrase =>
    obtain ⟨b, t, rfl, opens⟩ := starts phrase
    exact ⟨_, _, _, rfl, isBefore, b, _, rfl, opens⟩

theorem Member.opens {s key : Text} (h : Member p s (key, a)) : Opens s := by
  cases h with
  | intro isKey => exact (isKey.opens (fun _ => .string) IsString.starts).append _

theorem Sequence.opens {s : Text} {as : List α} (opens : ∀ {s : Text} {a : α}, p s a → Opens s)
    (h : Sequence p s as) : Opens s := by
  cases h with
  | one phrase => exact opens phrase
  | more phrase => exact (opens phrase).append _

end

/-! ## Phrases that are found in one way -/

/-- The bytes of numbers. -/
def numberByte (b : UInt8) : Bool :=
  digit b || b == '-'.toUInt8 || b == '+'.toUInt8 || b == '.'.toUInt8 || lowerByte b == 'e'.toUInt8

/-- The bytes that a value and the blanks after it may go on with. -/
def goesOn (b : UInt8) : Bool := numberByte b || blankByte b

/-- What leaves both classes leaves the numbers, even with blanks before it. -/
theorem leaves_numberByte {after t : Text} (isAfter : ∀ b ∈ after, blankByte b = true)
    (leaves : Leaves goesOn t) : Leaves numberByte (after ++ t) := by
  cases after with
  | nil => exact fun b mem => (Bool.or_eq_false_iff.mp (leaves b mem)).1
  | cons b after =>
    refine leaves_cons ?_ _
    have isBlank := isAfter b (List.mem_cons_self ..)
    simp only [blankByte, Bool.or_eq_true, beq_iff_eq] at isBlank
    rcases isBlank with ((rfl | rfl) | rfl) | rfl <;> rfl

theorem leaves_blankByte {t : Text} (leaves : Leaves goesOn t) : Leaves blankByte t :=
  fun b mem => (Bool.or_eq_false_iff.mp (leaves b mem)).2

section

variable {α : Type} {p : Text → α → Prop} {c : UInt8 → Bool} {a : α}

/-- When a phrase for `a` starts a text, no other phrase does, given that what follows does not go
on with bytes of a class. -/
structure Only (c : UInt8 → Bool) (p : Text → α → Prop) (a : α) : Prop where
  eq : ∀ {s s' : Text} {a' : α} {rest rest' : Text}, p s a → p s' a' → Leaves c rest →
    Leaves c rest' → s ++ rest = s' ++ rest' → a' = a ∧ rest' = rest

/-- The blanks around a phrase are no part of it. -/
theorem Only.padded (shape : α → Shape) (h : Only numberByte p a)
    (starts : ∀ {s : Text} {a : α}, p s a → Starts (shape a) s) : Only goesOn (Padded p) a := by
  refine ⟨fun padded padded' leaves leaves' same => ?_⟩
  cases padded with
  | intro isBefore phrase isAfter =>
    cases padded' with
    | intro isBefore' phrase' isAfter' =>
      simp only [List.append_assoc] at same
      obtain ⟨-, same⟩ := append_inj_of_leaves isBefore isBefore' ((starts phrase).leaves _)
        ((starts phrase').leaves _) same
      obtain ⟨rfl, same⟩ := h.eq phrase phrase' (leaves_numberByte isAfter leaves)
        (leaves_numberByte isAfter' leaves') same.symm
      obtain ⟨-, same⟩ := append_inj_of_leaves isAfter isAfter' (leaves_blankByte leaves)
        (leaves_blankByte leaves') same.symm
      exact ⟨rfl, same⟩

/-- A key ends at its colon. -/
theorem Only.member {key : Text} (keyOnly : Only goesOn (Padded IsString) key)
    (h : Only goesOn p a) : Only goesOn (Member p) (key, a) := by
  refine ⟨fun member member' leaves leaves' same => ?_⟩
  cases member with
  | intro isKey phrase =>
    cases member' with
    | intro isKey' phrase' =>
      simp only [List.append_assoc, List.cons_append] at same
      obtain ⟨rfl, same⟩ := keyOnly.eq isKey isKey' (leaves_cons rfl _) (leaves_cons rfl _) same
      obtain ⟨rfl, same⟩ := h.eq phrase phrase' leaves leaves' (List.cons.inj same).2.symm
      exact ⟨rfl, same⟩

/-- Phrases with commas between them end at a bracket. -/
theorem Sequence.unique {as as' : List α} {s s' rest rest' : Text} {closing : UInt8}
    (each : ∀ a ∈ as, Only goesOn p a) (ends : goesOn closing = false)
    (noComma : closing ≠ ','.toUInt8) (list : Sequence p s as) (list' : Sequence p s' as')
    (same : s ++ closing :: rest = s' ++ closing :: rest') : as' = as ∧ rest' = rest := by
  induction list generalizing s' as' with
  | one phrase =>
    obtain ⟨only, -⟩ := List.forall_mem_cons.mp each
    cases list' with
    | one phrase' =>
      obtain ⟨rfl, same⟩ := only.eq phrase phrase' (leaves_cons ends _) (leaves_cons ends _) same
      exact ⟨rfl, (List.cons.inj same).2⟩
    | more phrase' list' =>
      rw [List.append_assoc] at same
      obtain ⟨-, same⟩ := only.eq phrase phrase' (leaves_cons ends _) (leaves_cons rfl _) same
      exact absurd (List.cons.inj same).1.symm noComma
  | more phrase list ih =>
    obtain ⟨only, others⟩ := List.forall_mem_cons.mp each
    rw [List.append_assoc] at same
    cases list' with
    | one phrase' =>
      obtain ⟨-, same⟩ := only.eq phrase phrase' (leaves_cons rfl _) (leaves_cons ends _) same
      exact absurd (List.cons.inj same).1 noComma
    | more phrase' list' =>
      rw [List.append_assoc] at same
      obtain ⟨rfl, same⟩ := only.eq phrase phrase' (leaves_cons rfl _) (leaves_cons rfl _) same
      obtain ⟨rfl, same⟩ := ih others list' (List.cons.inj same).2.symm
      exact ⟨rfl, same⟩

/-- Blanks do not go on to a value. -/
theorem Opens.ne_closed {s s' rest rest' : Text} {closing : UInt8} (opens : Opens s)
    (isBlank : ∀ b ∈ s', blankByte b = true) (ends : goesOn closing = false)
    (noStart : Shape.ofByte? closing = none) :
    s ++ rest ≠ s' ++ closing :: rest' := by
  intro same
  obtain ⟨before, t, shape, rfl, isBefore, starts⟩ := opens
  rw [List.append_assoc] at same
  obtain ⟨-, same⟩ := append_inj_of_leaves isBefore isBlank (starts.leaves _)
    (leaves_blankByte (leaves_cons ends _)) same
  obtain ⟨b, t, rfl, starts⟩ := starts
  obtain ⟨rfl, -⟩ := List.cons.inj same
  cases noStart.symm.trans starts

theorem Only.bracketed {as : List α} {opening closing : Char}
    (opens : ∀ {s : Text} {a : α}, p s a → Opens s) (ends : goesOn closing.toUInt8 = false)
    (noComma : closing.toUInt8 ≠ ','.toUInt8) (noStart : Shape.ofByte? closing.toUInt8 = none)
    (each : ∀ a ∈ as, Only goesOn p a) : Only c (Bracketed opening closing p) as := by
  refine ⟨fun bracketed bracketed' _ _ same => ?_⟩
  have closes (t : Text) : Leaves blankByte (closing.toUInt8 :: t) :=
    leaves_blankByte (leaves_cons ends t)
  cases bracketed with
  | empty isBlank =>
    cases bracketed' with
    | empty isBlank' =>
      simp only [List.cons_append, List.append_assoc, List.cons.injEq, true_and] at same
      obtain ⟨-, same⟩ := append_inj_of_leaves isBlank isBlank' (closes _) (closes _) same
      exact ⟨rfl, (List.cons.inj same).2⟩
    | list list' =>
      simp only [List.cons_append, List.append_assoc, List.cons.injEq, true_and] at same
      exact absurd same.symm ((list'.opens opens).ne_closed isBlank ends noStart)
  | list list =>
    cases bracketed' with
    | empty isBlank' =>
      simp only [List.cons_append, List.append_assoc, List.cons.injEq, true_and] at same
      exact absurd same ((list.opens opens).ne_closed isBlank' ends noStart)
    | list list' =>
      simp only [List.cons_append, List.append_assoc, List.cons.injEq, true_and] at same
      exact list.unique each ends noComma list' same

end

/-! ## Strings that are found in one way -/

theorem IsCode.unique {s s' rest rest' : Text} {n n' : Nat} (h : IsCode s n) (h' : IsCode s' n')
    (same : s ++ rest = s' ++ rest') : n' = n ∧ rest' = rest := by
  cases h
  cases h'
  simp only [List.cons_append, List.nil_append, List.cons.injEq] at same
  obtain ⟨rfl, rfl, rfl, rfl, rfl⟩ := same
  exact ⟨rfl, rfl⟩

theorem Escape.unique {s s' m m' rest rest' : Text} (h : Escape s m) (h' : Escape s' m')
    (same : s ++ rest = s' ++ rest') : m' = m ∧ rest' = rest := by
  have distinct : (escapes.map (·.1)).Nodup := by decide
  have noCode {b c : UInt8} (mem : (b, c) ∈ escapes) : b ≠ 'u'.toUInt8 := by
    rintro rfl
    exact absurd (List.mem_map_of_mem mem) (by decide : 'u'.toUInt8 ∉ escapes.map (·.1))
  cases h with
  | byte mem =>
    cases h' with
    | byte mem' =>
      simp only [List.cons_append, List.nil_append, List.cons.injEq] at same
      cases List.inj_on_of_nodup_map distinct mem mem' same.1
      exact ⟨rfl, same.2.symm⟩
    | code | pair => exact absurd (List.cons.inj same).1 (noCode mem)
  | code isCode noPair =>
    cases h' with
    | byte mem' => exact absurd (List.cons.inj same).1.symm (noCode mem')
    | code isCode' =>
      simp only [List.cons_append, List.cons.injEq, true_and] at same
      obtain ⟨rfl, same⟩ := isCode.unique isCode' same
      exact ⟨rfl, same⟩
    | pair isHigh =>
      simp only [List.cons_append, List.append_assoc, List.cons.injEq, true_and] at same
      obtain ⟨rfl, -⟩ := isCode.unique isHigh same
      omega
  | pair isHigh _ _ isLow =>
    cases h' with
    | byte mem' => exact absurd (List.cons.inj same).1.symm (noCode mem')
    | code isCode =>
      simp only [List.cons_append, List.append_assoc, List.cons.injEq, true_and] at same
      obtain ⟨rfl, -⟩ := isHigh.unique isCode same
      omega
    | pair isHigh' _ _ isLow' =>
      simp only [List.cons_append, List.append_assoc, List.cons.injEq, true_and] at same
      obtain ⟨rfl, same⟩ := isHigh.unique isHigh' same
      simp only [List.cons.injEq, true_and] at same
      obtain ⟨rfl, same⟩ := isLow.unique isLow' same.symm
      exact ⟨rfl, same⟩

/-- No character goes on as another one. -/
theorem Character.unique {c c' m m' rest rest' : Text} (h : Character c m) (h' : Character c' m')
    (same : c ++ rest = c' ++ rest') : m' = m ∧ rest' = rest := by
  cases h with
  | byte _ _ noEscape =>
    cases h' with
    | byte =>
      simp only [List.cons_append, List.nil_append, List.cons.injEq] at same
      exact ⟨by rw [same.1], same.2.symm⟩
    | escape => exact absurd (List.cons.inj same).1 noEscape
  | escape isEscape =>
    cases h' with
    | byte _ _ noEscape => exact absurd (List.cons.inj same).1.symm noEscape
    | escape isEscape' => exact isEscape.unique isEscape' (List.cons.inj same).2

/-- No character starts with a quote. -/
theorem Character.ne_quote {c m : Text} (h : Character c m) (rest rest' : Text) :
    c ++ rest ≠ '"'.toUInt8 :: rest' := by
  intro same
  cases h with
  | byte _ noQuote => exact noQuote (List.cons.inj same).1
  | escape => cases same

/-- Characters end at a quote. -/
theorem Characters.unique {cs cs' m m' rest rest' : Text} (h : Characters cs m)
    (h' : Characters cs' m')
    (same : cs ++ '"'.toUInt8 :: rest = cs' ++ '"'.toUInt8 :: rest') : m' = m ∧ rest' = rest := by
  induction h generalizing cs' m' with
  | nil =>
    cases h' with
    | nil => exact ⟨rfl, (List.cons.inj same).2.symm⟩
    | cons character' =>
      rw [List.append_assoc] at same
      exact absurd same.symm (character'.ne_quote _ _)
  | cons character _ ih =>
    rw [List.append_assoc] at same
    cases h' with
    | nil => exact absurd same (character.ne_quote _ _)
    | cons character' characters' =>
      rw [List.append_assoc] at same
      obtain ⟨rfl, same⟩ := character.unique character' same
      obtain ⟨rfl, same⟩ := ih characters' same.symm
      exact ⟨rfl, same⟩

theorem only_isString (c : UInt8 → Bool) (s : Text) : Only c IsString s := by
  refine ⟨fun isString isString' _ _ same => ?_⟩
  cases isString with
  | intro characters =>
    cases isString' with
    | intro characters' =>
      simp only [List.cons_append, List.append_assoc, List.nil_append, List.cons.injEq,
        true_and] at same
      exact characters.unique characters' same

/-! ## Numbers that are found in one way -/

theorem numberByte_of_digit {b : UInt8} (h : digit b = true) : numberByte b = true := by
  simp [numberByte, h]

theorem IsWhole.numberByte {s : Text} (h : IsWhole s) : ∀ b ∈ s, numberByte b = true := by
  cases h with
  | zero => exact List.forall_mem_singleton.mpr rfl
  | digits first _ others =>
    exact List.forall_mem_cons.mpr
      ⟨numberByte_of_digit first, fun b mem => numberByte_of_digit (others b mem)⟩

theorem IsFraction.numberByte {s : Text} (h : IsFraction s) : ∀ b ∈ s, numberByte b = true := by
  cases h with
  | intro isDigits =>
    exact List.forall_mem_cons.mpr ⟨rfl, fun b mem => numberByte_of_digit (isDigits.2 b mem)⟩

theorem numberByte_of_isExponent {s : Text} (h : IsExponent s) :
    ∀ b ∈ s, numberByte b = true := by
  have digits {s : Text} (isDigits : IsDigits s) : ∀ b ∈ s, Json.numberByte b = true :=
    fun b mem => numberByte_of_digit (isDigits.2 b mem)
  cases h with
  | intro isMark signed =>
    refine List.forall_mem_cons.mpr ⟨by simp [Json.numberByte, isMark], ?_⟩
    cases signed with
    | unsigned isDigits => exact digits isDigits
    | plus isDigits | minus isDigits => exact List.forall_mem_cons.mpr ⟨rfl, digits isDigits⟩

theorem IsNumber.numberByte {s : Text} (h : IsNumber s) : ∀ b ∈ s, numberByte b = true := by
  cases h with
  | intro isSign isWhole isFraction isExponent =>
    simp only [List.forall_mem_append]
    refine ⟨⟨⟨?_, isWhole.numberByte⟩, ?_⟩, ?_⟩
    · rcases isSign with rfl | rfl
      · exact List.forall_mem_nil _
      · exact List.forall_mem_singleton.mpr rfl
    · rcases isFraction with rfl | isFraction
      · exact List.forall_mem_nil _
      · exact isFraction.numberByte
    · rcases isExponent with rfl | isExponent
      · exact List.forall_mem_nil _
      · exact numberByte_of_isExponent isExponent

/-! ## Values that are found in one way -/

/-- What is said nests lists. The recursor that Lean derives has further motives for these; here
they are fixed to say that the first holds of every item and of every member. -/
@[elab_as_elim, induction_eliminator]
theorem inductOn {motive : Json → Prop} (null : motive .null)
    (boolean : ∀ b, motive (.boolean b)) (number : ∀ spelling, motive (.number spelling))
    (string : ∀ s, motive (.string s))
    (array : ∀ items, (∀ j ∈ items, motive j) → motive (.array items))
    (object : ∀ members, (∀ member ∈ members, motive member.2) → motive (.object members))
    (j : Json) : motive j :=
  @Json.rec motive (fun items => ∀ j ∈ items, motive j)
    (fun members => ∀ member ∈ members, motive member.2) (fun member => motive member.2)
    null boolean number string array object (List.forall_mem_nil _)
    (fun _ _ first others => List.forall_mem_cons.mpr ⟨first, others⟩) (List.forall_mem_nil _)
    (fun _ _ first others => List.forall_mem_cons.mpr ⟨first, others⟩) (fun _ _ value => value) j

theorem only_of_shape {j : Json}
    (h : ∀ {s s' : Text} {j' : Json} {rest rest' : Text}, Denotes s j → Denotes s' j' →
      j'.shape = j.shape → Leaves numberByte rest → Leaves numberByte rest' →
      s ++ rest = s' ++ rest' → j' = j ∧ rest' = rest) : Only numberByte Denotes j :=
  ⟨fun phrase phrase' leaves leaves' same =>
    h phrase phrase' (phrase.shape_eq phrase' same) leaves leaves' same⟩

theorem Only.text {j : Json} (h : Only numberByte Denotes j) : Only goesOn (Padded Denotes) j :=
  h.padded _ Denotes.starts

theorem only_key (s : Text) : Only goesOn (Padded IsString) s :=
  (only_isString numberByte s).padded (fun _ => .string) IsString.starts

/-- A value is found in one way, where it does not go on with a number. -/
theorem only_denotes (j : Json) : Only numberByte Denotes j := by
  induction j with
  | null =>
    refine only_of_shape fun h h' shape _ _ same => ?_
    cases h
    cases h' with
    | null => exact ⟨rfl, (List.append_cancel_left same).symm⟩
    | _ => cases shape
  | boolean b =>
    refine only_of_shape fun h h' shape _ _ same => ?_
    cases h <;> cases h' with
    | true | false => first | exact ⟨rfl, (List.append_cancel_left same).symm⟩ | cases shape
    | _ => cases shape
  | number spelling =>
    refine only_of_shape fun h h' shape leaves leaves' same => ?_
    cases h with
    | number isNumber =>
      cases h' with
      | number isNumber' =>
        obtain ⟨rfl, rfl⟩ := append_inj_of_leaves isNumber.numberByte isNumber'.numberByte leaves
          leaves' same
        exact ⟨rfl, rfl⟩
      | _ => cases shape
  | string s =>
    refine only_of_shape fun h h' shape leaves leaves' same => ?_
    cases h with
    | string isString =>
      cases h' with
      | string isString' =>
        obtain ⟨rfl, same⟩ := (only_isString _ _).eq isString isString' leaves leaves' same
        exact ⟨rfl, same⟩
      | _ => cases shape
  | array items ih =>
    refine only_of_shape fun h h' shape leaves leaves' same => ?_
    cases h with
    | array bracketed =>
      cases h' with
      | array bracketed' =>
        have only : Only numberByte (Bracketed '[' ']' (Padded Denotes)) items :=
          .bracketed (Padded.opens _ Denotes.starts) rfl (by decide) rfl fun j mem =>
            (ih j mem).text
        obtain ⟨rfl, same⟩ := only.eq bracketed bracketed' leaves leaves' same
        exact ⟨rfl, same⟩
      | _ => cases shape
  | object members ih =>
    refine only_of_shape fun h h' shape leaves leaves' same => ?_
    cases h with
    | object bracketed =>
      cases h' with
      | object bracketed' =>
        have only : Only numberByte (Bracketed '\x7b' '\x7d' (Member (Padded Denotes))) members :=
          .bracketed Member.opens rfl (by decide) rfl fun member mem =>
            (only_key member.1).member (ih member mem).text
        obtain ⟨rfl, same⟩ := only.eq bracketed bracketed' leaves leaves' same
        exact ⟨rfl, same⟩
      | _ => cases shape

/-- A JSON text says one thing. -/
theorem IsText.unique {s : Text} {j j' : Json} (h : IsText s j) (h' : IsText s j') : j' = j :=
  ((only_denotes j).text.eq h h' (leaves_nil _) (leaves_nil _) rfl).1

end Json

end ComputedFields
