/-!
# `ComputedFields.Text` — texts as byte strings

Formula sources, field names and text values are arbitrary byte strings: every position in a formula
is a byte offset, and nothing requires the bytes to be valid UTF-8. Character classes and letter
case are those of ASCII; a byte of 128 or more is in no class and has no case.

* `blank`, `digit`, `nameStart`, `nameByte` — the character classes;
* `lower`, `upper`, `trim`, `replaceAll`, `characters` — the operations that formulas offer;
* `repeated?` — the first repetition in a list of texts;
* `decimal`, `padded` — integers as decimal numerals;
* `untilNul` — the part of a message that is reported.
-/

namespace ComputedFields

/-- A byte string. -/
abbrev Text := List UInt8

/-- The UTF-8 bytes of a string. -/
def utf8 (s : String) : Text := s.toUTF8.data.toList

namespace Text

/-! ## Character classes -/

/-- Space, tab, line feed, vertical tab, form feed and carriage return are blank. -/
def blank (b : UInt8) : Bool := b == 32 || (9 ≤ b && b ≤ 13)

/-- A decimal digit. -/
def digit (b : UInt8) : Bool := '0'.toUInt8 ≤ b && b ≤ '9'.toUInt8

/-- A capital letter of ASCII. -/
def capital (b : UInt8) : Bool := 'A'.toUInt8 ≤ b && b ≤ 'Z'.toUInt8

/-- A small letter of ASCII. -/
def small (b : UInt8) : Bool := 'a'.toUInt8 ≤ b && b ≤ 'z'.toUInt8

/-- A name starts with a letter or an underscore. -/
def nameStart (b : UInt8) : Bool := capital b || small b || b == '_'.toUInt8

/-- A name goes on with letters, underscores and digits. -/
def nameByte (b : UInt8) : Bool := nameStart b || digit b

/-- The value of a decimal digit. -/
def digitValue (b : UInt8) : Nat := b.toNat - '0'.toUInt8.toNat

/-! ## Letter case -/

/-- The small letter for a capital one; other bytes stand for themselves. -/
def lowerByte (b : UInt8) : UInt8 := if capital b then b + 32 else b

/-- The capital letter for a small one; other bytes stand for themselves. -/
def upperByte (b : UInt8) : UInt8 := if small b then b - 32 else b

/-- The text with small letters for capital ones. -/
def lower (s : Text) : Text := s.map lowerByte

/-- The text with capital letters for small ones. -/
def upper (s : Text) : Text := s.map upperByte

/-- Two texts agree when letter case is disregarded. -/
def sameLetters (s t : Text) : Bool := lower s == lower t

/-! ## Parts of a text -/

/-- The text without its leading blanks. -/
def trimStart (s : Text) : Text := s.dropWhile blank

/-- The text without its leading and trailing blanks. -/
def trim (s : Text) : Text := (trimStart (trimStart s).reverse).reverse

/-- The number of characters of a UTF-8 text: continuation bytes are not counted. -/
def characters (s : Text) : Nat := s.countP fun b => b &&& 0xC0 != 0x80

/-- The text before its first zero byte. -/
def untilNul (s : Text) : Text := s.takeWhile (· != 0)

/-- Replaces from left to right, after skipping the bytes that belong to an occurrence already
replaced: what replaces an occurrence is not searched again. -/
def replaceFrom (search replacement : Text) : Nat → Text → Text
  | _, [] => []
  | skip + 1, _ :: s => replaceFrom search replacement skip s
  | 0, b :: s =>
    if search.isPrefixOf (b :: s) then
      replacement ++ replaceFrom search replacement (search.length - 1) s
    else b :: replaceFrom search replacement 0 s

/-- Replaces every leftmost occurrence of `search`; an empty `search` occurs nowhere. -/
def replaceAll (search replacement s : Text) : Text :=
  if search.isEmpty then s else replaceFrom search replacement 0 s

/-- The parts with a separator between each two of them. -/
def join (separator : Text) : List Text → Text
  | [] => []
  | [s] => s
  | s :: t :: rest => s ++ separator ++ join separator (t :: rest)

/-! ## Lists of texts -/

/-- The first of some texts whose key is that of an earlier one or is in `seen`. -/
def repeated? (key : Text → Text) (seen : List Text) : List Text → Option Text
  | [] => none
  | s :: rest =>
    if key s ∈ seen then some s else repeated? key (key s :: seen) rest

theorem repeated?_eq_none_iff {key : Text → Text} {seen texts : List Text} :
    repeated? key seen texts = none ↔
      (texts.map key).Nodup ∧ ∀ s ∈ texts, key s ∉ seen := by
  induction texts generalizing seen with
  | nil => simp [repeated?]
  | cons s rest ih =>
    by_cases h : key s ∈ seen
    · simp [repeated?, h]
    · simp only [repeated?, h, if_false, ih, List.map_cons, List.nodup_cons, List.mem_map,
        List.mem_cons, not_or, not_exists, not_and]
      constructor
      · rintro ⟨nodup, fresh⟩
        refine ⟨⟨fun t ht same => (fresh t ht).1 same, nodup⟩, fun t ht => ?_⟩
        rcases ht with rfl | ht
        · exact h
        · exact (fresh t ht).2
      · rintro ⟨⟨fresh, nodup⟩, unseen⟩
        exact ⟨nodup, fun t ht => ⟨fun same => fresh t ht same, unseen t (.inr ht)⟩⟩

/-! ## Decimal numerals -/

/-- The byte of a digit below ten. -/
def digitByte (n : Nat) : UInt8 := '0'.toUInt8 + UInt8.ofNat n

/-- The decimal numeral of a natural number. -/
def decimal (n : Nat) : Text :=
  if n < 10 then [digitByte n] else decimal (n / 10) ++ [digitByte (n % 10)]

/-- The decimal numeral of an integer. -/
def integer (n : Int) : Text := if n < 0 then '-'.toUInt8 :: decimal n.natAbs else decimal n.natAbs

/-- The decimal numeral of an integer with zeros put after its sign, to be at least `width` bytes
long with the sign. -/
def padded (width : Nat) (n : Int) : Text :=
  let sign : Text := if n < 0 then ['-'.toUInt8] else []
  let digits := decimal n.natAbs
  sign ++ List.replicate (width - sign.length - digits.length) '0'.toUInt8 ++ digits

/-- The number that a text of decimal digits writes. -/
def numeral (digits : Text) : Nat := digits.foldl (fun n b => 10 * n + digitValue b) 0

end Text

end ComputedFields
