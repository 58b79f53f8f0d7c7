import ComputedFields.Proofs.Writing
import ComputedFields.Value.Coerce

/-!
# `ComputedFields.Proofs.Numerals` — the texts that become numbers

A text is a number when a numeral stands at its start, after blanks and a sign. What follows the
numeral is disregarded, so that the shortest numerals decide: a digit, or a point and a digit. An
exponent can make a numeral longer, and so can the digits of `0x`, but no text has a numeral at its
start only because of them.

Besides numerals there are the words `inf` and `nan`. They count in any letter case, and what
follows them is disregarded as well; hence `Infinity` is a number, but so are all other words that
start in the same way.

* `Text.Begins`, `Text.Signed`, `Text.IsDecimal` — a text with a numeral at its start;
* `Text.begins_isDecimal_iff` — the shortest numerals decide;
* `Number.read_isSome_iff` — the texts with a number at their start;
* `Value.toNumber_text_iff` — the text values that are numbers, and the fault of all others;
* `Value.toNumber_information` — an ordinary word that is a number.
-/

namespace ComputedFields

open Text Number

namespace Text

/-! ## Numerals -/

/-- The text starts with one of some texts. -/
def Begins (p : Text → Prop) (s : Text) : Prop := ∃ body, p body ∧ body <+: s

/-- One of some texts, which may have a sign before it. -/
inductive Signed (p : Text → Prop) : Text → Prop
  | unsigned {s : Text} : p s → Signed p s
  | plus {s : Text} : p s → Signed p ('+'.toUInt8 :: s)
  | minus {s : Text} : p s → Signed p ('-'.toUInt8 :: s)

/-- The digits of a numeral, which may have a fraction or consist of it. -/
inductive IsMantissa : Text → Prop
  | number {s : Text} : IsNumber s → IsMantissa s
  | fraction {f : Text} : IsDigits f → IsMantissa ('.'.toUInt8 :: f)

/-- The letter `e` in either case, and digits that may have a sign. -/
inductive IsExponent : Text → Prop
  | intro {mark : UInt8} {s : Text} :
    lowerByte mark = 'e'.toUInt8 → Signed IsDigits s → IsExponent (mark :: s)

/-- A decimal numeral without a sign. -/
inductive IsDecimal : Text → Prop
  | plain {m : Text} : IsMantissa m → IsDecimal m
  | scaled {m e : Text} : IsMantissa m → IsExponent e → IsDecimal (m ++ e)

/-- A decimal numeral, or the word for infinity. -/
def IsNumeral (s : Text) : Prop := IsDecimal s ∨ s = utf8 "Infinity"

/-- The words `inf` and `nan` in any letter case. -/
def IsSpecial (s : Text) : Prop := lower s = utf8 "inf" ∨ lower s = utf8 "nan"

/-! ## Beginnings -/

theorem Begins.imp {p q : Text → Prop} {s : Text} (h : Begins p s)
    (into : ∀ body, p body → Begins q body) : Begins q s := by
  obtain ⟨body, holds, atStart⟩ := h
  obtain ⟨shorter, holds, inBody⟩ := into body holds
  exact ⟨shorter, holds, inBody.trans atStart⟩

theorem begins_self {p : Text → Prop} {s : Text} (h : p s) : Begins p s := ⟨s, h, List.prefix_rfl⟩

theorem begins_or_iff {p q : Text → Prop} {s : Text} :
    Begins (fun body => p body ∨ q body) s ↔ Begins p s ∨ Begins q s := by
  constructor
  · rintro ⟨body, holds | holds, atStart⟩
    · exact .inl ⟨body, holds, atStart⟩
    · exact .inr ⟨body, holds, atStart⟩
  · rintro (h | h)
    · exact h.imp fun _ holds => begins_self (.inl holds)
    · exact h.imp fun _ holds => begins_self (.inr holds)

/-- With a sign or without. -/
theorem begins_signed_iff {p : Text → Prop} {s : Text} :
    Begins (Signed p) s ↔
      Begins p s ∨ ∃ b t, s = b :: t ∧ (b = '-'.toUInt8 ∨ b = '+'.toUInt8) ∧ Begins p t := by
  constructor
  · rintro ⟨_, ⟨holds⟩ | ⟨holds⟩ | ⟨holds⟩, atStart⟩
    · exact .inl ⟨_, holds, atStart⟩
    · obtain ⟨t, rfl⟩ := atStart
      exact .inr ⟨_, _, rfl, .inr rfl, _, holds, List.prefix_append ..⟩
    · obtain ⟨t, rfl⟩ := atStart
      exact .inr ⟨_, _, rfl, .inl rfl, _, holds, List.prefix_append ..⟩
  · rintro (⟨body, holds, atStart⟩ | ⟨_, t, rfl, rfl | rfl, body, holds, atStart⟩)
    · exact ⟨body, .unsigned holds, atStart⟩
    · exact ⟨_, .minus holds, List.cons_prefix_cons.mpr ⟨rfl, atStart⟩⟩
    · exact ⟨_, .plus holds, List.cons_prefix_cons.mpr ⟨rfl, atStart⟩⟩

theorem Signed.imp {p q : Text → Prop} {s : Text} (h : Signed p s)
    (into : ∀ body, p body → Begins q body) : Begins (Signed q) s := by
  rw [begins_signed_iff]
  cases h with
  | unsigned holds => exact .inl (into _ holds)
  | plus holds => exact .inr ⟨_, _, rfl, .inr rfl, into _ holds⟩
  | minus holds => exact .inr ⟨_, _, rfl, .inl rfl, into _ holds⟩

theorem begins_signed_or_iff {p q r : Text → Prop}
    (h : ∀ s, Begins p s ↔ Begins q s ∨ Begins r s) {s : Text} :
    Begins (Signed p) s ↔ Begins (Signed q) s ∨ Begins (Signed r) s := by
  simp only [begins_signed_iff, h, and_or_left, exists_or]
  exact or_or_or_comm ..

/-- A zero byte ends a text for what has no zero byte. -/
theorem begins_untilNul_iff {p : Text → Prop} (noNul : ∀ body, p body → 0 ∉ body) {s : Text} :
    Begins p (untilNul s) ↔ Begins p s := by
  constructor
  · rintro ⟨body, holds, atStart⟩
    exact ⟨body, holds, atStart.trans (List.takeWhile_prefix _)⟩
  · rintro ⟨body, holds, t, rfl⟩
    have inside : ∀ b ∈ body, (b != 0) = true := by
      intro b mem
      rw [bne_iff_ne]
      rintro rfl
      exact noNul body holds mem
    refine ⟨body, holds, ?_⟩
    rw [untilNul, List.takeWhile_append_of_pos inside]
    exact List.prefix_append ..

/-- A zero byte is not blank. -/
theorem trimStart_untilNul (s : Text) : trimStart (untilNul s) = untilNul (trimStart s) := by
  induction s with
  | nil => rfl
  | cons b s ih =>
    by_cases isBlank : blank b = true
    · have notNul : (b != 0) = true := by
        rcases eq_of_blank isBlank with rfl | rfl | rfl | rfl | rfl | rfl <;> rfl
      calc trimStart (untilNul (b :: s))
          = trimStart (untilNul s) := by simp [trimStart, untilNul, notNul, isBlank]
        _ = untilNul (trimStart s) := ih
        _ = untilNul (trimStart (b :: s)) := by simp [trimStart, isBlank]
    · have stays : trimStart (b :: s) = b :: s := List.dropWhile_cons_of_neg isBlank
      rw [stays]
      unfold untilNul
      rw [List.takeWhile_cons]
      split
      · exact List.dropWhile_cons_of_neg isBlank
      · rfl

/-! ## The shortest numerals -/

/-- The shortest decimal numerals are a digit, and a point with a digit. -/
inductive IsShortest : Text → Prop
  | digit {b : UInt8} : digit b = true → IsShortest [b]
  | point {b : UInt8} : digit b = true → IsShortest ['.'.toUInt8, b]

theorem IsDigits.exists_digit {s : Text} (h : IsDigits s) :
    ∃ b t, s = b :: t ∧ digit b = true := by
  obtain ⟨b, t, rfl⟩ := List.exists_cons_of_ne_nil h.1
  exact ⟨b, t, rfl, h.2 b (List.mem_cons_self ..)⟩

theorem IsNumber.exists_digit {s : Text} (h : IsNumber s) :
    ∃ b t, s = b :: t ∧ digit b = true := by
  cases h with
  | whole isDigits => exact isDigits.exists_digit
  | fraction isDigits =>
    obtain ⟨b, t, rfl, isDigit⟩ := isDigits.exists_digit
    exact ⟨b, _, rfl, isDigit⟩

theorem IsMantissa.begins {s : Text} (h : IsMantissa s) : Begins IsShortest s := by
  cases h with
  | number isNumber =>
    obtain ⟨b, t, rfl, isDigit⟩ := isNumber.exists_digit
    exact ⟨[b], .digit isDigit, List.prefix_append ..⟩
  | fraction isDigits =>
    obtain ⟨b, t, rfl, isDigit⟩ := isDigits.exists_digit
    exact ⟨['.'.toUInt8, b], .point isDigit, List.prefix_append ..⟩

theorem IsShortest.isDecimal {s : Text} (h : IsShortest s) : IsDecimal s := by
  have single {b : UInt8} (isDigit : Text.digit b = true) : IsDigits [b] :=
    ⟨by simp, by simpa using isDigit⟩
  apply IsDecimal.plain
  cases h with
  | digit isDigit => exact .number (.whole (single isDigit))
  | point isDigit => exact .fraction (single isDigit)

/-- A text that starts with a numeral starts with one of the shortest. -/
theorem begins_isDecimal_iff {s : Text} : Begins IsDecimal s ↔ Begins IsShortest s := by
  constructor
  · intro h
    apply h.imp
    intro body isDecimal
    cases isDecimal with
    | plain isMantissa => exact isMantissa.begins
    | scaled isMantissa =>
      obtain ⟨shortest, holds, atStart⟩ := isMantissa.begins
      exact ⟨shortest, holds, atStart.trans (List.prefix_append ..)⟩
  · intro h
    exact h.imp fun _ shortest => begins_self shortest.isDecimal

/-! ## Signs and letter case -/

/-- What is not a letter stands for no other byte when letter case is disregarded. -/
theorem lowerByte_eq_iff {b c : UInt8} (noCapital : capital b = false) (noSmall : small b = false) :
    lowerByte c = b ↔ c = b := by
  unfold lowerByte
  split
  · next isCapital =>
    have becomesSmall : small (c + 32) = true := by
      simp only [capital, Bool.and_eq_true, decide_eq_true_eq, UInt8.le_iff_toNat_le] at isCapital
      change 65 ≤ c.toNat ∧ c.toNat ≤ 90 at isCapital
      simp only [small, Bool.and_eq_true, decide_eq_true_eq, UInt8.le_iff_toNat_le, UInt8.toNat_add]
      change 97 ≤ (c.toNat + 32) % 256 ∧ (c.toNat + 32) % 256 ≤ 122
      omega
    constructor
    · rintro rfl
      rw [becomesSmall] at noSmall
      cases noSmall
    · rintro rfl
      rw [isCapital] at noCapital
      cases noCapital
  · rfl

/-- What may stand after a sign: it is not empty, has no sign itself and no zero byte. -/
def Bare (s : Text) : Prop := s ≠ [] ∧ ∀ b ∈ s, b ≠ '-'.toUInt8 ∧ b ≠ '+'.toUInt8 ∧ b ≠ 0

theorem IsShortest.bare {s : Text} (h : IsShortest s) : Bare s := by
  have ofDigit {b : UInt8} (isDigit : Text.digit b = true) :
      b ≠ '-'.toUInt8 ∧ b ≠ '+'.toUInt8 ∧ b ≠ 0 := by
    refine ⟨?_, ?_, ?_⟩ <;> rintro rfl <;> revert isDigit <;> decide
  cases h with
  | digit isDigit => exact ⟨by simp, by simpa using ofDigit isDigit⟩
  | point isDigit =>
    exact ⟨by simp, List.forall_mem_cons.mpr ⟨by decide, by simpa using ofDigit isDigit⟩⟩

theorem IsSpecial.bare {s : Text} (h : IsSpecial s) : Bare s := by
  constructor
  · rintro rfl
    revert h
    unfold IsSpecial
    decide
  · intro b mem
    have lowered : lowerByte b ∈ lower s := List.mem_map_of_mem mem
    have noSign : ∀ c ∈ lower s, c ≠ '-'.toUInt8 ∧ c ≠ '+'.toUInt8 ∧ c ≠ 0 := by
      rcases h with same | same <;> rw [same] <;> decide +kernel
    refine ⟨?_, ?_, ?_⟩ <;> rintro rfl <;> exact absurd (noSign _ lowered) (by decide)

end Text

/-! ## What is read -/

namespace Number

namespace Numeral

/-- What has no letter case is found only as it is. -/
theorem after?_cons_of_symbol {b : Char} (noCapital : capital b.toUInt8 = false)
    (noSmall : small b.toUInt8 = false) (c : UInt8) (s : Text) :
    after? b (c :: s) = if c = b.toUInt8 then some s else none := by
  unfold after?
  simp only [beq_iff_eq, lowerByte_eq_iff noCapital noSmall]

theorem sign_cons_snd (b : UInt8) (s : Text) :
    (sign (b :: s)).2 = if b = '-'.toUInt8 ∨ b = '+'.toUInt8 then s else b :: s := by
  unfold sign
  rw [after?_cons_of_symbol rfl rfl, after?_cons_of_symbol rfl rfl]
  by_cases isMinus : b = '-'.toUInt8
  · simp only [isMinus, true_or, if_true]
  · by_cases isPlus : b = '+'.toUInt8
    · simp only [if_neg isMinus, if_pos isPlus, if_pos (Or.inr isPlus), Option.getD_some]
    · simp only [if_neg isMinus, if_neg isPlus, if_neg (not_or.mpr ⟨isMinus, isPlus⟩),
        Option.getD_none]

/-- What has no sign itself stands after a sign, or where a sign is missing. -/
theorem begins_sign_iff {p : Text → Prop} (bare : ∀ body, p body → Bare body) {s : Text} :
    Begins p (sign s).2 ↔ Begins (Signed p) s := by
  -- a sign at the front is taken away, so nothing bare begins before it
  have noSign {b : UInt8} {t : Text} (h : Begins p (b :: t)) :
      ¬ (b = '-'.toUInt8 ∨ b = '+'.toUInt8) := by
    obtain ⟨body, holds, atStart⟩ := h
    obtain ⟨some, clean⟩ := bare body holds
    obtain ⟨c, body, rfl⟩ := List.exists_cons_of_ne_nil some
    obtain ⟨rfl, -⟩ := List.cons_prefix_cons.mp atStart
    obtain ⟨noMinus, noPlus, -⟩ := clean c (List.mem_cons_self ..)
    exact not_or.mpr ⟨noMinus, noPlus⟩
  rw [begins_signed_iff]
  cases s with
  | nil =>
    show Begins p [] ↔ _
    simp
  | cons b s =>
    rw [sign_cons_snd]
    split
    · next isSign =>
      constructor
      · intro h
        exact .inr ⟨b, s, rfl, isSign, h⟩
      · rintro (h | ⟨_, _, same, -, h⟩)
        · exact absurd isSign (noSign h)
        · obtain ⟨-, rfl⟩ := List.cons.inj same
          exact h
    · next noSign =>
      constructor
      · exact .inl
      · rintro (h | ⟨_, _, same, isSign, -⟩)
        · exact h
        · obtain ⟨rfl, -⟩ := List.cons.inj same
          exact absurd isSign noSign

theorem afterWord?_isSome_iff {word : String} {s : Text} :
    (afterWord? word s).isSome ↔ Begins (fun body => lower body = utf8 word) s := by
  have atStart : (utf8 word).isPrefixOf (lower s) = true ↔
      Begins (fun body => lower body = utf8 word) s := by
    rw [List.isPrefixOf_iff_prefix, lower, List.prefix_map_iff]
    constructor
    · rintro ⟨body, inText, same⟩
      exact ⟨body, same.symm, inText⟩
    · rintro ⟨body, same, inText⟩
      exact ⟨body, inText, same.symm⟩
  rw [← atStart, afterWord?]
  by_cases isPrefix : (utf8 word).isPrefixOf (lower s) = true <;> simp [isPrefix]

theorem word_isSome_iff {s : Text} : (word s).isSome ↔ Begins IsSpecial s := by
  unfold IsSpecial word
  rw [begins_or_iff, ← afterWord?_isSome_iff, ← afterWord?_isSome_iff]
  split
  · next found => simp [found]
  · next none => simp [none]

theorem positional_isSome_iff {isDigit : UInt8 → Bool} {s : Text} :
    (positional isDigit s).isSome ↔
      s.takeWhile isDigit ≠ [] ∨
        ∃ t, after? '.' (s.dropWhile isDigit) = some t ∧ t.takeWhile isDigit ≠ [] := by
  simp only [positional]
  cases after? '.' (s.dropWhile isDigit) with
  | none => cases s.takeWhile isDigit <;> simp
  | some t =>
    have only : (∃ u, some t = some u ∧ u.takeWhile isDigit ≠ []) ↔ t.takeWhile isDigit ≠ [] := by
      constructor
      · rintro ⟨_, ⟨⟩, nonempty⟩
        exact nonempty
      · intro nonempty
        exact ⟨t, rfl, nonempty⟩
    rw [only]
    dsimp only
    cases s.takeWhile isDigit <;> cases t.takeWhile isDigit <;> simp

/-- A digit, or a point and a digit, decides whether there are digits with a fraction. -/
theorem begins_isShortest_iff {s : Text} :
    Begins IsShortest s ↔ (positional digit s).isSome := by
  have first_iff {t : Text} : t.takeWhile digit ≠ [] ↔ ∃ b u, t = b :: u ∧ digit b = true := by
    cases t with
    | nil => simp
    | cons b u => by_cases isDigit : digit b = true <;> simp [isDigit]
  rw [positional_isSome_iff, first_iff]
  constructor
  · rintro ⟨_, @⟨b, isDigit⟩ | @⟨b, isDigit⟩, t, rfl⟩
    · exact .inl ⟨b, t, rfl, isDigit⟩
    · exact .inr ⟨b :: t, rfl, first_iff.mpr ⟨b, t, rfl, isDigit⟩⟩
  · cases s with
    | nil => rintro (⟨_, _, ⟨⟩, -⟩ | ⟨_, ⟨⟩, -⟩)
    | cons c s =>
      by_cases isDigit : digit c = true
      · intro _
        exact ⟨[c], .digit isDigit, List.prefix_append ..⟩
      · rw [List.dropWhile_cons_of_neg isDigit, after?_cons_of_symbol rfl rfl]
        rintro (⟨_, _, same, first⟩ | ⟨t, point, more⟩)
        · obtain ⟨rfl, -⟩ := List.cons.inj same
          exact absurd first isDigit
        · obtain ⟨b, t, rfl, isDigit⟩ := first_iff.mp more
          split at point
          · next isPoint =>
            obtain rfl := Option.some.inj point
            rw [isPoint]
            exact ⟨_, .point isDigit, List.prefix_append ..⟩
          · cases point

theorem decimalNumeral_isSome_iff {s : Text} :
    (decimalNumeral s).isSome ↔ Begins IsDecimal s := by
  rw [begins_isDecimal_iff, begins_isShortest_iff]
  unfold decimalNumeral
  cases positional digit s <;> rfl

/-- A hexadecimal numeral starts with a zero, which is a decimal numeral. -/
theorem begins_isDecimal_of_hexadecimal {s : Text} (h : (hexadecimal s).isSome) :
    Begins IsDecimal s := by
  have marked : (afterWord? "0x" s).isSome := by
    unfold hexadecimal at h
    cases found : afterWord? "0x" s with
    | none =>
      rw [found] at h
      exact h
    | some => rfl
  obtain ⟨body, isMark, atStart⟩ := afterWord?_isSome_iff.mp marked
  obtain ⟨b, t, rfl, isZero, -⟩ := List.map_eq_cons_iff.mp isMark
  have zero : b = '0'.toUInt8 := (lowerByte_eq_iff rfl rfl).mp isZero
  rw [begins_isDecimal_iff]
  exact ⟨[b], .digit (by rw [zero]; rfl), (List.prefix_append ..).trans atStart⟩

/-- The words come first, and hexadecimal numerals start with a decimal one. -/
theorem unsigned_isSome_iff {s : Text} :
    (word s <|> hexadecimal s <|> decimalNumeral s).isSome ↔
      Begins IsDecimal s ∨ Begins IsSpecial s := by
  rw [← word_isSome_iff]
  constructor
  · intro h
    cases isWord : word s with
    | some => exact .inr rfl
    | none =>
      rw [isWord] at h
      left
      cases isHexadecimal : hexadecimal s with
      | some => exact begins_isDecimal_of_hexadecimal (by rw [isHexadecimal]; rfl)
      | none =>
        rw [isHexadecimal] at h
        exact decimalNumeral_isSome_iff.mp h
  · rintro (isDecimal | isWord)
    · rw [← decimalNumeral_isSome_iff] at isDecimal
      cases word s with
      | some => rfl
      | none =>
        cases hexadecimal s with
        | some => rfl
        | none => exact isDecimal
    · obtain ⟨x, isWord⟩ := Option.isSome_iff_exists.mp isWord
      rw [isWord]
      rfl

end Numeral

/-- A number stands at the start of a text, after blanks, when a numeral does or one of the words
`inf` and `nan`, each of them with a sign or without. -/
theorem read_isSome_iff {s : Text} :
    (read s).isSome ↔
      Begins (Signed IsDecimal) (trimStart s) ∨ Begins (Signed IsSpecial) (trimStart s) := by
  -- the shortest numerals and the words are bare, which whole numerals with an exponent are not
  let unsigned (t : Text) := IsShortest t ∨ IsSpecial t
  have bare : ∀ body, unsigned body → Bare body := by
    rintro body (isShortest | isSpecial)
    · exact isShortest.bare
    · exact isSpecial.bare
  have unsigned_iff (t : Text) : Begins unsigned t ↔ Begins IsDecimal t ∨ Begins IsSpecial t := by
    rw [begins_isDecimal_iff]
    exact begins_or_iff
  have noNul : ∀ body, Signed unsigned body → 0 ∉ body := by
    have clean {t : Text} (holds : unsigned t) : 0 ∉ t := fun mem => ((bare t holds).2 0 mem).2.2 rfl
    rintro _ (holds | holds | holds)
    · exact clean holds
    · exact List.not_mem_cons_of_ne_of_not_mem (by decide) (clean holds)
    · exact List.not_mem_cons_of_ne_of_not_mem (by decide) (clean holds)
  calc (read s).isSome = true
      ↔ Begins unsigned (Numeral.sign (trimStart (untilNul s))).2 := by
        rw [unsigned_iff, ← Numeral.unsigned_isSome_iff]
        unfold read
        generalize Numeral.sign (trimStart (untilNul s)) = signed
        obtain ⟨negative, t⟩ := signed
        dsimp only
        generalize (Numeral.word t <|> Numeral.hexadecimal t <|> Numeral.decimalNumeral t) = found
        cases found <;> rfl
    _ ↔ Begins (Signed unsigned) (untilNul (trimStart s)) := by
        rw [Numeral.begins_sign_iff bare, trimStart_untilNul]
    _ ↔ Begins (Signed unsigned) (trimStart s) := begins_untilNul_iff noNul
    _ ↔ _ := begins_signed_or_iff unsigned_iff

end Number

namespace Value

/-- A text value is a number when a numeral stands at its start, after blanks and a sign, or the
word `inf` or `nan`; all other texts are refused. -/
theorem toNumber_text_iff (s : Text) :
    ((∃ x, (Value.text s).toNumber = .ok x) ↔
        Begins (Signed IsNumeral) (trimStart s) ∨ Begins (Signed IsSpecial) (trimStart s)) ∧
      ∀ fault, (Value.text s).toNumber = .error fault →
        fault = .textNotNumber s ∧ fault.code = .typeError := by
  have infinity {body : Text} (same : body = utf8 "Infinity") : Begins IsSpecial body := by
    rw [same]
    exact ⟨utf8 "Inf", by unfold IsSpecial; decide, by decide⟩
  have numeral_iff {t : Text} : Begins (Signed IsNumeral) t ↔
      Begins (Signed IsDecimal) t ∨ Begins (Signed (· = utf8 "Infinity")) t :=
    begins_signed_or_iff fun _ => begins_or_iff
  have read_iff : (Number.read s).isSome ↔
      Begins (Signed IsNumeral) (trimStart s) ∨ Begins (Signed IsSpecial) (trimStart s) := by
    rw [read_isSome_iff, numeral_iff]
    constructor
    · rintro (isDecimal | isSpecial)
      · exact .inl (.inl isDecimal)
      · exact .inr isSpecial
    · rintro ((isDecimal | isInfinity) | isSpecial)
      · exact .inl isDecimal
      · exact .inr (isInfinity.imp fun _ signed => signed.imp fun _ => infinity)
      · exact .inr isSpecial
  rw [← read_iff]
  cases found : Number.read s with
  | none =>
    have refused : (Value.text s).toNumber = .error (.textNotNumber s) := by rw [toNumber, found]
    rw [refused]
    refine ⟨⟨by rintro ⟨x, ⟨⟩⟩, by rintro ⟨⟩⟩, ?_⟩
    rintro fault ⟨⟩
    exact ⟨rfl, rfl⟩
  | some x =>
    have accepted : (Value.text s).toNumber = .ok x.1 := by rw [toNumber, found]
    rw [accepted]
    refine ⟨⟨fun _ => rfl, fun _ => ⟨x.1, rfl⟩⟩, ?_⟩
    rintro fault ⟨⟩

/-- An ordinary word is a number when it starts with the word for infinity. -/
theorem toNumber_information :
    let s := utf8 "information"
    (Value.text s).toNumber = .ok Numeral.infinity ∧ ¬ Begins (Signed IsNumeral) (trimStart s) := by
  intro s
  refine ⟨rfl, ?_⟩
  rw [begins_signed_iff]
  rintro (isNumeral | ⟨_, _, ⟨⟩, isSign, -⟩)
  · rcases begins_or_iff.mp isNumeral with isDecimal | ⟨_, rfl, atStart⟩
    · rw [begins_isDecimal_iff, Numeral.begins_isShortest_iff] at isDecimal
      cases isDecimal
    · exact absurd atStart (by decide)
  · exact absurd isSign (by decide)

end Value

end ComputedFields
