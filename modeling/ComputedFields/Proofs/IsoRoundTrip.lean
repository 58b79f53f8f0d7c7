import ComputedFields.Proofs.Calendar
import ComputedFields.Proofs.IsoText

/-!
# `ComputedFields.Proofs.IsoRoundTrip` — instants that are written and read back

The fields of a civil time are padded with zeros to a fixed number of digits. A field that is not
negative and not too long for its digits is written with exactly so many, and they write the field;
of a valid civil time only the year can be too long or negative. From year 0 to year 9999 the
written forms are therefore in the grammar of instants, and it is the instant itself that they say.
The texts of other years are not read. They are still those of one instant each, as a byte that is
no digit stands between any two fields.

* `Text.numeral_decimal`, `Text.length_decimal_le_iff` — a numeral writes its number, in as many
  digits as it has;
* `Text.padded_inj` — a padded number ends at the next byte that is no digit;
* `isFixed_padded` — a field in its digits;
* `isInstant_writeIso`, `isInstant_writeIsoDate` — the written forms are in the grammar;
* `readIso_writeIso_of_not_fourDigitYear` — the texts of other years are not read;
* `writeIso_injective` — no two instants are written alike;
* `readIso_written` — an instant is read back from its text, and its midnight from that of its date.
-/

namespace ComputedFields

namespace Text

/-! ## Decimal numerals -/

theorem digit_digitByte {n : Nat} (lt : n < 10) : digit (digitByte n) = true := by
  interval_cases n <;> decide

theorem digitValue_digitByte {n : Nat} (lt : n < 10) : digitValue (digitByte n) = n := by
  interval_cases n <;> decide

theorem numeral_append_digit (s : Text) (b : UInt8) :
    numeral (s ++ [b]) = 10 * numeral s + digitValue b := by
  simp [numeral]

theorem numeral_zeros_append (k : Nat) (s : Text) :
    numeral (List.replicate k '0'.toUInt8 ++ s) = numeral s := by
  induction k with
  | zero => rfl
  | succ k ih =>
    rw [List.replicate_succ, List.cons_append]
    exact ih

theorem numeral_decimal (n : Nat) : numeral (decimal n) = n := by
  induction n using decimal.induct with
  | case1 n small =>
    rw [decimal, if_pos small]
    show 10 * 0 + digitValue (digitByte n) = n
    rw [digitValue_digitByte small]
    omega
  | case2 n large ih =>
    rw [decimal, if_neg large, numeral_append_digit, ih, digitValue_digitByte (by omega)]
    omega

theorem isDigits_decimal (n : Nat) : IsDigits (decimal n) := by
  induction n using decimal.induct with
  | case1 n small =>
    rw [decimal, if_pos small]
    simp [IsDigits, digit_digitByte small]
  | case2 n large ih =>
    rw [decimal, if_neg large]
    refine ⟨by simp, fun b mem => ?_⟩
    rcases List.mem_append.mp mem with earlier | last
    · exact ih.2 b earlier
    · rw [List.mem_singleton.mp last]
      exact digit_digitByte (by omega)

theorem length_decimal_le_iff {n k : Nat} : (decimal n).length ≤ k + 1 ↔ n < 10 ^ (k + 1) := by
  induction k generalizing n with
  | zero =>
    rw [decimal]
    split
    · simpa
    · next large =>
      have := List.length_pos_iff.mpr (isDigits_decimal (n / 10)).1
      simp only [List.length_append, List.length_singleton]
      omega
  | succ k ih =>
    rw [decimal]
    split
    · next small =>
      have : 10 ^ 1 ≤ 10 ^ (k + 1 + 1) := Nat.pow_le_pow_right (by decide) (by omega)
      simp only [List.length_singleton]
      omega
    · rw [List.length_append, List.length_singleton, Nat.add_le_add_iff_right, ih,
        Nat.pow_succ 10 (k + 1)]
      omega

/-! ## Padded numerals -/

theorem isDigits_zeros_append (k n : Nat) :
    IsDigits (List.replicate k '0'.toUInt8 ++ decimal n) := by
  refine ⟨List.append_ne_nil_of_right_ne_nil _ (isDigits_decimal n).1, fun b mem => ?_⟩
  rcases List.mem_append.mp mem with zero | inside
  · rw [List.eq_of_mem_replicate zero]
    rfl
  · exact (isDigits_decimal n).2 b inside

/-- The sign before the digits of a number. -/
def signBytes (n : Int) : Text := if n < 0 then ['-'.toUInt8] else []

theorem padded_spec (width : Nat) (n : Int) : ∃ digits,
    padded width n = signBytes n ++ digits ∧ IsDigits digits ∧ numeral digits = n.natAbs := by
  refine ⟨_, List.append_assoc .., isDigits_zeros_append _ _, ?_⟩
  rw [numeral_zeros_append, numeral_decimal]

theorem signBytes_inj {n n' : Int} (signs : signBytes n = signBytes n')
    (size : n.natAbs = n'.natAbs) : n = n' := by
  unfold signBytes at signs
  split at signs <;> split at signs
  · omega
  · cases signs
  · cases signs
  · omega

theorem eq_hyphen_of_mem_signBytes (n : Int) : ∀ b ∈ signBytes n, (b == '-'.toUInt8) = true := by
  unfold signBytes
  split <;> simp

/-- Digits are no sign. -/
theorem IsDigits.leaves_hyphen {s : Text} (h : IsDigits s) (t : Text) :
    Leaves (· == '-'.toUInt8) (s ++ t) := by
  obtain ⟨notEmpty, digits⟩ := h
  cases s with
  | nil => exact absurd rfl notEmpty
  | cons b s =>
    have isDigit := digits b (List.mem_cons_self ..)
    rintro _ ⟨⟩
    refine beq_eq_false_iff_ne.mpr ?_
    rintro rfl
    exact absurd isDigit (by decide)

/-- A padded number is found again in a text in which a byte that is no digit comes after it, and
so is what comes after this byte. -/
theorem padded_inj {width : Nat} {n n' : Int} {mark : UInt8} {s s' : Text}
    (other : digit mark = false)
    (same : padded width n ++ mark :: s = padded width n' ++ mark :: s') : n = n' ∧ s = s' := by
  obtain ⟨d, written, isDigits, value⟩ := padded_spec width n
  obtain ⟨d', written', isDigits', value'⟩ := padded_spec width n'
  rw [written, written', List.append_assoc, List.append_assoc] at same
  obtain ⟨signs, same⟩ := append_inj_of_leaves (eq_hyphen_of_mem_signBytes n)
    (eq_hyphen_of_mem_signBytes n') (isDigits.leaves_hyphen _) (isDigits'.leaves_hyphen _) same
  obtain ⟨rfl, rest⟩ := append_inj_of_leaves isDigits'.2 isDigits.2 (leaves_cons other _)
    (leaves_cons other _) same
  exact ⟨signBytes_inj signs.symm (value.symm.trans value'), (List.cons.inj rest).2⟩

end Text

namespace Calendar

open Text Civil

/-! ## Fields -/

/-- A field that fits into its digits is written in exactly so many. -/
theorem isFixed_padded {k : Nat} {n : Int} (nonneg : 0 ≤ n) (lt : n < 10 ^ (k + 1)) :
    IsFixed (k + 1) (padded (k + 1) n) n := by
  obtain ⟨n, rfl⟩ := Int.eq_ofNat_of_zero_le nonneg
  have fits : n < 10 ^ (k + 1) := by exact_mod_cast lt
  have short := length_decimal_le_iff.mpr fits
  have written : padded (k + 1) n =
      List.replicate (k + 1 - (decimal n).length) '0'.toUInt8 ++ decimal n := by
    rw [padded, if_neg (by omega)]
    rfl
  rw [written]
  refine ⟨?_, ?_, ?_⟩
  · rw [List.length_append, List.length_replicate]
    omega
  · exact (isDigits_zeros_append _ n).2
  · rw [numeral_zeros_append, numeral_decimal]

/-- A fraction of a second in three digits is its milliseconds. -/
theorem IsFixed.isFraction {s : Text} {millisecond : Int} (h : IsFixed 3 s millisecond) :
    IsFraction ('.'.toUInt8 :: s) millisecond := by
  obtain ⟨length, digits, value⟩ := h
  have notEmpty : s ≠ [] := by
    rintro rfl
    cases length
  have same : (milliseconds s : Int) = millisecond := by
    rw [milliseconds, ← length, List.take_left, value]
  rw [← same, milliseconds_eq]
  exact .digits ⟨notEmpty, digits⟩

theorem daysInMonth_le (year : Int) {month : Int} (first : 1 ≤ month) (last : month ≤ 12) :
    daysInMonth year month ≤ 31 := by
  unfold daysInMonth
  interval_cases month <;> simp
  split <;> decide

end Calendar

namespace Civil

open Calendar

/-! ## Midnights -/

/-- The midnight with which the day of a civil time begins. -/
def midnight (c : Civil) : Civil := { c with hour := 0, minute := 0, second := 0, millisecond := 0 }

theorem Valid.midnight {c : Civil} (h : c.Valid) : c.midnight.Valid := by
  refine ⟨h.month, h.day, ?_, ?_, ?_, ?_⟩
  all_goals
    show (0 : Int) ≤ 0 ∧ (0 : Int) ≤ _
    decide

theorem Valid.midnight_toInstant {c : Civil} (h : c.Valid) :
    c.midnight.toInstant = c.toInstant - c.clock := by
  rw [toInstant_eq h.midnight.month, toInstant_eq h.month]
  simp [Civil.midnight, clock]

theorem Valid.clock_bounds {c : Civil} (h : c.Valid) :
    0 ≤ c.clock ∧ c.clock < millisecondsPerDay := by
  obtain ⟨-, -, hour, minute, second, millisecond⟩ := h
  unfold clock millisecondsPerDay
  omega

end Civil

namespace Calendar

open Text Civil

/-! ## Written forms -/

/-- The year of the instant has four digits, as it is read. -/
def FourDigitYear (t : Instant) : Prop := 0 ≤ (ofInstant t).year ∧ (ofInstant t).year ≤ 9999

instance : DecidablePred FourDigitYear := fun _ => inferInstanceAs (Decidable (_ ∧ _))

theorem isDate_writeDate {c : Civil} (valid : c.Valid) (first : 0 ≤ c.year) (last : c.year ≤ 9999) :
    IsDate (writeDate c) c.midnight := by
  obtain ⟨month, day, -⟩ := valid
  have days := daysInMonth_le c.year month.1 month.2
  rw [writeDate, List.append_assoc]
  apply IsDate.intro
  · exact isFixed_padded first (by omega)
  · exact isFixed_padded (by omega) (by omega)
  · exact isFixed_padded (by omega) (by omega)
  · exact month.1
  · exact month.2
  · exact day.1
  · exact day.2

theorem isClock_writeClock {c : Civil} (valid : c.Valid) : IsClock c.midnight (writeClock c) c := by
  obtain ⟨-, -, hour, minute, second, millisecond⟩ := valid
  have fraction : IsFraction ('.'.toUInt8 :: padded 3 c.millisecond) c.millisecond :=
    (isFixed_padded millisecond.1 (by omega)).isFraction
  have seconds := IsSeconds.digits (isFixed_padded second.1 (by omega)) second.2 fraction
  rw [writeClock, List.append_assoc, List.append_assoc]
  show IsClock c.midnight _ { c.midnight with
    hour := c.hour, minute := c.minute, second := c.second, millisecond := c.millisecond }
  apply IsClock.intro
  · exact isFixed_padded hour.1 (by omega)
  · exact hour.2
  · exact isFixed_padded minute.1 (by omega)
  · exact minute.2
  · exact seconds

theorem isInstant_writeIso {t : Instant} (year : FourDigitYear t) : IsInstant (writeIso t) t := by
  obtain ⟨valid, back⟩ := ofInstant_spec t
  have written := IsInstant.time (isDate_writeDate valid year.1 year.2) (.inl rfl)
    (isClock_writeClock valid) .utc
  rw [Int.zero_mul, Int.sub_zero, back] at written
  rw [writeIso, List.append_assoc]
  exact written

theorem isInstant_writeIsoDate {t : Instant} (year : FourDigitYear t) :
    IsInstant (writeIsoDate t) (ofInstant t).midnight.toInstant := by
  obtain ⟨valid, -⟩ := ofInstant_spec t
  exact .date (isDate_writeDate valid year.1 year.2)

/-- All that is read begins with the four digits of a year and a hyphen. -/
theorem IsInstant.exists_year {s : Text} {t : Instant} (h : IsInstant s t) :
    ∃ y rest, s = y ++ '-'.toUInt8 :: rest ∧ y.length = 4 ∧ ∀ b ∈ y, digit b = true := by
  have start {d : Text} {date : Civil} (isDate : IsDate d date) (rest : Text) :
      ∃ y rest', d ++ rest = y ++ '-'.toUInt8 :: rest' ∧ y.length = 4 ∧
        ∀ b ∈ y, digit b = true := by
    obtain ⟨isYear, -⟩ := isDate
    exact ⟨_, _, List.append_assoc .., isYear.length, isYear.digits⟩
  cases h with
  | date isDate =>
    have := start isDate []
    rwa [List.append_nil] at this
  | time isDate => exact start isDate _

theorem readIso_writeIso_of_not_fourDigitYear {t : Instant} (year : ¬ FourDigitYear t) :
    readIso (writeIso t) = none := by
  cases read : readIso (writeIso t) with
  | none => rfl
  | some other =>
    exfalso
    obtain ⟨y, rest, split, length, digits⟩ := (isInstant_of_readIso read).exists_year
    simp only [writeIso, writeDate, List.append_assoc, List.cons_append] at split
    by_cases negative : (ofInstant t).year < 0
    · -- the sign stands where a digit has to
      rw [padded, if_pos negative] at split
      cases y with
      | nil => cases length
      | cons b y =>
        have sign : '-'.toUInt8 = b := (List.cons.inj split).1
        exact absurd (digits b (List.mem_cons_self ..)) (by rw [← sign]; decide)
    · -- a fifth digit stands where the hyphen has to
      obtain ⟨n, sameYear⟩ := Int.eq_ofNat_of_zero_le (Int.not_lt.mp negative)
      have large : ¬ n < 10 ^ (3 + 1) := fun lt => year ⟨by omega, by omega⟩
      have long : 4 < (decimal n).length := by
        by_contra short
        exact large (length_decimal_le_iff.mp (by omega))
      have unpadded : padded 4 n = decimal n := by
        rw [padded, if_neg (by omega)]
        simp [show 4 - (decimal n).length = 0 by omega]
      rw [sameYear, unpadded] at split
      have fifth : (y ++ '-'.toUInt8 :: rest)[4]? = some '-'.toUInt8 := by
        rw [List.getElem?_append_right (by omega), length]
        rfl
      rw [← split, List.getElem?_append_left long, List.getElem?_eq_getElem long,
        Option.some.injEq] at fifth
      have isDigit := (isDigits_decimal n).2 _ (List.getElem_mem long)
      rw [fifth] at isDigit
      exact absurd isDigit (by decide)

/-- No two instants are written alike, whatever their years. -/
theorem writeIso_injective : Function.Injective writeIso := by
  intro t t' same
  simp only [writeIso, writeDate, writeClock, List.append_assoc, List.cons_append] at same
  obtain ⟨year, same⟩ := padded_inj (by decide) same
  obtain ⟨month, same⟩ := padded_inj (by decide) same
  obtain ⟨day, same⟩ := padded_inj (by decide) same
  obtain ⟨hour, same⟩ := padded_inj (by decide) same
  obtain ⟨minute, same⟩ := padded_inj (by decide) same
  obtain ⟨second, same⟩ := padded_inj (by decide) same
  obtain ⟨millisecond, -⟩ := padded_inj (by decide) same
  have civil : ofInstant t = ofInstant t' := by
    refine fields_injective ?_
    simp only [fields, year, month, day, hour, minute, second, millisecond]
  rw [← (ofInstant_spec t).2, civil, (ofInstant_spec t').2]

/-- From year 0 to year 9999 an instant is read back from its text, and what is read from the text
of its date is the midnight with which its day begins. -/
theorem readIso_written (t : Instant) (year : FourDigitYear t) :
    readIso (writeIso t) = some t ∧
      ∃ start, readIso (writeIsoDate t) = some start ∧ ofInstant start = (ofInstant t).midnight ∧
        start ≤ t ∧ t < start + millisecondsPerDay := by
  obtain ⟨valid, back⟩ := ofInstant_spec t
  obtain ⟨nonneg, lt⟩ := valid.clock_bounds
  have start := valid.midnight_toInstant
  rw [back] at start
  refine ⟨readIso_of_isInstant (isInstant_writeIso year), _,
    readIso_of_isInstant (isInstant_writeIsoDate year), valid.midnight.ofInstant_toInstant, ?_, ?_⟩
  · rw [start]
    exact Int.sub_le_self _ nonneg
  · rw [start]
    show (_ : Int) < _
    omega

/-- The last millisecond of a leap day. -/
theorem readIso_written_of_leap_day :
    let t : Instant := 951868799999
    FourDigitYear t ∧ readIso (writeIso t) = some t ∧
      ∃ start, readIso (writeIsoDate t) = some start ∧ ofInstant start = (ofInstant t).midnight ∧
        start ≤ t ∧ t < start + millisecondsPerDay := by
  intro t
  have year : FourDigitYear t := by decide
  exact ⟨year, readIso_written t year⟩

end Calendar

end ComputedFields
