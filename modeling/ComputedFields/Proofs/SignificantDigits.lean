import ComputedFields.Proofs.JsonText

/-!
# `ComputedFields.Proofs.SignificantDigits` — significant digits and what numerals denote

A number that is not zero has many numerals, but among its digits `d₁d₂…dₖ` and exponents `e` with
`d₁.d₂…dₖ · 10 ^ e` for its value there is only one pair whose first and last digits are not zero: a
greater exponent would take a zero from the end, and digits without leading zeros are determined by
the number that they write.

A numeral is a sign, digits, a point with digits and an exponent, of which only the digits before
the point have to be there. Where each of these parts ends is told by the byte behind it, so that a
text denotes one number.

* `Leading.decimal_numeral` — digits are written again from their number;
* `scientific_inj` — significant digits and their exponent are determined by the number;
* `Denotes` — what a numeral denotes;
* `Denotes.unique` — it is one number.
-/

namespace ComputedFields

namespace Text

/-! ## Numerals -/

theorem digitByte_digitValue {b : UInt8} (isDigit : digit b = true) :
    digitValue b < 10 ∧ digitByte (digitValue b) = b := by
  rw [digit, Bool.and_eq_true, decide_eq_true_eq, decide_eq_true_eq, UInt8.le_iff_toNat_le,
    UInt8.le_iff_toNat_le] at isDigit
  have zero : '0'.toUInt8.toNat = 48 := rfl
  have nine : '9'.toUInt8.toNat = 57 := rfl
  rw [digitValue]
  refine ⟨by omega, UInt8.toNat_inj.mp ?_⟩
  rw [digitByte, UInt8.toNat_add, UInt8.toNat_ofNat']
  omega

theorem numeral_append_zeros (s : Text) (n : ℕ) :
    numeral (s ++ List.replicate n '0'.toUInt8) = numeral s * 10 ^ n := by
  induction n with
  | zero => simp
  | succ n ih =>
    have zero : digitValue '0'.toUInt8 = 0 := rfl
    rw [List.replicate_succ', ← List.append_assoc, numeral_append_digit, ih, zero]
    ring

theorem numeral_lt {s : Text} (digits : ∀ b ∈ s, digit b = true) : numeral s < 10 ^ s.length := by
  induction s using List.reverseRecOn with
  | nil => exact Nat.one_pos
  | append_singleton s b ih =>
    obtain ⟨others, last⟩ := List.forall_mem_append.mp digits
    have lt := ih others
    obtain ⟨small, -⟩ := digitByte_digitValue (last b (List.mem_singleton_self b))
    rw [numeral_append_digit, List.length_append, List.length_singleton, Nat.pow_succ]
    omega

end Text

namespace Number

open Text

/-! ## Significant digits -/

theorem digitValue_ne_zero {b : UInt8} (isDigit : digit b = true) (nonzero : b ≠ '0'.toUInt8) :
    digitValue b ≠ 0 := by
  intro zero
  have same := (digitByte_digitValue isDigit).2
  rw [zero] at same
  exact nonzero same.symm

/-- Leading digits are a single one that is not zero, or there are leading digits before the last
one. -/
theorem Leading.of_append_singleton {s : Text} {b : UInt8} (h : Leading (s ++ [b])) :
    digit b = true ∧ (s = [] ∧ b ≠ '0'.toUInt8 ∨ Leading s) := by
  refine ⟨h.digits b (List.mem_append_right s (List.mem_singleton_self b)), ?_⟩
  cases s with
  | nil =>
    cases h with
    | intro _ nonzero _ => exact .inl ⟨rfl, nonzero⟩
  | cons c s =>
    cases h with
    | intro isDigit nonzero others =>
      exact .inr (.intro isDigit nonzero (List.forall_mem_append.mp others).1)

theorem Leading.isDigits {s : Text} (h : Leading s) : IsDigits s := ⟨h.ne_nil, h.digits⟩

theorem Leading.numeral_ne_zero {s : Text} (h : Leading s) : numeral s ≠ 0 := by
  induction s using List.reverseRecOn with
  | nil => exact absurd rfl h.ne_nil
  | append_singleton s b ih =>
    rw [numeral_append_digit]
    obtain ⟨isDigit, ⟨rfl, nonzero⟩ | leading⟩ := h.of_append_singleton
    · have := digitValue_ne_zero isDigit nonzero
      omega
    · have := ih leading
      omega

/-- Leading digits are the decimal numeral of their number. -/
theorem Leading.decimal_numeral {s : Text} (h : Leading s) : decimal (numeral s) = s := by
  induction s using List.reverseRecOn with
  | nil => exact absurd rfl h.ne_nil
  | append_singleton s b ih =>
    rw [numeral_append_digit]
    obtain ⟨isDigit, ⟨rfl, -⟩ | leading⟩ := h.of_append_singleton
    all_goals obtain ⟨small, byte⟩ := digitByte_digitValue isDigit
    · have single : 10 * numeral [] + digitValue b = digitValue b := Nat.zero_add _
      rw [single, decimal, if_pos small, byte]
      rfl
    · have pos := leading.numeral_ne_zero
      rw [decimal, if_neg (by omega), Nat.mul_add_div (by decide), Nat.div_eq_of_lt small,
        Nat.mul_add_mod, Nat.mod_eq_of_lt small, byte, Nat.add_zero, ih leading]

/-- Digits of which neither the first nor the last is zero. -/
structure Significant (digits : Text) : Prop where
  leading : Leading digits
  trailing : Leading digits.reverse

theorem Significant.numeral_mod_ten {digits : Text} (h : Significant digits) :
    numeral digits % 10 ≠ 0 := by
  obtain ⟨s, b, rfl⟩ := (List.eq_nil_or_concat digits).resolve_left h.leading.ne_nil
  have trailing := h.trailing
  rw [List.concat_eq_append] at trailing ⊢
  rw [List.reverse_append, List.reverse_singleton, List.singleton_append] at trailing
  cases trailing with
  | intro isDigit nonzero _ =>
    rw [numeral_append_digit, Nat.mul_add_mod,
      Nat.mod_eq_of_lt (digitByte_digitValue isDigit).1]
    exact digitValue_ne_zero isDigit nonzero

theorem significant_decimal {n : ℕ} (nonzero : n % 10 ≠ 0) : Significant (decimal n) := by
  refine ⟨leading_decimal (by rintro rfl; exact nonzero rfl), ?_⟩
  have last : digit (digitByte (n % 10)) = true := digit_digitByte (Nat.mod_lt _ (by decide))
  have significant := digitByte_ne_zero (Nat.mod_lt _ (by decide)) nonzero
  rw [decimal]
  split
  · next small =>
    rw [Nat.mod_eq_of_lt small] at last significant
    exact .intro last significant (List.forall_mem_nil _)
  · rw [List.reverse_append]
    refine .intro last significant fun b mem => ?_
    exact (isDigits_decimal _).2 b (List.mem_reverse.mp mem)

/-- The number `d₁.d₂…dₖ · 10 ^ e`. -/
def scientific (digits : Text) (e : ℤ) : ℚ := numeral digits * 10 ^ (e + 1 - digits.length)

/-- Of two numerals for one number the one with the greater exponent has a zero at the end. -/
theorem exponent_le {m n : ℕ} {a b : ℤ} (significant : m % 10 ≠ 0)
    (same : (m : ℚ) * 10 ^ a = n * 10 ^ b) : b ≤ a := by
  by_contra greater
  -- then `m` is `n` with `k + 1` zeros behind it
  obtain ⟨k, hk⟩ : ∃ k : ℕ, b = (k + 1 : ℕ) + a := ⟨(b - a - 1).toNat, by omega⟩
  rw [hk, zpow_add₀ (by norm_num), zpow_natCast, ← mul_assoc] at same
  have multiple := mul_right_cancel₀ (by positivity) same
  have multiple : m = n * 10 ^ (k + 1) := by exact_mod_cast multiple
  rw [multiple, Nat.pow_succ, ← Nat.mul_assoc, Nat.mul_mod_left] at significant
  exact significant rfl

/-- The significant digits of a number, and their exponent, are determined. -/
theorem scientific_inj {digits digits' : Text} {e e' : ℤ} (h : Significant digits)
    (h' : Significant digits') (same : scientific digits e = scientific digits' e') :
    digits' = digits ∧ e' = e := by
  have exponents : e' + 1 - digits'.length = e + 1 - digits.length :=
    le_antisymm (exponent_le h.numeral_mod_ten same) (exponent_le h'.numeral_mod_ten same.symm)
  unfold scientific at same
  rw [exponents] at same
  have numerals : numeral digits = numeral digits' := by
    exact_mod_cast mul_right_cancel₀ (by positivity) same
  have equal : digits' = digits := by
    rw [← h'.leading.decimal_numeral, ← numerals, h.leading.decimal_numeral]
  refine ⟨equal, ?_⟩
  rw [equal] at exponents
  omega

/-! ## What a numeral denotes -/

/-- A point with digits behind it, or nothing. -/
inductive PointDigits : Text → Text → Prop
  | none : PointDigits [] []
  | point {digits : Text} : IsDigits digits → PointDigits ('.'.toUInt8 :: digits) digits

/-- An exponent with its sign, or nothing. -/
inductive Scale : Text → ℤ → Prop
  | none : Scale [] 0
  | plus {digits : Text} : IsDigits digits →
    Scale ('e'.toUInt8 :: '+'.toUInt8 :: digits) (numeral digits)
  | minus {digits : Text} : IsDigits digits →
    Scale ('e'.toUInt8 :: '-'.toUInt8 :: digits) (-numeral digits)

/-- The number that a numeral without a sign denotes. -/
inductive Unsigned : Text → ℚ → Prop
  | intro {whole fraction scale digits : Text} {e : ℤ} :
    IsDigits whole → PointDigits fraction digits → Scale scale e →
    Unsigned (whole ++ (fraction ++ scale))
      (numeral (whole ++ digits) * 10 ^ (e - digits.length))

/-- The number that a numeral denotes. -/
inductive Denotes : Text → ℚ → Prop
  | positive {s : Text} {v : ℚ} : Unsigned s v → Denotes s v
  | negative {s : Text} {v : ℚ} : Unsigned s v → Denotes ('-'.toUInt8 :: s) (-v)

theorem Scale.leaves {s : Text} {e : ℤ} (h : Scale s e) : Leaves digit s := by
  cases h with
  | none => exact leaves_nil _
  | plus | minus => exact leaves_cons rfl _

theorem PointDigits.leaves {s digits t : Text} (h : PointDigits s digits)
    (leaves : Leaves digit t) : Leaves digit (s ++ t) := by
  cases h with
  | none => exact leaves
  | point => exact leaves_cons rfl _

/-- An exponent does not start with a point. -/
theorem Scale.ne_point {s t : Text} {e : ℤ} (h : Scale s e) : s ≠ '.'.toUInt8 :: t := by
  have other : 'e'.toUInt8 ≠ '.'.toUInt8 := by decide
  cases h with
  | none => exact nofun
  | plus | minus => exact fun same => other (List.head_eq_of_cons_eq same)

theorem Scale.unique {s s' : Text} {e e' : ℤ} (h : Scale s e) (h' : Scale s' e')
    (same : s = s') : e' = e := by
  have other : '+'.toUInt8 ≠ '-'.toUInt8 := by decide
  cases h with
  | none =>
    cases h' with
    | none => rfl
    | plus | minus => cases same
  | plus isDigits =>
    cases h' with
    | none => cases same
    | plus => rw [(List.cons.inj (List.tail_eq_of_cons_eq same)).2]
    | minus => exact absurd (List.head_eq_of_cons_eq (List.tail_eq_of_cons_eq same)) other
  | minus isDigits =>
    cases h' with
    | none => cases same
    | plus => exact absurd (List.head_eq_of_cons_eq (List.tail_eq_of_cons_eq same)) other.symm
    | minus => rw [(List.cons.inj (List.tail_eq_of_cons_eq same)).2]

theorem Unsigned.unique {s s' : Text} {v v' : ℚ} (h : Unsigned s v) (h' : Unsigned s' v')
    (same : s = s') : v' = v := by
  obtain ⟨isWhole, fraction, scale⟩ := h
  obtain ⟨isWhole', fraction', scale'⟩ := h'
  obtain ⟨rfl, behind⟩ := append_inj_of_leaves isWhole.2 isWhole'.2
    (fraction.leaves scale.leaves) (fraction'.leaves scale'.leaves) same
  cases fraction with
  | none =>
    cases fraction' with
    | none => rw [scale.unique scale' behind.symm]
    | point => exact absurd behind.symm scale.ne_point
  | point isDigits =>
    cases fraction' with
    | none => exact absurd behind scale'.ne_point
    | point isDigits' =>
      obtain ⟨rfl, scales⟩ := append_inj_of_leaves isDigits.2 isDigits'.2 scale.leaves
        scale'.leaves (List.tail_eq_of_cons_eq behind).symm
      rw [scale.unique scale' scales.symm]

/-- A numeral without a sign starts with a digit. -/
theorem Unsigned.ne_minus {s t : Text} {v : ℚ} (h : Unsigned s v) : s ≠ '-'.toUInt8 :: t := by
  obtain ⟨isWhole, -, -⟩ := h
  obtain ⟨b, others, rfl, isDigit⟩ := isWhole.exists_digit
  intro same
  rw [List.head_eq_of_cons_eq same] at isDigit
  cases isDigit

/-- A text denotes one number. -/
theorem Denotes.unique {s s' : Text} {v v' : ℚ} (h : Denotes s v) (h' : Denotes s' v')
    (same : s = s') : v' = v := by
  cases h with
  | positive number =>
    cases h' with
    | positive number' => exact number.unique number' same
    | negative => exact absurd same number.ne_minus
  | negative number =>
    cases h' with
    | positive number' => exact absurd same.symm number'.ne_minus
    | negative number' => rw [number.unique number' (List.tail_eq_of_cons_eq same)]

end Number

end ComputedFields
