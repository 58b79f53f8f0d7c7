import ComputedFields.Proofs.ShortestDecimals
import ComputedFields.Proofs.SignificantDigits

/-!
# `ComputedFields.Proofs.Layouts` — numbers are written with their shortest digits

From its digits `d₁d₂…dₖ` and its exponent `e` a number is written in one of four ways. With `e`
from -6 to 20 it is in plain notation: the point is behind all digits and left out, with zeros to
fill the places, or it is between them, or it is before them with zeros in between. With any other
`e` it is behind the first digit, and an exponent follows. In each of them the text denotes
`d₁.d₂…dₖ · 10 ^ e`, and since a text denotes one number, and a number has one pair of significant
digits and exponent, different pairs are written differently.

The digits that a double is written with are the shortest ones that round to it.

* `Shows` — what a text has to do with the digits and the exponent that it is written for;
* `exists_isBody` — the four ways;
* `shows_layout` — the text of any digits and exponent;
* `layout_inj` — different digits or exponents have different texts;
* `ShortestDigits` — the digits of a double;
* `write_notation` — the texts of doubles.
-/

namespace ComputedFields.Number

open Text

/-! ## The layout -/

/-- Plain notation: there may be zeros behind the digits, or a point among the digits and the zeros
before them. A zero stands before the point only when no other digit does. -/
inductive Positional (digits : Text) : Text → Prop
  | whole (n : ℕ) : Positional digits (digits ++ List.replicate n '0'.toUInt8)
  | point {before after : Text} (n : ℕ) : Json.IsWhole before → after ≠ [] →
    before ++ after = List.replicate n '0'.toUInt8 ++ digits →
    Positional digits (before ++ '.'.toUInt8 :: after)

/-- Notation with an exponent: one digit is before the point, which is left out if there are no
others, and the exponent has its sign and no leading zeros. -/
inductive Exponential : Text → ℤ → Text → Prop
  | intro {first : UInt8} {others exponent : Text} {e : ℤ} :
    Leading exponent → numeral exponent = e.natAbs →
    Exponential (first :: others) e
      (first :: ((if others = [] then [] else '.'.toUInt8 :: others) ++
        'e'.toUInt8 :: (if e < 0 then '-'.toUInt8 else '+'.toUInt8) :: exponent))

/-- A minus for a negative number. -/
def minus (negative : Bool) : Text := if negative then ['-'.toUInt8] else []

/-- What a text has to do with the digits `d₁d₂…dₖ` and the exponent `e` that it is written for. It
denotes the number, and it is in plain notation when `e` is from -6 to 20. -/
structure Shows (negative : Bool) (digits : Text) (e : ℤ) (text : Text) : Prop where
  denotes : Denotes text ((if negative then -1 else 1) * scientific digits e)
  noExponent : 'e'.toUInt8 ∉ text ↔ -6 ≤ e ∧ e ≤ 20
  form : ∃ body, text = minus negative ++ body ∧
    if -6 ≤ e ∧ e ≤ 20 then Positional digits body else Exponential digits e body

section

variable {digits : Text} {e : ℤ}

/-- Zeros behind the digits move the point. -/
theorem unsigned_whole {n : ℕ} (isDigits : IsDigits digits) (point : e + 1 = digits.length + n) :
    Unsigned (digits ++ List.replicate n '0'.toUInt8) (scientific digits e) := by
  have isWhole : IsDigits (digits ++ List.replicate n '0'.toUInt8) :=
    ⟨List.append_ne_nil_of_left_ne_nil isDigits.1 _,
      List.forall_mem_append.mpr ⟨isDigits.2, Json.digit_of_zeros⟩⟩
  have number := Unsigned.intro isWhole .none .none
  have power : e + 1 - digits.length = n := by omega
  rw [List.append_nil, List.append_nil, numeral_append_zeros, List.length_nil, Nat.cast_zero,
    sub_zero, zpow_zero, mul_one] at number
  rw [scientific, power, zpow_natCast]
  exact_mod_cast number

/-- Zeros before the digits do not count, and the point stands before as many digits as are behind
it. -/
theorem unsigned_fraction {before after : Text} {n : ℕ} (isBefore : IsDigits before)
    (isAfter : IsDigits after) (padded : before ++ after = List.replicate n '0'.toUInt8 ++ digits)
    (point : e + 1 + after.length = digits.length) :
    Unsigned (before ++ '.'.toUInt8 :: after) (scientific digits e) := by
  have number := Unsigned.intro isBefore (.point isAfter) .none
  have power : e + 1 - digits.length = 0 - after.length := by omega
  rw [padded, numeral_zeros_append, List.append_nil] at number
  rwa [scientific, power]

/-- The exponent counts from behind the first digit. -/
theorem Exponential.unsigned {s : Text} (h : Exponential digits e s) (isDigits : IsDigits digits) :
    Unsigned s (scientific digits e) := by
  cases h with
  | @intro first others exponent _ leading exponentIs =>
    have isExponent := leading.isDigits
    have scale : Scale ('e'.toUInt8 :: (if e < 0 then '-'.toUInt8 else '+'.toUInt8) :: exponent)
        e := by
      split
      · have value : e = -(numeral exponent : ℤ) := by omega
        rw [value]
        exact .minus isExponent
      · have value : e = numeral exponent := by omega
        rw [value]
        exact .plus isExponent
    have isFirst : IsDigits [first] :=
      ⟨List.cons_ne_nil _ _, List.forall_mem_singleton.mpr (isDigits.2 first List.mem_cons_self)⟩
    split
    · next alone =>
      have number := Unsigned.intro isFirst .none scale
      have power : e + 1 - ([first] : Text).length = e - ([] : Text).length := by
        rw [List.length_singleton, List.length_nil]
        omega
      rw [alone, scientific, power]
      exact number
    · next more =>
      have isOthers : IsDigits others :=
        ⟨more, fun b mem => isDigits.2 b (List.mem_cons_of_mem first mem)⟩
      have number := Unsigned.intro isFirst (.point isOthers) scale
      have power : e + 1 - (first :: others).length = e - others.length := by
        rw [List.length_cons]
        omega
      rw [scientific, power]
      exact number

/-! ## The four cases -/

/-- What is written behind the sign. -/
structure IsBody (digits : Text) (e : ℤ) (body : Text) : Prop where
  layout_eq : ∀ negative, layout negative digits (e + 1) = minus negative ++ body
  unsigned : Unsigned body (scientific digits e)
  form : if -6 ≤ e ∧ e ≤ 20 then Positional digits body else Exponential digits e body

variable (leading : Leading digits)
include leading

/-- The point is behind all digits, and is not written. -/
theorem isBody_of_behind (behind : digits.length ≤ e + 1) (large : e ≤ 20) :
    IsBody digits e (digits ++ List.replicate (e + 1 - digits.length).toNat '0'.toUInt8) where
  layout_eq negative := by
    rw [layout, if_pos ⟨behind, by omega⟩, List.append_assoc]
    rfl
  unsigned := unsigned_whole leading.isDigits (by omega)
  form := by
    rw [if_pos ⟨by omega, large⟩]
    exact .whole _

/-- The point is between the digits. -/
theorem isBody_of_inside (notBehind : ¬digits.length ≤ e + 1) (inside : 0 < e + 1)
    (large : e ≤ 20) : IsBody digits e
      (digits.take (e + 1).toNat ++ '.'.toUInt8 :: digits.drop (e + 1).toNat) := by
  have some : digits.drop (e + 1).toNat ≠ [] := by
    rw [ne_eq, List.drop_eq_nil_iff]
    omega
  have before : Leading (digits.take (e + 1).toNat) := leading.take (by omega)
  have after : IsDigits (digits.drop (e + 1).toNat) :=
    ⟨some, fun c mem => leading.digits c (List.mem_of_mem_drop mem)⟩
  have padded : digits.take (e + 1).toNat ++ digits.drop (e + 1).toNat =
      List.replicate 0 '0'.toUInt8 ++ digits := List.take_append_drop ..
  refine ⟨fun negative => ?_, unsigned_fraction before.isDigits after padded ?_, ?_⟩
  · rw [layout, if_neg (by omega), if_pos ⟨inside, by omega⟩, List.append_assoc]
    rfl
  · rw [List.length_drop]
    omega
  · rw [if_pos ⟨by omega, large⟩]
    exact .point 0 before.isWhole some padded

/-- The point is before all digits. -/
theorem isBody_of_before (before : e + 1 ≤ 0) (small : -6 ≤ e) :
    IsBody digits e (['0'.toUInt8] ++
      '.'.toUInt8 :: (List.replicate (-(e + 1)).toNat '0'.toUInt8 ++ digits)) := by
  have length := List.length_pos_iff.mpr leading.ne_nil
  have after : IsDigits (List.replicate (-(e + 1)).toNat '0'.toUInt8 ++ digits) :=
    ⟨List.append_ne_nil_of_right_ne_nil _ leading.ne_nil,
      List.forall_mem_append.mpr ⟨Json.digit_of_zeros, leading.digits⟩⟩
  have zero : IsDigits ['0'.toUInt8] :=
    ⟨List.cons_ne_nil _ _, List.forall_mem_singleton.mpr rfl⟩
  -- the zero before the point is the first of the padding
  have padded : ['0'.toUInt8] ++ (List.replicate (-(e + 1)).toNat '0'.toUInt8 ++ digits) =
      List.replicate ((-(e + 1)).toNat + 1) '0'.toUInt8 ++ digits := rfl
  refine ⟨fun negative => ?_, unsigned_fraction zero after padded ?_, ?_⟩
  · rw [layout, if_neg (by omega), if_neg (by omega), if_pos ⟨by omega, before⟩, List.append_assoc,
      List.append_assoc]
    rfl
  · rw [List.length_append, List.length_replicate]
    omega
  · rw [if_pos ⟨small, by omega⟩]
    exact .point _ .zero after.1 padded

/-- The point is behind the first digit, if there is another one, and an exponent follows. -/
theorem exists_isBody_of_outside (outside : ¬(-6 ≤ e ∧ e ≤ 20)) : ∃ body, IsBody digits e body := by
  have isDigits := leading.isDigits
  have length := List.length_pos_iff.mpr leading.ne_nil
  obtain ⟨first, others, rfl⟩ := List.exists_cons_of_ne_nil leading.ne_nil
  have exponent : Leading (decimal e.natAbs) := leading_decimal (by omega)
  have shown : Exponential (first :: others) e _ := .intro exponent (numeral_decimal _)
  refine ⟨_, fun negative => ?_, shown.unsigned isDigits, by rwa [if_neg outside]⟩
  rw [layout, if_neg (by omega), if_neg (by omega), if_neg (by omega), Int.add_sub_cancel]
  simp only [List.append_assoc, List.isEmpty_iff]
  rfl

/-- Whatever place its point has, a number is written in one of four ways. -/
theorem exists_isBody (e : ℤ) : ∃ body, IsBody digits e body := by
  by_cases inRange : -6 ≤ e ∧ e ≤ 20
  · obtain ⟨small, large⟩ := inRange
    by_cases behind : digits.length ≤ e + 1
    · exact ⟨_, isBody_of_behind leading behind large⟩
    by_cases inside : 0 < e + 1
    · exact ⟨_, isBody_of_inside leading behind inside large⟩
    · exact ⟨_, isBody_of_before leading (by omega) small⟩
  · exact exists_isBody_of_outside leading inRange

omit leading

theorem Positional.not_mem {body : Text} (h : Positional digits body)
    (isDigits : ∀ b ∈ digits, digit b = true) : 'e'.toUInt8 ∉ body := by
  have zeros (n : ℕ) : 'e'.toUInt8 ∉ List.replicate n '0'.toUInt8 :=
    fun mem => absurd (List.eq_of_mem_replicate mem) (by decide)
  have letter : 'e'.toUInt8 ∉ digits := fun mem => absurd (isDigits _ mem) (by decide)
  intro mem
  cases h with
  | whole n => exact (List.mem_append.mp mem).elim letter (zeros n)
  | @point before after n _ _ padded =>
    have other : 'e'.toUInt8 ∉ before ++ after := by
      rw [padded]
      exact fun mem => (List.mem_append.mp mem).elim (zeros n) letter
    rcases List.mem_append.mp mem with early | late
    · exact other (List.mem_append_left _ early)
    · exact other (List.mem_append_right _ (List.mem_of_ne_of_mem (by decide) late))

theorem Exponential.mem {body : Text} (h : Exponential digits e body) : 'e'.toUInt8 ∈ body := by
  cases h with
  | intro => exact List.mem_cons_of_mem _ (List.mem_append_right _ List.mem_cons_self)

/-- An exponent is marked by a letter, which plain notation does not have. -/
theorem IsBody.noExponent {body : Text} (h : IsBody digits e body)
    (isDigits : ∀ b ∈ digits, digit b = true) : 'e'.toUInt8 ∉ body ↔ -6 ≤ e ∧ e ≤ 20 := by
  have form := h.form
  split at form
  · next inRange => exact iff_of_true (form.not_mem isDigits) inRange
  · next outside => exact iff_of_false (not_not.mpr form.mem) outside

/-- The text of a number shows its digits and its exponent. -/
theorem shows_layout (leading : Leading digits) (negative : Bool) (e : ℤ) :
    Shows negative digits e (layout negative digits (e + 1)) := by
  obtain ⟨body, isBody⟩ := exists_isBody leading e
  refine ⟨?_, ?_, body, isBody.layout_eq negative, isBody.form⟩
  · rw [isBody.layout_eq]
    cases negative with
    | false =>
      have number := Denotes.positive isBody.unsigned
      rwa [if_neg Bool.false_ne_true, one_mul]
    | true =>
      have number := Denotes.negative isBody.unsigned
      rwa [if_pos rfl, neg_one_mul]
  · -- the sign is no letter
    rw [← isBody.noExponent leading.digits, isBody.layout_eq, not_iff_not, List.mem_append]
    refine ⟨fun mem => mem.resolve_left ?_, .inr⟩
    cases negative with
    | false => exact List.not_mem_nil
    | true => decide

/-- Digits and exponents that are written alike are the same. -/
theorem layout_inj {digits digits' : Text} {e e' : ℤ} (negative : Bool) (h : Significant digits)
    (h' : Significant digits')
    (same : layout negative digits (e + 1) = layout negative digits' (e' + 1)) :
    digits' = digits ∧ e' = e := by
  have number := (shows_layout h.leading negative e).denotes
  have number' := (shows_layout h'.leading negative e').denotes
  have equal := number'.unique number same.symm
  refine scientific_inj h h' (mul_left_cancel₀ ?_ equal)
  cases negative <;> norm_num

end

/-! ## The digits of doubles -/

/-- The digits and the exponent of the shortest numeral that rounds to the double: none with fewer
digits does, and of those with as many digits that do none is nearer. -/
structure ShortestDigits (x : Binary) (digits : Text) (e : ℤ) : Prop where
  significant : Significant digits
  rounds : x.RoundsTo (scientific digits e)
  fewest : ∀ digits' e', IsDigits digits' → x.RoundsTo (scientific digits' e') →
    digits.length ≤ digits'.length
  nearest : ∀ digits' e', IsDigits digits' → digits'.length = digits.length →
    x.RoundsTo (scientific digits' e') →
    |scientific digits e - x.magnitude| ≤ |scientific digits' e' - x.magnitude|

section

variable {x : Binary} {d : Decimal} {places : ℕ}

theorem scientific_decimal (d : Decimal) :
    scientific (decimal d.coefficient) (d.exponent + (decimal d.coefficient).length - 1) =
      d.value := by
  rw [scientific, numeral_decimal, Decimal.value]
  congr 2
  omega

theorem IsShortestDecimal.length_decimal (shortest : IsShortestDecimal x d places)
    (h : x.Unpacked) : (decimal d.coefficient).length = places := by
  have lt := shortest.lt
  have some := List.length_pos_iff.mpr (isDigits_decimal d.coefficient).1
  apply le_antisymm
  · cases places with
    | zero => exact absurd (Nat.lt_one_iff.mp lt) (shortest.coefficient_ne_zero h)
    | succ n => exact length_decimal_le_iff.mpr lt
  · refine shortest.fewest d shortest.rounds _ ?_
    have numeral := numeral_lt (isDigits_decimal d.coefficient).2
    rwa [numeral_decimal] at numeral

/-- The digits of the shortest decimal are those of the shortest numeral. -/
theorem IsShortestDecimal.digits (shortest : IsShortestDecimal x d places) (h : x.Unpacked) :
    ShortestDigits x (decimal d.coefficient)
      (d.exponent + (decimal d.coefficient).length - 1) := by
  have length := shortest.length_decimal h
  refine ⟨significant_decimal (shortest.coefficient_mod_ten h), ?_, ?_, ?_⟩
  · rw [scientific_decimal]
    exact shortest.rounds
  · intro digits' e' isDigits rounds
    rw [length]
    exact shortest.fewest ⟨numeral digits', e' + 1 - digits'.length⟩ rounds _
      (numeral_lt isDigits.2)
  · intro digits' e' isDigits same rounds
    have lt := numeral_lt isDigits.2
    rw [same, length] at lt
    rw [scientific_decimal]
    exact shortest.nearest ⟨numeral digits', e' + 1 - digits'.length⟩ rounds lt

/-- The parts of a double that is not zero. -/
theorem unpacked_ofFloat {x : Float} (finite : x.isFinite = true) (nonzero : (x == 0) = false) :
    (Binary.ofFloat x).Unpacked ∧ (Binary.ofFloat x).exponent ≤ 972 := by
  have pos := mantissa_pos finite nonzero
  unfold Binary.ofFloat at pos ⊢
  dsimp only at pos ⊢
  have short : x.toBits.toNat % Nat.pow 2 52 < 2 ^ 52 := Nat.mod_lt _ (by decide)
  have low : x.toBits.toNat / Nat.pow 2 52 % Nat.pow 2 11 < 2 ^ 11 := Nat.mod_lt _ (by decide)
  generalize x.toBits.toNat % Nat.pow 2 52 = fraction at *
  generalize x.toBits.toNat / Nat.pow 2 52 % Nat.pow 2 11 = scale at *
  split at pos
  · next small =>
    rw [if_pos small]
    refine ⟨⟨pos, ⟨short.trans (by decide), le_refl _⟩, .inr rfl⟩, ?_⟩
    show (-1074 : ℤ) ≤ 972
    decide
  · next large =>
    rw [if_neg large]
    refine ⟨⟨pos, ⟨?_, ?_⟩, .inl (Nat.le_add_right _ _)⟩, ?_⟩
    · show 2 ^ 52 + fraction < 2 ^ 53
      omega
    · show -1074 ≤ (scale : ℤ) - 1075
      omega
    · show (scale : ℤ) - 1075 ≤ 972
      omega

end

/-- The text of a finite double that is not zero has its shortest digits. -/
theorem write_eq {x : Float} (finite : x.isFinite = true) (nonzero : (x == 0) = false) :
    ∃ digits e, ShortestDigits (Binary.ofFloat x) digits e ∧
      write x = layout (Binary.ofFloat x).negative digits (e + 1) := by
  obtain ⟨unpacked, most⟩ := unpacked_ofFloat finite nonzero
  obtain ⟨places, shortest⟩ := shortest_spec unpacked most
  refine ⟨_, _, shortest.digits unpacked, ?_⟩
  have isNumber : ¬x.isNaN = true := Bool.eq_false_iff.mp (isNaN_of_isFinite finite)
  have isFinite : ¬(!x.isFinite) = true := by rw [finite]; exact Bool.false_ne_true
  rw [write, if_neg isNumber, if_neg isFinite, if_neg (Bool.eq_false_iff.mp nonzero),
    Int.sub_add_cancel]

/-- A finite double that is not zero is written with its sign and its shortest digits. Whatever the
digits and the exponent are, the text denotes their number, in plain notation when the exponent is
from -6 to 20 and with an exponent otherwise; and it tells the digits and the exponent. -/
theorem write_notation :
    (∀ x : Float, x.isFinite = true → (x == 0) = false →
      ∃ digits e, ShortestDigits (Binary.ofFloat x) digits e ∧
        write x = layout (Binary.ofFloat x).negative digits (e + 1) ∧
        Shows (Binary.ofFloat x).negative digits e (write x)) ∧
    (∀ negative digits e, Significant digits →
      Shows negative digits e (layout negative digits (e + 1))) ∧
    ∀ negative digits digits' e e', Significant digits → Significant digits' →
      layout negative digits (e + 1) = layout negative digits' (e' + 1) →
      digits' = digits ∧ e' = e := by
  refine ⟨fun x finite nonzero => ?_, fun negative digits e significant => ?_,
    fun negative digits digits' e e' h h' same => layout_inj negative h h' same⟩
  · obtain ⟨digits, e, shortest, written⟩ := write_eq finite nonzero
    refine ⟨digits, e, shortest, written, ?_⟩
    rw [written]
    exact shows_layout shortest.significant.leading _ e
  · exact shows_layout significant.leading negative e

/-- The digits of a double can be read off its text. -/
theorem write_notation_of_negative :
    let x : Float := -1.5e-7
    x.isFinite = true ∧ (x == 0) = false ∧ Significant (utf8 "15") ∧
      write x = utf8 "-1.5e-7" ∧ layout true (utf8 "15") (-7 + 1) = utf8 "-1.5e-7" ∧
      ShortestDigits (Binary.ofFloat x) (utf8 "15") (-7) ∧
      Shows true (utf8 "15") (-7) (utf8 "-1.5e-7") := by
  intro x
  have finite : x.isFinite = true := by decide +kernel
  have nonzero : (x == 0) = false := by decide +kernel
  have negative : (Binary.ofFloat x).negative = true := by decide +kernel
  have written : write x = utf8 "-1.5e-7" := by decide +kernel
  have laidOut : layout true (utf8 "15") (-7 + 1) = utf8 "-1.5e-7" := by decide +kernel
  have numeral : decimal 15 = utf8 "15" := by decide +kernel
  have significant : Significant (utf8 "15") := numeral ▸ significant_decimal (by decide)
  obtain ⟨doubles, layouts, inj⟩ := write_notation
  obtain ⟨digits, e, shortest, same, -⟩ := doubles x finite nonzero
  rw [negative, written, ← laidOut] at same
  obtain ⟨rfl, rfl⟩ := inj true _ _ _ _ significant shortest.significant same
  exact ⟨finite, nonzero, significant, written, laidOut, shortest,
    laidOut ▸ layouts true _ _ significant⟩

end ComputedFields.Number
