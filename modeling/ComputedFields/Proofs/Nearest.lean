import ComputedFields.Number.Shortest
import Mathlib

/-!
# `ComputedFields.Proofs.Nearest` — the numbers that round to a double

A number rounds to a double when no other double is nearer to it. Two doubles can be at the same
distance, and then it is the one with an even mantissa that the number rounds to. There is no
greatest double in this: numbers that are nearer to the next power of two round to none.

So the numbers that round to a double are an interval around it, whose ends lie half way to its
neighbours. The one above is a unit of the mantissa away, and so is the one below, but for a power
of two, where the doubles below are twice as dense.

* `Binary.RoundsTo` — rounding to the nearest double;
* `Binary.exists_next`, `Binary.exists_previous` — the neighbours of a double;
* `Binary.Unpacked.next_le`, `Binary.Unpacked.le_previous` — nothing lies between;
* `Binary.Unpacked.roundsTo_iff` — the interval.
-/

namespace ComputedFields.Number.Binary

/-- A number without its sign. -/
def magnitude (x : Binary) : ℚ := x.mantissa * 2 ^ x.exponent

/-- The parts are those of a double, but for a greatest exponent. -/
def Fits (x : Binary) : Prop := x.mantissa < 2 ^ 53 ∧ -1074 ≤ x.exponent

/-- A double that is not zero, with the parts that it is unpacked into: its mantissa has 53 digits,
or else the exponent is as small as it can be. -/
structure Unpacked (x : Binary) : Prop where
  pos : 0 < x.mantissa
  fits : x.Fits
  full : 2 ^ 52 ≤ x.mantissa ∨ x.exponent = -1074

/-- No double is nearer to the number, and if another one is as near the mantissa is even. -/
structure RoundsTo (v : ℚ) (x : Binary) : Prop where
  nearest : ∀ y : Binary, y.Fits → |v - x.magnitude| ≤ |v - y.magnitude|
  even : ∀ y : Binary, y.Fits → y.magnitude ≠ x.magnitude →
    |v - y.magnitude| = |v - x.magnitude| → x.mantissa % 2 = 0

/-! ## Neighbours -/

/-- What a unit of the mantissa stands for. -/
def unit (x : Binary) : ℚ := 2 ^ x.exponent

/-- The distance to the double below: half a unit below a power of two, if doubles get denser
there. -/
def gap (x : Binary) : ℚ :=
  if x.mantissa = 2 ^ 52 ∧ -1074 < x.exponent then x.unit / 2 else x.unit

theorem unit_pos (x : Binary) : 0 < x.unit := by
  unfold unit
  positivity

theorem magnitude_eq (x : Binary) : x.magnitude = x.mantissa * x.unit := rfl

theorem gap_pos (x : Binary) : 0 < x.gap := by
  have := x.unit_pos
  unfold gap
  split <;> linarith

theorem gap_le (x : Binary) : x.gap ≤ x.unit := by
  have := x.unit_pos
  unfold gap
  split <;> linarith

theorem half_unit (x : Binary) : x.unit / 2 = 2 ^ (x.exponent - 1) := by
  rw [unit, zpow_sub_one₀ two_ne_zero, div_eq_mul_inv]

variable {x : Binary} {v : ℚ}

/-- The double above is a unit away. If the mantissa has no room for it the exponent has. -/
theorem exists_next (fits : x.Fits) :
    ∃ y : Binary, y.Fits ∧ y.magnitude = x.magnitude + x.unit := by
  obtain ⟨lt, least⟩ := fits
  by_cases last : x.mantissa + 1 = 2 ^ 53
  · refine ⟨⟨false, 2 ^ 52, x.exponent + 1⟩,
      ⟨by norm_num, by show -1074 ≤ x.exponent + 1; omega⟩, ?_⟩
    have mantissa : (x.mantissa : ℚ) + 1 = 2 ^ 53 := by exact_mod_cast last
    show ((2 ^ 52 : ℕ) : ℚ) * 2 ^ (x.exponent + 1) = x.mantissa * 2 ^ x.exponent + 2 ^ x.exponent
    rw [zpow_add_one₀ two_ne_zero, ← add_one_mul, mantissa]
    push_cast
    ring
  · refine ⟨⟨false, x.mantissa + 1, x.exponent⟩, ⟨by show x.mantissa + 1 < _; omega, least⟩, ?_⟩
    show ((x.mantissa + 1 : ℕ) : ℚ) * x.unit = x.mantissa * x.unit + x.unit
    push_cast
    ring

namespace Unpacked

/-- The double below. -/
theorem exists_previous (h : x.Unpacked) :
    ∃ y : Binary, y.Fits ∧ y.magnitude = x.magnitude - x.gap := by
  obtain ⟨pos, ⟨lt, least⟩, -⟩ := h
  unfold gap
  split
  · next power =>
    obtain ⟨mantissa, more⟩ := power
    refine ⟨⟨false, 2 ^ 53 - 1, x.exponent - 1⟩,
      ⟨by norm_num, by show -1074 ≤ x.exponent - 1; omega⟩, ?_⟩
    show ((2 ^ 53 - 1 : ℕ) : ℚ) * 2 ^ (x.exponent - 1) = _
    rw [← half_unit, magnitude_eq, mantissa]
    push_cast
    ring
  · refine ⟨⟨false, x.mantissa - 1, x.exponent⟩, ⟨by show x.mantissa - 1 < _; omega, least⟩, ?_⟩
    show ((x.mantissa - 1 : ℕ) : ℚ) * x.unit = x.mantissa * x.unit - x.unit
    rw [Nat.cast_sub pos]
    push_cast
    ring

/-- A double is a whole number of units, or it is smaller and the mantissa is long. -/
theorem units_or_smaller (h : x.Unpacked) {y : Binary} (fits : y.Fits) :
    (∃ n : ℕ, y.magnitude = n * x.unit) ∨
      2 ^ 52 ≤ x.mantissa ∧ -1074 < x.exponent ∧ y.magnitude ≤ 2 ^ 52 * x.unit - x.unit / 2 := by
  rcases le_or_gt x.exponent y.exponent with le | lt
  · -- every unit of `y` is a whole number of units of `x`
    obtain ⟨k, hk⟩ := Int.exists_add_of_le le
    refine .inl ⟨y.mantissa * 2 ^ k, ?_⟩
    rw [magnitude, hk, zpow_add₀ two_ne_zero, zpow_natCast, unit]
    push_cast
    ring
  · have more : -1074 < x.exponent := lt_of_le_of_lt fits.2 lt
    refine .inr ⟨h.full.resolve_right (by omega), more, ?_⟩
    have mantissa : (y.mantissa : ℚ) ≤ 2 ^ 53 - 1 := by
      have := fits.1
      have : y.mantissa + 1 ≤ 2 ^ 53 := this
      have : ((y.mantissa + 1 : ℕ) : ℚ) ≤ (2 ^ 53 : ℕ) := by exact_mod_cast this
      push_cast at this
      linarith
    have unit : (2 : ℚ) ^ y.exponent ≤ x.unit / 2 := by
      rw [half_unit]
      exact zpow_le_zpow_right₀ one_le_two (by omega)
    calc y.magnitude ≤ (2 ^ 53 - 1) * (x.unit / 2) :=
          mul_le_mul mantissa unit (by positivity) (by norm_num)
      _ = 2 ^ 52 * x.unit - x.unit / 2 := by ring

/-- There is no double before the next one. -/
theorem next_le (h : x.Unpacked) {y : Binary} (fits : y.Fits) (lt : x.magnitude < y.magnitude) :
    x.magnitude + x.unit ≤ y.magnitude := by
  have pos := x.unit_pos
  rw [magnitude_eq] at lt ⊢
  rcases h.units_or_smaller fits with ⟨n, units⟩ | ⟨long, -, smaller⟩
  · rw [units] at lt ⊢
    have lt : x.mantissa < n := by exact_mod_cast lt_of_mul_lt_mul_right lt pos.le
    have le : (x.mantissa : ℚ) + 1 ≤ n := by exact_mod_cast lt
    rw [← add_one_mul]
    exact mul_le_mul_of_nonneg_right le pos.le
  · have long : (2 : ℚ) ^ 52 ≤ x.mantissa := by exact_mod_cast long
    have := mul_le_mul_of_nonneg_right long pos.le
    linarith

/-- There is no double behind the previous one. -/
theorem le_previous (h : x.Unpacked) {y : Binary} (fits : y.Fits)
    (lt : y.magnitude < x.magnitude) : y.magnitude ≤ x.magnitude - x.gap := by
  have pos := x.unit_pos
  have gap := x.gap_le
  rw [magnitude_eq x] at lt ⊢
  rcases h.units_or_smaller fits with ⟨n, units⟩ | ⟨long, more, smaller⟩
  · rw [units] at lt ⊢
    have lt : n < x.mantissa := by exact_mod_cast lt_of_mul_lt_mul_right lt pos.le
    have le : (n : ℚ) + 1 ≤ x.mantissa := by exact_mod_cast lt
    have := mul_le_mul_of_nonneg_right le pos.le
    linarith
  · -- the doubles below a power of two are half a unit apart
    rcases long.eq_or_lt with power | longer
    · have half : x.gap = x.unit / 2 := if_pos ⟨power.symm, more⟩
      have mantissa : (x.mantissa : ℚ) = 2 ^ 52 := by exact_mod_cast power.symm
      rw [half, mantissa]
      exact smaller
    · have le : (2 : ℚ) ^ 52 + 1 ≤ x.mantissa := by exact_mod_cast longer
      have := mul_le_mul_of_nonneg_right le pos.le
      linarith

end Unpacked

/-! ## The interval -/

/-- Half way to the double below. -/
def lowerEnd (x : Binary) : ℚ := x.magnitude - x.gap / 2

/-- Half way to the double above. -/
def upperEnd (x : Binary) : ℚ := x.magnitude + x.unit / 2

/-- Which of two numbers is nearer depends on the side of their middle. -/
theorem abs_sub_le_abs_sub_iff (v a b : ℚ) :
    |v - a| ≤ |v - b| ↔ 0 ≤ (b - a) * (a + b - 2 * v) := by
  have difference : (v - b) ^ 2 - (v - a) ^ 2 = (b - a) * (a + b - 2 * v) := by ring
  rw [← sq_le_sq, ← sub_nonneg, difference]

/-- What rounds to a double lies between the ends, or at one of them if the mantissa is even. -/
theorem RoundsTo.within (rounds : RoundsTo v x) (h : x.Unpacked) :
    (x.lowerEnd ≤ v ∧ v ≤ x.upperEnd) ∧
      (x.mantissa % 2 ≠ 0 → x.lowerEnd < v ∧ v < x.upperEnd) := by
  obtain ⟨next, nextFits, isNext⟩ := exists_next h.fits
  obtain ⟨previous, previousFits, isPrevious⟩ := h.exists_previous
  have unit := x.unit_pos
  have gap := x.gap_pos
  have upper : v ≤ x.upperEnd := by
    have nearer := rounds.nearest next nextFits
    rw [abs_sub_le_abs_sub_iff, isNext, add_sub_cancel_left, mul_nonneg_iff_of_pos_left unit]
      at nearer
    unfold upperEnd
    linarith
  have lower : x.lowerEnd ≤ v := by
    have nearer := rounds.nearest previous previousFits
    rw [abs_sub_le_abs_sub_iff, isPrevious, sub_sub_cancel_left, ← neg_mul_neg, neg_neg,
      mul_nonneg_iff_of_pos_left gap] at nearer
    unfold lowerEnd
    linarith
  refine ⟨⟨lower, upper⟩, fun odd => ⟨lower.lt_of_ne ?_, upper.lt_of_ne ?_⟩⟩
  · rintro rfl
    refine odd (rounds.even previous previousFits (by rw [isPrevious]; linarith) ?_)
    rw [isPrevious, lowerEnd, sub_sub_sub_cancel_left, sub_sub_cancel_left, abs_neg]
    congr 1
    ring
  · rintro rfl
    refine odd (rounds.even next nextFits (by rw [isNext]; linarith) ?_)
    rw [isNext, upperEnd, add_sub_add_left_eq_sub, add_sub_cancel_left, ← abs_neg]
    congr 1
    ring

/-- Any other double is on the far side of the middle. -/
theorem Unpacked.side_nonneg (h : x.Unpacked) {y : Binary} (fits : y.Fits)
    (within : x.lowerEnd ≤ v ∧ v ≤ x.upperEnd) :
    0 ≤ (y.magnitude - x.magnitude) * (x.magnitude + y.magnitude - 2 * v) := by
  obtain ⟨lower, upper⟩ := within
  unfold lowerEnd at lower
  unfold upperEnd at upper
  rcases lt_trichotomy y.magnitude x.magnitude with less | same | more
  · have := h.le_previous fits less
    exact mul_nonneg_of_nonpos_of_nonpos (by linarith) (by linarith)
  · rw [same, sub_self, zero_mul]
  · have := h.next_le fits more
    exact mul_nonneg (by linarith) (by linarith)

theorem Unpacked.side_pos (h : x.Unpacked) {y : Binary} (fits : y.Fits)
    (within : x.lowerEnd < v ∧ v < x.upperEnd) (ne : y.magnitude ≠ x.magnitude) :
    0 < (y.magnitude - x.magnitude) * (x.magnitude + y.magnitude - 2 * v) := by
  obtain ⟨lower, upper⟩ := within
  unfold lowerEnd at lower
  unfold upperEnd at upper
  rcases ne.lt_or_gt with less | more
  · have := h.le_previous fits less
    exact mul_pos_of_neg_of_neg (by linarith) (by linarith)
  · have := h.next_le fits more
    exact mul_pos (by linarith) (by linarith)

/-- What rounds to a double is an interval, and its ends are part of it if the mantissa is even. -/
theorem Unpacked.roundsTo_iff (h : x.Unpacked) :
    RoundsTo v x ↔ if x.mantissa % 2 = 0 then x.lowerEnd ≤ v ∧ v ≤ x.upperEnd
      else x.lowerEnd < v ∧ v < x.upperEnd := by
  constructor
  · intro rounds
    obtain ⟨closed, inside⟩ := rounds.within h
    split
    · exact closed
    · next odd => exact inside odd
  · intro within
    have closed : x.lowerEnd ≤ v ∧ v ≤ x.upperEnd := by
      split at within
      · exact within
      · exact ⟨within.1.le, within.2.le⟩
    refine ⟨fun y fits => ?_, fun y fits ne same => ?_⟩
    · rw [abs_sub_le_abs_sub_iff]
      exact h.side_nonneg fits closed
    · by_contra odd
      rw [if_neg odd] at within
      have side := h.side_pos fits within ne
      have back := (abs_sub_le_abs_sub_iff v y.magnitude x.magnitude).mp same.le
      rw [← neg_sub, neg_mul, add_comm y.magnitude] at back
      linarith

theorem Unpacked.roundsTo_of_inside (h : x.Unpacked) (lower : x.lowerEnd < v)
    (upper : v < x.upperEnd) : RoundsTo v x := by
  rw [h.roundsTo_iff]
  split
  · exact ⟨lower.le, upper.le⟩
  · exact ⟨lower, upper⟩

/-- With a number all those rounds to a double that are between the two. -/
theorem RoundsTo.of_between (rounds : RoundsTo v x) (h : x.Unpacked) {w : ℚ}
    (between : v ≤ w ∧ w ≤ x.magnitude ∨ x.magnitude ≤ w ∧ w ≤ v) : RoundsTo w x := by
  have unit := x.unit_pos
  have gap := x.gap_pos
  have inside : x.lowerEnd < x.magnitude ∧ x.magnitude < x.upperEnd := by
    unfold lowerEnd upperEnd
    constructor <;> linarith
  rw [h.roundsTo_iff] at rounds ⊢
  split at rounds
  · rw [if_pos ‹_›]
    rcases between with ⟨le, le'⟩ | ⟨le, le'⟩ <;> constructor <;> linarith
  · rw [if_neg ‹_›]
    rcases between with ⟨le, le'⟩ | ⟨le, le'⟩ <;> constructor <;> linarith

end ComputedFields.Number.Binary
