import ComputedFields.Proofs.Nearest

/-!
# `ComputedFields.Proofs.ShortestDecimals` — the fewest digits that identify a double

The decimal that is searched for identifies the double, no decimal with fewer digits does, and none
with as many digits that does is nearer. The search is on whole numbers: an interval over a common
denominator, and on each grid of multiples of a power of ten the two next to the double. Both
comparisons say the same of the numbers that the quotients stand for.

Of a grid nothing else is needed than the multiple below the double and the one above it, since the
numbers that round to a double are an interval: with any multiple one of these two is in it, and
nearer. The search starts at the first digit of the double, which its binary logarithm tells to
within five places, and ends at the seventeenth at the latest, where a step is shorter than the
interval.

* `IsShortestDecimal` — what is searched for;
* `Rounding.holds_iff` — the interval on whole numbers;
* `Rounding.onGrid_eq_none`, `Rounding.onGrid_eq_some` — what one grid has;
* `estimate_bounds` — the first digit;
* `exists_hit` — the last digit;
* `IsFirstHit` — what the search ends with;
* `shortest_spec` — the decimal that is found.
-/

namespace ComputedFields.Number

open Binary

variable {x : Binary}

/-- The number that a decimal stands for. -/
def Decimal.value (d : Decimal) : ℚ := d.coefficient * 10 ^ d.exponent

/-- The decimal has at most `places` digits and rounds to the double; none with fewer digits does,
and of those with as many digits none that does is nearer. -/
structure IsShortestDecimal (x : Binary) (d : Decimal) (places : ℕ) : Prop where
  lt : d.coefficient < 10 ^ places
  rounds : RoundsTo d.value x
  fewest : ∀ d' : Decimal, RoundsTo d'.value x → ∀ n, d'.coefficient < 10 ^ n → places ≤ n
  nearest : ∀ d' : Decimal, RoundsTo d'.value x → d'.coefficient < 10 ^ places →
    |d.value - x.magnitude| ≤ |d'.value - x.magnitude|

/-! ## Whole numbers for quotients -/

/-- A power with a positive exponent over one with a negative exponent, of which one is 1. -/
theorem zpow_eq_div {b : ℕ} (pos : 0 < b) (k : ℤ) :
    (b : ℚ) ^ k = (Nat.pow b k.toNat : ℕ) / (Nat.pow b (-k).toNat : ℕ) := by
  have nonzero : (b : ℚ) ≠ 0 := by exact_mod_cast pos.ne'
  show (b : ℚ) ^ k = ((b ^ k.toNat : ℕ) : ℚ) / ((b ^ (-k).toNat : ℕ) : ℚ)
  push_cast
  rw [← zpow_natCast, ← zpow_natCast, ← zpow_sub₀ nonzero]
  congr 1
  omega

namespace Rounding

theorem denominator_pos (x : Binary) : 0 < (ofBinary x).denominator := Nat.pow_pos (by decide)

theorem cast_denominator_pos (x : Binary) : (0 : ℚ) < (ofBinary x).denominator := by
  exact_mod_cast denominator_pos x

theorem cast_ten_pow_pos (n : ℕ) : (0 : ℚ) < (Nat.pow 10 n : ℕ) := by
  exact_mod_cast Nat.pow_pos (by decide)

/-- What is measured in quarters of a unit. -/
theorem quarters_div (x : Binary) (n : ℕ) :
    ((n * Nat.pow 2 (x.exponent - 2).toNat : ℕ) : ℚ) / (ofBinary x).denominator =
      n * (x.unit / 4) := by
  have quarter : x.unit / 4 = (2 : ℕ) ^ (x.exponent - 2) := by
    rw [unit, zpow_sub₀ (by norm_num)]
    norm_num
  rw [quarter, zpow_eq_div (by decide), neg_sub, Nat.cast_mul, mul_div_assoc]
  rfl

theorem value_div (x : Binary) :
    ((ofBinary x).value : ℚ) / (ofBinary x).denominator = x.magnitude := by
  show ((4 * x.mantissa * _ : ℕ) : ℚ) / _ = _
  rw [quarters_div, magnitude_eq]
  push_cast
  ring

theorem upper_div (x : Binary) :
    ((ofBinary x).upper : ℚ) / (ofBinary x).denominator = x.upperEnd := by
  show (((4 * x.mantissa + 2) * _ : ℕ) : ℚ) / _ = _
  rw [quarters_div, upperEnd, magnitude_eq]
  push_cast
  ring

theorem lower_div (pos : 0 < x.mantissa) :
    ((ofBinary x).lower : ℚ) / (ofBinary x).denominator = x.lowerEnd := by
  show (((4 * x.mantissa - if x.mantissa = 2 ^ 52 ∧ _ then 1 else 2) * _ : ℕ) : ℚ) / _ = _
  rw [quarters_div, lowerEnd, gap, magnitude_eq]
  split
  · rw [Nat.cast_sub (by omega)]
    push_cast
    ring
  · rw [Nat.cast_sub (by omega)]
    push_cast
    ring

/-- A point of a grid as a quotient. -/
theorem point_eq (c : ℕ) (k : ℤ) :
    (c : ℚ) * 10 ^ k = ((c * Nat.pow 10 k.toNat : ℕ) : ℚ) / (Nat.pow 10 (-k).toNat : ℕ) := by
  have power : (10 : ℚ) ^ k = ((10 : ℕ) : ℚ) ^ k := by norm_num
  rw [power, zpow_eq_div (by decide), Nat.cast_mul, mul_div_assoc]

/-- A point of a grid is held in the interval when it rounds to the double. -/
theorem holds_iff (h : x.Unpacked) (c : ℕ) (k : ℤ) :
    (ofBinary x).holds c k = true ↔ RoundsTo (c * 10 ^ k) x := by
  have den := cast_denominator_pos x
  have scale := cast_ten_pow_pos (-k).toNat
  have same : (if k < 0 then Nat.pow 10 k.natAbs else 1) = Nat.pow 10 (-k).toNat := by
    split
    · rw [show k.natAbs = (-k).toNat by omega]
    · rw [show (-k).toNat = 0 by omega]
  rw [h.roundsTo_iff, ← upper_div, ← lower_div h.pos, point_eq]
  simp only [div_le_div_iff₀ den scale, div_le_div_iff₀ scale den, div_lt_div_iff₀ den scale,
    div_lt_div_iff₀ scale den]
  norm_cast
  have ends : (ofBinary x).closed = (x.mantissa % 2 == 0) := rfl
  simp only [holds, same, ends, beq_iff_eq]
  split <;> rw [Bool.and_eq_true, decide_eq_true_eq, decide_eq_true_eq]

/-! ## One grid -/

theorem ten_zpow_eq (k : ℤ) :
    (10 : ℚ) ^ k = (Nat.pow 10 k.toNat : ℕ) / (Nat.pow 10 (-k).toNat : ℕ) := by
  simpa using point_eq 1 k

theorem below_iff (x : Binary) (k : ℤ) :
    (ofBinary x).below k = true ↔ x.magnitude < 10 ^ k := by
  have den := cast_denominator_pos x
  have scale := cast_ten_pow_pos (-k).toNat
  rw [ten_zpow_eq, ← value_div, div_lt_div_iff₀ den scale, below, decide_eq_true_eq,
    mul_comm (ofBinary x).denominator]
  norm_cast

/-- On the grid of multiples of `10 ^ k` the double is `c` steps and a fraction of a step. -/
structure OnGrid (x : Binary) (k : ℤ) (c : ℕ) (fraction : ℚ) : Prop where
  eq : x.magnitude = (c + fraction) * 10 ^ k
  nonneg : 0 ≤ fraction
  lt : fraction < 1

/-- A decimal of the grid that rounds to the double: it is at most the multiple above, and no other
decimal of the grid that rounds to the double is nearer. -/
structure IsHit (x : Binary) (k : ℤ) (d : Decimal) : Prop where
  exponent : d.exponent = k
  rounds : RoundsTo d.value x
  le : ((d.coefficient : ℚ) - 1) * 10 ^ k ≤ x.magnitude
  nearest : ∀ c : ℕ, RoundsTo (c * 10 ^ k) x →
    |d.value - x.magnitude| ≤ |c * 10 ^ k - x.magnitude|

theorem onGrid_division (x : Binary) (k : ℤ) :
    let n := (ofBinary x).value * Nat.pow 10 (-k).toNat
    let d := (ofBinary x).denominator * Nat.pow 10 k.toNat
    0 < d ∧ OnGrid x k (n / d) ((n % d : ℕ) / d) := by
  intro n d
  have den := cast_denominator_pos x
  have scale := cast_ten_pow_pos (-k).toNat
  have scale' := cast_ten_pow_pos k.toNat
  have pos : 0 < d := Nat.mul_pos (denominator_pos x) (Nat.pow_pos (by decide))
  have positive : (0 : ℚ) < d := by exact_mod_cast pos
  refine ⟨pos, ⟨?_, by positivity, ?_⟩⟩
  · have split : (n : ℚ) = d * (n / d : ℕ) + (n % d : ℕ) := by
      exact_mod_cast (Nat.div_add_mod n d).symm
    have whole : ((n / d : ℕ) + (n % d : ℕ) / (d : ℚ)) = n / d := by
      rw [split]
      field_simp
    have numerator : (n : ℚ) = (ofBinary x).value * (Nat.pow 10 (-k).toNat : ℕ) :=
      Nat.cast_mul ..
    have denominator : (d : ℚ) = (ofBinary x).denominator * (Nat.pow 10 k.toNat : ℕ) :=
      Nat.cast_mul ..
    rw [whole, numerator, denominator, ten_zpow_eq, ← value_div]
    field_simp
  · rw [div_lt_one positive]
    exact_mod_cast Nat.mod_lt n pos

namespace OnGrid

variable {k : ℤ} {c : ℕ} {fraction : ℚ}

theorem le (h : OnGrid x k c fraction) : c * 10 ^ k ≤ x.magnitude := by
  rw [h.eq]
  exact mul_le_mul_of_nonneg_right (by linarith [h.nonneg]) (by positivity)

theorem lt_succ (h : OnGrid x k c fraction) : x.magnitude < (c + 1 : ℕ) * 10 ^ k := by
  rw [h.eq]
  push_cast
  exact mul_lt_mul_of_pos_right (by linarith [h.lt]) (by positivity)

theorem abs_lower (h : OnGrid x k c fraction) :
    |c * 10 ^ k - x.magnitude| = fraction * 10 ^ k := by
  rw [abs_of_nonpos (by linarith [h.le]), h.eq]
  ring

theorem abs_upper (h : OnGrid x k c fraction) :
    |(c + 1 : ℕ) * 10 ^ k - x.magnitude| = (1 - fraction) * 10 ^ k := by
  rw [abs_of_pos (by linarith [h.lt_succ]), h.eq]
  push_cast
  ring

/-- The multiple below is between the double and any other one that is not above it. -/
theorem lower_nearest (h : OnGrid x k c fraction) (unpacked : x.Unpacked) {c' : ℕ} (le : c' ≤ c)
    (rounds : RoundsTo (c' * 10 ^ k) x) :
    RoundsTo (c * 10 ^ k) x ∧ |c * 10 ^ k - x.magnitude| ≤ |c' * 10 ^ k - x.magnitude| := by
  have step : (c' : ℚ) * 10 ^ k ≤ c * 10 ^ k :=
    mul_le_mul_of_nonneg_right (by exact_mod_cast le) (by positivity)
  have below := h.le
  refine ⟨rounds.of_between unpacked (.inl ⟨step, below⟩), ?_⟩
  rw [abs_of_nonpos (by linarith), abs_of_nonpos (by linarith)]
  linarith

/-- So is the multiple above for those that are not below it. -/
theorem upper_nearest (h : OnGrid x k c fraction) (unpacked : x.Unpacked) {c' : ℕ} (le : c < c')
    (rounds : RoundsTo (c' * 10 ^ k) x) : RoundsTo ((c + 1 : ℕ) * 10 ^ k) x ∧
      |(c + 1 : ℕ) * 10 ^ k - x.magnitude| ≤ |c' * 10 ^ k - x.magnitude| := by
  have step : ((c + 1 : ℕ) : ℚ) * 10 ^ k ≤ c' * 10 ^ k :=
    mul_le_mul_of_nonneg_right (by exact_mod_cast le) (by positivity)
  have above := h.lt_succ
  refine ⟨rounds.of_between unpacked (.inr ⟨above.le, step⟩), ?_⟩
  rw [abs_of_pos (by linarith), abs_of_pos (by linarith)]
  linarith

/-- The multiple below is a hit if it rounds to the double, and either the fraction is no more than
a half or the multiple above does not. -/
theorem hit_lower (h : OnGrid x k c fraction) (unpacked : x.Unpacked)
    (rounds : RoundsTo (c * 10 ^ k) x)
    (reason : fraction ≤ 1 / 2 ∨ ¬ RoundsTo ((c + 1 : ℕ) * 10 ^ k) x) : IsHit x k ⟨c, k⟩ := by
  have step : (0 : ℚ) < 10 ^ k := by positivity
  have le := h.le
  refine ⟨rfl, rounds, by show ((c : ℚ) - 1) * 10 ^ k ≤ _; linarith, fun c' rounds' => ?_⟩
  show |c * 10 ^ k - x.magnitude| ≤ |c' * 10 ^ k - x.magnitude|
  rcases Nat.lt_or_ge c c' with lt | ge
  · obtain ⟨upper, nearer⟩ := h.upper_nearest unpacked lt rounds'
    have half := reason.resolve_right (not_not.mpr upper)
    refine le_trans ?_ nearer
    rw [h.abs_lower, h.abs_upper]
    exact mul_le_mul_of_nonneg_right (by linarith) step.le
  · exact (h.lower_nearest unpacked ge rounds').2

theorem hit_upper (h : OnGrid x k c fraction) (unpacked : x.Unpacked)
    (rounds : RoundsTo ((c + 1 : ℕ) * 10 ^ k) x)
    (reason : 1 / 2 ≤ fraction ∨ ¬ RoundsTo (c * 10 ^ k) x) : IsHit x k ⟨c + 1, k⟩ := by
  have step : (0 : ℚ) < 10 ^ k := by positivity
  have le := h.le
  refine ⟨rfl, rounds, ?_, fun c' rounds' => ?_⟩
  · show (((c + 1 : ℕ) : ℚ) - 1) * 10 ^ k ≤ _
    push_cast
    linarith
  show |(c + 1 : ℕ) * 10 ^ k - x.magnitude| ≤ |c' * 10 ^ k - x.magnitude|
  rcases Nat.lt_or_ge c c' with lt | ge
  · exact (h.upper_nearest unpacked lt rounds').2
  · obtain ⟨lower, nearer⟩ := h.lower_nearest unpacked ge rounds'
    have half := reason.resolve_right (not_not.mpr lower)
    refine le_trans ?_ nearer
    rw [h.abs_lower, h.abs_upper]
    exact mul_le_mul_of_nonneg_right (by linarith) step.le

end OnGrid

/-- A grid with no hit has no point that rounds to the double. -/
theorem onGrid_eq_none (h : x.Unpacked) {k : ℤ} (none : (ofBinary x).onGrid k = none) (c : ℕ) :
    ¬ RoundsTo (c * 10 ^ k) x := by
  intro rounds
  obtain ⟨-, grid⟩ := onGrid_division x k
  simp only [onGrid] at none
  split at none
  · next lower upper =>
    rw [Bool.eq_false_iff, ne_eq, holds_iff h] at lower upper
    rcases Nat.lt_or_ge ((ofBinary x).value * Nat.pow 10 (-k).toNat /
      ((ofBinary x).denominator * Nat.pow 10 k.toNat)) c with lt | ge
    · exact upper (grid.upper_nearest h lt rounds).1
    · exact lower (grid.lower_nearest h ge rounds).1
  · cases none
  · cases none
  · split at none <;> cases none

theorem onGrid_eq_some (h : x.Unpacked) {k : ℤ} {d : Decimal}
    (some : (ofBinary x).onGrid k = some d) : IsHit x k d := by
  obtain ⟨pos, grid⟩ := onGrid_division x k
  simp only [onGrid] at some
  generalize (ofBinary x).value * Nat.pow 10 (-k).toNat = n at some grid
  generalize (ofBinary x).denominator * Nat.pow 10 k.toNat = m at some grid pos
  have positive : (0 : ℚ) < m := by exact_mod_cast pos
  split at some
  · cases some
  · next first second =>
    cases some
    rw [holds_iff h] at first
    rw [Bool.eq_false_iff, ne_eq, holds_iff h] at second
    exact grid.hit_lower h first (.inr second)
  · next first second =>
    cases some
    rw [Bool.eq_false_iff, ne_eq, holds_iff h] at first
    rw [holds_iff h] at second
    exact grid.hit_upper h second (.inr first)
  · next first second =>
    rw [holds_iff h] at first second
    split at some
    · next nearer =>
      cases some
      have half : 2 * (n % m) ≤ m := by grind
      refine grid.hit_lower h first (.inl ?_)
      rw [div_le_iff₀ positive]
      have : (2 : ℚ) * (n % m : ℕ) ≤ m := by exact_mod_cast half
      linarith
    · next nearer =>
      cases some
      have half : m ≤ 2 * (n % m) := by grind
      refine grid.hit_upper h second (.inl ?_)
      rw [le_div_iff₀ positive]
      have : (m : ℚ) ≤ 2 * (n % m : ℕ) := by exact_mod_cast half
      linarith

/-! ## The first grid with a hit -/

/-- Of the grids that are tried, the first one with a hit gives the decimal. -/
theorem search_spec (r : Rounding) (n : ℕ) (k : ℤ) (hit : ∃ i < n, r.onGrid (k - i) ≠ none) :
    ∃ j < n, (∀ i < j, r.onGrid (k - i) = none) ∧ r.onGrid (k - j) = some (r.search n k) := by
  induction n generalizing k with
  | zero =>
    obtain ⟨i, lt, -⟩ := hit
    exact absurd lt (Nat.not_lt_zero i)
  | succ n ih =>
    rw [search]
    cases first : r.onGrid k with
    | some d => exact ⟨0, Nat.succ_pos n, nofun, by simpa using first⟩
    | none =>
      have later : ∃ i < n, r.onGrid (k - 1 - i) ≠ none := by
        obtain ⟨i, lt, isHit⟩ := hit
        cases i with
        | zero => exact absurd (by simpa using first) isHit
        | succ i =>
          refine ⟨i, Nat.lt_of_succ_lt_succ lt, ?_⟩
          rwa [Int.sub_sub, Int.add_comm]
      obtain ⟨j, lt, none, some⟩ := ih (k - 1) later
      refine ⟨j + 1, Nat.succ_lt_succ lt, fun i before => ?_, ?_⟩
      · cases i with
        | zero => simpa using first
        | succ i =>
          have := none i (Nat.lt_of_succ_lt_succ before)
          rwa [Int.sub_sub, Int.add_comm] at this
      · rw [Int.sub_sub, Int.add_comm] at some
        exact some

/-- The power of ten that is found is the greatest one that is not above the double. -/
theorem leading_spec (x : Binary) (n : ℕ) (k : ℤ) (lower : 10 ^ (k - n) ≤ x.magnitude)
    (upper : x.magnitude < 10 ^ (k + 1)) :
    10 ^ (ofBinary x).leading n k ≤ x.magnitude ∧
      x.magnitude < 10 ^ ((ofBinary x).leading n k + 1) := by
  induction n generalizing k with
  | zero =>
    rw [Nat.cast_zero, sub_zero] at lower
    exact ⟨lower, upper⟩
  | succ n ih =>
    rw [leading]
    split
    · next below =>
      refine ih (k - 1) ?_ ?_
      · rwa [Int.sub_sub, Int.add_comm]
      · rw [Int.sub_add_cancel]
        exact (below_iff x k).mp below
    · next notBelow =>
      rw [below_iff, not_lt] at notBelow
      exact ⟨notBelow, upper⟩

/-! ## The first digit -/

theorem two_pow_le_ten_pow {a b : ℕ} (h : 28 * a ≤ 93 * b) : 2 ^ a ≤ 10 ^ b := by
  rw [← Nat.pow_le_pow_iff_left (show 93 ≠ 0 by decide)]
  calc (2 ^ a) ^ 93 = (2 ^ 93) ^ a := by rw [← pow_mul, ← pow_mul, mul_comm]
    _ ≤ (10 ^ 28) ^ a := Nat.pow_le_pow_left (by norm_num) a
    _ = 10 ^ (28 * a) := (pow_mul ..).symm
    _ ≤ 10 ^ (93 * b) := Nat.pow_le_pow_right (by decide) h
    _ = (10 ^ b) ^ 93 := by rw [← pow_mul, mul_comm]

theorem ten_pow_le_two_pow {a b : ℕ} (h : 196 * b ≤ 59 * a) : 10 ^ b ≤ 2 ^ a := by
  rw [← Nat.pow_le_pow_iff_left (show 196 ≠ 0 by decide)]
  calc (10 ^ b) ^ 196 = 10 ^ (196 * b) := by rw [← pow_mul, mul_comm]
    _ ≤ 10 ^ (59 * a) := Nat.pow_le_pow_right (by decide) h
    _ = (10 ^ 59) ^ a := pow_mul ..
    _ ≤ (2 ^ 196) ^ a := Nat.pow_le_pow_left (by norm_num) a
    _ = (2 ^ a) ^ 196 := by rw [← pow_mul, ← pow_mul, mul_comm]

/-- Powers of two below powers of ten: the decimal logarithm of 2 is a little less than 28 / 93, and
a little more than 59 / 196. -/
theorem two_zpow_le_ten_zpow {a b : ℤ} (h : 28 * a ≤ 93 * b) (h' : 59 * a ≤ 196 * b) :
    (2 : ℚ) ^ a ≤ 10 ^ b := by
  rcases le_or_gt 0 a with nonneg | neg
  · lift a to ℕ using nonneg
    lift b to ℕ using by omega
    rw [zpow_natCast, zpow_natCast]
    exact_mod_cast two_pow_le_ten_pow (by omega)
  · rcases le_or_gt 0 b with nonneg | negative
    · exact (zpow_le_one_of_nonpos₀ one_le_two neg.le).trans (one_le_zpow₀ (by norm_num) nonneg)
    · obtain ⟨m, rfl⟩ : ∃ m : ℕ, a = -m := ⟨a.natAbs, by omega⟩
      obtain ⟨n, rfl⟩ : ∃ n : ℕ, b = -n := ⟨b.natAbs, by omega⟩
      rw [zpow_neg, zpow_neg, zpow_natCast, zpow_natCast]
      refine inv_anti₀ (by positivity) ?_
      exact_mod_cast ten_pow_le_two_pow (by omega)

end Rounding

section

variable {x : Binary}

/-- The binary logarithm of a double. -/
theorem magnitude_bounds (h : x.Unpacked) :
    (2 : ℚ) ^ ((x.mantissa.log2 : ℤ) + x.exponent) ≤ x.magnitude ∧
      x.magnitude < 2 ^ ((x.mantissa.log2 : ℤ) + 1 + x.exponent) := by
  have lower : ((2 ^ x.mantissa.log2 : ℕ) : ℚ) ≤ x.mantissa := by
    exact_mod_cast Nat.log2_self_le h.pos.ne'
  have upper : (x.mantissa : ℚ) < (2 ^ (x.mantissa.log2 + 1) : ℕ) := by
    exact_mod_cast Nat.lt_log2_self
  push_cast at lower upper
  have unit : (0 : ℚ) < 2 ^ x.exponent := x.unit_pos
  constructor
  · rw [zpow_add₀ two_ne_zero, zpow_natCast]
    exact mul_le_mul_of_nonneg_right lower unit.le
  · rw [zpow_add₀ two_ne_zero, ← Nat.cast_succ, zpow_natCast]
    exact mul_lt_mul_of_pos_right upper unit

/-- From the binary logarithm the place of the first digit is known to within five places. -/
theorem estimate_bounds (h : x.Unpacked) (most : x.exponent ≤ 972) :
    let estimate := ((Nat.log2 x.mantissa : Int) + 1 + x.exponent) * 30103 / 100000 + 1
    (10 : ℚ) ^ (estimate - (5 : ℕ)) ≤ x.magnitude ∧ x.magnitude < 10 ^ (estimate + 1) := by
  intro estimate
  obtain ⟨lower, upper⟩ := magnitude_bounds h
  have digits : x.mantissa.log2 < 53 := (Nat.log2_lt h.pos.ne').mpr h.fits.1
  have least := h.fits.2
  constructor
  · refine le_trans ?_ lower
    rw [← inv_le_inv₀ (by positivity) (by positivity), ← zpow_neg, ← zpow_neg]
    exact Rounding.two_zpow_le_ten_zpow (by omega) (by omega)
  · refine lt_of_lt_of_le upper ?_
    exact Rounding.two_zpow_le_ten_zpow (by omega) (by omega)

/-- Seventeen places behind the first digit a step of the grid is less than half a unit of the
mantissa, so that the multiple above the double rounds to it. -/
theorem exists_hit (h : x.Unpacked) {k : ℤ} (first : 10 ^ k ≤ x.magnitude) :
    (Rounding.ofBinary x).onGrid (k - (17 : ℕ)) ≠ none := by
  intro none
  obtain ⟨-, grid⟩ := Rounding.onGrid_division x (k - (17 : ℕ))
  have gap := x.gap_pos
  have unit := x.unit_pos
  have step : (10 : ℚ) ^ (k - (17 : ℕ)) < x.unit / 2 := by
    have short : (x.mantissa : ℚ) < 2 ^ 53 := by exact_mod_cast h.fits.1
    have less : x.magnitude < 2 ^ 53 * x.unit := mul_lt_mul_of_pos_right short unit
    rw [zpow_sub₀ (by norm_num), zpow_natCast, div_lt_iff₀ (by positivity)]
    linarith
  have above := grid.lt_succ
  have near := grid.le
  refine Rounding.onGrid_eq_none h none _ (h.roundsTo_of_inside (lt_trans ?_ above) ?_)
  · unfold lowerEnd
    linarith
  · unfold upperEnd
    push_cast
    linarith

/-! ## Trailing zeros -/

theorem Decimal.value_div_ten {d : Decimal} (zero : d.coefficient % 10 = 0) :
    value ⟨d.coefficient / 10, d.exponent + 1⟩ = d.value := by
  have tenfold : ((d.coefficient / 10 : ℕ) : ℚ) * 10 = d.coefficient := by
    exact_mod_cast Nat.div_mul_cancel (Nat.dvd_of_mod_eq_zero zero)
  rw [value, value, zpow_add_one₀ (by norm_num), ← tenfold]
  ring

theorem Decimal.value_strip (n : ℕ) (d : Decimal) : (strip n d).value = d.value := by
  induction n generalizing d with
  | zero => rfl
  | succ n ih =>
    rw [strip]
    split
    · next zeros => rw [ih, value_div_ten zeros.2]
    · rfl

theorem Decimal.strip_coefficient_le (n : ℕ) (d : Decimal) :
    (strip n d).coefficient ≤ d.coefficient := by
  induction n generalizing d with
  | zero => exact Nat.le_refl _
  | succ n ih =>
    rw [strip]
    split
    · exact (ih _).trans (Nat.div_le_self ..)
    · exact Nat.le_refl _

/-- A power of ten loses its zeros, so that it has no more digits than the numbers below it. -/
theorem Decimal.strip_coefficient_lt {n places : ℕ} {d : Decimal} (le : d.coefficient ≤ 10 ^ places)
    (pos : 0 < places) : (strip (n + 1) d).coefficient < 10 ^ places := by
  rcases le.lt_or_eq with lt | power
  · exact (strip_coefficient_le _ d).trans_lt lt
  · have nonzero : d.coefficient ≠ 0 := by
      rw [power]
      exact (Nat.pow_pos (by decide)).ne'
    have zeros : d.coefficient % 10 = 0 := by
      rw [power]
      exact Nat.mod_eq_zero_of_dvd (dvd_pow_self 10 pos.ne')
    rw [strip, if_pos ⟨nonzero, zeros⟩]
    refine (strip_coefficient_le _ _).trans_lt ?_
    show d.coefficient / 10 < _
    omega

/-! ## The shortest decimal -/

theorem not_roundsTo_zero (h : x.Unpacked) : ¬ RoundsTo 0 x := by
  intro rounds
  obtain ⟨⟨lower, -⟩, -⟩ := rounds.within h
  have unit := x.unit_pos
  have gap := x.gap_le
  have whole : (1 : ℚ) ≤ x.mantissa := by exact_mod_cast h.pos
  have large : 1 * x.unit ≤ x.magnitude := mul_le_mul_of_nonneg_right whole unit.le
  unfold lowerEnd at lower
  linarith

theorem IsShortestDecimal.coefficient_ne_zero {d : Decimal} {places : ℕ}
    (shortest : IsShortestDecimal x d places) (h : x.Unpacked) : d.coefficient ≠ 0 := by
  intro zero
  have rounds := shortest.rounds
  rw [Decimal.value, zero, Nat.cast_zero, zero_mul] at rounds
  exact not_roundsTo_zero h rounds

/-- The shortest decimal does not end with a zero, without which it is shorter. -/
theorem IsShortestDecimal.coefficient_mod_ten {d : Decimal} {places : ℕ}
    (shortest : IsShortestDecimal x d places) (h : x.Unpacked) : d.coefficient % 10 ≠ 0 := by
  intro zero
  have nonzero := shortest.coefficient_ne_zero h
  have lt := shortest.lt
  have rounds := shortest.rounds
  rw [← Decimal.value_div_ten zero] at rounds
  cases places with
  | zero => exact nonzero (Nat.lt_one_iff.mp lt)
  | succ n =>
    rw [Nat.pow_succ] at lt
    have fewer : d.coefficient / 10 < 10 ^ n := by omega
    have := shortest.fewest _ rounds n fewer
    omega

/-- A decimal of `n + 1` digits is on the grid that is `n` places behind the power of ten, or it is
below that power. -/
theorem Decimal.onGrid_or_lt {d : Decimal} {n : ℕ} (lt : d.coefficient < 10 ^ (n + 1)) (k : ℤ) :
    (∃ c : ℕ, d.value = c * 10 ^ (k - n)) ∨ d.value < 10 ^ k := by
  rcases le_or_gt (k - n) d.exponent with coarse | fine
  · obtain ⟨m, hm⟩ := Int.exists_add_of_le coarse
    refine .inl ⟨d.coefficient * 10 ^ m, ?_⟩
    rw [value, hm, zpow_add₀ (by norm_num), zpow_natCast]
    push_cast
    ring
  · right
    have digits : (d.coefficient : ℚ) < 10 ^ (n + 1) := by exact_mod_cast lt
    calc d.value < 10 ^ (n + 1) * 10 ^ d.exponent :=
          mul_lt_mul_of_pos_right digits (by positivity)
      _ = 10 ^ ((n + 1 : ℕ) + d.exponent) := by rw [zpow_add₀ (by norm_num), zpow_natCast]
      _ ≤ 10 ^ k := zpow_le_zpow_right₀ (by norm_num) (by push_cast; omega)

/-- The power of ten of the first digit is on all grids. -/
theorem ten_zpow_eq_mul (k : ℤ) (n : ℕ) : (10 : ℚ) ^ k = (10 ^ n : ℕ) * 10 ^ (k - n) := by
  rw [Nat.cast_pow, ← zpow_natCast, Nat.cast_ofNat, ← zpow_add₀ (by norm_num)]
  congr 1
  omega

/-- The first digit of the double is that of `10 ^ k`, and `j` places behind it is the first grid on
which a decimal rounds to the double. -/
structure IsFirstHit (x : Binary) (k : ℤ) (j : ℕ) (d : Decimal) : Prop where
  le : 10 ^ k ≤ x.magnitude
  lt : x.magnitude < 10 ^ (k + 1)
  none : ∀ i < j, ∀ c : ℕ, ¬ RoundsTo (c * 10 ^ (k - i)) x
  hit : Rounding.IsHit x (k - j) d

namespace IsFirstHit

variable {k : ℤ} {j : ℕ} {d d' : Decimal}

/-- The hit is no more than a step above the double, which has `j + 1` digits on its grid. -/
theorem coefficient_le (h : IsFirstHit x k j d) : d.coefficient ≤ 10 ^ (j + 1) := by
  have below : ((d.coefficient : ℚ) - 1) * 10 ^ (k - j) < 10 ^ (j + 1) * 10 ^ (k - j) := by
    refine lt_of_le_of_lt h.hit.le (lt_of_lt_of_eq h.lt ?_)
    rw [zpow_add_one₀ (by norm_num), ten_zpow_eq_mul k j]
    push_cast
    ring
  have less := lt_of_mul_lt_mul_right below (by positivity)
  have less : (d.coefficient : ℚ) < (10 ^ (j + 1) + 1 : ℕ) := by
    push_cast
    linarith
  exact Nat.le_of_lt_succ (by exact_mod_cast less)

/-- A decimal below the power of ten of the first digit is farther from the double than that, which
therefore rounds to it as well. -/
theorem roundsTo_first (h : IsFirstHit x k j d) (unpacked : x.Unpacked)
    (rounds : RoundsTo d'.value x) (small : d'.value < 10 ^ k) : RoundsTo (10 ^ k) x :=
  rounds.of_between unpacked (.inl ⟨small.le, h.le⟩)

/-- With fewer digits a decimal is on a grid before, or else the power of ten is. -/
theorem fewest (h : IsFirstHit x k j d) (unpacked : x.Unpacked) (rounds : RoundsTo d'.value x)
    (n : ℕ) (digits : d'.coefficient < 10 ^ n) : j + 1 ≤ n := by
  by_contra fewer
  cases n with
  | zero =>
    have zero : d'.value = 0 := by
      rw [Decimal.value, Nat.lt_one_iff.mp digits, Nat.cast_zero, zero_mul]
    exact not_roundsTo_zero unpacked (zero ▸ rounds)
  | succ n =>
    rcases Decimal.onGrid_or_lt digits k with ⟨c, multiple⟩ | small
    · rw [multiple] at rounds
      exact h.none n (by omega) c rounds
    · have rounds := h.roundsTo_first unpacked rounds small
      rw [ten_zpow_eq_mul k 0] at rounds
      exact h.none 0 (by omega) _ rounds

/-- With as many digits a decimal is on the grid of the hit, or else the power of ten is, which is
nearer. -/
theorem nearest (h : IsFirstHit x k j d) (unpacked : x.Unpacked) (rounds : RoundsTo d'.value x)
    (digits : d'.coefficient < 10 ^ (j + 1)) :
    |d.value - x.magnitude| ≤ |d'.value - x.magnitude| := by
  rcases Decimal.onGrid_or_lt digits k with ⟨c, multiple⟩ | small
  · rw [multiple] at rounds ⊢
    exact h.hit.nearest c rounds
  · have first := h.le
    have rounds := h.roundsTo_first unpacked rounds small
    rw [ten_zpow_eq_mul k j] at rounds
    refine (h.hit.nearest _ rounds).trans ?_
    rw [← ten_zpow_eq_mul k j, abs_of_nonpos (by linarith), abs_of_nonpos (by linarith)]
    linarith

end IsFirstHit

/-- From the first digit on, a hit is found. -/
theorem search_isFirstHit (h : x.Unpacked) {k : ℤ} (le : 10 ^ k ≤ x.magnitude)
    (lt : x.magnitude < 10 ^ (k + 1)) :
    ∃ j, IsFirstHit x k j ((Rounding.ofBinary x).search 18 k) := by
  obtain ⟨j, -, none, some⟩ := Rounding.search_spec (Rounding.ofBinary x) 18 k
    ⟨17, by decide, exists_hit h le⟩
  exact ⟨j, le, lt, fun i before => Rounding.onGrid_eq_none h (none i before),
    Rounding.onGrid_eq_some h some⟩

/-- The decimal that is found is the shortest one, and as many places behind the first digit as it
has digits after it is the first grid with a hit. -/
theorem shortest_spec (h : x.Unpacked) (most : x.exponent ≤ 972) :
    ∃ places, IsShortestDecimal x (shortest x) places := by
  obtain ⟨lower, upper⟩ := estimate_bounds h most
  obtain ⟨le, lt⟩ := Rounding.leading_spec x 5 _ lower upper
  obtain ⟨j, first⟩ := search_isFirstHit h le lt
  refine ⟨j + 1, Decimal.strip_coefficient_lt first.coefficient_le (Nat.succ_pos j), ?_,
    fun _ => first.fewest h, fun d' rounds digits => ?_⟩
  · rw [shortest, Decimal.value_strip]
    exact first.hit.rounds
  · rw [shortest, Decimal.value_strip]
    exact first.nearest h rounds digits

end

end ComputedFields.Number
