import ComputedFields.Proofs.Doubles

/-!
# `ComputedFields.Proofs.WholeDoubles` — whole numbers as doubles

All whole numbers below `2 ^ 53` are doubles. Those above are rounded, but never to less than
`2 ^ 53`, and neither a whole factor nor the loss of a fraction brings them back below. So a double
that stands for a whole number (`StandsFor`) is this number, or both are far above every limit that
the engine has for doubles.

* `Whole`, `Vast` — the two kinds of unpacked doubles;
* `IsWhole`, `IsVast`, `StandsFor` — the same of doubles;
* `standsFor_ofInt` — the double nearest to a whole number stands for it;
* `StandsFor.mul`, `StandsFor.truncated`, `StandsFor.of_beq` — what keeps it so;
* `StandsFor.within_iff` — limits on the double are limits on the number;
* `IsWhole.truncate`, `IsWhole.roundHalfAway` — and the number is read off it.
-/

namespace ComputedFields.Number

open Float.Model UnpackedFloat

/-! ## Whole and vast doubles, unpacked -/

/-- The unpacked double is the whole number `± n` with `n < 2 ^ 53`. -/
inductive Whole : UnpackedFloat → Int → Prop
  | zero (s : Sign) : Whole (.zero s) 0
  | finite (s : Sign) {n k m : Nat} {e : Int} {pos : 0 < m} : m = n * 2 ^ k → e = -(k : Int) →
    2 ^ 52 ≤ m → m < 2 ^ 53 → Whole (.finite s m e pos) (s.apply n)

/-- The magnitude of the unpacked double is `2 ^ 53` or more, or it is infinite. -/
inductive Vast : UnpackedFloat → Prop
  | infinity (s : Sign) : Vast (.infinity s)
  | finite (s : Sign) {m : Nat} {e : Int} {pos : 0 < m} : 2 ^ 52 ≤ m → m < 2 ^ 53 → 1 ≤ e →
    Vast (.finite s m e pos)

theorem apply_mul (s s' : Sign) (a b : Int) : (s * s').apply (a * b) = s.apply a * s'.apply b := by
  cases s <;> cases s'
  · exact (Int.neg_mul_neg a b).symm
  · exact (Int.neg_mul a b).symm
  · exact (Int.mul_neg a b).symm
  · rfl

theorem natAbs_apply (s : Sign) (n : Nat) : (s.apply n).natAbs = n := by
  cases s
  · exact (Int.natAbs_neg n).trans (Int.natAbs_natCast n)
  · exact Int.natAbs_natCast n

theorem pow_le_of_whole {n k m : Nat} (h : m = n * 2 ^ k) (upper : m < 2 ^ 53) (pos : 0 < m) :
    0 < n ∧ k ≤ 52 := by
  have positive : 0 < n := by
    rcases Nat.eq_zero_or_pos n with rfl | positive
    · omega
    · exact positive
  have le : 2 ^ k ≤ n * 2 ^ k := Nat.le_mul_of_pos_left _ positive
  have lt : 2 ^ k < 2 ^ 53 := by omega
  have := (Nat.pow_lt_pow_iff_right (by decide : 1 < 2)).mp lt
  exact ⟨positive, by omega⟩

/-- A number of at most 53 digits, with so many zeros after them that it has 53, is cut to 53. -/
theorem roundWithAccuracy_zeros (s : Sign) {n k : Nat} {e : Int} (pos : 0 < n) (lt : n < 2 ^ 53)
    (long : 2 ^ 52 ≤ n * 2 ^ k) (least : -1022 ≤ e + k) :
    ∃ j, n.log2 + j = 52 ∧ j ≤ k ∧ ∃ lower : 2 ^ 52 ≤ n * 2 ^ j, n * 2 ^ j < 2 ^ 53 ∧
      roundWithAccuracy Format.binary64 s (n * 2 ^ k) e .exact =
        .finite s (n * 2 ^ j) (e + (k - j : Nat))
          (Nat.lt_of_lt_of_le (Nat.two_pow_pos 52) lower) := by
  have digits : n.log2 ≤ 52 := by
    have := (Nat.log2_lt pos.ne').mpr lt
    omega
  obtain ⟨j, hj⟩ : ∃ j, n.log2 + j = 52 := ⟨52 - n.log2, by omega⟩
  have lower : 2 ^ 52 ≤ n * 2 ^ j := by
    rw [← hj, Nat.pow_add]
    exact Nat.mul_le_mul_right _ (Nat.log2_self_le pos.ne')
  have upper : n * 2 ^ j < 2 ^ 53 := by
    rw [show 53 = n.log2 + 1 + j by omega, Nat.pow_add]
    exact Nat.mul_lt_mul_of_pos_right Nat.lt_log2_self (Nat.two_pow_pos j)
  have le : j ≤ k := by
    by_contra less
    have : n * 2 ^ (k + 1) ≤ n * 2 ^ j :=
      Nat.mul_le_mul_left n (Nat.pow_le_pow_right (by decide) (by omega))
    rw [Nat.pow_succ, ← Nat.mul_assoc] at this
    omega
  have zeros : n * 2 ^ k = n * 2 ^ j * 2 ^ (k - j) := by
    rw [Nat.mul_assoc, ← Nat.pow_add, Nat.add_sub_cancel' le]
  refine ⟨j, hj, le, lower, upper, ?_⟩
  rw [zeros]
  exact roundWithAccuracy_exact s lower upper (by omega)

namespace Whole

variable {u v : UnpackedFloat} {a b : Int}

theorem lt (h : Whole u a) : a.natAbs < 2 ^ 53 := by
  cases h with
  | zero => norm_num
  | @finite s n k m e pos same _ _ upper =>
    rw [natAbs_apply]
    have := Nat.le_mul_of_pos_right n (Nat.two_pow_pos k)
    omega

theorem unpack_pack (h : Whole u a) : (Float.Model.pack u).unpack = u := by
  cases h with
  | zero s => exact unpack_pack_zero s
  | finite s same exponent lower upper =>
    have := pow_le_of_whole same upper ‹_›
    exact unpack_pack_finite s lower upper (by omega) (by omega)

theorem neg (h : Whole u a) : Whole u.neg (-a) := by
  cases h with
  | zero s => exact .zero _
  | @finite s n _ _ _ _ same exponent lower upper =>
    have turned : -(s.apply n) = (-s).apply n := by
      cases s
      · exact Int.neg_neg _
      · rfl
    rw [turned]
    exact .finite (-s) same exponent lower upper

theorem abs (h : Whole u a) : Whole u.abs a.natAbs := by
  cases h with
  | zero s => exact .zero _
  | @finite s n _ _ _ _ same exponent lower upper =>
    rw [natAbs_apply]
    exact .finite .positive same exponent lower upper

/-- A whole number with enough digits is not rounded. -/
theorem round (s : Sign) {n k : Nat} (pos : 0 < n) (lt : n < 2 ^ 53) (long : 2 ^ 52 ≤ n * 2 ^ k) :
    Whole (roundWithAccuracy Format.binary64 s (n * 2 ^ k) (-(k : Int)) .exact) (s.apply n) := by
  obtain ⟨j, -, le, lower, upper, rounded⟩ :=
    roundWithAccuracy_zeros s (e := -(k : Int)) pos lt long (by omega)
  rw [rounded]
  exact .finite s rfl (by omega) lower upper

/-- A whole number is not rounded, however many zeros are written after its point. -/
theorem round_zeros (s : Sign) {n : Nat} (pos : 0 < n) (lt : n < 2 ^ 53) (k : Nat) :
    Whole (UnpackedFloat.round Format.binary64 s (n * 2 ^ k) (-(k : Int))) (s.apply n) := by
  have digits : n.log2 ≤ 52 := by
    have := (Nat.log2_lt pos.ne').mpr lt
    omega
  obtain ⟨j, hj⟩ : ∃ j, n.log2 + j = 52 := ⟨52 - n.log2, by omega⟩
  have longer : (n * 2 ^ k).log2 = n.log2 + k := by
    have nonzero : n * 2 ^ k ≠ 0 := Nat.mul_ne_zero pos.ne' (Nat.two_pow_pos k).ne'
    rw [Nat.log2_eq_iff nonzero, Nat.add_right_comm, Nat.pow_add, Nat.pow_add]
    exact ⟨Nat.mul_le_mul_right _ (Nat.log2_self_le pos.ne'),
      Nat.mul_lt_mul_of_pos_right Nat.lt_log2_self (Nat.two_pow_pos k)⟩
  have target : Format.binary64.targetExponent (totalExponent (n * 2 ^ k) (-(k : Int))) =
      -(j : Int) := by
    rw [targetExponent_eq, longer]
    omega
  have amount : (-(k : Int) - -(j : Int)).toNat = j - k := by omega
  have zeros : n * 2 ^ k * 2 ^ (j - k) = n * 2 ^ (k + (j - k)) := by
    rw [Nat.mul_assoc, ← Nat.pow_add]
  have exponent : -(k : Int) - (j - k : Nat) = -((k + (j - k) : Nat) : Int) := by omega
  have lengthened : UnpackedFloat.round Format.binary64 s (n * 2 ^ k) (-(k : Int)) =
      roundWithAccuracy Format.binary64 s (n * 2 ^ (k + (j - k))) (-((k + (j - k) : Nat) : Int))
        .exact := by
    unfold UnpackedFloat.round
    simp only [target, decreaseExponent, amount, Nat.shiftLeft_eq, zeros, exponent]
  rw [lengthened]
  refine round s pos lt ?_
  have least : n * 2 ^ j ≤ n * 2 ^ (k + (j - k)) :=
    Nat.mul_le_mul_left n (Nat.pow_le_pow_right (by decide) (by omega))
  refine least.trans' ?_
  rw [← hj, Nat.pow_add]
  exact Nat.mul_le_mul_right _ (Nat.log2_self_le pos.ne')

theorem normalize {n : Int} (lt : n.natAbs < 2 ^ 53) (k : Nat) :
    Whole (UnpackedFloat.normalize Format.binary64 (n * 2 ^ k) (-(k : Int)) .positive) n := by
  have pos : (0 : Int) < 2 ^ k := Int.pow_pos (by decide)
  unfold UnpackedFloat.normalize
  rcases lt_trichotomy n 0 with negative | rfl | positive
  · obtain ⟨m, rfl⟩ : ∃ m : Nat, n = -m := ⟨n.natAbs, by omega⟩
    have magnitude : (-(-(m : Int) * 2 ^ k)).toNat = m * 2 ^ k := by
      rw [Int.neg_mul, Int.neg_neg]
      exact Int.toNat_natCast (m * 2 ^ k)
    rw [compare_lt_iff_lt.mpr (Int.mul_neg_of_neg_of_pos negative pos)]
    show Whole (UnpackedFloat.round Format.binary64 .negative (-(-(m : Int) * 2 ^ k)).toNat _) _
    rw [magnitude]
    exact round_zeros .negative (by omega) (by omega) k
  · rw [Int.zero_mul, compare_eq_iff_eq.mpr rfl]
    exact .zero .positive
  · obtain ⟨m, rfl⟩ := Int.eq_ofNat_of_zero_le positive.le
    have magnitude : ((m : Int) * 2 ^ k).toNat = m * 2 ^ k := Int.toNat_natCast (m * 2 ^ k)
    rw [compare_gt_iff_gt.mpr (Int.mul_pos positive pos)]
    show Whole (UnpackedFloat.round Format.binary64 .positive ((m : Int) * 2 ^ k).toNat _) _
    rw [magnitude]
    exact round_zeros .positive (by omega) (by omega) k

theorem mul (left : Whole u a) (right : Whole v b) (small : (a * b).natAbs < 2 ^ 53) :
    Whole (UnpackedFloat.mul Format.binary64 u v) (a * b) := by
  cases left with
  | zero s =>
    rw [Int.zero_mul]
    cases right <;> exact .zero _
  | @finite s n k m e pos same exponent lower upper =>
    cases right with
    | zero s' =>
      rw [Int.mul_zero]
      exact .zero _
    | @finite s' n' k' m' e' pos' same' exponent' lower' upper' =>
      have positive := Nat.mul_pos (pow_le_of_whole same upper pos).1
        (pow_le_of_whole same' upper' pos').1
      have product : m * m' = n * n' * 2 ^ (k + k') := by
        rw [same, same', Nat.pow_add, Nat.mul_mul_mul_comm]
      have long : 2 ^ 52 ≤ m * m' := lower.trans (Nat.le_mul_of_pos_right m pos')
      rw [Int.natAbs_mul, natAbs_apply, natAbs_apply] at small
      rw [product] at long
      show Whole (roundWithAccuracy Format.binary64 (s * s') (m * m') (e + e') .exact) _
      rw [← apply_mul, ← Int.natCast_mul, product,
        show e + e' = -((k + k' : Nat) : Int) by omega]
      exact round _ positive small long

end Whole

namespace Vast

variable {u v : UnpackedFloat} {a b : Int}

theorem unpack_pack (h : Vast u) : Vast (Float.Model.pack u).unpack := by
  cases h with
  | infinity s =>
    rw [unpack_pack_infinity]
    exact .infinity s
  | @finite s m e _ lower upper least =>
    by_cases most : e ≤ 971
    · rw [unpack_pack_finite s lower upper (by omega) most]
      exact .finite s lower upper least
    · rw [unpack_pack_overflow s (by omega)]
      exact .infinity s

theorem neg (h : Vast u) : Vast u.neg := by
  cases h with
  | infinity s => exact .infinity _
  | finite s lower upper least => exact .finite _ lower upper least

theorem round (s : Sign) {m d : Nat} {e : Int} (large : 2 ^ d ≤ m) (long : 52 ≤ d)
    (vast : 53 ≤ d + e) : Vast (roundWithAccuracy Format.binary64 s m e .exact) := by
  obtain ⟨m', e', pos, rounded, lower, upper, least⟩ := roundWithAccuracy_vast s large long vast
  rw [rounded]
  exact .finite s lower upper least

/-- Whole numbers whose product is too large for a whole double. -/
theorem of_mul (left : Whole u a) (right : Whole v b) (large : 2 ^ 53 ≤ (a * b).natAbs) :
    Vast (UnpackedFloat.mul Format.binary64 u v) := by
  cases left with
  | zero s =>
    rw [Int.zero_mul] at large
    norm_num at large
  | @finite s n k m e pos same exponent lower upper =>
    cases right with
    | zero s' =>
      rw [Int.mul_zero] at large
      norm_num at large
    | @finite s' n' k' m' e' pos' same' exponent' lower' upper' =>
      rw [Int.natAbs_mul, natAbs_apply, natAbs_apply] at large
      have product : m * m' = n * n' * 2 ^ (k + k') := by
        rw [same, same', Nat.pow_add, Nat.mul_mul_mul_comm]
      apply round (s * s') (d := 53 + (k + k'))
      · rw [product, Nat.pow_add]
        exact Nat.mul_le_mul_right _ large
      · omega
      · omega

/-- Multiplying by a whole number other than zero does not make a double smaller. -/
theorem mul (left : Vast u) (right : Whole v b) (nonzero : b ≠ 0) :
    Vast (UnpackedFloat.mul Format.binary64 u v) := by
  cases right with
  | zero => exact absurd rfl nonzero
  | @finite s' n' k' m' e' pos' same' exponent' lower' upper' =>
    cases left with
    | infinity s => exact .infinity _
    | @finite s m e pos lower upper least =>
      have positive := (pow_le_of_whole same' upper' pos').1
      apply round (s * s') (d := 52 + k')
      · rw [same', Nat.pow_add]
        exact Nat.mul_le_mul lower (Nat.le_mul_of_pos_left _ positive)
      · omega
      · omega

end Vast

/-! ## Comparing -/

/-- Of whole magnitudes the one with the greater exponent is the greater, and of equal exponents the
one with the greater mantissa. -/
theorem compare_magnitudes {n k m n' k' m' : Nat} (same : m = n * 2 ^ k) (lower : 2 ^ 52 ≤ m)
    (upper : m < 2 ^ 53) (same' : m' = n' * 2 ^ k') (lower' : 2 ^ 52 ≤ m') (upper' : m' < 2 ^ 53) :
    ((compare (-(k : Int)) (-(k' : Int))).then (compare m m')).isLE = true ↔ n ≤ n' := by
  have lt_of_exponent {n k m n' k' m' : Nat} (same : m = n * 2 ^ k) (upper : m < 2 ^ 53)
      (same' : m' = n' * 2 ^ k') (lower' : 2 ^ 52 ≤ m') (lt : k' < k) : n < n' := by
    have : n * 2 ^ (k' + 1) ≤ n * 2 ^ k :=
      Nat.mul_le_mul_left n (Nat.pow_le_pow_right (by decide) lt)
    rw [Nat.pow_succ, ← Nat.mul_assoc] at this
    refine Nat.lt_of_mul_lt_mul_right (a := 2 ^ k') ?_
    omega
  rcases lt_trichotomy k k' with less | rfl | greater
  · have := lt_of_exponent same' upper' same lower less
    rw [compare_gt_iff_gt.mpr (show -(k : Int) > -(k' : Int) by omega)]
    show false = true ↔ _
    simpa using this
  · rw [compare_eq_iff_eq.mpr rfl]
    show (compare m m').isLE = true ↔ _
    rw [Nat.isLE_compare, same, same', Nat.mul_le_mul_right_iff (Nat.two_pow_pos k)]
  · have := lt_of_exponent same upper same' lower' greater
    rw [compare_lt_iff_lt.mpr (show -(k : Int) < -(k' : Int) by omega)]
    show true = true ↔ _
    simpa using this.le

theorem Whole.abs_le_iff {u v : UnpackedFloat} {a b : Int} (left : Whole u a) (right : Whole v b)
    (nonneg : 0 ≤ b) : u.abs.le v = true ↔ a.natAbs ≤ b := by
  cases right with
  | zero s' =>
    cases left with
    | zero s => exact ⟨fun _ => Int.le_refl 0, fun _ => rfl⟩
    | @finite s n k m e pos same exponent lower upper =>
      have positive := (pow_le_of_whole same upper pos).1
      rw [natAbs_apply]
      show false = true ↔ _
      simpa using positive.ne'
  | @finite s' n' k' m' e' pos' same' exponent' lower' upper' =>
    have positive := (pow_le_of_whole same' upper' pos').1
    cases s' with
    | negative =>
      change 0 ≤ -(n' : Int) at nonneg
      omega
    | positive =>
      cases left with
      | zero s => exact ⟨fun _ => nonneg, fun _ => rfl⟩
      | @finite s n k m e pos same exponent lower upper =>
        rw [natAbs_apply, exponent, exponent']
        show ((compare (-(k : Int)) (-(k' : Int))).then (compare m m')).isLE = true ↔ (n : Int) ≤ n'
        rw [compare_magnitudes same lower upper same' lower' upper', Int.ofNat_le]

theorem Vast.abs_not_le {u v : UnpackedFloat} {b : Int} (left : Vast u) (right : Whole v b) :
    u.abs.le v = false := by
  cases left with
  | infinity s => cases right <;> rfl
  | @finite s m e pos lower upper least =>
    cases right with
    | zero s' => rfl
    | @finite s' n' k' m' e' pos' same' exponent' lower' upper' =>
      cases s' with
      | negative => rfl
      | positive =>
        show ((compare e e').then (compare m m')).isLE = false
        rw [compare_gt_iff_gt.mpr (show e > e' by omega)]
        rfl

/-! ## Whole numbers as doubles -/

/-- The double is the whole number `n`, whose magnitude is below `2 ^ 53`. -/
def IsWhole (x : Float) (n : Int) : Prop := Whole x.toModel.unpack n

/-- The magnitude of the double is `2 ^ 53` or more, or it is infinite. -/
def IsVast (x : Float) : Prop := Vast x.toModel.unpack

theorem isWhole_of_pack {x : Float} {u : UnpackedFloat} {n : Int} (h : Whole u n)
    (packed : x.toModel = Float.Model.pack u) : IsWhole x n := by
  unfold IsWhole
  rw [packed, h.unpack_pack]
  exact h

theorem isVast_of_pack {x : Float} {u : UnpackedFloat} (h : Vast u)
    (packed : x.toModel = Float.Model.pack u) : IsVast x := by
  unfold IsVast
  rw [packed]
  exact h.unpack_pack

theorem IsWhole.neg {x : Float} {n : Int} (h : IsWhole x n) : IsWhole (-x) (-n) :=
  isWhole_of_pack (Whole.neg h) rfl

theorem IsWhole.mul {x y : Float} {a b : Int} (left : IsWhole x a) (right : IsWhole y b)
    (small : (a * b).natAbs < 2 ^ 53) : IsWhole (x * y) (a * b) :=
  isWhole_of_pack (Whole.mul left right small) rfl

theorem IsWhole.of_beq {x y : Float} {n : Int} (same : (x == y) = true) (h : IsWhole y n) :
    IsWhole x n := by
  obtain ⟨-, -, same | ⟨zero, zero'⟩ | ⟨zero, zero'⟩⟩ :=
    (beq_iff_ne_notANumber_and_eq x.toModel.unpack y.toModel.unpack).mp same
  · unfold IsWhole
    rw [same]
    exact h
  -- the two zeros are equal, and both are the whole number 0
  all_goals
    unfold IsWhole at h ⊢
    rw [zero'] at h
    rw [zero]
    cases h
    exact .zero _

theorem IsVast.neg {x : Float} (h : IsVast x) : IsVast (-x) := isVast_of_pack (Vast.neg h) rfl

theorem IsVast.mul {x y : Float} {b : Int} (left : IsVast x) (right : IsWhole y b)
    (nonzero : b ≠ 0) : IsVast (x * y) :=
  isVast_of_pack (Vast.mul left right nonzero) rfl

theorem IsVast.of_mul {x y : Float} {a b : Int} (left : IsWhole x a) (right : IsWhole y b)
    (large : 2 ^ 53 ≤ (a * b).natAbs) : IsVast (x * y) :=
  isVast_of_pack (Vast.of_mul left right large) rfl

theorem IsVast.of_beq {x y : Float} (same : (x == y) = true) (h : IsVast y) : IsVast x := by
  obtain ⟨-, -, same | ⟨-, zero⟩ | ⟨-, zero⟩⟩ :=
    (beq_iff_ne_notANumber_and_eq x.toModel.unpack y.toModel.unpack).mp same
  · unfold IsVast
    rw [same]
    exact h
  all_goals
    unfold IsVast at h
    rw [zero] at h
    cases h

theorem toFloat_isWhole {n : Nat} (lt : n < 2 ^ 53) : IsWhole n.toUInt64.toFloat n := by
  have value : n.toUInt64.toNat = n := by
    show n % 2 ^ 64 = n
    omega
  refine isWhole_of_pack (u := UnpackedFloat.normalize Format.binary64 n 0 .positive) ?_ ?_
  · have whole := Whole.normalize (n := n) lt 0
    rw [Int.pow_zero, Int.mul_one] at whole
    exact whole
  · show Float.Model.pack (UnpackedFloat.normalize Format.binary64 n.toUInt64.toNat 0 .positive) = _
    rw [value]

theorem ofNat_isWhole {n : Nat} (lt : n < 2 ^ 53) : IsWhole (Float.ofNat n) n := by
  have one : IsWhole (Float.ofBits 0x3FF0000000000000) 1 :=
    show Whole _ (Sign.positive.apply (1 : Nat)) from
      .finite (k := 52) .positive (by decide) (by decide) (by decide) (by decide)
  have product : Float.ofNat n = n.toUInt64.toFloat * Float.ofBits 0x3FF0000000000000 := by
    show Float.ofScientific n false 0 = _
    unfold Float.ofScientific
    rw [dif_pos ⟨lt, by decide⟩]
    rfl
  have := (toFloat_isWhole lt).mul one (by simpa using lt)
  rw [Int.mul_one] at this
  rw [product]
  exact this

theorem ofNat_isVast {n : Nat} (large : 2 ^ 53 ≤ n) : IsVast (Float.ofNat n) := by
  have nonzero : n ≠ 0 := by
    rintro rfl
    norm_num at large
  have least : ¬ (0 : Int) < -((2 ^ 11 : Int) + n.log2) := by omega
  refine isVast_of_pack (u := UnpackedFloat.ofScientific Format.binary64 n 0) ?_ ?_
  · have shifted : UnpackedFloat.ofScientific Format.binary64 n 0 =
        roundWithAccuracy Format.binary64 .positive (n <<< 53 * 10 ^ 0) (-53 + 0) .exact := by
      unfold UnpackedFloat.ofScientific
      rw [dif_neg nonzero, if_neg (by decide), if_neg least, if_pos (by decide)]
      rfl
    rw [shifted]
    apply Vast.round .positive (d := 53 + 53)
    · rw [Nat.shiftLeft_eq, Nat.pow_add, Nat.pow_zero, Nat.mul_one]
      exact Nat.mul_le_mul_right _ large
    · omega
    · omega
  · show (Float.ofScientific n false 0).toModel = _
    unfold Float.ofScientific
    rw [dif_neg (by omega)]
    rfl

theorem ofInt_isWhole {n : Int} (lt : n.natAbs < 2 ^ 53) : IsWhole (Float.ofInt n) n := by
  cases n with
  | ofNat n => exact ofNat_isWhole lt
  | negSucc n => exact (ofNat_isWhole lt).neg

theorem ofInt_isVast {n : Int} (large : 2 ^ 53 ≤ n.natAbs) : IsVast (Float.ofInt n) := by
  cases n with
  | ofNat n => exact ofNat_isVast large
  | negSucc n => exact (ofNat_isVast large).neg

/-! ## Doubles as whole numbers -/

theorem Whole.isFinite {u : UnpackedFloat} {n : Int} (h : Whole u n) : u.isFinite = true := by
  cases h <;> rfl

/-- The finite doubles whose magnitude is not above a limit. -/
theorem IsWhole.within_iff {x y : Float} {a b : Int} (h : IsWhole x a) (limit : IsWhole y b)
    (nonneg : 0 ≤ b) : (x.isFinite && decide (x.abs ≤ y)) = true ↔ a.natAbs ≤ b := by
  have finite : x.isFinite = true := Whole.isFinite h
  have magnitude : x.abs.toModel.unpack = x.toModel.unpack.abs := (Whole.abs h).unpack_pack
  rw [finite, Bool.true_and, decide_eq_true_iff, ← Whole.abs_le_iff h limit nonneg, ← magnitude]
  show decide (x.abs.toModel.unpack.le y.toModel.unpack = true) = true ↔ _
  rw [decide_eq_true_iff]

/-- Packing a magnitude leaves it a magnitude. -/
theorem Vast.abs_packed {u : UnpackedFloat} (h : Vast u) :
    ∃ w, (Float.Model.pack u.abs).unpack = w.abs ∧ Vast w := by
  cases h with
  | infinity s => exact ⟨.infinity s, unpack_pack_infinity .positive, .infinity s⟩
  | @finite s m e pos lower upper least =>
    by_cases most : e ≤ 971
    · exact ⟨.finite s m e pos, unpack_pack_finite .positive lower upper (by omega) most,
        .finite s lower upper least⟩
    · exact ⟨.infinity s, unpack_pack_overflow .positive (by omega), .infinity s⟩

theorem IsVast.not_within {x y : Float} {b : Int} (h : IsVast x) (limit : IsWhole y b) :
    (x.isFinite && decide (x.abs ≤ y)) = false := by
  obtain ⟨w, packed, vast⟩ := Vast.abs_packed h
  have above : ¬ x.abs ≤ y := by
    show ¬ decide ((Float.Model.pack x.toModel.unpack.abs).unpack.le y.toModel.unpack = true) = true
    rw [packed, vast.abs_not_le limit]
    decide
  rw [decide_eq_false above, Bool.and_false]

namespace Binary

theorem whole_eq (negative : Bool) (n k : Nat) :
    (⟨negative, n * 2 ^ k, -(k : Int)⟩ : Binary).whole = n := by
  unfold whole
  by_cases zero : k = 0
  · subst zero
    simp
  · rw [if_neg (by dsimp only; omega)]
    show n * 2 ^ k / 2 ^ (-(k : Int)).natAbs = n
    rw [Int.natAbs_neg, Int.natAbs_natCast, Nat.mul_div_cancel n (Nat.two_pow_pos k)]

theorem nearest_eq (negative : Bool) (n k : Nat) :
    (⟨negative, n * 2 ^ k, -(k : Int)⟩ : Binary).nearest = n := by
  unfold nearest
  by_cases zero : k = 0
  · subst zero
    simp
  · rw [if_neg (by dsimp only; omega)]
    show (2 * (n * 2 ^ k) / 2 ^ (-(k : Int)).natAbs + 1) / 2 = n
    rw [Int.natAbs_neg, Int.natAbs_natCast, ← Nat.mul_assoc,
      Nat.mul_div_cancel _ (Nat.two_pow_pos k)]
    omega

theorem withSign_eq (s : Sign) (b : Binary) (negative : b.negative = (s == .negative)) (n : Nat) :
    b.withSign n = s.apply n := by
  unfold withSign
  rw [negative]
  cases s <;> rfl

end Binary

/-- The point of a whole double stands after its digits, with only zeros after it. -/
theorem IsWhole.ofFloat {x : Float} {n : Int} (h : IsWhole x n) :
    ∃ (s : Sign) (k : Nat), s.apply n.natAbs = n ∧
      Binary.ofFloat x = ⟨s == .negative, n.natAbs * 2 ^ k, -(k : Int)⟩ := by
  have parts {u : UnpackedFloat} (h : Whole u n) : ∃ (s : Sign) (k : Nat), s.apply n.natAbs = n ∧
      parts? u = some ⟨s == .negative, n.natAbs * 2 ^ k, -(k : Int)⟩ := by
    cases h with
    | zero s =>
      obtain ⟨k, hk⟩ : ∃ k : Nat, k = 1074 := ⟨1074, rfl⟩
      refine ⟨s, k, ?_, ?_⟩
      · cases s <;> rfl
      · rw [Int.natAbs_zero, Nat.zero_mul, hk]
        rfl
    | @finite s n k m e pos same exponent lower upper =>
      refine ⟨s, k, ?_, ?_⟩
      · rw [natAbs_apply]
      · rw [natAbs_apply, ← same, ← exponent]
        rfl
  obtain ⟨s, k, sign, same⟩ := parts h
  exact ⟨s, k, sign, ofFloat_eq_of_parts? same⟩

theorem IsWhole.truncate {x : Float} {n : Int} (h : IsWhole x n) : truncate x = n := by
  obtain ⟨s, k, sign, parts⟩ := h.ofFloat
  rw [Number.truncate, parts, Binary.whole_eq, Binary.withSign_eq s _ rfl, sign]

theorem IsWhole.roundHalfAway {x : Float} {n : Int} (h : IsWhole x n) : roundHalfAway x = n := by
  obtain ⟨s, k, sign, parts⟩ := h.ofFloat
  rw [Number.roundHalfAway, parts, Binary.nearest_eq, Binary.withSign_eq s _ rfl, sign]

theorem IsWhole.truncated {x : Float} {n : Int} (h : IsWhole x n) : IsWhole (truncated x) n := by
  obtain ⟨s, k, sign, parts⟩ := h.ofFloat
  have finite : x.isFinite = true := Whole.isFinite h
  have magnitude := ofNat_isWhole (Whole.lt h)
  rw [Number.truncated, if_pos finite, parts, Binary.whole_eq, signed]
  cases s with
  | negative =>
    have negated := magnitude.neg
    change -(n.natAbs : Int) = n at sign
    rw [sign] at negated
    exact negated
  | positive =>
    change (n.natAbs : Int) = n at sign
    rw [sign] at magnitude
    exact magnitude

theorem IsVast.truncated {x : Float} (h : IsVast x) : IsVast (truncated x) := by
  rw [Number.truncated]
  split
  · next finite =>
    change x.toModel.unpack.isFinite = true at finite
    have whole {u : UnpackedFloat} (h : Vast u) (finite : u.isFinite = true) :
        ∃ parts, parts? u = some parts ∧ 2 ^ 53 ≤ parts.whole := by
      cases h with
      | infinity => cases finite
      | @finite s m e pos lower upper least =>
        refine ⟨_, rfl, ?_⟩
        unfold Binary.whole
        rw [if_pos (by dsimp only; omega)]
        show 2 ^ 53 ≤ m * 2 ^ e.toNat
        have two : 2 ^ 1 ≤ 2 ^ e.toNat := Nat.pow_le_pow_right (by decide) (by omega)
        exact (Nat.mul_le_mul lower two)
    obtain ⟨parts, found, large⟩ := whole h finite
    have magnitude := ofNat_isVast large
    rw [ofFloat_eq_of_parts? found, signed]
    split
    · exact magnitude.neg
    · exact magnitude
  · exact h

/-! ## Doubles that stand for whole numbers -/

/-- The double stands for the whole number `n`: it is `n`, or both are `2 ^ 53` or more away from
zero. -/
def StandsFor (x : Float) (n : Int) : Prop := IsWhole x n ∨ IsVast x ∧ 2 ^ 53 ≤ n.natAbs

theorem standsFor_ofInt (n : Int) : StandsFor (Float.ofInt n) n := by
  by_cases lt : n.natAbs < 2 ^ 53
  · exact .inl (ofInt_isWhole lt)
  · have large : 2 ^ 53 ≤ n.natAbs := by omega
    exact .inr ⟨ofInt_isVast large, large⟩

namespace StandsFor

variable {x y : Float} {a b : Int}

theorem of_beq (same : (x == y) = true) (h : StandsFor y a) : StandsFor x a := by
  rcases h with whole | ⟨vast, large⟩
  · exact .inl (whole.of_beq same)
  · exact .inr ⟨vast.of_beq same, large⟩

theorem truncated (h : StandsFor x a) : StandsFor (truncated x) a := by
  rcases h with whole | ⟨vast, large⟩
  · exact .inl whole.truncated
  · exact .inr ⟨vast.truncated, large⟩

theorem mul (left : StandsFor x a) (right : IsWhole y b) (nonzero : b ≠ 0) :
    StandsFor (x * y) (a * b) := by
  rcases left with whole | ⟨vast, large⟩
  · by_cases small : (a * b).natAbs < 2 ^ 53
    · exact .inl (whole.mul right small)
    · have large : 2 ^ 53 ≤ (a * b).natAbs := by omega
      exact .inr ⟨.of_mul whole right large, large⟩
  · refine .inr ⟨vast.mul right nonzero, ?_⟩
    rw [Int.natAbs_mul]
    exact large.trans (Nat.le_mul_of_pos_right _ (Int.natAbs_pos.mpr nonzero))

/-- The double is finite and not above a limit just when the number is not above it. -/
theorem within_iff (h : StandsFor x a) (limit : IsWhole y b) (nonneg : 0 ≤ b) :
    (x.isFinite && decide (x.abs ≤ y)) = true ↔ a.natAbs ≤ b := by
  rcases h with whole | ⟨vast, large⟩
  · exact whole.within_iff limit nonneg
  · have lt := Whole.lt limit
    rw [vast.not_within limit]
    refine ⟨fun h => absurd h (by decide), fun le => ?_⟩
    omega

/-- Within such a limit the double is the number itself. -/
theorem isWhole_of_lt (h : StandsFor x a) (lt : a.natAbs < 2 ^ 53) : IsWhole x a := by
  rcases h with whole | ⟨-, large⟩
  · exact whole
  · exact absurd lt large.not_gt

end StandsFor

end ComputedFields.Number
