import ComputedFields.Number.Binary
import Mathlib

/-!
# `ComputedFields.Proofs.Doubles` — doubles and their parts

A double is unpacked into a sign, a mantissa and an exponent; the result of an operation is rounded
to a mantissa of 53 binary digits and packed again. What is rounded here has at least 53 digits, and
it is nowhere near the smallest doubles, whose mantissas are shorter: products of whole numbers are
so, and all that is larger. Packing it loses nothing, unless it is too large for a double and
becomes infinite.

* `roundWithAccuracy_exact` — what has 53 digits before its zeros is not rounded;
* `roundWithAccuracy_vast` — what is rounded at `2 ^ 53` or above stays there;
* `unpack_pack_finite`, `unpack_pack_overflow` — what packing keeps;
* `ofFloat_eq_of_parts?` — the parts read off the bits are those that a double is unpacked into.
-/

namespace ComputedFields.Number

open Float.Model UnpackedFloat

/-! ## Rounding -/

theorem shiftRight_zero (em : ExtendedMantissa) : em >>> 0 = em := rfl

theorem shiftRight_succ (em : ExtendedMantissa) (k : Nat) :
    em >>> (k + 1) = (em >>> k).shiftRightOne := rfl

theorem shiftRight_mantissa (em : ExtendedMantissa) (k : Nat) :
    (em >>> k).mantissa = em.mantissa / 2 ^ k := by
  induction k with
  | zero => rw [shiftRight_zero, Nat.pow_zero, Nat.div_one]
  | succ k ih =>
    rw [shiftRight_succ, Nat.pow_succ, ← Nat.div_div_eq_div_mul, ← ih]
    rfl

/-- Zeros are shifted out without a trace. -/
theorem shiftRight_exact (m k : Nat) :
    ExtendedMantissa.ofMantissaAndAccuracy (m * 2 ^ k) .exact >>> k = ⟨m, false, false⟩ := by
  induction k generalizing m with
  | zero =>
    rw [shiftRight_zero, Nat.pow_zero, Nat.mul_one]
    rfl
  | succ k ih =>
    rw [shiftRight_succ, Nat.pow_succ', ← Nat.mul_assoc, ih]
    simp [ExtendedMantissa.shiftRightOne]

/-- Rounding keeps a mantissa or adds one to it. -/
theorem roundedMantissa_bounds (em : ExtendedMantissa) :
    em.mantissa ≤ em.roundedMantissa ∧ em.roundedMantissa ≤ em.mantissa + 1 := by
  rw [ExtendedMantissa.roundedMantissa]
  generalize em.mantissa = m
  cases em.accuracy with
  | exact => exact ⟨Nat.le_refl m, Nat.le_succ m⟩
  | inexact half =>
    cases half with
    | lt => exact ⟨Nat.le_refl m, Nat.le_succ m⟩
    | eq =>
      -- a half goes to the even neighbour
      show m ≤ m + m % 2 ∧ m + m % 2 ≤ m + 1
      omega
    | gt => exact ⟨Nat.le_succ m, Nat.le_refl (m + 1)⟩
theorem targetExponent_eq (m : Nat) (e : Int) :
    Format.binary64.targetExponent (totalExponent m e) = max (m.log2 + e - 52) (-1074) := by
  show max (_ - (53 : Int)) (-1074) = _
  unfold totalExponent
  omega

/-- A mantissa of 53 digits with zeros after it is cut to its 53 digits. -/
theorem shiftToTargetExponent_exact {m k : Nat} {e : Int} (lower : 2 ^ 52 ≤ m) (upper : m < 2 ^ 53)
    (least : -1074 ≤ e + k) :
    shiftToTargetExponent Format.binary64 (m * 2 ^ k) e .exact = (⟨m, false, false⟩, e + k) := by
  have pos : 0 < 2 ^ k := Nat.two_pow_pos k
  have digits : (m * 2 ^ k).log2 = 52 + k := by
    have nonzero : m * 2 ^ k ≠ 0 := Nat.mul_ne_zero (by omega) pos.ne'
    rw [Nat.log2_eq_iff nonzero, Nat.add_right_comm, Nat.pow_add, Nat.pow_add]
    exact ⟨Nat.mul_le_mul_right _ lower, Nat.mul_lt_mul_of_pos_right upper pos⟩
  have target : Format.binary64.targetExponent (totalExponent (m * 2 ^ k) e) = e + k := by
    rw [targetExponent_eq, digits]
    omega
  have amount : (e + k - e).toNat = k := by omega
  unfold shiftToTargetExponent
  simp only [target, shiftToExponent, amount, shiftRight_exact]

/-- What has at most 53 digits before its zeros is not rounded. -/
theorem roundWithAccuracy_exact (s : Sign) {m k : Nat} {e : Int} (lower : 2 ^ 52 ≤ m)
    (upper : m < 2 ^ 53) (least : -1074 ≤ e + k) :
    roundWithAccuracy Format.binary64 s (m * 2 ^ k) e .exact =
      .finite s m (e + k) (Nat.lt_of_lt_of_le (Nat.two_pow_pos 52) lower) := by
  have first := shiftToTargetExponent_exact lower upper least
  have second := shiftToTargetExponent_exact (k := 0) lower upper
    (show -1074 ≤ e + k + (0 : Nat) by omega)
  rw [Nat.pow_zero, Nat.mul_one, Int.natCast_zero, Int.add_zero] at second
  have nonzero : m ≠ 0 := by omega
  have kept : (⟨m, false, false⟩ : ExtendedMantissa).roundedMantissa = m := rfl
  unfold roundWithAccuracy
  simp only [first, kept, second, nonzero, dif_neg, not_false_eq_true]

/-- What is at least `2 ^ 53` stays so when it is rounded. -/
theorem roundWithAccuracy_vast (s : Sign) {m a : Nat} {e : Int} (large : 2 ^ a ≤ m) (long : 52 ≤ a)
    (vast : 53 ≤ a + e) :
    ∃ m' e' pos, roundWithAccuracy Format.binary64 s m e .exact = .finite s m' e' pos ∧
      2 ^ 52 ≤ m' ∧ m' < 2 ^ 53 ∧ 1 ≤ e' := by
  have nonzero : m ≠ 0 := by
    have := Nat.two_pow_pos a
    omega
  have digits : a ≤ m.log2 := (Nat.le_log2 nonzero).mpr large
  obtain ⟨k, hk⟩ : ∃ k, m.log2 = 52 + k := ⟨m.log2 - 52, by omega⟩
  have pos : 0 < 2 ^ k := Nat.two_pow_pos k
  have target : Format.binary64.targetExponent (totalExponent m e) = e + k := by
    rw [targetExponent_eq, hk]
    omega
  have amount : (e + k - e).toNat = k := by omega
  obtain ⟨em, hem⟩ : ∃ em, ExtendedMantissa.ofMantissaAndAccuracy m .exact >>> k = em := ⟨_, rfl⟩
  have first : shiftToTargetExponent Format.binary64 m e .exact = (em, e + k) := by
    unfold shiftToTargetExponent
    simp only [target, shiftToExponent, amount, hem]
  have cut : em.mantissa = m / 2 ^ k := by
    rw [← hem, shiftRight_mantissa]
    rfl
  have lower : 2 ^ 52 ≤ em.mantissa := by
    rw [cut, Nat.le_div_iff_mul_le pos, ← Nat.pow_add, ← hk]
    exact Nat.log2_self_le nonzero
  have upper : em.mantissa < 2 ^ 53 := by
    rw [cut, Nat.div_lt_iff_lt_mul pos, ← Nat.pow_add, show 53 + k = m.log2 + 1 by omega]
    exact Nat.lt_log2_self
  obtain ⟨notLess, notMore⟩ := roundedMantissa_bounds em
  obtain ⟨r, hr⟩ : ∃ r, em.roundedMantissa = r := ⟨_, rfl⟩
  rw [hr] at notLess notMore
  unfold roundWithAccuracy
  simp only [first, hr]
  by_cases carried : r = 2 ^ 53
  · -- rounding up made it one digit longer, and that digit is a zero
    have second := shiftToTargetExponent_exact (m := 2 ^ 52) (k := 1) (e := e + k) (Nat.le_refl _)
      (by norm_num) (by omega)
    have same : (2 : Nat) ^ 52 * 2 ^ 1 = r := by rw [carried]; norm_num
    rw [same] at second
    simp only [second]
    exact ⟨2 ^ 52, e + k + 1, by norm_num, rfl, Nat.le_refl _, by norm_num, by omega⟩
  · have short : r < 2 ^ 53 := by omega
    have second := shiftToTargetExponent_exact (k := 0) (e := e + k) (notLess.trans' lower) short
      (by omega)
    rw [Nat.pow_zero, Nat.mul_one] at second
    have positive : 0 < r := by omega
    simp only [second, positive.ne', dif_neg, not_false_eq_true]
    exact ⟨r, _, positive, rfl, by omega, short, by omega⟩

/-! ## Bits -/

/-- The bit before the 52 that are kept is the first digit of the mantissa. -/
theorem toNat_append_one (m : BitVec 52) : (1#1 ++ m).toNat = 2 ^ 52 + m.toNat := by
  rw [BitVec.toNat_append, ← Nat.shiftLeft_add_eq_or_of_lt m.isLt]
  rfl

theorem toNat_unpackMantissa (b : BitVec 64) :
    (@unpackMantissa Format.binary64 b).toNat = b.toNat % 2 ^ 52 := by
  rw [unpackMantissa_def, BitVec.extractLsb'_toNat]
  rfl

theorem toNat_unpackExponent (b : BitVec 64) :
    (@unpackExponent Format.binary64 b).toNat = b.toNat / 2 ^ 52 % 2 ^ 11 := by
  rw [unpackExponent_def, BitVec.extractLsb'_toNat, Nat.shiftRight_eq_div_pow]

theorem toNat_unpackSign (b : BitVec 64) :
    (@unpackSign Format.binary64 b).toNat = b.toNat / 2 ^ 63 := by
  have lt : b.toNat < 2 ^ 64 := b.isLt
  rw [unpackSign_def, BitVec.extractLsb'_toNat, Nat.shiftRight_eq_div_pow]
  show b.toNat / 2 ^ 63 % 2 ^ 1 = _
  omega

/-! ## Packing -/

theorem unpack_pack_zero (s : Sign) : (Float.Model.pack (.zero s)).unpack = .zero s := by
  cases s <;> rfl

theorem unpack_pack_infinity (s : Sign) :
    (Float.Model.pack (.infinity s)).unpack = .infinity s := by
  cases s <;> rfl

theorem unpack_pack_finite (s : Sign) {m : Nat} {e : Int} {pos : 0 < m} (lower : 2 ^ 52 ≤ m)
    (upper : m < 2 ^ 53) (least : -1074 ≤ e) (most : e ≤ 971) :
    (Float.Model.pack (.finite s m e pos)).unpack = .finite s m e pos := by
  obtain ⟨biased, hBiased⟩ : ∃ n : Nat, (e + 1023 + 52).toNat = n := ⟨_, rfl⟩
  have digits : m.log2 = 52 := (Nat.log2_eq_iff pos.ne').mpr ⟨lower, upper⟩
  have packed : UnpackedFloat.pack Format.binary64 (.finite s m e pos) =
      packComponents Format.binary64 s (BitVec.ofNat 11 biased) (BitVec.ofNat 52 m) := by
    show (if 2 ^ 11 ≤ (e + 1023 + 52).toNat + 1 then _ else if m.log2 + 1 = 53 then _ else _) = _
    rw [if_neg (by omega), if_pos (by omega), ← hBiased]
    rfl
  have exponent : (BitVec.ofNat 11 biased).toNat = biased := by
    rw [BitVec.toNat_ofNat, Nat.mod_eq_of_lt (by omega)]
  have notInfinite : BitVec.ofNat 11 biased ≠ -1#11 := by
    intro same
    have := congrArg BitVec.toNat same
    rw [exponent] at this
    change biased = 2047 at this
    omega
  have notSubnormal : BitVec.ofNat 11 biased ≠ 0#11 := by
    intro same
    have := congrArg BitVec.toNat same
    rw [exponent] at this
    change biased = 0 at this
    omega
  have mantissa : (1#1 ++ BitVec.ofNat 52 m).toNat = m := by
    rw [toNat_append_one, BitVec.toNat_ofNat]
    omega
  unfold Float.Model.unpack Float.Model.pack
  simp only [packed]
  unfold UnpackedFloat.unpack
  simp only [unpackMantissa_packComponents, unpackExponent_packComponents,
    unpackSign_packComponents, Sign.ofBitVec_toBitVec, exponent, mantissa, notInfinite, notSubnormal,
    if_false]
  congr 1
  show (biased : Int) - (1023 + 52) = e
  omega

theorem unpack_pack_overflow (s : Sign) {m : Nat} {e : Int} {pos : 0 < m} (most : 971 < e) :
    (Float.Model.pack (.finite s m e pos)).unpack = .infinity s := by
  have packed : UnpackedFloat.pack Format.binary64 (.finite s m e pos) =
      packedInfinity Format.binary64 s := by
    show (if 2 ^ 11 ≤ (e + 1023 + 52).toNat + 1 then _ else _) = _
    rw [if_pos (by omega)]
  rw [← unpack_pack_infinity s]
  unfold Float.Model.unpack Float.Model.pack
  simp only [packed]
  rfl

/-! ## Parts -/

theorem beq_negative (b : BitVec 64) :
    (Sign.ofBitVec (@unpackSign Format.binary64 b) == .negative) =
      (b.toNat / 2 ^ 63 == 1) := by
  rw [← toNat_unpackSign]
  generalize @unpackSign Format.binary64 b = sign
  revert sign
  decide

/-- The parts of an unpacked double that is finite. -/
def parts? : UnpackedFloat → Option Binary
  | .zero s => some ⟨s == .negative, 0, -1074⟩
  | .finite s m e _ => some ⟨s == .negative, m, e⟩
  | _ => none

/-- The parts of a finite double are those that it is unpacked into. -/
theorem ofFloat_eq_of_parts? {x : Float} {parts : Binary}
    (finite : parts? x.toModel.unpack = some parts) : Binary.ofFloat x = parts := by
  obtain ⟨b, hb⟩ : ∃ b : BitVec 64, x.toModel.toBits.toBitVec = b := ⟨_, rfl⟩
  have ofFloat : Binary.ofFloat x =
      if b.toNat / 2 ^ 52 % 2 ^ 11 = 0 then ⟨b.toNat / 2 ^ 63 == 1, b.toNat % 2 ^ 52, -1074⟩
      else ⟨b.toNat / 2 ^ 63 == 1, 2 ^ 52 + b.toNat % 2 ^ 52,
        (b.toNat / 2 ^ 52 % 2 ^ 11 : Nat) - 1075⟩ := by
    rw [← hb]
    rfl
  unfold Float.Model.unpack at finite
  rw [hb] at finite
  unfold UnpackedFloat.unpack at finite
  dsimp only at finite
  rw [ofFloat, ← beq_negative, ← toNat_unpackMantissa, ← toNat_unpackExponent]
  split at finite
  · split at finite <;> cases finite
  · split at finite
    · next zero =>
      rw [zero]
      split at finite
      · next none =>
        cases finite
        rw [none]
        rfl
      · cases finite
        rw [zero]
        rfl
    · next nonzero =>
      have nonzero : (@unpackExponent Format.binary64 b).toNat ≠ 0 := by
        intro same
        exact nonzero (BitVec.eq_of_toNat_eq same)
      cases finite
      rw [if_neg nonzero, toNat_append_one]
      rfl

end ComputedFields.Number
