import ComputedFields.Proofs.WholeDoubles

/-!
# `ComputedFields.Proofs.WholeSums` — sums of whole numbers as doubles

A sum of two whole numbers is exact if it is below `2 ^ 53`, although one of its terms may be above.
Such a term is a double if it has at most 53 digits before its zeros, as products have whose factors
are even enough (`Integral`). The terms are brought to the smaller of their exponents, which loses
nothing, and then added as whole numbers.

* `Integral`, `IsIntegral` — doubles that are whole numbers, however large;
* `IsIntegral.of_mul` — a product that is a short number with zeros after it;
* `IsWhole.add` — a sum below `2 ^ 53`.
-/

namespace ComputedFields.Number

open Float.Model UnpackedFloat

/-- The unpacked double is the whole number `n`, which need not be below `2 ^ 53`. -/
inductive Integral : UnpackedFloat → Int → Prop
  | whole {u : UnpackedFloat} {n : Int} : Whole u n → Integral u n
  | large (s : Sign) {m k : Nat} {pos : 0 < m} : 2 ^ 52 ≤ m → m < 2 ^ 53 → 1 ≤ k → k ≤ 971 →
    Integral (.finite s m k pos) (s.apply (m * 2 ^ k : Nat))

theorem apply_mul_natCast (s : Sign) (a b : Nat) : s.apply (a * b : Nat) = s.apply a * b := by
  cases s
  · show -((a * b : Nat) : Int) = -(a : Int) * b
    rw [Int.natCast_mul, Int.neg_mul]
  · exact Int.natCast_mul a b

namespace Integral

variable {u v : UnpackedFloat} {a b : Int}

theorem unpack_pack (h : Integral u a) : (Float.Model.pack u).unpack = u := by
  cases h with
  | whole whole => exact whole.unpack_pack
  | large s lower upper _ most => exact unpack_pack_finite s lower upper (by omega) (by omega)

/-- A double above `2 ^ 53`. -/
theorem le_natAbs {m k : Nat} (s : Sign) (lower : 2 ^ 52 ≤ m) (least : 1 ≤ k) :
    2 ^ 53 ≤ (s.apply (m * 2 ^ k : Nat)).natAbs := by
  rw [natAbs_apply]
  have two : 2 ^ 1 ≤ 2 ^ k := Nat.pow_le_pow_right (by decide) least
  exact Nat.mul_le_mul lower two

/-- Rounding keeps a large number that has few digits before its zeros, also when it is written with
more zeros and a smaller exponent. -/
theorem round (s : Sign) {q j l : Nat} {e : Int} (short : q < 2 ^ 53) (long : 2 ^ 53 ≤ q * 2 ^ j)
    (few : j ≤ 971) (exponent : e = -l) :
    Integral (roundWithAccuracy Format.binary64 s (q * 2 ^ (j + l)) e .exact)
      (s.apply (q * 2 ^ j : Nat)) := by
  have positive : 0 < q := by
    rcases Nat.eq_zero_or_pos q with rfl | positive
    · rw [Nat.zero_mul] at long
      exact absurd long (by decide)
    · exact positive
  have longer : 2 ^ 52 ≤ q * 2 ^ (j + l) := by
    rw [Nat.pow_add, ← Nat.mul_assoc]
    have := Nat.le_mul_of_pos_right (q * 2 ^ j) (Nat.two_pow_pos l)
    omega
  obtain ⟨i, -, -, lowest, highest, rounded⟩ :=
    roundWithAccuracy_zeros s (e := e) positive short longer (by omega)
  have lt : i < j := by
    refine (Nat.pow_lt_pow_iff_right (by decide : 1 < 2)).mp ?_
    exact Nat.lt_of_mul_lt_mul_left (a := q) (by omega)
  have shifted : e + (j + l - i : Nat) = (j - i : Nat) := by omega
  have value : q * 2 ^ j = q * 2 ^ i * 2 ^ (j - i) := by
    rw [Nat.mul_assoc, ← Nat.pow_add, Nat.add_sub_cancel' lt.le]
  simp only [rounded, shifted]
  rw [value]
  exact .large s lowest highest (by omega) (by omega)

/-- A product is a double if it has few digits before its zeros. -/
theorem of_mul (left : Whole u a) (right : Whole v b) {q : Int} {j : Nat}
    (product : a * b = q * 2 ^ j) (short : q.natAbs < 2 ^ 53) (few : j ≤ 971) :
    Integral (UnpackedFloat.mul Format.binary64 u v) (a * b) := by
  by_cases small : (a * b).natAbs < 2 ^ 53
  · exact .whole (left.mul right small)
  cases left with
  | zero => simp at small
  | @finite s n k m e pos same exponent lower upper =>
    cases right with
    | zero => simp at small
    | @finite s' n' k' m' e' pos' same' exponent' lower' upper' =>
      have magnitude : n * n' = q.natAbs * 2 ^ j := by
        have := congrArg Int.natAbs product
        rwa [Int.natAbs_mul, Int.natAbs_mul, natAbs_apply, natAbs_apply, Int.natAbs_pow] at this
      have mantissa : m * m' = q.natAbs * 2 ^ (j + (k + k')) := by
        rw [Nat.pow_add, ← Nat.mul_assoc, ← magnitude, same, same', Nat.pow_add,
          Nat.mul_mul_mul_comm]
      rw [← apply_mul, ← Int.natCast_mul, natAbs_apply] at small
      rw [← apply_mul, ← Int.natCast_mul, magnitude]
      show Integral (roundWithAccuracy Format.binary64 (s * s') (m * m') (e + e') .exact) _
      rw [mantissa]
      exact round (s * s') short (by omega) few (by omega)

/-- The mantissa for an exponent that is not greater. -/
theorem lowered {s : Sign} {m : Nat} {e : Int} {pos : 0 < m} (h : Integral (.finite s m e pos) a)
    {K : Nat} (le : -(K : Int) ≤ e) : s.apply (decreaseExponent m e (-K)).1 = a * 2 ^ K := by
  have shifted : (decreaseExponent m e (-K)).1 = m * 2 ^ (e + K).toNat := by
    rw [decreaseExponent, Int.sub_neg]
    exact Nat.shiftLeft_eq _ _
  rw [shifted]
  cases h with
  | whole whole =>
    cases whole with
    | @finite _ n k _ _ _ same exponent =>
      have amount : k + (e + K).toNat = K := by omega
      rw [same, Nat.mul_assoc, ← Nat.pow_add, amount, apply_mul_natCast, Int.natCast_pow]
      rfl
  | @large _ _ k =>
    have amount : ((k : Int) + K).toNat = k + K := by omega
    rw [amount, Nat.pow_add, ← Nat.mul_assoc, apply_mul_natCast, Int.natCast_pow]
    rfl

theorem add (left : Whole u a) (right : Integral v b) (small : (a + b).natAbs < 2 ^ 53) :
    Whole (UnpackedFloat.add Format.binary64 u v) (a + b) := by
  cases left with
  | zero s =>
    rw [Int.zero_add] at small ⊢
    cases right with
    | whole whole =>
      cases whole with
      | zero s' => cases s <;> cases s' <;> exact .zero _
      | finite s' same exponent lower upper => exact .finite s' same exponent lower upper
    | large s' lower _ least =>
      have := le_natAbs s' lower least
      omega
  | @finite s n k m e pos same exponent lower upper =>
    have left : Integral (.finite s m e pos) (s.apply n) := .whole (.finite s same exponent lower upper)
    cases v with
    | notANumber | infinity =>
      cases right with
      | whole impossible => cases impossible
    | zero s' =>
      cases right with
      | whole zero =>
        cases zero
        rw [Int.add_zero]
        exact .finite s same exponent lower upper
    | finite s' m' e' pos' =>
      obtain ⟨K, hK⟩ : ∃ K : Nat, min e e' = -(K : Int) := ⟨(-(min e e')).toNat, by omega⟩
      show Whole (UnpackedFloat.normalize Format.binary64
        (s.apply (decreaseExponent m e (min e e')).1 + s'.apply (decreaseExponent m' e' (min e e')).1)
        (min e e') .positive) _
      rw [hK, left.lowered (by omega), right.lowered (by omega), ← Int.add_mul]
      exact Whole.normalize small K

end Integral

/-- The double is the whole number `n`, which need not be below `2 ^ 53`. -/
def IsIntegral (x : Float) (n : Int) : Prop := Integral x.toModel.unpack n

theorem IsIntegral.of_mul {x y : Float} {a b q : Int} {j : Nat} (left : IsWhole x a)
    (right : IsWhole y b) (product : a * b = q * 2 ^ j) (short : q.natAbs < 2 ^ 53) (few : j ≤ 971) :
    IsIntegral (x * y) (a * b) := by
  have integral := Integral.of_mul left right product short few
  show Integral (Float.Model.pack _).unpack _
  rw [integral.unpack_pack]
  exact integral

theorem IsWhole.add {x y : Float} {a b : Int} (left : IsWhole x a) (right : IsIntegral y b)
    (small : (a + b).natAbs < 2 ^ 53) : IsWhole (x + y) (a + b) :=
  isWhole_of_pack (Integral.add left right small) rfl

end ComputedFields.Number
