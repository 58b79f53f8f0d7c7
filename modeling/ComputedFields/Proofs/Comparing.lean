import ComputedFields.Evaluation.Arithmetic
import ComputedFields.Proofs.Visits
import Mathlib

/-!
# `ComputedFields.Proofs.Comparing` — comparing values from either side, and equality against order

Two values are compared as texts, as instants or as numbers, whichever fits both of them. The order
and the equality of formulas are each one comparison of what the values stand for, so that the sides
can be exchanged. They also agree on which values are the same, with one exception: beside a number,
a text stands in the order for the number at its start, but in the equality for a number only as a
whole.

* `orderNumbers_eq`, `beq_eq` — the order and the equality of doubles come from one comparison;
* `same_comm`, `looselyEqual_comm` — equality does not depend on the side;
* `comparisons_mirrored` — nor does the order, whose two answers are opposite;
* `compared_cases` — as what two values in order are compared;
* `comparisons_exclusive` — just one of less, equal and greater holds, or none beside such a text;
* `five_beside_fiveX` — two values that are neither equal nor one less than the other.
-/

namespace ComputedFields

open Float.Model

namespace Value

/-! ## Doubles -/

/-- Exchanging the sides turns the order of two doubles around; a NaN has no order. -/
theorem compare_comm (u v : UnpackedFloat) : v.compare u = (u.compare v).map Ordering.swap := by
  have digits (e e' : Int) (m m' : Nat) :
      (compare e' e).then (compare m' m) = ((compare e e').then (compare m m')).swap := by
    rw [Ordering.swap_then, ← Std.OrientedCmp.eq_swap, ← Std.OrientedCmp.eq_swap]
  rcases u with ⟨⟨⟩⟩ | _ | _ | ⟨⟨⟩, m, e, _⟩ <;> rcases v with ⟨⟨⟩⟩ | _ | _ | ⟨⟨⟩, m', e', _⟩
  case finite.negative.finite.negative =>
    exact congrArg (fun o => some o.swap) (digits e e' m m')
  case finite.positive.finite.positive =>
    exact congrArg some (digits e e' m m')
  all_goals rfl

theorem compare_eq_none_iff {u v : UnpackedFloat} :
    u.compare v = none ↔ u.isNaN = true ∨ v.isNaN = true := by
  rcases u with ⟨⟨⟩⟩ | _ | _ | ⟨⟨⟩, m, e, _⟩ <;> rcases v with ⟨⟨⟩⟩ | _ | _ | ⟨⟨⟩, m', e', _⟩ <;>
    simp [UnpackedFloat.compare, UnpackedFloat.isNaN]

/-- The comparison of two doubles, if neither is a NaN. -/
def comparison? (x y : Float) : Option Ordering := x.toModel.unpack.compare y.toModel.unpack

theorem beq_eq (x y : Float) : (x == y) = (comparison? x y == some .eq) := rfl

theorem lt_iff {x y : Float} : x < y ↔ comparison? x y = some .lt := by
  show decide ((x.toModel.unpack.compare y.toModel.unpack == some .lt) = true) = true ↔ _
  rw [decide_eq_true_iff, beq_iff_eq, comparison?]

theorem comparison?_comm (x y : Float) : comparison? y x = (comparison? x y).map Ordering.swap :=
  compare_comm ..

theorem orderNumbers_eq (x y : Float) : orderNumbers x y = (comparison? x y).getD .eq := by
  simp only [orderNumbers, lt_iff, comparison?_comm x y]
  rcases comparison? x y with _ | (_ | _ | _) <;> rfl

theorem orderNumbers_comm (x y : Float) : orderNumbers y x = (orderNumbers x y).swap := by
  rw [orderNumbers_eq, orderNumbers_eq, comparison?_comm x y]
  cases comparison? x y <;> rfl

theorem orderNumbers_eq_eq_iff {x y : Float} (left : x.isNaN = false) (right : y.isNaN = false) :
    orderNumbers x y = .eq ↔ (x == y) = true := by
  have ordered : comparison? x y ≠ none := by
    intro none
    rcases compare_eq_none_iff.mp none with isNaN | isNaN
    · exact absurd (left.symm.trans isNaN) (by decide)
    · exact absurd (right.symm.trans isNaN) (by decide)
  rw [orderNumbers_eq, beq_eq, beq_iff_eq]
  cases found : comparison? x y with
  | none => exact absurd found ordered
  | some o => simp

/-! ## Equality from either side -/

mutual

theorem same_comm (a b : Value) : a.same b = b.same a := by
  cases a <;> cases b <;> simp only [same]
  case boolean.boolean => exact Bool.beq_comm
  case number.number x y => exact BEq.comm
  case text.text => exact Bool.beq_comm
  case date.date => exact Bool.beq_comm
  case array.array xs ys => exact sameItems_comm xs ys
  case object.object xs ys => exact sameEntries_comm xs ys

theorem sameItems_comm (xs ys : List Value) : sameItems xs ys = sameItems ys xs := by
  cases xs with
  | nil => cases ys <;> rfl
  | cons x xs =>
    cases ys with
    | nil => rfl
    | cons y ys => rw [sameItems, sameItems, same_comm x y, sameItems_comm xs ys]

theorem sameEntries_comm (xs ys : List (Text × Value)) : sameEntries xs ys = sameEntries ys xs := by
  cases xs with
  | nil => cases ys <;> rfl
  | cons x xs =>
    cases ys with
    | nil => rfl
    | cons y ys =>
      obtain ⟨k, x⟩ := x
      obtain ⟨l, y⟩ := y
      rw [sameEntries, sameEntries, same_comm x y, sameEntries_comm xs ys, Bool.beq_comm]

end

/-- Equality as numbers; what is no number equals nothing. -/
def equalNumbers (a b : Value) : Bool :=
  match a.numeric?, b.numeric? with
  | some x, some y => x == y
  | _, _ => false

theorem equalNumbers_comm (a b : Value) : a.equalNumbers b = b.equalNumbers a := by
  unfold equalNumbers
  cases a.numeric? with
  | none => cases b.numeric? <;> rfl
  | some x =>
    cases b.numeric? with
    | none => rfl
    | some y => exact BEq.comm

/-- Equality across kinds: as instants when one of the values is an instant, and else as numbers. -/
def equalAcross : Value → Value → Bool
  | .date t, other => instantEquals t other
  | other, .date t => instantEquals t other
  | a, b => a.equalNumbers b

theorem looselyEqual_of_kind_eq {a b : Value} (same : a.kind = b.kind) :
    a.looselyEqual b = a.same b := if_pos same

theorem looselyEqual_of_kind_ne {a b : Value} (ne : a.kind ≠ b.kind) :
    a.looselyEqual b = a.equalAcross b := if_neg ne

theorem looselyEqual_comm (a b : Value) : a.looselyEqual b = b.looselyEqual a := by
  by_cases same : a.kind = b.kind
  · rw [looselyEqual_of_kind_eq same, looselyEqual_of_kind_eq same.symm]
    exact same_comm a b
  · rw [looselyEqual_of_kind_ne same, looselyEqual_of_kind_ne (Ne.symm same)]
    cases a <;> cases b <;> simp only [equalAcross] <;>
      first | exact equalNumbers_comm .. | exact absurd rfl same

/-! ## Order from either side -/

/-- The answers when the sides are exchanged: opposite orders, or two refusals of the values. -/
inductive Mirrored : Except Fault Ordering → Except Fault Ordering → Prop
  | ordered (o : Ordering) : Mirrored (.ok o) (.ok o.swap)
  | refused {f g : Fault} : f.code = .typeError → g.code = .typeError →
    Mirrored (.error f) (.error g)

/-- A comparison of what two values stand for, if both stand for something. -/
theorem Mirrored.of_bind {α : Type} {x y : Except Fault α} {order : α → α → Ordering}
    (left : FaultsIn [.typeError] x) (right : FaultsIn [.typeError] y)
    (swap : ∀ a b, order b a = (order a b).swap) :
    Mirrored (do pure (order (← x) (← y))) (do pure (order (← y) (← x))) := by
  cases x with
  | ok a =>
    cases y with
    | ok b =>
      show Mirrored (.ok (order a b)) (.ok (order b a))
      rw [swap a b]
      exact .ordered _
    | error g =>
      have code := List.mem_singleton.mp (right g rfl)
      exact .refused code code
  | error f =>
    have code := List.mem_singleton.mp (left f rfl)
    cases y with
    | ok b => exact .refused code code
    | error g => exact .refused code (List.mem_singleton.mp (right g rfl))

/-- From either side two values are compared as the same, or refused for their kinds. -/
theorem order_cases_comm (a b : Value) :
    (∃ s t, a = .text s ∧ b = .text t) ∨
    (a.order b = (do pure (compare (← a.toInstant) (← b.toInstant))) ∧
      b.order a = (do pure (compare (← b.toInstant) (← a.toInstant)))) ∨
    (a.order b = (do pure (orderNumbers (← a.toNumber) (← b.toNumber))) ∧
      b.order a = (do pure (orderNumbers (← b.toNumber) (← a.toNumber)))) ∨
    (a.order b = .error (.notComparable a.kind b.kind) ∧
      b.order a = .error (.notComparable b.kind a.kind)) := by
  cases a <;> cases b <;> simp [order]

/-- The order of two texts by their bytes. -/
def orderTexts (s t : Text) : Ordering := if s < t then .lt else if t < s then .gt else .eq

theorem orderTexts_comm (s t : Text) : orderTexts t s = (orderTexts s t).swap := by
  unfold orderTexts
  by_cases less : s < t
  · rw [if_pos less, if_pos less, if_neg (List.lt_asymm less)]
    rfl
  · by_cases greater : t < s
    · rw [if_pos greater, if_neg less, if_pos greater]
      rfl
    · rw [if_neg greater, if_neg less, if_neg less, if_neg greater]
      rfl

/-- Comparing values does not depend on the side. They are equal from both sides or from neither,
they are refused from both or from neither, always with a type error, and the orders of values that
are not refused are opposite. -/
theorem comparisons_mirrored (a b : Value) :
    a.looselyEqual b = b.looselyEqual a ∧ Mirrored (a.order b) (b.order a) := by
  refine ⟨looselyEqual_comm a b, ?_⟩
  rcases order_cases_comm a b with ⟨s, t, rfl, rfl⟩ | ⟨left, right⟩ | ⟨left, right⟩ | ⟨left, right⟩
  · show Mirrored (.ok (orderTexts s t)) (.ok (orderTexts t s))
    rw [orderTexts_comm s t]
    exact .ordered _
  · rw [left, right]
    exact .of_bind a.toInstant_faultsIn b.toInstant_faultsIn fun _ _ => Std.OrientedCmp.eq_swap
  · rw [left, right]
    exact .of_bind a.toNumber_faultsIn b.toNumber_faultsIn orderNumbers_comm
  · rw [left, right]
    exact .refused rfl rfl

/-! ## Equality against order -/

/-- The value is not a NaN, and does not become one as a number. -/
def NotNaN (v : Value) : Prop := ∀ x, v.toNumber = .ok x → x.isNaN = false

theorem notNaN_of_toNumber {v : Value} {x : Float} (h : v.toNumber = .ok x)
    (number : x.isNaN = false) : v.NotNaN := by
  intro y same
  rw [h] at same
  cases same
  exact number

/-- A text beside a number or a truth value that is not a number as a whole, so that the order takes
the number at its start while it equals no number. -/
inductive PartlyRead : Value → Value → Prop
  | left {s : Text} {v : Value} : Number.readWhole s = none → v.kind = .number ∨ v.kind = .boolean →
    PartlyRead (.text s) v
  | right {s : Text} {v : Value} : Number.readWhole s = none →
    v.kind = .number ∨ v.kind = .boolean → PartlyRead v (.text s)

theorem toNumber_of_numeric? {v : Value} {x : Float} (h : v.numeric? = some x) :
    v.toNumber = .ok x := by
  cases v with
  | number y =>
    cases h
    rfl
  | boolean b =>
    cases h
    rfl
  | text s =>
    change Number.readWhole s = some x at h
    unfold Number.readWhole at h
    cases found : Number.read s with
    | none =>
      rw [found] at h
      cases h
    | some parts =>
      obtain ⟨y, rest⟩ := parts
      rw [found] at h
      change (if rest.all Text.blank then some y else none) = some x at h
      split at h
      · cases h
        rw [toNumber, found]
      · cases h
  | null | date | array | object => cases h

theorem ok_of_bind {α : Type} {x y : Except Fault α} {order : α → α → Ordering} {o : Ordering}
    (h : (do pure (order (← x) (← y))) = Except.ok o) :
    ∃ a b, x = .ok a ∧ y = .ok b ∧ o = order a b := by
  cases x with
  | error => cases h
  | ok a =>
    cases y with
    | error => cases h
    | ok b =>
      cases h
      exact ⟨a, b, rfl, rfl, rfl⟩

/-- An instant equals a text that stands for an instant when the two are the same. -/
theorem instantEquals_text {s : Text} {u : Instant} (h : (Value.text s).toInstant = .ok u)
    (t : Instant) : instantEquals t (.text s) = (u == t) := by
  rw [toInstant] at h
  split at h
  · next found =>
    cases h
    rw [instantEquals, found]
    rfl
  · cases h

/-- Two values that have an order are compared as texts, as instants or as numbers, both in the
order and in the equality. -/
theorem compared_cases {a b : Value} {o : Ordering} (ordered : a.order b = .ok o) :
    (∃ s t, a = .text s ∧ b = .text t ∧ o = orderTexts s t) ∨
    (∃ t u : Instant, (a.kind = .date ∨ b.kind = .date) ∧ o = compare t u ∧
      a.looselyEqual b = (t == u)) ∨
    (∃ x y, (a.kind = .number ∨ a.kind = .boolean ∨ b.kind = .number ∨ b.kind = .boolean) ∧
      a.toNumber = .ok x ∧ b.toNumber = .ok y ∧ o = orderNumbers x y ∧
      a.looselyEqual b = a.equalNumbers b) := by
  cases a <;> cases b
  case text.text s t =>
    cases ordered
    exact .inl ⟨s, t, rfl, rfl, rfl⟩
  case date.date t u =>
    cases ordered
    exact .inr (.inl ⟨t, u, .inl rfl, rfl, rfl⟩)
  case date.text t s =>
    obtain ⟨_, u, ⟨⟩, right, rfl⟩ := ok_of_bind ordered
    refine .inr (.inl ⟨t, u, .inl rfl, rfl, ?_⟩)
    exact (instantEquals_text right t).trans BEq.comm
  case text.date s u =>
    obtain ⟨t, _, left, ⟨⟩, rfl⟩ := ok_of_bind ordered
    exact .inr (.inl ⟨t, u, .inr rfl, rfl, instantEquals_text left u⟩)
  case boolean.boolean p q =>
    obtain ⟨x, y, left, right, rfl⟩ := ok_of_bind ordered
    refine .inr (.inr ⟨x, y, by simp [kind], left, right, rfl, ?_⟩)
    -- of equal kinds, truth values are compared as they are, and not as 1 and 0
    cases p <;> cases q <;> rfl
  case number.number | number.boolean | number.text | boolean.number | boolean.text | text.number |
      text.boolean =>
    obtain ⟨x, y, left, right, rfl⟩ := ok_of_bind ordered
    exact .inr (.inr ⟨x, y, by simp [kind], left, right, rfl, rfl⟩)
  all_goals cases ordered

theorem orderTexts_eq_eq_iff {s t : Text} : orderTexts s t = .eq ↔ s = t := by
  unfold orderTexts
  constructor
  · intro same
    by_cases less : s < t
    · rw [if_pos less] at same
      cases same
    · by_cases greater : t < s
      · rw [if_neg less, if_pos greater] at same
        cases same
      · exact List.le_antisymm greater less
  · rintro rfl
    rw [if_neg (List.lt_irrefl s), if_neg (List.lt_irrefl s)]

/-- A text that is read in part stands beside a number or a truth value. -/
theorem PartlyRead.kinds {a b : Value} (h : PartlyRead a b) :
    (a.kind = .text ∧ (b.kind = .number ∨ b.kind = .boolean)) ∨
      (b.kind = .text ∧ (a.kind = .number ∨ a.kind = .boolean)) := by
  cases h with
  | left _ other => exact .inl ⟨rfl, other⟩
  | right _ other => exact .inr ⟨rfl, other⟩

/-- Beside a number or a truth value, a text stands for a number as a whole unless it is read in
part. -/
theorem partlyRead_iff {a b : Value} {x y : Float} (left : a.toNumber = .ok x)
    (right : b.toNumber = .ok y)
    (kinds : a.kind = .number ∨ a.kind = .boolean ∨ b.kind = .number ∨ b.kind = .boolean) :
    PartlyRead a b ↔ a.numeric? = none ∨ b.numeric? = none := by
  constructor
  · rintro (⟨notWhole, -⟩ | ⟨notWhole, -⟩)
    · exact .inl notWhole
    · exact .inr notWhole
  · have isText {v : Value} {z : Float} (number : v.toNumber = .ok z) (none : v.numeric? = none) :
        ∃ s, v = .text s := by
      cases v with
      | text s => exact ⟨s, rfl⟩
      | number | boolean => cases none
      | null | date | array | object => cases number
    rintro (none | none)
    · obtain ⟨s, rfl⟩ := isText left none
      refine .left none ?_
      rcases kinds with ⟨⟨⟩⟩ | ⟨⟨⟩⟩ | other
      exact other
    · obtain ⟨s, rfl⟩ := isText right none
      refine .right none ?_
      rcases kinds with other | other | ⟨⟨⟩⟩ | ⟨⟨⟩⟩
      · exact .inl other
      · exact .inr other

/-- Of two values in order, those are equal that have the same place, but for texts that are read in
part. -/
theorem looselyEqual_iff_of_order {a b : Value} {o : Ordering} (ordered : a.order b = .ok o)
    (left : a.NotNaN) (right : b.NotNaN) :
    a.looselyEqual b = true ↔ o = .eq ∧ ¬ PartlyRead a b := by
  rcases compared_cases ordered with ⟨s, t, rfl, rfl, rfl⟩ | ⟨t, u, date, rfl, equal⟩ |
    ⟨x, y, kinds, leftNumber, rightNumber, rfl, equal⟩
  · have whole : ¬ PartlyRead (.text s) (.text t) := by
      intro h
      simpa [kind] using h.kinds
    rw [orderTexts_eq_eq_iff, and_iff_left whole]
    show (s == t) = true ↔ s = t
    exact beq_iff_eq
  · have whole : ¬ PartlyRead a b := by
      intro h
      have := h.kinds
      rcases date with date | date <;> simp [date] at this
    rw [equal, beq_iff_eq, and_iff_left whole]
    exact Std.LawfulEqOrd.compare_eq_iff_eq.symm
  · rw [equal, partlyRead_iff leftNumber rightNumber kinds, equalNumbers]
    cases foundLeft : a.numeric? with
    | none => simp
    | some x' =>
      cases foundRight : b.numeric? with
      | none => simp
      | some y' =>
        have sameLeft := leftNumber.symm.trans (toNumber_of_numeric? foundLeft)
        have sameRight := rightNumber.symm.trans (toNumber_of_numeric? foundRight)
        cases sameLeft
        cases sameRight
        have same := orderNumbers_eq_eq_iff (left x leftNumber) (right y rightNumber)
        simpa using same.symm

theorem apply_of_order {a b : Value} {o : Ordering} (ordered : a.order b = .ok o) :
    Operator.less.apply a b = .ok (.boolean o.isLT) ∧
      Operator.equal.apply a b = .ok (.boolean (a.looselyEqual b)) ∧
      Operator.greater.apply a b = .ok (.boolean o.isGT) := by
  refine ⟨?_, rfl, ?_⟩
  · show Operator.onOrder Ordering.isLT a b = _
    rw [Operator.onOrder, ordered]
    rfl
  · show Operator.onOrder Ordering.isGT a b = _
    rw [Operator.onOrder, ordered]
    rfl

/-- Of two values that have an order and are no NaN, the first is less than the second, equal to it
or greater, just one of the three, and they are equal if and only if they have the same place. The
only exception is a text beside a number or a truth value that is not a number as a whole but starts
with just this number: then none of the three holds. -/
theorem comparisons_exclusive {a b : Value} {o : Ordering} (ordered : a.order b = .ok o)
    (left : a.NotNaN) (right : b.NotNaN) :
    (¬ (o = .eq ∧ PartlyRead a b) →
      (o = .eq ↔ a.looselyEqual b = true) ∧
      ∃! op, op ∈ [Operator.less, .equal, .greater] ∧ op.apply a b = .ok (.boolean true)) ∧
    (o = .eq → PartlyRead a b →
      ∀ op ∈ [Operator.less, .equal, .greater], op.apply a b = .ok (.boolean false)) := by
  have equal := looselyEqual_iff_of_order ordered left right
  obtain ⟨applyLess, applyEqual, applyGreater⟩ := apply_of_order ordered
  constructor
  · intro noException
    have agree : o = .eq ↔ a.looselyEqual b = true := by
      rw [equal]
      constructor
      · intro same
        exact ⟨same, fun partly => noException ⟨same, partly⟩⟩
      · exact And.left
    -- which of the three operators holds follows from the order alone
    have holds_iff (op : Operator) :
        (op ∈ [Operator.less, .equal, .greater] ∧ op.apply a b = .ok (.boolean true)) ↔
          op = .less ∧ o = .lt ∨ op = .equal ∧ o = .eq ∨ op = .greater ∧ o = .gt := by
      constructor
      · rintro ⟨mem, holds⟩
        simp only [List.mem_cons, List.not_mem_nil, or_false] at mem
        rcases mem with rfl | rfl | rfl
        · rw [applyLess, Except.ok.injEq, boolean.injEq, Ordering.isLT_iff_eq_lt] at holds
          exact .inl ⟨rfl, holds⟩
        · rw [applyEqual, Except.ok.injEq, boolean.injEq, ← agree] at holds
          exact .inr (.inl ⟨rfl, holds⟩)
        · rw [applyGreater, Except.ok.injEq, boolean.injEq, Ordering.isGT_iff_eq_gt] at holds
          exact .inr (.inr ⟨rfl, holds⟩)
      · rintro (⟨rfl, rfl⟩ | ⟨rfl, same⟩ | ⟨rfl, rfl⟩)
        · exact ⟨by simp, applyLess⟩
        · exact ⟨by simp, by rw [applyEqual, agree.mp same]⟩
        · exact ⟨by simp, applyGreater⟩
    refine ⟨agree, ?_⟩
    simp only [holds_iff]
    cases o <;> simp
  · intro same partly op mem
    have notEqual : a.looselyEqual b = false := by
      rw [← Bool.not_eq_true, equal]
      exact fun h => h.2 partly
    subst same
    rw [notEqual] at applyEqual
    simp only [List.mem_cons, List.not_mem_nil, or_false] at mem
    rcases mem with rfl | rfl | rfl
    · exact applyLess
    · exact applyEqual
    · exact applyGreater

theorem order_five_fiveX : order (.number 5) (.text (utf8 "5x")) = .ok .eq :=
  congrArg Except.ok (show orderNumbers 5 (Number.Numeral.ofDecimal 5 0) = .eq by decide +kernel)

/-- The number 5 beside the text `5x`, which starts with it, and beside the text ` 7 x`. -/
theorem comparisons_exclusive_of_five :
    (order (.number 5) (.text (utf8 "5x")) = .ok .eq ∧ NotNaN (.number 5) ∧
      NotNaN (.text (utf8 "5x")) ∧ PartlyRead (.number 5) (.text (utf8 "5x")) ∧
      ∀ op ∈ [Operator.less, .equal, .greater],
        op.apply (.number 5) (.text (utf8 "5x")) = .ok (.boolean false)) ∧
    (order (.number 5) (.text (utf8 " 7 x")) = .ok .lt ∧ NotNaN (.text (utf8 " 7 x")) ∧
      ∃! op, op ∈ [Operator.less, .equal, .greater] ∧
        op.apply (.number 5) (.text (utf8 " 7 x")) = .ok (.boolean true)) := by
  have five : NotNaN (.number 5) := notNaN_of_toNumber rfl (by decide +kernel)
  have fiveX : NotNaN (.text (utf8 "5x")) := notNaN_of_toNumber rfl (by decide +kernel)
  have sevenX : NotNaN (.text (utf8 " 7 x")) := notNaN_of_toNumber rfl (by decide +kernel)
  have less : order (.number 5) (.text (utf8 " 7 x")) = .ok .lt :=
    congrArg Except.ok (show orderNumbers 5 (Number.Numeral.ofDecimal 7 0) = .lt by decide +kernel)
  have partly : PartlyRead (.number 5) (.text (utf8 "5x")) := .right (by rfl) (.inl rfl)
  exact ⟨⟨order_five_fiveX, five, fiveX, partly,
      (comparisons_exclusive order_five_fiveX five fiveX).2 rfl partly⟩,
    less, sevenX, ((comparisons_exclusive less five sevenX).1 (by rintro ⟨⟨⟩, -⟩)).2⟩

/-- The number 5 and the text `5x` have the same place in the order, but they are not equal, and
neither is less than the other. -/
theorem five_beside_fiveX :
    let a : Value := .number 5
    let b : Value := .text (utf8 "5x")
    a.order b = .ok .eq ∧ a.NotNaN ∧ b.NotNaN ∧ a.looselyEqual b = false ∧
      Operator.less.apply a b = .ok (.boolean false) ∧
      Operator.equal.apply a b = .ok (.boolean false) ∧
      Operator.greater.apply a b = .ok (.boolean false) := by
  intro a b
  obtain ⟨less, equal, greater⟩ := apply_of_order order_five_fiveX
  exact ⟨order_five_fiveX, notNaN_of_toNumber rfl (by decide +kernel),
    notNaN_of_toNumber rfl (by decide +kernel), rfl, less, equal, greater⟩

end Value

end ComputedFields
