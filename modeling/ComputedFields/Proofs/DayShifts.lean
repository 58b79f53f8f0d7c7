import ComputedFields.Proofs.IsoRoundTrip
import ComputedFields.Proofs.MonthShifts
import ComputedFields.Proofs.WholeSums

/-!
# `ComputedFields.Proofs.DayShifts` — dates moved by days, one move after another

A moved date is returned as text, and it is this text that the next move starts from. The moves
themselves add up. Their doubles lose nothing: a number of days in milliseconds may need more than
53 digits, but the last ten of them are zeros, and the instants are below `2 ^ 53`. The text is the
narrow place, since a year can be written in any number of digits and is read in four.

* `shiftBy_days` — a shift by whole days within the range of instants is exact;
* `AskDays` — the arguments after a date ask for it to be moved by a whole number of days;
* `TakenAs` — all functions take a value for an instant;
* `dateAdd_dateAdd_days` — two moves make one when the text between them has a year of four digits,
  and when it has not, the second of them fails;
* `dateAdd_past_four_digits` — one day into the year 10000 and back.
-/

namespace ComputedFields.Function.Dates

open Calendar Number

/-! ## Days as doubles -/

/-- The instant is at most 100,000,000 days from the epoch. -/
def InRange (t : Instant) : Prop := t.natAbs ≤ 8640000000000000

instance : DecidablePred InRange := fun t => inferInstanceAs (Decidable (t.natAbs ≤ _))

/-- The instant that is a number of days after another. -/
def daysLater (t : Instant) (n : Int) : Instant := t + n * millisecondsPerDay

theorem daysLater_daysLater (t : Instant) (a b : Int) :
    daysLater (daysLater t a) b = daysLater t (a + b) := by
  show t + a * millisecondsPerDay + b * millisecondsPerDay = t + (a + b) * millisecondsPerDay
  rw [Int.add_mul, Int.add_assoc]

theorem dayLength_isWhole : IsWhole 86400000 86400000 :=
  ofNat_isWhole (n := 86400000) (by decide)

theorem instantOfNumber_of_isWhole {x : Float} {t : Instant} (whole : IsWhole x t)
    (inRange : InRange t) : instantOfNumber x = .ok t := by
  have within := whole.within_iff instantLimit_isWhole (by decide)
  rw [instantOfNumber, if_pos (within.mpr (Int.ofNat_le.mpr inRange)), whole.roundHalfAway]

/-- Between two instants in range there are at most 200,000,000 days. -/
theorem natAbs_le_of_inRange {t : Instant} {n : Int} (start : InRange t)
    (stop : InRange (daysLater t n)) : n.natAbs ≤ 200000000 := by
  unfold InRange at start
  unfold InRange daysLater millisecondsPerDay at stop
  omega

theorem shiftBy_days {x : Float} {n : Int} {t : Instant} (amount : StandsFor x n)
    (start : InRange t) (stop : InRange (daysLater t n)) :
    shiftBy t x 86400000 = .ok (daysLater t n) := by
  have few := natAbs_le_of_inRange start stop
  have whole : IsWhole x n := amount.isWhole_of_lt (by omega)
  have startWhole : IsWhole (Float.ofInt t) t := ofInt_isWhole (Nat.lt_of_le_of_lt start (by decide))
  -- a day is 84,375 times 1,024 milliseconds
  have length : IsIntegral (x * 86400000) (n * 86400000) :=
    .of_mul whole dayLength_isWhole (q := n * 84375) (j := 10) (by omega) (by omega) (by decide)
  have sum : IsWhole (Float.ofInt t + x * 86400000) (daysLater t n) :=
    startWhole.add length (Nat.lt_of_le_of_lt stop (by decide))
  exact instantOfNumber_of_isWhole sum stop

/-! ## Calls -/

/-- The arguments after a date ask for it to be moved by a whole number of days. -/
structure AskDays (rest : List Value) (n : Int) : Prop where
  amount : ∃ x, (argument rest 0).toNumber = .ok x ∧ (x == Float.ofInt n) = true
  unit : unitArgument rest 1 = utf8 "days" ∨ unitArgument rest 1 = utf8 "d"

variable {date v : Value} {t : Instant} {n : Int} {rest : List Value}

theorem AskDays.exists_asks (h : AskDays rest n) (read : date.toInstant = .ok t) :
    ∃ unit, (unit = "days" ∨ unit = "d") ∧ Asks (date :: rest) t n unit := by
  obtain ⟨amount, days | d⟩ := h
  · exact ⟨"days", .inl rfl, read, amount, days⟩
  · exact ⟨"d", .inr rfl, read, amount, d⟩

theorem AskDays.dateAdd_eq (h : AskDays rest n) (read : date.toInstant = .ok t) (start : InRange t)
    (stop : InRange (daysLater t n)) (context : Context) :
    dateAdd (date :: rest) context = .ok (.text (writeIso (daysLater t n))) := by
  obtain ⟨unit, named, asks⟩ := h.exists_asks read
  obtain ⟨x, amount, eq⟩ := asks.dateAdd_eq context
  have moved : shift t x (utf8 unit) = shiftBy t x 86400000 := by
    rcases named with rfl | rfl <;> rfl
  rw [eq, moved, shiftBy_days amount start stop]
  rfl

/-- A call that is given no date fails. -/
theorem dateAdd_error {fault : Fault} (read : date.toInstant = .error fault) (context : Context) :
    dateAdd (date :: rest) context = .error fault := by
  show (do let t ← date.toInstant; _) = _
  rw [read]
  rfl

/-! ## Values in the place of dates -/

/-- All functions take the value for the instant: in the place of any date, a call with the value
is a call with the instant itself. -/
def TakenAs (v : Value) (t : Instant) : Prop :=
  ∀ f ∈ definitions, ∀ (i : Nat) (p : Parameter), f.parameters[i]? = some p → p.type = "date" →
    ∀ (arguments : List Value) (context : Context),
      f.apply (arguments.set i v) context = f.apply (arguments.set i (.date t)) context

/-- Two lists of arguments are the same but for one of them, which is read as the same date. -/
structure SameButDate (i : Nat) (arguments arguments' : List Value) : Prop where
  date : ∀ j, (argument arguments j).toInstant = (argument arguments' j).toInstant
  others : ∀ j, j ≠ i → argument arguments j = argument arguments' j

theorem argument_set_of_ne {i j : Nat} (ne : j ≠ i) (arguments : List Value) (v : Value) :
    argument (arguments.set i v) j = argument arguments j := by
  rw [argument, argument, List.getElem?_set_ne ne.symm]

theorem sameButDate_set (read : v.toInstant = .ok t) (i : Nat) (arguments : List Value) :
    SameButDate i (arguments.set i v) (arguments.set i (.date t)) := by
  constructor
  · intro j
    by_cases same : j = i
    · subst same
      by_cases given : j < arguments.length
      · rw [argument, argument, List.getElem?_set_self given, List.getElem?_set_self given]
        exact read
      · rw [List.set_eq_of_length_le (by omega), List.set_eq_of_length_le (by omega)]
    · rw [argument_set_of_ne same, argument_set_of_ne same]
  · intro j ne
    rw [argument_set_of_ne ne, argument_set_of_ne ne]

namespace SameButDate

variable {i : Nat} {arguments arguments' : List Value}

theorem textArgumentOr_eq (h : SameButDate i arguments arguments') {j : Nat} (ne : j ≠ i)
    (other : Text) : textArgumentOr arguments j other = textArgumentOr arguments' j other := by
  rw [textArgumentOr, textArgument, h.others j ne]
  rfl

theorem unitArgument_eq (h : SameButDate i arguments arguments') {j : Nat} (ne : j ≠ i) :
    unitArgument arguments j = unitArgument arguments' j := by
  rw [unitArgument, h.textArgumentOr_eq ne]
  rfl

theorem duration_eq (h : SameButDate i arguments arguments') (ne : 2 ≠ i) (context : Context) :
    duration arguments context = duration arguments' context := by
  rw [duration, duration, h.date 0, h.date 1, h.unitArgument_eq ne]

theorem dateAdd_eq (h : SameButDate 0 arguments arguments') (context : Context) :
    dateAdd arguments context = dateAdd arguments' context := by
  rw [dateAdd, dateAdd, h.date 0, h.others 1 (by decide), h.unitArgument_eq (by decide)]

theorem formatDate_eq (h : SameButDate 0 arguments arguments') (context : Context) :
    formatDate arguments context = formatDate arguments' context := by
  rw [formatDate, formatDate, h.date 0, h.textArgumentOr_eq (by decide)]

theorem dayOfWeek_eq (h : SameButDate 0 arguments arguments') (context : Context) :
    dayOfWeek arguments context = dayOfWeek arguments' context := by
  rw [dayOfWeek, dayOfWeek, h.date 0]

end SameButDate

/-- In the place of its dates, a function of the catalog reads nothing but instants. -/
theorem implementation_eq {f : Definition} (mem : f ∈ definitions) {i : Nat} {p : Parameter}
    (place : f.parameters[i]? = some p) (isDate : p.type = "date")
    {arguments arguments' : List Value} (h : SameButDate i arguments arguments')
    (context : Context) : f.implementation arguments context = f.implementation arguments' context := by
  simp only [definitions, List.mem_cons, List.not_mem_nil, or_false] at mem
  rcases mem with rfl | rfl | rfl | rfl | rfl | rfl
  · rfl
  · rfl
  · match i, place with
    | 0, _ | 1, _ =>
      show (duration _ _).mapError _ = (duration _ _).mapError _
      rw [h.duration_eq (by decide)]
    | 2, place =>
      cases place
      exact absurd isDate (by decide)
  · match i, place with
    | 0, _ =>
      show (dateAdd _ _).mapError _ = (dateAdd _ _).mapError _
      rw [h.dateAdd_eq]
    | 1, place | 2, place =>
      cases place
      exact absurd isDate (by decide)
  · match i, place with
    | 0, _ =>
      show (formatDate _ _).mapError _ = (formatDate _ _).mapError _
      rw [h.formatDate_eq]
    | 1, place =>
      cases place
      exact absurd isDate (by decide)
  · match i, place with
    | 0, _ =>
      show (dayOfWeek _ _).mapError _ = (dayOfWeek _ _).mapError _
      rw [h.dayOfWeek_eq]

theorem takenAs_of_toInstant (read : v.toInstant = .ok t) : TakenAs v t := by
  intro f mem i p place isDate arguments context
  have same := implementation_eq mem place isDate (sameButDate_set read i arguments) context
  rw [Definition.apply, Definition.apply, List.length_set, List.length_set, same]

/-! ## Dates moved twice -/

theorem toInstant_writeIso (year : FourDigitYear t) :
    (Value.text (writeIso t)).toInstant = .ok t := by
  have read := readIso_of_isInstant (isInstant_writeIso year)
  rw [Value.toInstant, read]

theorem toInstant_writeIso_of_not_fourDigitYear (year : ¬ FourDigitYear t) :
    (Value.text (writeIso t)).toInstant = .error (.textNotDate (writeIso t)) := by
  have unread := readIso_writeIso_of_not_fourDigitYear year
  rw [Value.toInstant, unread]

/-- Moving a date by days and the result by more days is moving it by both at once, and all
functions take the text in between for the instant that is meant, whenever the year of this instant
has four digits. Otherwise the text is no date, and the second move fails with a type error. -/
theorem dateAdd_dateAdd_days {d : Instant} {a b : Int} {first second both : List Value}
    (read : date.toInstant = .ok d) (start : InRange d) (middle : InRange (daysLater d a))
    (stop : InRange (daysLater d (a + b))) (days : AskDays first a) (more : AskDays second b)
    (sum : AskDays both (a + b)) (context : Context) :
    ∃ moved, dateAdd (date :: first) context = .ok moved ∧
      moved = .text (writeIso (daysLater d a)) ∧
      dateAdd (date :: both) context = .ok (.text (writeIso (daysLater d (a + b)))) ∧
      (FourDigitYear (daysLater d a) → TakenAs moved (daysLater d a) ∧
        dateAdd (moved :: second) context = dateAdd (date :: both) context) ∧
      (¬ FourDigitYear (daysLater d a) → ∃ fault,
        dateAdd (moved :: second) context = .error fault ∧ fault.code = .typeError) := by
  have once := sum.dateAdd_eq read start stop context
  refine ⟨_, days.dateAdd_eq read start middle context, rfl, once, ?_, ?_⟩
  · intro year
    have again := toInstant_writeIso year
    refine ⟨takenAs_of_toInstant again, ?_⟩
    rw [← daysLater_daysLater] at stop
    rw [more.dateAdd_eq again middle stop, daysLater_daysLater, once]
  · intro year
    exact ⟨_, dateAdd_error (toInstant_writeIso_of_not_fourDigitYear year) context, rfl⟩

/-- Ten days after a leap day and twenty days back, with the amounts as a number and as a text. -/
theorem dateAdd_dateAdd_days_of_leap_day :
    let date : Value := .text (utf8 "2024-02-29")
    let first := [.number 10, .text (utf8 "days")]
    let second := [.text (utf8 "-20"), .text (utf8 "D")]
    let both := [.number (-10)]
    InRange 1709164800000 ∧ AskDays first 10 ∧ AskDays second (-20) ∧ AskDays both (10 + -20) ∧
      ∃ moved, dateAdd (date :: first) {} = .ok moved ∧ TakenAs moved 1710028800000 ∧
        dateAdd (moved :: second) {} = dateAdd (date :: both) {} := by
  intro date first second both
  have read : date.toInstant = .ok 1709164800000 := rfl
  have start : InRange 1709164800000 := by decide
  have days : AskDays first 10 := ⟨⟨_, rfl, by decide +kernel⟩, .inl rfl⟩
  have more : AskDays second (-20) := ⟨⟨_, rfl, by decide +kernel⟩, .inr rfl⟩
  have sum : AskDays both (10 + -20) := ⟨⟨_, rfl, by decide +kernel⟩, .inl rfl⟩
  have year : FourDigitYear 1710028800000 := by decide
  obtain ⟨moved, ok, -, -, taken, -⟩ :=
    dateAdd_dateAdd_days read start (by decide) (by decide) days more sum {}
  exact ⟨start, days, more, sum, moved, ok, taken year⟩

/-- From the last day of the year 9999, one day forth and one day back lead nowhere, although no day
forth at all leads to that day. -/
theorem dateAdd_past_four_digits :
    let date : Value := .text (utf8 "9999-12-31")
    let days := [.number 1, .text (utf8 "days")]
    let back := [.number (-1), .text (utf8 "days")]
    let stay := [.number 0, .text (utf8 "days")]
    date.toInstant = .ok 253402214400000 ∧ InRange 253402214400000 ∧
      InRange (daysLater 253402214400000 1) ∧ InRange (daysLater 253402214400000 (1 + -1)) ∧
      AskDays days 1 ∧ AskDays back (-1) ∧ AskDays stay (1 + -1) ∧
      ∃ moved fault, dateAdd (date :: days) {} = .ok moved ∧
        dateAdd (moved :: back) {} = .error fault ∧ fault.code = .typeError ∧
        dateAdd (date :: stay) {} = .ok (.text (utf8 "9999-12-31T00:00:00.000Z")) := by
  intro date days back stay
  have read : date.toInstant = .ok 253402214400000 := rfl
  have start : InRange 253402214400000 := by decide
  have middle : InRange (daysLater 253402214400000 1) := by decide
  have stop : InRange (daysLater 253402214400000 (1 + -1)) := by decide
  have asks : AskDays days 1 := ⟨⟨_, rfl, by decide +kernel⟩, .inl rfl⟩
  have asksBack : AskDays back (-1) := ⟨⟨_, rfl, by decide +kernel⟩, .inl rfl⟩
  have asksStay : AskDays stay (1 + -1) := ⟨⟨_, rfl, by decide +kernel⟩, .inl rfl⟩
  have year : ¬ FourDigitYear (daysLater 253402214400000 1) := by decide
  have unread := toInstant_writeIso_of_not_fourDigitYear year
  have same : writeIso (daysLater 253402214400000 (1 + -1)) = utf8 "9999-12-31T00:00:00.000Z" := by
    decide +kernel
  refine ⟨read, start, middle, stop, asks, asksBack, asksStay, _, _,
    asks.dateAdd_eq read start middle {}, dateAdd_error unread {}, rfl, ?_⟩
  rw [asksStay.dateAdd_eq read start stop, same]

end ComputedFields.Function.Dates
