import ComputedFields.Function.Dates
import ComputedFields.Proofs.IsoRoundTrip
import ComputedFields.Proofs.WholeDoubles

/-!
# `ComputedFields.Proofs.MonthShifts` — dates moved by calendar months

Months are not equally long, so that a date is moved by months through its civil time. The months of
all years are numbered; the number of the month is raised, and the day is kept or, when the new
month is too short for it, becomes the last of the month. That this leads to one instant and no
other is a matter of whole numbers. The amount, the limit on it and the milliseconds of the instant
that is found are doubles, but each is a whole number or far above its limit, so that nothing is
rounded where it counts.

* `Civil.addMonths_eq_tdiv` — the shift of a civil time, by divisions that round toward zero;
* `MonthsLater`, `monthsLater_iff` — just one instant is so many calendar months after another, and
  it is the one that is calculated;
* `shiftMonths_eq` — when a shift by months succeeds, and what it gives;
* `Asks` — the arguments ask for an instant to be moved by a whole number of units;
* `dateAdd_monthsLater` — the month, the day and the time are right, and a year is 12 months;
* `dateAdd_fails_iff` — the shifts that fail are those that lead out of the range of instants and
  those by more than 3.3 million months;
* `dateAdd_misses_target` — a shift by more than these between two instants that are in range.
-/

namespace ComputedFields

namespace Civil

open Calendar

/-- The number of the month, counted from January of the year 0. -/
def monthIndex (c : Civil) : Int := c.year * 12 + c.month - 1

theorem Valid.addMonths {c : Civil} (h : c.Valid) (n : Int) : (c.addMonths n).Valid := by
  obtain ⟨month, day, hour, minute, second, millisecond⟩ := h
  refine ⟨?_, ⟨?_, ?_⟩, hour, minute, second, millisecond⟩
  · show 1 ≤ (c.year * 12 + (c.month - 1) + n) % 12 + 1 ∧
      (c.year * 12 + (c.month - 1) + n) % 12 + 1 ≤ 12
    omega
  · have positive := daysInMonth_pos (c.year * 12 + (c.month - 1) + n)
    exact le_min day.1 positive
  · exact min_le_right _ _

/-- The shift, by divisions that round toward zero. -/
theorem addMonths_eq_tdiv (c : Civil) (months : Int) :
    c.addMonths months =
      let total := c.year * 12 + (c.month - 1) + months
      let year := if 0 ≤ total then total.tdiv 12 else (total - 11).tdiv 12
      let month := total - year * 12 + 1
      { c with year, month, day := min c.day (daysInMonth year month) } := by
  have years (total : Int) :
      (if 0 ≤ total then total.tdiv 12 else (total - 11).tdiv 12) = total / 12 := by
    rw [ediv_eq_tdiv total (by decide), apply_ite (Int.tdiv · 12)]
    rfl
  have rest (total : Int) : total - total / 12 * 12 = total % 12 := by omega
  simp only [Civil.addMonths, years, rest]

/-- A valid civil time is found by its month, its day and its time of day. -/
theorem Valid.eq_addMonths_iff {c later : Civil} (h : later.Valid) (n : Int) :
    later = c.addMonths n ↔ later.monthIndex = c.monthIndex + n ∧
      later.day = min c.day (daysInMonth later.year later.month) ∧
      later.hour = c.hour ∧ later.minute = c.minute ∧ later.second = c.second ∧
      later.millisecond = c.millisecond := by
  unfold monthIndex
  constructor
  · rintro rfl
    refine ⟨?_, rfl, rfl, rfl, rfl, rfl⟩
    simp only [Civil.addMonths]
    omega
  · rintro ⟨index, day, hour, minute, second, millisecond⟩
    obtain ⟨first, last⟩ := h.month
    have year : (c.year * 12 + (c.month - 1) + n) / 12 = later.year := by omega
    have month : (c.year * 12 + (c.month - 1) + n) % 12 + 1 = later.month := by omega
    refine fields_injective ?_
    simp only [fields, Civil.addMonths, year, month, ← day, hour, minute, second, millisecond]

end Civil

namespace Function.Dates

open Calendar Civil Number

/-! ## Instants that are months apart -/

/-- One instant is `n` calendar months after another: its month comes `n` months later, its day is
the same or, when its month has fewer days, the last of them, and its time of day is the same. -/
structure MonthsLater (n : Int) (t later : Instant) : Prop where
  month : (ofInstant later).monthIndex = (ofInstant t).monthIndex + n
  day : (ofInstant later).day =
    min (ofInstant t).day (daysInMonth (ofInstant later).year (ofInstant later).month)
  hour : (ofInstant later).hour = (ofInstant t).hour
  minute : (ofInstant later).minute = (ofInstant t).minute
  second : (ofInstant later).second = (ofInstant t).second
  millisecond : (ofInstant later).millisecond = (ofInstant t).millisecond

/-- Just one instant is so many months after another. -/
theorem monthsLater_iff {n : Int} {t later : Instant} :
    MonthsLater n t later ↔ later = ((ofInstant t).addMonths n).toInstant := by
  obtain ⟨valid, -⟩ := ofInstant_spec t
  obtain ⟨validLater, back⟩ := ofInstant_spec later
  have fields := validLater.eq_addMonths_iff (c := ofInstant t) n
  constructor
  · rintro ⟨month, day, hour, minute, second, millisecond⟩
    rw [← fields.mpr ⟨month, day, hour, minute, second, millisecond⟩, back]
  · intro same
    have civil : ofInstant later = (ofInstant t).addMonths n := by
      rw [same]
      exact (valid.addMonths n).ofInstant_toInstant
    obtain ⟨month, day, hour, minute, second, millisecond⟩ := fields.mp civil
    exact ⟨month, day, hour, minute, second, millisecond⟩

/-! ## The limits -/

theorem monthLimit_isWhole : IsWhole monthLimit 3300000 :=
  ofNat_isWhole (n := 3300000) (by decide)

theorem instantLimit_isWhole : IsWhole instantLimit 8640000000000000 :=
  ofNat_isWhole (n := 8640000000000000) (by decide)

/-- A whole number of milliseconds names itself, when it names an instant. -/
theorem instantOfNumber_ofInt (t : Int) :
    instantOfNumber (Float.ofInt t) =
      if t.natAbs ≤ 8640000000000000 then .ok t else .error (.dateOutOfRange (Float.ofInt t)) := by
  have stands := standsFor_ofInt t
  have within := stands.within_iff instantLimit_isWhole (by decide)
  rw [instantOfNumber]
  by_cases inRange : t.natAbs ≤ 8640000000000000
  · have whole := stands.isWhole_of_lt (by omega)
    rw [if_pos (within.mpr (by omega)), if_pos inRange, whole.roundHalfAway]
  · rw [if_neg (fun h => inRange (by have := within.mp h; omega)), if_neg inRange]

/-- A shift by a whole number of months succeeds when both this number and the instant it leads to
are within their limits, and it gives this instant. -/
theorem shiftMonths_eq {x : Float} {n : Int} {t later : Instant} (amount : StandsFor x n)
    (target : MonthsLater n t later) :
    shiftMonths t x =
      if n.natAbs ≤ 3300000 then
        if later.natAbs ≤ 8640000000000000 then .ok later
        else .error (.dateOutOfRange (Float.ofInt later))
      else .error (.monthsOutOfRange x) := by
  have within := amount.within_iff monthLimit_isWhole (by decide)
  rw [shiftMonths]
  by_cases few : n.natAbs ≤ 3300000
  · have whole := amount.isWhole_of_lt (by omega)
    rw [if_pos (within.mpr (by omega)), if_pos few, whole.truncate]
    show instantOfNumber (Float.ofInt ((ofInstant t).addMonths n).toInstant) = _
    rw [← monthsLater_iff.mp target, instantOfNumber_ofInt]
  · rw [if_neg (fun h => few (by have := within.mp h; omega)), if_neg few]

/-! ## Dates moved by months and years -/

/-- The arguments ask for an instant to be moved by a whole number of units. -/
structure Asks (arguments : List Value) (t : Instant) (n : Int) (unit : String) : Prop where
  date : (argument arguments 0).toInstant = .ok t
  amount : ∃ x, (argument arguments 1).toNumber = .ok x ∧ (x == Float.ofInt n) = true
  unit : unitArgument arguments 2 = utf8 unit

variable {arguments : List Value} {t : Instant} {n : Int}

theorem Asks.dateAdd_eq {unit : String} (h : Asks arguments t n unit) (context : Context) :
    ∃ x, StandsFor x n ∧ dateAdd arguments context =
      (shift t x (utf8 unit)).map fun later => Value.text (writeIso later) := by
  obtain ⟨date, ⟨x, amount, same⟩, named⟩ := h
  refine ⟨x, (standsFor_ofInt n).of_beq same, ?_⟩
  rw [dateAdd, date, amount, named]
  show (do pure (Value.text (writeIso (← shift t x (utf8 unit))))) = _
  cases shift t x (utf8 unit) <;> rfl

/-- The units by which a date is moved through the calendar, with their lengths in months. -/
def monthUnits : List (String × Int) := [("months", 1), ("years", 12), ("y", 12)]

theorem Asks.dateAdd_months {unit : String} {k : Int} (h : Asks arguments t n unit)
    (length : (unit, k) ∈ monthUnits) (context : Context) :
    ∃ x, StandsFor x (n * k) ∧ dateAdd arguments context =
      (shiftMonths t x).map fun later => Value.text (writeIso later) := by
  have twelve : IsWhole 12 12 := ofNat_isWhole (n := 12) (by decide)
  obtain ⟨x, stands, eq⟩ := h.dateAdd_eq context
  have years := stands.truncated.mul twelve (by decide)
  simp only [monthUnits, List.mem_cons, Prod.mk.injEq, List.not_mem_nil, or_false] at length
  rcases length with ⟨rfl, rfl⟩ | ⟨rfl, rfl⟩ | ⟨rfl, rfl⟩
  · rw [Int.mul_one]
    exact ⟨x, stands, eq⟩
  · exact ⟨_, years, eq⟩
  · exact ⟨_, years, eq⟩

theorem months_mem : ("months", 1) ∈ monthUnits := by simp [monthUnits]

/-- The number of months and the instant that they lead to are within their limits. -/
def Admitted (months : Int) (later : Instant) : Prop :=
  months.natAbs ≤ 3300000 ∧ later.natAbs ≤ 8640000000000000

/-- What is admitted leads to its target, and all else is refused. -/
theorem Asks.dateAdd_target {unit : String} {k : Int} {later : Instant}
    (h : Asks arguments t n unit) (length : (unit, k) ∈ monthUnits)
    (target : MonthsLater (n * k) t later) (context : Context) :
    (Admitted (n * k) later → dateAdd arguments context = .ok (.text (writeIso later))) ∧
    (¬ Admitted (n * k) later →
      ∃ fault, dateAdd arguments context = .error fault ∧ fault.code = .typeError) := by
  obtain ⟨x, stands, eq⟩ := h.dateAdd_months length context
  rw [eq, shiftMonths_eq stands target]
  constructor
  · rintro ⟨few, inRange⟩
    rw [if_pos few, if_pos inRange]
    rfl
  · intro beyond
    by_cases few : (n * k).natAbs ≤ 3300000
    · rw [if_pos few, if_neg fun inRange => beyond ⟨few, inRange⟩]
      exact ⟨_, rfl, rfl⟩
    · rw [if_neg few]
      exact ⟨_, rfl, rfl⟩

theorem Asks.dateAdd_eq_ok_iff {unit : String} {k : Int} {later : Instant}
    (h : Asks arguments t n unit) (length : (unit, k) ∈ monthUnits)
    (target : MonthsLater (n * k) t later) (context : Context) {v : Value} :
    dateAdd arguments context = .ok v ↔
      Admitted (n * k) later ∧ v = .text (writeIso later) := by
  obtain ⟨succeeds, fails⟩ := h.dateAdd_target length target context
  constructor
  · intro ok
    by_cases admitted : Admitted (n * k) later
    · have same := (succeeds admitted).symm.trans ok
      exact ⟨admitted, (Except.ok.inj same).symm⟩
    · obtain ⟨fault, error, -⟩ := fails admitted
      rw [error] at ok
      cases ok
  · rintro ⟨admitted, rfl⟩
    exact succeeds admitted

/-- Whenever an instant is moved by months, the result is the text of the one instant that is so
many calendar months later, and of no other instant. Moving it by years succeeds just when moving it
by 12 times as many months does, with the same result. This holds of all instants, among them those
at most 8.64e15 milliseconds from the epoch. -/
theorem dateAdd_monthsLater :
    (∀ arguments t n context v, Asks arguments t n "months" → dateAdd arguments context = .ok v →
      ∃ later, MonthsLater n t later ∧ v = .text (writeIso later) ∧
        ∀ other, v = .text (writeIso other) → other = later) ∧
    (∀ arguments arguments' t n unit context context' v, unit ∈ ["years", "y"] →
      Asks arguments t n unit → Asks arguments' t (12 * n) "months" →
      (dateAdd arguments context = .ok v ↔ dateAdd arguments' context' = .ok v)) := by
  constructor
  · intro arguments t n context v asks ok
    have target : MonthsLater n t _ := monthsLater_iff.mpr rfl
    rw [asks.dateAdd_eq_ok_iff months_mem (by rwa [Int.mul_one]) context] at ok
    refine ⟨_, target, ok.2, fun other same => ?_⟩
    rw [ok.2] at same
    exact (writeIso_injective (Value.text.inj same)).symm
  · intro arguments arguments' t n unit context context' v years asks asks'
    have target : MonthsLater (n * 12) t _ := monthsLater_iff.mpr rfl
    rw [Int.mul_comm 12 n] at asks'
    have year : (unit, 12) ∈ monthUnits := by simpa [monthUnits] using years
    rw [asks.dateAdd_eq_ok_iff year target context,
      asks'.dateAdd_eq_ok_iff months_mem (by rwa [Int.mul_one]) context', Int.mul_one]

/-- From the last of a January to the last of a February, given as text, and from a leap day to the
February of the next year. -/
theorem dateAdd_monthsLater_of_leap_years :
    let january := [.text (utf8 "2024-01-31T10:30:00Z"), .text (utf8 "1"), .text (utf8 "Months")]
    let leapDay := [.date 1709164800000, .number 1, .text (utf8 "years")]
    let leapDay' := [.date 1709164800000, .number 12, .text (utf8 "months")]
    (Asks january 1706697000000 1 "months" ∧
      dateAdd january {} = .ok (.text (writeIso 1709202600000)) ∧
      ∃ later, MonthsLater 1 1706697000000 later ∧
        Value.text (writeIso 1709202600000) = .text (writeIso later) ∧
        ∀ other, Value.text (writeIso 1709202600000) = .text (writeIso other) → other = later) ∧
    (Asks leapDay 1709164800000 1 "years" ∧ Asks leapDay' 1709164800000 (12 * 1) "months" ∧
      dateAdd leapDay {} = .ok (.text (writeIso 1740700800000)) ∧
      dateAdd leapDay' {} = .ok (.text (writeIso 1740700800000))) := by
  intro january leapDay leapDay'
  have asks : Asks january 1706697000000 1 "months" :=
    ⟨rfl, ⟨_, rfl, by decide +kernel⟩, rfl⟩
  have asksYear : Asks leapDay 1709164800000 1 "years" :=
    ⟨rfl, ⟨_, rfl, by decide +kernel⟩, rfl⟩
  have asksMonths : Asks leapDay' 1709164800000 (12 * 1) "months" :=
    ⟨rfl, ⟨_, rfl, by decide +kernel⟩, rfl⟩
  have february : MonthsLater (1 * 1) 1706697000000 1709202600000 :=
    monthsLater_iff.mpr (by decide +kernel)
  have nextYear : MonthsLater (1 * 12) 1709164800000 1740700800000 :=
    monthsLater_iff.mpr (by decide +kernel)
  have year : ("years", 12) ∈ monthUnits := by simp [monthUnits]
  have ok := (asks.dateAdd_target months_mem february {}).1 ⟨by decide, by decide⟩
  have okYear := (asksYear.dateAdd_target year nextYear {}).1 ⟨by decide, by decide⟩
  exact ⟨⟨asks, ok, dateAdd_monthsLater.1 _ _ _ _ _ asks ok⟩, asksYear, asksMonths, okYear,
    (dateAdd_monthsLater.2 _ _ _ _ _ _ {} _ (by simp) asksYear asksMonths).mp okYear⟩

/-- A shift by months fails, always with a type error, when the instant so many calendar months
later is more than 8.64e15 milliseconds from the epoch, and also when it is a shift by more than 3.3
million months. In every other case it gives this instant. -/
theorem dateAdd_fails_iff (asks : Asks arguments t n "months") (context : Context) :
    ∃ later, (∀ r, MonthsLater n t r ↔ r = later) ∧
      ((∃ fault, dateAdd arguments context = .error fault ∧ fault.code = .typeError) ↔
        8640000000000000 < later.natAbs ∨ 3300000 < n.natAbs) ∧
      (later.natAbs ≤ 8640000000000000 → n.natAbs ≤ 3300000 →
        dateAdd arguments context = .ok (.text (writeIso later))) := by
  refine ⟨_, fun _ => monthsLater_iff, ?_⟩
  have target : MonthsLater n t _ := monthsLater_iff.mpr rfl
  obtain ⟨succeeds, fails⟩ := asks.dateAdd_target months_mem (by rwa [Int.mul_one]) context
  rw [Int.mul_one, Admitted] at succeeds fails
  refine ⟨⟨?_, ?_⟩, fun inRange few => succeeds ⟨few, inRange⟩⟩
  · rintro ⟨fault, error, -⟩
    by_contra within
    rw [succeeds (by omega)] at error
    cases error
  · intro beyond
    exact fails (by omega)

/-- One month from the last of a January, and 275,000 years from the epoch, which is too far. -/
theorem dateAdd_fails_iff_of_january :
    let near := [.date 1706697000000, .number 1, .text (utf8 "months")]
    let far := [.date 0, .number 3300000, .text (utf8 "months")]
    (Asks near 1706697000000 1 "months" ∧
      dateAdd near {} = .ok (.text (writeIso 1709202600000))) ∧
    (Asks far 0 3300000 "months" ∧
      ∃ fault, dateAdd far {} = .error fault ∧ fault.code = .typeError) := by
  intro near far
  have asksNear : Asks near 1706697000000 1 "months" := ⟨rfl, ⟨_, rfl, by decide +kernel⟩, rfl⟩
  have asksFar : Asks far 0 3300000 "months" := ⟨rfl, ⟨_, rfl, by decide +kernel⟩, rfl⟩
  constructor
  · obtain ⟨later, target, -, gives⟩ := dateAdd_fails_iff asksNear {}
    obtain rfl := (target 1709202600000).mp (monthsLater_iff.mpr (by decide +kernel))
    exact ⟨asksNear, gives (by decide) (by decide)⟩
  · obtain ⟨later, target, fails, -⟩ := dateAdd_fails_iff asksFar {}
    obtain rfl := (target 8678161843200000).mp (monthsLater_iff.mpr (by decide +kernel))
    exact ⟨asksFar, fails.mpr (.inl (by decide))⟩

/-- From the first instant in range, 4 million months lead into the year 61512, which is in range as
well, but the shift is refused. -/
theorem dateAdd_misses_target :
    let arguments := [.date (-8640000000000000), .number 4000000, .text (utf8 "months")]
    Asks arguments (-8640000000000000) 4000000 "months" ∧
      MonthsLater 4000000 (-8640000000000000) 1878984000000000 ∧
      (1878984000000000 : Instant).natAbs ≤ 8640000000000000 ∧
      ∃ fault, dateAdd arguments {} = .error fault ∧ fault.code = .typeError := by
  intro arguments
  have asks : Asks arguments (-8640000000000000) 4000000 "months" :=
    ⟨rfl, ⟨_, rfl, by decide +kernel⟩, rfl⟩
  have target : MonthsLater (4000000 * 1) (-8640000000000000) 1878984000000000 :=
    monthsLater_iff.mpr (by decide +kernel)
  have tooMany : ¬ Admitted (4000000 * 1) 1878984000000000 := by
    rintro ⟨few, -⟩
    exact absurd few (by decide)
  exact ⟨asks, target, by decide, (asks.dateAdd_target months_mem target {}).2 tooMany⟩

end Function.Dates

end ComputedFields
