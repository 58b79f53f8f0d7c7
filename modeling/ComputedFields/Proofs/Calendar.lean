import ComputedFields.Calendar.Civil
import Mathlib.Data.List.Lex
import Mathlib.Tactic.IntervalCases

/-!
# `ComputedFields.Proofs.Calendar` — instants and civil times are the same

An instant is turned into a date by cutting days into eras of 400 years, years and months, with
divisions that are right although no year has a fixed length. What they have to come to is said here
by two counts of days: those before a year that is counted from March, and those before the first of
a month, where the months of all years are numbered one after the other (`monthStart`). Each month
begins where the one before it ends; this alone gives the order of dates, and from it that no two
civil times are one instant. So it is enough that the date of an instant is valid and leads back to
it: the other direction follows.

Nothing is assumed of the instants. Negative years and the days before 1970 are no cases of their
own, as all divisions round down.

* `Civil.Valid`, `Civil.fields` — civil times within their ranges, and the order to compare them in;
* `yearOfDay_bounds` — the year of a day of an era;
* `monthStart_succ`, `monthStart_add_le` — the months follow one another without a gap;
* `dateOfDay_eq` — the date of a day is in the month in which the day is;
* `ediv_eq_tdiv`, `weekday_eq_tmod`, `dayNumber_eq_tdiv`, `dateOfDay_eq_tdiv` — the same results by
  divisions that round toward zero;
* `Civil.toInstant_lt_iff` — later civil times are later instants, and only they;
* `calendar_exact` — both directions, the order and the weekdays.
-/

namespace ComputedFields

namespace Civil

open Calendar

/-- The fields of a civil time are within their ranges. -/
structure Valid (c : Civil) : Prop where
  month : 1 ≤ c.month ∧ c.month ≤ 12
  day : 1 ≤ c.day ∧ c.day ≤ daysInMonth c.year c.month
  hour : 0 ≤ c.hour ∧ c.hour ≤ 23
  minute : 0 ≤ c.minute ∧ c.minute ≤ 59
  second : 0 ≤ c.second ∧ c.second ≤ 59
  millisecond : 0 ≤ c.millisecond ∧ c.millisecond ≤ 999

/-- The fields of a civil time, the greatest unit first: times are compared in this order. -/
def fields (c : Civil) : List Int :=
  [c.year, c.month, c.day, c.hour, c.minute, c.second, c.millisecond]

theorem fields_injective : Function.Injective fields := by
  rintro ⟨_, _, _, _, _, _, _⟩ ⟨_, _, _, _, _, _, _⟩ same
  simpa [fields] using same

/-- The milliseconds of a civil time since its midnight. -/
def clock (c : Civil) : Int :=
  c.hour * 3600000 + c.minute * 60000 + c.second * 1000 + c.millisecond

end Civil

namespace Calendar

/-! ## Years from March -/

/-- The days before the first of March of a year, from that of the year 0. -/
def daysBeforeYear (year : Int) : Int := 365 * year + year / 4 - year / 100 + year / 400

/-- A year that is counted from March ends with the February of the next one. -/
theorem daysBeforeYear_succ (year : Int) :
    daysBeforeYear (year + 1) =
      daysBeforeYear year + if leapYear (year + 1) then 366 else 365 := by
  have leap : leapYear (year + 1) = true ↔
      (year + 1) % 4 = 0 ∧ (year + 1) % 100 ≠ 0 ∨ (year + 1) % 400 = 0 := by
    simp [leapYear]
  simp only [daysBeforeYear, leap]
  split <;> omega

theorem daysBeforeYear_add_eras (year eras : Int) :
    daysBeforeYear (year + 400 * eras) = daysBeforeYear year + 146097 * eras := by
  unfold daysBeforeYear
  omega

/-- The year of an era in which a day of the era is: the leap days are taken away, so that all years
have 365 days. -/
def yearOfDay (day : Int) : Int := (day - day / 1460 + day / 36524 - day / 146096) / 365

theorem yearOfDay_mono {day later : Int} (le : day ≤ later) : yearOfDay day ≤ yearOfDay later := by
  have leapDays : later / 1460 - day / 1460 ≤ later - day := by omega
  -- 146096 is four times 36524
  have fourth : ∀ n : Int, n / 146096 = n / 36524 / 4 := fun n => by omega
  have centuries : day / 36524 - day / 146096 ≤ later / 36524 - later / 146096 := by
    rw [fourth day, fourth later]
    omega
  refine Int.ediv_le_ediv (by decide) ?_
  omega

/-- The year is right on the first and on the last day of each year of an era. -/
theorem yearOfDay_ends (year : Int) (nonneg : 0 ≤ year) (lt : year < 400) :
    yearOfDay (daysBeforeYear year) = year ∧
      yearOfDay (daysBeforeYear (year + 1) - 1) = year := by
  have all : ∀ y : Fin 400,
      yearOfDay (daysBeforeYear y) = y ∧ yearOfDay (daysBeforeYear (y + 1) - 1) = y := by
    decide +kernel
  obtain ⟨y, rfl⟩ := Int.eq_ofNat_of_zero_le nonneg
  exact all ⟨y, by omega⟩

/-- So it is right on all days, as it never goes back from one day to the next. -/
theorem yearOfDay_bounds (day : Int) (nonneg : 0 ≤ day) (lt : day < 146097) :
    0 ≤ yearOfDay day ∧ yearOfDay day < 400 ∧ daysBeforeYear (yearOfDay day) ≤ day ∧
      day < daysBeforeYear (yearOfDay day + 1) := by
  have first : 0 ≤ yearOfDay day := yearOfDay_mono nonneg
  have last : yearOfDay day ≤ 399 := yearOfDay_mono (show day ≤ 146096 by omega)
  refine ⟨first, by omega, ?_, ?_⟩
  · by_contra early
    have notFirst : yearOfDay day ≠ 0 := fun zero => early (by rw [zero]; exact nonneg)
    have before := (yearOfDay_ends (yearOfDay day - 1) (by omega) (by omega)).2
    rw [Int.sub_add_cancel] at before
    have le : yearOfDay day ≤ yearOfDay (daysBeforeYear (yearOfDay day) - 1) :=
      yearOfDay_mono (by omega)
    omega
  · by_contra late
    have notLast : yearOfDay day ≠ 399 := fun same => late (by rw [same]; exact lt)
    have after := (yearOfDay_ends (yearOfDay day + 1) (by omega) (by omega)).1
    have le : yearOfDay (daysBeforeYear (yearOfDay day + 1)) ≤ yearOfDay day :=
      yearOfDay_mono (by omega)
    omega

/-! ## Months -/

/-- The day on which a month begins. The months of all years are numbered from January of the
year 0 on. -/
def monthStart (month : Int) : Int := dayNumber (month / 12) (month % 12 + 1) 1

theorem dayNumber_eq (year day : Int) {month : Int} (first : 1 ≤ month) (last : month ≤ 12) :
    dayNumber year month day = monthStart (12 * year + (month - 1)) + (day - 1) := by
  have whole : (12 * year + (month - 1)) / 12 = year := by omega
  have rest : (12 * year + (month - 1)) % 12 + 1 = month := by omega
  rw [monthStart, whole, rest, dayNumber, dayNumber]
  omega

/-- Inside a year, a month begins where the one before it ends. February is as long as the rest of
its year, which began in March. -/
theorem dayNumber_succ_month {year month : Int} (first : 1 ≤ month) (last : month < 12) :
    dayNumber year (month + 1) 1 = dayNumber year month 1 + daysInMonth year month := by
  by_cases second : month = 2
  · subst second
    have length := daysBeforeYear_succ (year - 1)
    rw [Int.sub_add_cancel, daysBeforeYear, daysBeforeYear] at length
    show dayNumber year 3 1 = dayNumber year 2 1 + if leapYear year then 29 else 28
    simp only [dayNumber]
    split at length <;> simp_all <;> omega
  · interval_cases month <;> simp [dayNumber, daysInMonth] at second ⊢ <;> omega

/-- A month begins where the one before it ends. -/
theorem monthStart_succ (month : Int) :
    monthStart (month + 1) =
      monthStart month + daysInMonth (month / 12) (month % 12 + 1) := by
  by_cases december : month % 12 = 11
  · have next : (month + 1) / 12 = month / 12 + 1 := by omega
    have january : (month + 1) % 12 = 0 := by omega
    rw [monthStart, monthStart, next, january, december]
    show _ = _ + 31
    simp [dayNumber]
    omega
  · have same : (month + 1) / 12 = month / 12 := by omega
    have following : (month + 1) % 12 = month % 12 + 1 := by omega
    rw [monthStart, monthStart, same, following]
    exact dayNumber_succ_month (by omega) (by omega)

theorem daysInMonth_pos (month : Int) : 0 < daysInMonth (month / 12) (month % 12 + 1) := by
  have range : 0 ≤ month % 12 ∧ month % 12 < 12 := by omega
  generalize month % 12 = rest at range
  obtain ⟨nonneg, lt⟩ := range
  unfold daysInMonth
  interval_cases rest <;> simp
  split <;> decide

/-- So no later month begins before a month has ended. -/
theorem monthStart_add_le {month later : Int} (lt : month < later) :
    monthStart month + daysInMonth (month / 12) (month % 12 + 1) ≤ monthStart later := by
  rw [← monthStart_succ]
  induction later, lt using Int.leInduction with
  | base => exact Int.le_refl _
  | succ later _ ih =>
    have pos := daysInMonth_pos later
    rw [monthStart_succ later]
    omega

/-! ## The date of a day -/

/-- The months of a year that is counted from March. -/
theorem monthStart_march (year m : Int) (nonneg : 0 ≤ m) (lt : m < 12) :
    monthStart (12 * year + m + 2) = daysBeforeYear year + (153 * m + 2) / 5 - 719468 := by
  by_cases ten : m < 10
  · have whole : (12 * year + m + 2) / 12 = year := by omega
    have rest : (12 * year + m + 2) % 12 + 1 = m + 3 := by omega
    have same : (m + 3 + 9) % 12 = m := by omega
    rw [monthStart, whole, rest, dayNumber, if_neg (by omega), same, daysBeforeYear]
    omega
  · have whole : (12 * year + m + 2) / 12 = year + 1 := by omega
    have rest : (12 * year + m + 2) % 12 + 1 = m - 9 := by omega
    have same : (m - 9 + 9) % 12 = m := by omega
    rw [monthStart, whole, rest, dayNumber, if_pos (by omega), same, daysBeforeYear]
    omega

/-- The date of a day from the year from March in which it is and the days of this year before
it. -/
def dateInYear (year rest : Int) : Int × Int × Int :=
  let m := (5 * rest + 2) / 153
  let month := if m < 10 then m + 3 else m - 9
  (year + (if month ≤ 2 then 1 else 0), month, rest - (153 * m + 2) / 5 + 1)

/-- A day is given the year in which it is. Eras are all alike, so that this is so of every day if
it is of those of one era. -/
theorem dateOfDay_eq_dateInYear (days : Int) : ∃ year rest,
    dateOfDay days = dateInYear year rest ∧ 0 ≤ rest ∧
      days + 719468 = daysBeforeYear year + rest ∧ days + 719468 < daysBeforeYear (year + 1) := by
  obtain ⟨day, hDay⟩ : ∃ day, (days + 719468) % 146097 = day := ⟨_, rfl⟩
  obtain ⟨era, hEra⟩ : ∃ era, (days + 719468) / 146097 = era := ⟨_, rfl⟩
  obtain ⟨year, hYear⟩ : ∃ year, yearOfDay day = year := ⟨_, rfl⟩
  obtain ⟨first, last, since, before⟩ := yearOfDay_bounds day (by omega) (by omega)
  rw [hYear] at first last since before
  -- years of an era are below 400, so that the last term of the count is zero
  have count : 365 * year + year / 4 - year / 100 = daysBeforeYear year := by
    unfold daysBeforeYear
    omega
  refine ⟨year + 400 * era, day - daysBeforeYear year, ?_, by omega, ?_, ?_⟩
  · rw [yearOfDay] at hYear
    simp only [dateOfDay, hDay, hEra, hYear, count, dateInYear]
  · rw [daysBeforeYear_add_eras]
    omega
  · rw [Int.add_right_comm, daysBeforeYear_add_eras]
    omega

/-- A day is given the month in which it is, and is counted from the first of this month. -/
theorem dateOfDay_eq (days : Int) : ∃ month,
    dateOfDay days = (month / 12, month % 12 + 1, days - monthStart month + 1) ∧
      monthStart month ≤ days ∧ days < monthStart (month + 1) := by
  obtain ⟨year, rest, date, nonneg, split, lt⟩ := dateOfDay_eq_dateInYear days
  obtain ⟨m, hMonth⟩ : ∃ m, (5 * rest + 2) / 153 = m := ⟨_, rfl⟩
  have length := daysBeforeYear_succ year
  have short : rest < 366 := by
    split at length <;> omega
  have start := monthStart_march year m (by omega) (by omega)
  refine ⟨12 * year + m + 2, ?_, by omega, ?_⟩
  · simp only [date, dateInYear, hMonth, start, Prod.mk.injEq]
    refine ⟨?_, ?_, by omega⟩
    · split <;> split <;> omega
    · split <;> omega
  · by_cases february : m = 11
    · -- the next month is the first of the next year
      have next := monthStart_march (year + 1) 0 (by omega) (by omega)
      have same : 12 * (year + 1) + 0 + 2 = 12 * year + m + 2 + 1 := by omega
      rw [same] at next
      omega
    · have next := monthStart_march year (m + 1) (by omega) (by omega)
      have same : 12 * year + (m + 1) + 2 = 12 * year + m + 2 + 1 := by omega
      rw [same] at next
      omega

/-! ## Divisions that round toward zero

A machine divides toward zero. Below zero the dividend is moved before the division, or the quotient
after it, and what comes out is rounded down as it is in the definitions. -/

/-- A negative dividend is moved down before the division. -/
theorem ediv_eq_tdiv (n : Int) {d : Int} (pos : 0 < d) :
    n / d = (if 0 ≤ n then n else n - (d - 1)).tdiv d := by
  split
  · next nonneg => rw [Int.tdiv_eq_ediv_of_nonneg nonneg]
  · next negative =>
    -- toward zero, a negative number is divided as its opposite is
    obtain ⟨m, moved⟩ : ∃ m, n - (d - 1) = -m := ⟨d - 1 - n, by omega⟩
    have whole := Int.ediv_mul_add_emod m d
    have rest := Int.emod_nonneg m (Int.ne_of_gt pos)
    have less := Int.emod_lt_of_pos m pos
    rw [moved, Int.neg_tdiv, Int.tdiv_eq_ediv_of_nonneg (by omega), Int.ediv_eq_iff_of_pos pos,
      Int.neg_mul]
    omega

/-- A quotient of a negative dividend is moved down after the division, unless it is exact. -/
theorem ediv_eq_tdiv_sub (n : Int) {d : Int} (pos : 0 < d) :
    n / d = if n.tmod d ≠ 0 ∧ n < 0 then n.tdiv d - 1 else n.tdiv d := by
  have exact_iff : d ∣ n ↔ n.tmod d = 0 := Int.dvd_iff_tmod_eq_zero
  simp only [Int.tdiv_eq_ediv, Int.sign_eq_one_of_pos pos, exact_iff]
  split <;> split <;> omega

theorem weekday_eq_tmod (t : Instant) :
    weekday t =
      let day := if t.tmod millisecondsPerDay ≠ 0 ∧ t < 0 then t.tdiv millisecondsPerDay - 1
        else t.tdiv millisecondsPerDay
      if -4 ≤ day then (day + 4).tmod 7 else (day + 5).tmod 7 + 6 := by
  have rest (day : Int) :
      (day + 4) % 7 = if -4 ≤ day then (day + 4).tmod 7 else (day + 5).tmod 7 + 6 := by
    split
    · rw [Int.tmod_eq_emod_of_nonneg (by omega)]
    · have moved : day + 5 = -(-5 - day) := by omega
      rw [moved, Int.neg_tmod, Int.tmod_eq_emod_of_nonneg (by omega)]
      omega
  rw [weekday, ediv_eq_tdiv_sub t (by decide)]
  exact rest _

theorem dayNumber_eq_tdiv (year day : Int) {month : Int} (first : 1 ≤ month) (last : month ≤ 12) :
    dayNumber year month day =
      let y := if month ≤ 2 then year - 1 else year
      let era := (if 0 ≤ y then y else y - 399).tdiv 400
      let yearOfEra := y - era * 400
      let dayOfYear := (153 * (if 2 < month then month - 3 else month + 9) + 2) / 5 + day - 1
      let dayOfEra := yearOfEra * 365 + yearOfEra / 4 - yearOfEra / 100 + dayOfYear
      era * 146097 + dayOfEra - 719468 := by
  have eras (y : Int) : (if 0 ≤ y then y else y - 399).tdiv 400 = y / 400 :=
    (ediv_eq_tdiv y (d := 400) (by decide)).symm
  have months : (month + 9) % 12 = if 2 < month then month - 3 else month + 9 := by
    split <;> omega
  simp only [dayNumber, eras, months]
  omega

theorem dateOfDay_eq_tdiv (days : Int) :
    dateOfDay days =
      let z := days + 719468
      let era := (if 0 ≤ z then z else z - 146096).tdiv 146097
      let dayOfEra := z - era * 146097
      let yearOfEra := (dayOfEra - dayOfEra / 1460 + dayOfEra / 36524 - dayOfEra / 146096) / 365
      let dayOfYear := dayOfEra - (365 * yearOfEra + yearOfEra / 4 - yearOfEra / 100)
      let m := (5 * dayOfYear + 2) / 153
      let month := if m < 10 then m + 3 else m - 9
      (yearOfEra + era * 400 + (if month ≤ 2 then 1 else 0), month,
        dayOfYear - (153 * m + 2) / 5 + 1) := by
  have eras (z : Int) : (if 0 ≤ z then z else z - 146096).tdiv 146097 = z / 146097 :=
    (ediv_eq_tdiv z (d := 146097) (by decide)).symm
  have rest (z : Int) : z - z / 146097 * 146097 = z % 146097 := by omega
  have years (era : Int) : era * 400 = 400 * era := Int.mul_comm ..
  simp only [dateOfDay, eras, rest, years]

end Calendar

namespace Civil

open Calendar

/-! ## Civil times of instants -/

theorem toInstant_eq {c : Civil} (month : 1 ≤ c.month ∧ c.month ≤ 12) :
    c.toInstant =
      (monthStart (12 * c.year + (c.month - 1)) + (c.day - 1)) * millisecondsPerDay + c.clock := by
  have year : c.year + (c.month - 1) / 12 = c.year := by omega
  have rest : (c.month - 1) % 12 + 1 = c.month := by omega
  have first := dayNumber_eq c.year 1 month.1 month.2
  simp only [toInstant, year, rest, first, clock, millisecondsPerDay]
  show (_ : Int) = _
  omega

/-- The civil time of an instant is valid and is that instant. -/
theorem ofInstant_spec (t : Instant) : (ofInstant t).Valid ∧ (ofInstant t).toInstant = t := by
  obtain ⟨month, date, since, before⟩ := dateOfDay_eq (t / millisecondsPerDay)
  rw [monthStart_succ] at before
  have inside : 1 ≤ month % 12 + 1 ∧ month % 12 + 1 ≤ 12 := by omega
  have numbered : 12 * (month / 12) + (month % 12 + 1 - 1) = month := by omega
  have time : ofInstant t =
      { year := month / 12, month := month % 12 + 1
        day := t / millisecondsPerDay - monthStart month + 1
        hour := t % millisecondsPerDay / 3600000
        minute := t % millisecondsPerDay % 3600000 / 60000
        second := t % millisecondsPerDay % 60000 / 1000
        millisecond := t % millisecondsPerDay % 1000 } := by
    simp only [ofInstant, date]
  rw [time]
  unfold millisecondsPerDay at since before ⊢
  constructor
  · refine ⟨inside, ⟨?_, ?_⟩, ?_, ?_, ?_, ?_⟩ <;> dsimp only <;> omega
  · rw [toInstant_eq inside]
    simp only [clock, numbered, millisecondsPerDay]
    show (_ : Int) = _
    omega

theorem Valid.day_lt_of_month_lt {c c' : Civil} (h : c.Valid) (h' : c'.Valid)
    (lt : c.year < c'.year ∨ c.year = c'.year ∧ c.month < c'.month) :
    monthStart (12 * c.year + (c.month - 1)) + (c.day - 1) <
      monthStart (12 * c'.year + (c'.month - 1)) + (c'.day - 1) := by
  obtain ⟨month, day, -⟩ := h
  obtain ⟨month', day', -⟩ := h'
  have later := monthStart_add_le
    (show 12 * c.year + (c.month - 1) < 12 * c'.year + (c'.month - 1) by omega)
  have year : (12 * c.year + (c.month - 1)) / 12 = c.year := by omega
  have rest : (12 * c.year + (c.month - 1)) % 12 + 1 = c.month := by omega
  rw [year, rest] at later
  omega

/-- Of two valid times the later one is the later instant. -/
theorem toInstant_lt {c c' : Civil} (h : c.Valid) (h' : c'.Valid) (lt : c.fields < c'.fields) :
    c.toInstant < c'.toInstant := by
  have earlier := h.day_lt_of_month_lt h'
  obtain ⟨month, day, hour, minute, second, millisecond⟩ := h
  obtain ⟨month', day', hour', minute', second', millisecond'⟩ := h'
  simp only [fields, List.cons_lt_cons_iff, List.not_lt_nil, and_false, or_false] at lt
  rw [toInstant_eq month, toInstant_eq month', millisecondsPerDay, clock, clock]
  show (_ : Int) < _
  rcases lt with year | ⟨year, lt⟩
  · have := earlier (.inl year)
    omega
  rcases lt with month | ⟨month, lt⟩
  · have := earlier (.inr ⟨year, month⟩)
    omega
  rw [year, month]
  omega

theorem toInstant_lt_iff {c c' : Civil} (h : c.Valid) (h' : c'.Valid) :
    c.toInstant < c'.toInstant ↔ c.fields < c'.fields := by
  refine ⟨fun lt => ?_, toInstant_lt h h'⟩
  rcases lt_trichotomy c.fields c'.fields with earlier | same | later
  · exact earlier
  · rw [fields_injective same] at lt
    exact absurd lt (Int.lt_irrefl _)
  · exact absurd lt (Int.lt_asymm (toInstant_lt h' h later))

/-- No two valid times are one instant. -/
theorem Valid.eq_of_toInstant_eq {c c' : Civil} (h : c.Valid) (h' : c'.Valid)
    (same : c.toInstant = c'.toInstant) : c = c' := by
  refine fields_injective (le_antisymm ?_ ?_)
  · rw [← not_lt, ← toInstant_lt_iff h' h, same]
    exact Int.lt_irrefl _
  · rw [← not_lt, ← toInstant_lt_iff h h', same]
    exact Int.lt_irrefl _

theorem Valid.ofInstant_toInstant {c : Civil} (h : c.Valid) : ofInstant c.toInstant = c := by
  obtain ⟨valid, back⟩ := ofInstant_spec c.toInstant
  exact valid.eq_of_toInstant_eq h back

end Civil

namespace Calendar

/-- Instants and civil times are the same. The civil time of an instant is valid and leads back to
it, a valid civil time is that of its instant, and a later instant has a later civil time. The day
of the epoch is a Thursday, and from one day to the next the weekday goes on by one, back to Sunday
after Saturday. This holds of all instants, among them those at most 8.64e15 milliseconds from the
epoch. -/
theorem calendar_exact :
    (∀ t : Instant, (Civil.ofInstant t).Valid ∧ (Civil.ofInstant t).toInstant = t) ∧
    (∀ c : Civil, c.Valid → Civil.ofInstant c.toInstant = c) ∧
    (∀ t t' : Instant, t < t' → (Civil.ofInstant t).fields < (Civil.ofInstant t').fields) ∧
    (∀ t : Instant, 0 ≤ t → t < millisecondsPerDay → weekday t = 4) ∧
    (∀ t t' : Instant, t' / millisecondsPerDay = t / millisecondsPerDay + 1 →
      weekday t' = (weekday t + 1) % 7) := by
  refine ⟨Civil.ofInstant_spec, ?_, ?_, ?_, ?_⟩
  · intro c valid
    obtain ⟨valid', back⟩ := Civil.ofInstant_spec c.toInstant
    exact valid'.eq_of_toInstant_eq valid back
  · intro t t' lt
    obtain ⟨valid, back⟩ := Civil.ofInstant_spec t
    obtain ⟨valid', back'⟩ := Civil.ofInstant_spec t'
    rwa [← Civil.toInstant_lt_iff valid valid', back, back']
  · intro t nonneg lt
    have day : t / millisecondsPerDay = 0 := Int.ediv_eq_zero_of_lt nonneg lt
    rw [weekday, day]
    rfl
  · intro t t' next
    rw [weekday, weekday, next]
    omega

/-- The last millisecond of the leap day of the year -400 and the one after it, and two days before
and after the epoch. -/
theorem calendar_exact_of_leap_day :
    let c : Civil :=
      { year := -400, month := 2, day := 29, hour := 23, minute := 59, second := 59
        millisecond := 999 }
    c.Valid ∧ Civil.ofInstant c.toInstant = c ∧
      (Civil.ofInstant c.toInstant).fields < (Civil.ofInstant (c.toInstant + 1)).fields ∧
      (0 ≤ (86399999 : Instant) ∧ (86399999 : Instant) < millisecondsPerDay ∧
        weekday 86399999 = 4) ∧
      ((0 : Instant) / millisecondsPerDay = (-1 : Instant) / millisecondsPerDay + 1 ∧
        weekday 0 = (weekday (-1) + 1) % 7) := by
  intro c
  have valid : c.Valid := by
    constructor <;> decide
  obtain ⟨-, back, ordered, epoch, next⟩ := calendar_exact
  exact ⟨valid, back c valid, ordered _ _ (by decide),
    ⟨by decide, by decide, epoch _ (by decide) (by decide)⟩, by decide, next _ _ (by decide)⟩

end Calendar

end ComputedFields
