import ComputedFields.Calendar.Iso
import ComputedFields.Proofs.Writing

/-!
# `ComputedFields.Proofs.IsoText` — the texts that are read as instants

What is read as an instant is said here as a grammar, without the functions that read it.

    instant  := date | date ('T' | ' ') clock zone
    date     := dddd '-' dd '-' dd
    clock    := dd ':' dd seconds
    seconds  := nothing | ':' dd fraction
    fraction := nothing | '.' d+
    zone     := nothing | 'Z' | '+' offset | '-' offset
    offset   := dd dd | dd ':' dd

The month of a date is one of the twelve and its day is in this month; hours, minutes and seconds
end at 23, 59 and 59. The digits of an offset are not limited.

Most parts are as long as their digits, so that a text has one beginning of this kind and what is
read after it may be anything. Only seconds and fractions may be missing or go on: after them the
readers ask for a byte that `Leaves` them. A zone starts with such a byte, and so does the end.

* `IsFixed`, `IsDate`, `IsFraction`, `IsSeconds`, `IsClock`, `IsOffset`, `IsZone`, `IsInstant` — the
  phrases of the grammar with what they say;
* `isInstant_of_readIso` — what is read is in the grammar;
* `readIso_of_isInstant` — what is in the grammar is read, as the instant that it says;
* `readIso_eq_some_iff` — both.
-/

namespace ComputedFields.Calendar

open Text

/-! ## The grammar -/

/-- A number in exactly `n` decimal digits. -/
structure IsFixed (n : Nat) (s : Text) (number : Int) : Prop where
  length : s.length = n
  digits : ∀ b ∈ s, digit b = true
  value : (numeral s : Int) = number

/-- A date of the calendar. -/
inductive IsDate : Text → Civil → Prop
  | intro {y m d : Text} {year month day : Int} :
    IsFixed 4 y year → IsFixed 2 m month → IsFixed 2 d day → 1 ≤ month → month ≤ 12 → 1 ≤ day →
    day ≤ daysInMonth year month →
    IsDate (y ++ '-'.toUInt8 :: (m ++ '-'.toUInt8 :: d)) { year, month, day }

/-- The value of a digit of a text; a digit that is missing is zero. -/
def digitAt (s : Text) (i : Nat) : Nat := (s[i]?.map digitValue).getD 0

/-- The milliseconds of a fraction of a second. -/
inductive IsFraction : Text → Int → Prop
  | missing : IsFraction [] 0
  | digits {s : Text} : IsDigits s →
    IsFraction ('.'.toUInt8 :: s) (100 * digitAt s 0 + 10 * digitAt s 1 + digitAt s 2)

/-- The seconds and milliseconds of a time of day. -/
inductive IsSeconds : Text → Int → Int → Prop
  | missing : IsSeconds [] 0 0
  | digits {s f : Text} {second millisecond : Int} :
    IsFixed 2 s second → second ≤ 59 → IsFraction f millisecond →
    IsSeconds (':'.toUInt8 :: (s ++ f)) second millisecond

/-- A time of day on a date. -/
inductive IsClock (date : Civil) : Text → Civil → Prop
  | intro {h m s : Text} {hour minute second millisecond : Int} :
    IsFixed 2 h hour → hour ≤ 23 → IsFixed 2 m minute → minute ≤ 59 →
    IsSeconds s second millisecond →
    IsClock date (h ++ ':'.toUInt8 :: (m ++ s)) { date with hour, minute, second, millisecond }

/-- The minutes of an offset, without its sign. -/
inductive IsOffset : Text → Int → Prop
  | bare {h m : Text} {hours minutes : Int} :
    IsFixed 2 h hours → IsFixed 2 m minutes → IsOffset (h ++ m) (60 * hours + minutes)
  | colon {h m : Text} {hours minutes : Int} :
    IsFixed 2 h hours → IsFixed 2 m minutes →
    IsOffset (h ++ ':'.toUInt8 :: m) (60 * hours + minutes)

/-- The minutes by which a time is ahead of UTC. -/
inductive IsZone : Text → Int → Prop
  | missing : IsZone [] 0
  | utc : IsZone ['Z'.toUInt8] 0
  | ahead {s : Text} {minutes : Int} : IsOffset s minutes → IsZone ('+'.toUInt8 :: s) minutes
  | behind {s : Text} {minutes : Int} : IsOffset s minutes → IsZone ('-'.toUInt8 :: s) (-minutes)

/-- An instant: the midnight of a date, or a time of day on it less its offset from UTC. -/
inductive IsInstant : Text → Instant → Prop
  | date {s : Text} {date : Civil} : IsDate s date → IsInstant s date.toInstant
  | time {d s z : Text} {mark : UInt8} {date time : Civil} {offset : Int} :
    IsDate d date → mark = 'T'.toUInt8 ∨ mark = ' '.toUInt8 → IsClock date s time →
    IsZone z offset → IsInstant (d ++ mark :: (s ++ z)) (time.toInstant - offset * 60000)

/-! ## Parts of one length -/

theorem after?_eq_some_iff {c : Char} {s rest : Text} :
    after? c s = some rest ↔ s = c.toUInt8 :: rest := by
  cases s with
  | nil => simp [after?]
  | cons b s => simp [after?]

theorem after?_self (c : Char) (s : Text) : after? c (c.toUInt8 :: s) = some s :=
  after?_eq_some_iff.mpr rfl

theorem fixedDigits_eq_some_iff {n : Nat} {s rest : Text} {number : Int} :
    fixedDigits n s = some (number, rest) ↔ ∃ d, s = d ++ rest ∧ IsFixed n d number := by
  constructor
  · intro read
    simp only [fixedDigits, Option.ite_none_right_eq_some, Option.some.injEq, Prod.mk.injEq] at read
    obtain ⟨⟨length, digits⟩, value, left⟩ := read
    exact ⟨s.take n, by rw [← left, List.take_append_drop], length, List.all_eq_true.mp digits,
      value⟩
  · rintro ⟨d, rfl, length, digits, value⟩
    have taken : (d ++ rest).take n = d := by rw [← length, List.take_left]
    have left : (d ++ rest).drop n = rest := by rw [← length, List.drop_left]
    rw [fixedDigits, taken, left, if_pos ⟨length, List.all_eq_true.mpr digits⟩, value]

theorem IsFixed.read {n : Nat} {d : Text} {number : Int} (h : IsFixed n d number) (rest : Text) :
    fixedDigits n (d ++ rest) = some (number, rest) :=
  fixedDigits_eq_some_iff.mpr ⟨d, rfl, h⟩

theorem readDate_eq_some_iff {s rest : Text} {date : Civil} :
    readDate s = some (date, rest) ↔ ∃ d, s = d ++ rest ∧ IsDate d date := by
  constructor
  · intro read
    simp only [readDate, Option.bind_eq_bind, Option.bind_eq_some_iff, Prod.exists,
      fixedDigits_eq_some_iff, after?_eq_some_iff] at read
    obtain ⟨year, _, ⟨y, rfl, isYear⟩, _, rfl, month, _, ⟨m, rfl, isMonth⟩, _, rfl, day, _,
      ⟨d, rfl, isDay⟩, valid⟩ := read
    simp only [Option.ite_none_right_eq_some, Option.pure_def, Option.some.injEq,
      Prod.mk.injEq] at valid
    obtain ⟨⟨first, last, firstDay, lastDay⟩, rfl, rfl⟩ := valid
    exact ⟨_, by simp, .intro isYear isMonth isDay first last firstDay lastDay⟩
  · rintro ⟨_, rfl, isYear, isMonth, isDay, first, last, firstDay, lastDay⟩
    simp [readDate, isYear.read, isMonth.read, isDay.read, after?_self, first, last, firstDay,
      lastDay]

/-- Where digits start, no other byte does. -/
theorem IsFixed.after?_eq_none {n : Nat} {d : Text} {number : Int} (h : IsFixed (n + 1) d number)
    {c : Char} (other : digit c.toUInt8 = false) (rest : Text) : after? c (d ++ rest) = none := by
  obtain ⟨length, digits, -⟩ := h
  cases d with
  | nil => cases length
  | cons b d =>
    have isDigit := digits b (List.mem_cons_self ..)
    have ne : b ≠ c.toUInt8 := by
      rintro rfl
      exact absurd isDigit (by rw [other]; decide)
    simp [after?, ne]

theorem readOffset_eq_some_iff {s rest : Text} {minutes : Int} :
    readOffset s = some (minutes, rest) ↔ ∃ o, s = o ++ rest ∧ IsOffset o minutes := by
  constructor
  · intro read
    simp only [readOffset, Option.bind_eq_bind, Option.bind_eq_some_iff, Prod.exists,
      fixedDigits_eq_some_iff, Option.pure_def, Option.some.injEq, Prod.mk.injEq] at read
    obtain ⟨hours, t, ⟨h, rfl, isHours⟩, minutes, _, ⟨m, split, isMinutes⟩, rfl, rfl⟩ := read
    rw [Int.mul_comm]
    cases colon : after? ':' t with
    | none =>
      rw [colon, Option.getD_none] at split
      exact ⟨_, by rw [split, List.append_assoc], .bare isHours isMinutes⟩
    | some u =>
      rw [colon, Option.getD_some] at split
      refine ⟨_, ?_, .colon isHours isMinutes⟩
      rw [after?_eq_some_iff.mp colon, split, List.append_assoc, List.cons_append]
  · rintro ⟨_, rfl, isOffset⟩
    cases isOffset with
    | bare isHours isMinutes =>
      have noColon := isMinutes.after?_eq_none (c := ':') (by decide) rest
      simp [readOffset, isHours.read, isMinutes.read, noColon, Int.mul_comm]
    | colon isHours isMinutes =>
      simp [readOffset, isHours.read, isMinutes.read, after?_self, Int.mul_comm]

/-! ## Parts that may be missing -/

/-- The bytes with which the seconds, the fraction or its digits would go on. -/
def goesOn (b : UInt8) : Bool := digit b || b == '.'.toUInt8 || b == ':'.toUInt8

theorem after?_eq_none_of_leaves {c : Char} (going : goesOn c.toUInt8 = true) {rest : Text}
    (leaves : Leaves goesOn rest) : after? c rest = none := by
  cases rest with
  | nil => rfl
  | cons b rest =>
    have ne : b ≠ c.toUInt8 := by
      rintro rfl
      exact absurd (leaves _ rfl) (by rw [going]; decide)
    simp [after?, ne]

theorem milliseconds_eq (s : Text) :
    milliseconds s = 100 * digitAt s 0 + 10 * digitAt s 1 + digitAt s 2 := by
  have zero : digitValue '0'.toUInt8 = 0 := rfl
  rcases s with _ | ⟨a, _ | ⟨b, _ | ⟨c, s⟩⟩⟩
  all_goals
    simp [milliseconds, numeral, digitAt, List.replicate, zero]
    try omega

theorem isFraction_of_readFraction {s rest : Text} {millisecond : Int}
    (read : readFraction s = some (millisecond, rest)) :
    ∃ f, s = f ++ rest ∧ IsFraction f millisecond := by
  unfold readFraction at read
  split at read
  · cases read
    exact ⟨[], rfl, .missing⟩
  · next t point =>
    rw [after?_eq_some_iff] at point
    subst point
    split at read
    · cases read
    · next notEmpty =>
      cases read
      rw [milliseconds_eq]
      refine ⟨_, ?_, .digits ⟨notEmpty, List.all_eq_true.mp List.all_takeWhile⟩⟩
      rw [List.cons_append, List.takeWhile_append_dropWhile]

theorem IsFraction.read {f rest : Text} {millisecond : Int} (h : IsFraction f millisecond)
    (leaves : Leaves goesOn rest) : readFraction (f ++ rest) = some (millisecond, rest) := by
  cases h with
  | missing =>
    have noPoint : after? '.' rest = none := after?_eq_none_of_leaves (by decide) leaves
    rw [List.nil_append, readFraction, noPoint]
  | @digits s isDigits =>
    have ends : Leaves digit rest := by
      intro b first
      have := leaves b first
      simp only [goesOn, Bool.or_eq_false_iff] at this
      exact this.1.1
    obtain ⟨taken, left⟩ := takeWhile_append_of_leaves isDigits.2 ends
    rw [List.cons_append, readFraction, after?_self]
    simp only [taken, left, milliseconds_eq]
    cases s with
    | nil => exact absurd rfl isDigits.1
    | cons b s => rfl

theorem isSeconds_of_readSeconds {s rest : Text} {second millisecond : Int}
    (read : readSeconds s = some (second, millisecond, rest)) (last : second ≤ 59) :
    ∃ t, s = t ++ rest ∧ IsSeconds t second millisecond := by
  unfold readSeconds at read
  split at read
  · cases read
    exact ⟨[], rfl, .missing⟩
  · next t colon =>
    rw [after?_eq_some_iff] at colon
    subst colon
    simp only [Option.bind_eq_bind, Option.bind_eq_some_iff, Prod.exists, fixedDigits_eq_some_iff,
      Option.pure_def, Option.some.injEq, Prod.mk.injEq] at read
    obtain ⟨_, _, ⟨d, rfl, isSecond⟩, _, _, fraction, rfl, rfl, rfl⟩ := read
    obtain ⟨f, rfl, isFraction⟩ := isFraction_of_readFraction fraction
    exact ⟨_, by simp, .digits isSecond last isFraction⟩

theorem IsSeconds.read {t rest : Text} {second millisecond : Int}
    (h : IsSeconds t second millisecond) (leaves : Leaves goesOn rest) :
    readSeconds (t ++ rest) = some (second, millisecond, rest) := by
  cases h with
  | missing =>
    have noColon : after? ':' rest = none := after?_eq_none_of_leaves (by decide) leaves
    rw [List.nil_append, readSeconds, noColon]
  | digits isSecond _ isFraction =>
    simp [readSeconds, after?_self, isSecond.read, isFraction.read leaves]

theorem IsSeconds.le {t : Text} {second millisecond : Int} (h : IsSeconds t second millisecond) :
    second ≤ 59 := by
  cases h with
  | missing => decide
  | digits _ last _ => exact last

theorem isClock_of_readClock {date time : Civil} {s rest : Text}
    (read : readClock date s = some (time, rest)) : ∃ t, s = t ++ rest ∧ IsClock date t time := by
  simp only [readClock, Option.bind_eq_bind, Option.bind_eq_some_iff, Prod.exists,
    fixedDigits_eq_some_iff, after?_eq_some_iff] at read
  obtain ⟨hour, _, ⟨h, rfl, isHour⟩, _, rfl, minute, _, ⟨m, rfl, isMinute⟩, second, millisecond, _,
    seconds, valid⟩ := read
  simp only [Option.ite_none_right_eq_some, Option.pure_def, Option.some.injEq,
    Prod.mk.injEq] at valid
  obtain ⟨⟨lastHour, lastMinute, lastSecond⟩, rfl, rfl⟩ := valid
  obtain ⟨t, rfl, isSeconds⟩ := isSeconds_of_readSeconds seconds lastSecond
  exact ⟨_, by simp, .intro isHour lastHour isMinute lastMinute isSeconds⟩

theorem IsClock.read {date time : Civil} {t rest : Text} (h : IsClock date t time)
    (leaves : Leaves goesOn rest) : readClock date (t ++ rest) = some (time, rest) := by
  obtain ⟨isHour, lastHour, isMinute, lastMinute, isSeconds⟩ := h
  simp [readClock, isHour.read, after?_self, isMinute.read, isSeconds.read leaves, lastHour,
    lastMinute, isSeconds.le]

theorem isZone_of_readZone {s rest : Text} {offset : Int} (read : readZone s = some (offset, rest)) :
    ∃ z, s = z ++ rest ∧ IsZone z offset := by
  unfold readZone at read
  split at read
  · next t utc =>
    cases read
    exact ⟨_, after?_eq_some_iff.mp utc, .utc⟩
  · split at read
    · next t _ minus =>
      rw [after?_eq_some_iff] at minus
      subst minus
      simp only [Option.map_eq_some_iff, Prod.exists, Prod.mk.injEq] at read
      obtain ⟨minutes, _, offset, rfl, rfl⟩ := read
      obtain ⟨o, rfl, isOffset⟩ := readOffset_eq_some_iff.mp offset
      exact ⟨_, rfl, .behind isOffset⟩
    · next t _ plus =>
      rw [after?_eq_some_iff] at plus
      subst plus
      obtain ⟨o, rfl, isOffset⟩ := readOffset_eq_some_iff.mp read
      exact ⟨_, rfl, .ahead isOffset⟩
    · cases read
      exact ⟨[], rfl, .missing⟩

/-- A zone is read up to the end of the text. -/
theorem IsZone.read {z : Text} {offset : Int} (h : IsZone z offset) :
    readZone z = some (offset, []) := by
  have whole {o : Text} {minutes : Int} (isOffset : IsOffset o minutes) :
      readOffset o = some (minutes, []) :=
    readOffset_eq_some_iff.mpr ⟨o, (List.append_nil o).symm, isOffset⟩
  cases h with
  | missing => rfl
  | utc => rfl
  | ahead isOffset =>
    show readOffset _ = _
    exact whole isOffset
  | behind isOffset =>
    show (readOffset _).map _ = _
    rw [whole isOffset]
    rfl

theorem IsZone.leaves {z : Text} {offset : Int} (h : IsZone z offset) : Leaves goesOn z := by
  intro b first
  cases h with
  | missing => cases first
  | utc | ahead | behind =>
    cases first
    decide

/-! ## Instants -/

theorem afterMark_eq_some_iff {s rest : Text} :
    (after? 'T' s <|> after? ' ' s) = some rest ↔
      ∃ mark, (mark = 'T'.toUInt8 ∨ mark = ' '.toUInt8) ∧ s = mark :: rest := by
  simp only [Option.orElse_eq_orElse, Option.orElse_eq_or, Option.or_eq_some_iff,
    after?_eq_some_iff]
  constructor
  · rintro (letter | ⟨-, space⟩)
    · exact ⟨_, .inl rfl, letter⟩
    · exact ⟨_, .inr rfl, space⟩
  · rintro ⟨mark, rfl | rfl, rfl⟩
    · exact .inl rfl
    · exact .inr ⟨rfl, rfl⟩

theorem isInstant_of_readIso {s : Text} {t : Instant} (read : readIso s = some t) :
    IsInstant s t := by
  simp only [readIso, Option.bind_eq_bind, Option.bind_eq_some_iff, Prod.exists,
    readDate_eq_some_iff] at read
  obtain ⟨date, rest, ⟨d, rfl, isDate⟩, read⟩ := read
  split at read
  · simp only [Option.pure_def, Option.bind_some, Option.ite_none_right_eq_some, List.isEmpty_iff,
      Option.some.injEq] at read
    obtain ⟨rfl, rfl⟩ := read
    rw [List.append_nil, Int.zero_mul, Int.sub_zero]
    exact .date isDate
  · next u marked =>
    obtain ⟨mark, isMark, rfl⟩ := afterMark_eq_some_iff.mp marked
    simp only [Option.bind_eq_some_iff, Prod.exists, Option.pure_def, Option.bind_some,
      Option.ite_none_right_eq_some, List.isEmpty_iff, Option.some.injEq] at read
    obtain ⟨time, v, clock, offset, _, zone, rfl, rfl⟩ := read
    obtain ⟨c, rfl, isClock⟩ := isClock_of_readClock clock
    obtain ⟨z, rfl, isZone⟩ := isZone_of_readZone zone
    rw [List.append_nil]
    exact .time isDate isMark isClock isZone

theorem readIso_of_isInstant {s : Text} {t : Instant} (h : IsInstant s t) :
    readIso s = some t := by
  have start {d : Text} {date : Civil} (isDate : IsDate d date) (rest : Text) :
      readDate (d ++ rest) = some (date, rest) :=
    readDate_eq_some_iff.mpr ⟨d, rfl, isDate⟩
  cases h with
  | date isDate =>
    have read := start isDate []
    rw [List.append_nil] at read
    simp [readIso, read, after?]
  | @time d c z mark date time offset isDate isMark isClock isZone =>
    have marked : (after? 'T' (mark :: (c ++ z)) <|> after? ' ' (mark :: (c ++ z))) =
        some (c ++ z) :=
      afterMark_eq_some_iff.mpr ⟨mark, isMark, rfl⟩
    simp only [readIso, start isDate, Option.bind_eq_bind, Option.bind_some, marked,
      isClock.read isZone.leaves, isZone.read, Option.pure_def]
    rfl

/-- A text is read as an instant just when it is written by the rules, and the instant is the one that
it says. -/
theorem readIso_eq_some_iff (s : Text) (t : Instant) :
    readIso s = some t ↔ IsInstant s t :=
  ⟨isInstant_of_readIso, readIso_of_isInstant⟩

end ComputedFields.Calendar
