import ComputedFields.Proofs.Doubles
import ComputedFields.Proofs.IsoRoundTrip
import ComputedFields.Proofs.JsonGrammar
import ComputedFields.Value.Json

/-!
# `ComputedFields.Proofs.JsonText` — values are written as JSON that means them

A value means what it is, except that JSON has no dates and no numbers that are not finite: a date
means its ISO text, and such a number means null. What `Value.json` writes for a value is a JSON
text, and of all things that a JSON text may say it says only what the value means.

* `Json.isNumber_write` — finite numbers are written as JSON numbers;
* `Text.isString_json` — texts are written as JSON strings that stand for them;
* `Value.plain` — what a value means;
* `Value.isText_json_iff` — what is written says it, and nothing else.
-/

namespace ComputedFields

open Text

/-! ## The digits of numbers -/

namespace Number

/-- Digits, the first of which is not zero. -/
inductive Leading : Text → Prop
  | intro {b : UInt8} {s : Text} : digit b = true → b ≠ '0'.toUInt8 →
    (∀ c ∈ s, digit c = true) → Leading (b :: s)

theorem Leading.isWhole {s : Text} (h : Leading s) : Json.IsWhole s := by
  cases h with
  | intro isDigit nonzero others => exact .digits isDigit nonzero others

theorem Leading.append {s t : Text} (h : Leading s) (digits : ∀ c ∈ t, digit c = true) :
    Leading (s ++ t) := by
  cases h with
  | intro isDigit nonzero others =>
    exact .intro isDigit nonzero (List.forall_mem_append.mpr ⟨others, digits⟩)

theorem Leading.take {s : Text} (h : Leading s) {n : Nat} (pos : 0 < n) : Leading (s.take n) := by
  cases h with
  | intro isDigit nonzero others =>
    obtain ⟨n, rfl⟩ := Nat.exists_eq_add_one.mpr pos
    exact .intro isDigit nonzero fun c mem => others c (List.mem_of_mem_take mem)

theorem Leading.digits {s : Text} (h : Leading s) : ∀ c ∈ s, digit c = true := by
  cases h with
  | intro isDigit _ others => exact List.forall_mem_cons.mpr ⟨isDigit, others⟩

theorem Leading.ne_nil {s : Text} (h : Leading s) : s ≠ [] := by
  cases h
  exact List.cons_ne_nil _ _

theorem digitByte_ne_zero {n : Nat} (lt : n < 10) (nonzero : n ≠ 0) :
    digitByte n ≠ '0'.toUInt8 := by
  intro same
  have value := digitValue_digitByte lt
  rw [same] at value
  exact nonzero value.symm

theorem leading_decimal {n : Nat} (nonzero : n ≠ 0) : Leading (decimal n) := by
  induction n using decimal.induct with
  | case1 n small =>
    rw [decimal, if_pos small]
    exact .intro (digit_digitByte small) (digitByte_ne_zero small nonzero) (List.forall_mem_nil _)
  | case2 n large ih =>
    rw [decimal, if_neg large]
    exact (ih (by omega)).append
      (List.forall_mem_singleton.mpr (digit_digitByte (Nat.mod_lt _ (by decide))))

/-! ## The coefficients of doubles -/

namespace Rounding

variable {r : Rounding}

/-- Zero does not round to a double that is not zero. -/
theorem holds_zero (pos : 0 < r.lower) (k : Int) : r.holds 0 k = false := by
  have scaled : 0 < r.lower * if k < 0 then Nat.pow 10 k.natAbs else 1 := by
    refine Nat.mul_pos pos ?_
    split
    · exact Nat.pow_pos (by decide)
    · exact Nat.one_pos
  simp only [holds, Nat.zero_mul]
  split
  · rw [Bool.and_eq_false_iff, decide_eq_false_iff_not]
    exact .inl (Nat.not_le_of_lt scaled)
  · rw [Bool.and_eq_false_iff, decide_eq_false_iff_not]
    exact .inl (Nat.not_lt_zero _)

theorem onGrid_coefficient (pos : 0 < r.lower) {k : Int} {d : Decimal}
    (h : r.onGrid k = some d) : d.coefficient ≠ 0 := by
  have held {c : Nat} (holds : r.holds c k = true) : c ≠ 0 := by
    rintro rfl
    cases holds.symm.trans (holds_zero pos k)
  simp only [onGrid] at h
  split at h
  · cases h
  · next first _ =>
    cases h
    exact held first
  · cases h
    exact Nat.succ_ne_zero _
  · next first _ =>
    split at h
    · cases h
      exact held first
    · cases h
      exact Nat.succ_ne_zero _

theorem search_coefficient (pos : 0 < r.lower) (n : Nat) (k : Int) :
    (r.search n k).coefficient ≠ 0 ∨ r.search n k = ⟨0, 0⟩ := by
  induction n generalizing k with
  | zero => exact .inr rfl
  | succ n ih =>
    rw [search]
    cases found : r.onGrid k with
    | none => exact ih (k - 1)
    | some d => exact .inl (onGrid_coefficient pos found)

theorem lower_ofBinary {x : Binary} (pos : 0 < x.mantissa) : 0 < (ofBinary x).lower := by
  refine Nat.mul_pos ?_ (Nat.pow_pos (by decide))
  split <;> omega

end Rounding

theorem Decimal.strip_coefficient {d : Decimal} (nonzero : d.coefficient ≠ 0) (n : Nat) :
    (strip n d).coefficient ≠ 0 := by
  induction n generalizing d with
  | zero => exact nonzero
  | succ n ih =>
    rw [strip]
    split
    · next zeros => exact ih (by show d.coefficient / 10 ≠ 0; omega)
    · exact nonzero

/-- The decimal of a double is not zero, or its point stands after its only digit. -/
theorem shortest_coefficient {x : Binary} (pos : 0 < x.mantissa) :
    (shortest x).coefficient ≠ 0 ∨ shortest x = ⟨0, 0⟩ := by
  rw [shortest]
  rcases Rounding.search_coefficient (Rounding.lower_ofBinary pos) 18 _ with nonzero | zero
  · exact .inl (Decimal.strip_coefficient nonzero 20)
  · exact .inr (by rw [zero]; rfl)

theorem isNaN_of_isFinite {x : Float} (finite : x.isFinite = true) : x.isNaN = false := by
  change x.toModel.unpack.isFinite = true at finite
  show x.toModel.unpack.isNaN = false
  cases unpacked : x.toModel.unpack with
  | zero | finite | infinity => rfl
  | notANumber =>
    rw [unpacked] at finite
    cases finite

/-- A finite double has a mantissa, unless it is a zero. -/
theorem mantissa_pos {x : Float} (finite : x.isFinite = true) (nonzero : (x == 0) = false) :
    0 < (Binary.ofFloat x).mantissa := by
  change x.toModel.unpack.isFinite = true at finite
  cases unpacked : x.toModel.unpack with
  | finite s m e pos => rwa [ofFloat_eq_of_parts? (by rw [unpacked]; rfl)]
  | zero s =>
    have zero : (0 : Float).toModel.unpack = .zero .positive := by rfl
    have same : (x == 0) = true := by
      refine (Float.Model.UnpackedFloat.beq_iff_ne_notANumber_and_eq _ _).mpr ?_
      rw [unpacked, zero]
      refine ⟨nofun, nofun, ?_⟩
      cases s with
      | positive => exact .inl rfl
      | negative => exact .inr (.inr ⟨rfl, rfl⟩)
    cases nonzero.symm.trans same
  | infinity | notANumber =>
    rw [unpacked] at finite
    cases finite

end Number

/-! ## Numbers -/

namespace Json

open Number

variable {sign : Text}

theorem isNumber_of_whole (isSign : sign = [] ∨ sign = ['-'.toUInt8]) {whole : Text}
    (isWhole : IsWhole whole) : IsNumber (sign ++ whole) := by
  have number := IsNumber.intro isSign isWhole (.inl rfl) (.inl rfl)
  rwa [List.append_nil, List.append_nil] at number

theorem isNumber_of_fraction (isSign : sign = [] ∨ sign = ['-'.toUInt8]) {whole digits : Text}
    (isWhole : IsWhole whole) (isDigits : IsDigits digits) :
    IsNumber (sign ++ whole ++ '.'.toUInt8 :: digits) := by
  have number := IsNumber.intro isSign isWhole (.inr (.intro isDigits)) (.inl rfl)
  rwa [List.append_nil] at number

theorem digit_of_zeros {n : Nat} : ∀ c ∈ List.replicate n '0'.toUInt8, digit c = true := by
  intro c mem
  rw [List.eq_of_mem_replicate mem]
  rfl

/-- An exponent is written with its sign. -/
theorem isExponent_written (exponent : Int) :
    IsExponent ('e'.toUInt8 :: (if exponent < 0 then '-'.toUInt8 else '+'.toUInt8)
      :: decimal exponent.natAbs) := by
  refine .intro rfl ?_
  split
  · exact .minus (isDigits_decimal _)
  · exact .plus (isDigits_decimal _)

/-- Whatever place its point has, a number is written as JSON has it. -/
theorem isNumber_layout (negative : Bool) {digits : Text} (leading : Leading digits) (point : Int) :
    IsNumber (layout negative digits point) := by
  have isSign : (if negative then ['-'.toUInt8] else [] : Text) = [] ∨
      (if negative then ['-'.toUInt8] else [] : Text) = ['-'.toUInt8] := by
    cases negative with
    | false => exact .inl rfl
    | true => exact .inr rfl
  have dropped {n : Nat} (some : digits.drop n ≠ []) : IsDigits (digits.drop n) :=
    ⟨some, fun c mem => leading.digits c (List.mem_of_mem_drop mem)⟩
  have dotted : utf8 "0." = ['0'.toUInt8, '.'.toUInt8] := rfl
  unfold layout
  generalize (if negative then ['-'.toUInt8] else [] : Text) = sign at isSign
  dsimp only
  split
  · -- the point is behind all digits, and is not written
    rw [List.append_assoc]
    exact isNumber_of_whole isSign (leading.append digit_of_zeros).isWhole
  split
  · -- the point is between the digits
    refine isNumber_of_fraction isSign (leading.take (by omega)).isWhole (dropped ?_)
    rw [ne_eq, List.drop_eq_nil_iff]
    omega
  split
  · -- the point is before all digits
    have isDigits : IsDigits (List.replicate (-point).toNat '0'.toUInt8 ++ digits) :=
      ⟨List.append_ne_nil_of_right_ne_nil _ leading.ne_nil,
        List.forall_mem_append.mpr ⟨digit_of_zeros, leading.digits⟩⟩
    simpa only [dotted, List.append_assoc, List.cons_append, List.nil_append] using
      isNumber_of_fraction isSign .zero isDigits
  · -- the point is behind the first digit, if there is another one, and an exponent follows
    rw [List.append_assoc, List.cons_append, List.cons_append, List.nil_append]
    refine .intro isSign (leading.take Nat.one_pos).isWhole ?_ (.inr (isExponent_written _))
    split
    · exact .inl rfl
    · next more => exact .inr (.intro (dropped fun none => more (List.isEmpty_iff.mpr none)))

theorem isNumber_layout_zero (negative : Bool) :
    IsNumber (layout negative (decimal 0) (0 + (decimal 0).length)) := by
  have zero : decimal 0 = ['0'.toUInt8] := by
    rw [decimal, if_pos (by decide)]
    rfl
  rw [zero]
  cases negative with
  | false => exact isNumber_of_whole (.inl rfl) .zero
  | true => exact isNumber_of_whole (.inr rfl) .zero

/-- A finite number is written as JSON has it. -/
theorem isNumber_write {x : Float} (finite : x.isFinite = true) : IsNumber (write x) := by
  rw [write, if_neg (by rw [isNaN_of_isFinite finite]; nofun), if_neg (by rw [finite]; nofun)]
  cases nonzero : x == 0 with
  | true => exact isNumber_of_whole (.inl rfl) .zero
  | false =>
    rw [if_neg Bool.false_ne_true]
    dsimp only
    rcases shortest_coefficient (mantissa_pos finite nonzero) with significant | zero
    · exact isNumber_layout _ (leading_decimal significant) _
    · rw [zero]
      exact isNumber_layout_zero _

end Json

/-! ## Texts -/

namespace Text

open Json Number.Numeral

theorem hexByte_spec : ∀ n < 16, hexDigit (hexByte n) = true ∧ hexValue (hexByte n) = n := by
  decide

/-- A control character is written as the number of its code point. -/
theorem isCode_control {b : UInt8} (control : b.toNat < 32) :
    IsCode ['0'.toUInt8, '0'.toUInt8, hexByte (b.toNat / 16), hexByte (b.toNat % 16)] b.toNat := by
  obtain ⟨isDigit, value⟩ := hexByte_spec (b.toNat / 16) (by omega)
  obtain ⟨isDigit', value'⟩ := hexByte_spec (b.toNat % 16) (by omega)
  have zeroDigit : hexDigit '0'.toUInt8 = true := rfl
  have zero : hexValue '0'.toUInt8 = 0 := rfl
  have digits : ∀ d ∈ ['0'.toUInt8, '0'.toUInt8, hexByte (b.toNat / 16), hexByte (b.toNat % 16)],
      hexDigit d = true := by simp [zeroDigit, isDigit, isDigit']
  have number : ((hexValue '0'.toUInt8 * 16 + hexValue '0'.toUInt8) * 16
      + hexValue (hexByte (b.toNat / 16))) * 16 + hexValue (hexByte (b.toNat % 16)) = b.toNat := by
    rw [zero, value, value']
    omega
  have isCode := IsCode.intro digits
  rwa [number] at isCode

/-- A code point of ASCII is one byte. -/
theorem encoded_ascii {n : Nat} (ascii : n < 0x80) : encoded n = [UInt8.ofNat n] := by
  have valid : n.isValidChar := .inl (Nat.lt_trans ascii (by decide))
  rw [encoded, Char.ofNat, dif_pos valid]
  exact if_pos (Nat.le_of_lt_succ ascii)

/-- A byte is written as a character that stands for it. -/
theorem character_jsonByte (b : UInt8) : Character (jsonByte b) [b] := by
  have escaped {c d : UInt8} (same : (b == c) = true) (mem : (d, c) ∈ escapes) :
      Character ['\\'.toUInt8, d] [b] := by
    rw [beq_iff_eq.mp same]
    exact .escape (.byte mem)
  rw [jsonByte]
  split
  · next quote => exact escaped quote (by decide)
  split
  · next backslash => exact escaped backslash (by decide)
  split
  · next lineFeed => exact escaped lineFeed (by decide)
  split
  · next carriageReturn => exact escaped carriageReturn (by decide)
  split
  · next tab => exact escaped tab (by decide)
  split
  · next control =>
    have low : b.toNat < 32 := UInt8.lt_iff_toNat_lt.mp control
    have encodes : encoded b.toNat = [b] := by
      rw [encoded_ascii (Nat.lt_trans low (by decide)), UInt8.ofNat_toNat]
    rw [← encodes]
    exact .escape (.code (isCode_control low) (.inl (Nat.lt_trans low (by decide))))
  · next noQuote noBackslash _ _ _ noControl =>
    exact .byte (UInt8.not_lt.mp noControl) (by simpa using noQuote) (by simpa using noBackslash)

theorem characters_json (s : Text) : Characters (s.flatMap jsonByte) s := by
  induction s with
  | nil => exact .nil
  | cons b s ih => exact .cons (character_jsonByte b) ih

/-- Whatever its bytes are, a text is written as a string that stands for it. -/
theorem isString_json (s : Text) : IsString s.json s := .intro (characters_json s)

end Text

/-! ## Values -/

namespace Value

mutual

/-- What a value means in JSON. -/
def plain : Value → Json
  | .null => .null
  | .boolean b => .boolean b
  | .number x => if x.isFinite then .number (Number.write x) else .null
  | .text s => .string s
  | .date t => .string (Calendar.writeIso t)
  | .array items => .array (plainItems items)
  | .object entries => .object (plainEntries entries)

/-- What the items of an array mean in JSON. -/
def plainItems : List Value → List Json
  | [] => []
  | v :: rest => v.plain :: plainItems rest

/-- What the entries of an object mean in JSON. -/
def plainEntries : List (Text × Value) → List (Text × Json)
  | [] => []
  | (key, v) :: rest => (key, v.plain) :: plainEntries rest

end

/-- Values nest lists of values. As for trees, the further motives of the recursor are fixed to say
that the first holds of every item and of every entry. -/
@[elab_as_elim, induction_eliminator]
theorem inductOn {motive : Value → Prop} (null : motive .null)
    (boolean : ∀ b, motive (.boolean b)) (number : ∀ x, motive (.number x))
    (text : ∀ s, motive (.text s)) (date : ∀ t, motive (.date t))
    (array : ∀ items, (∀ v ∈ items, motive v) → motive (.array items))
    (object : ∀ entries, (∀ entry ∈ entries, motive entry.2) → motive (.object entries))
    (v : Value) : motive v :=
  @Value.rec motive (fun items => ∀ v ∈ items, motive v)
    (fun entries => ∀ entry ∈ entries, motive entry.2) (fun entry => motive entry.2)
    null boolean number text date array object (List.forall_mem_nil _)
    (fun _ _ first others => List.forall_mem_cons.mpr ⟨first, others⟩) (List.forall_mem_nil _)
    (fun _ _ first others => List.forall_mem_cons.mpr ⟨first, others⟩) (fun _ _ value => value) v

theorem jsonItems_eq (items : List Value) : jsonItems items = items.map json := by
  induction items with
  | nil => rfl
  | cons v rest ih => rw [jsonItems, ih, List.map_cons]

theorem plainItems_eq (items : List Value) : plainItems items = items.map plain := by
  induction items with
  | nil => rfl
  | cons v rest ih => rw [plainItems, ih, List.map_cons]

theorem jsonEntries_eq (entries : List (Text × Value)) :
    jsonEntries entries =
      entries.map fun entry => entry.1.json ++ ':'.toUInt8 :: entry.2.json := by
  induction entries with
  | nil => rfl
  | cons entry rest ih => rw [jsonEntries, ih, List.map_cons]

theorem plainEntries_eq (entries : List (Text × Value)) :
    plainEntries entries = entries.map fun entry => (entry.1, entry.2.plain) := by
  induction entries with
  | nil => rfl
  | cons entry rest ih => rw [plainEntries, ih, List.map_cons]

section

open Json

variable {α β : Type} {p : Text → β → Prop} {write : α → Text} {mean : α → β}

/-- Without blanks a phrase stands as it is. -/
theorem padded_self {s : Text} {b : β} (h : p s b) : Padded p s b := by
  have padded := Padded.intro (List.forall_mem_nil _) h (List.forall_mem_nil _)
  rwa [List.nil_append, List.append_nil] at padded

theorem sequence_join {a : α} {as : List α} (each : ∀ a' ∈ a :: as, p (write a') (mean a')) :
    Sequence p (Text.join [','.toUInt8] ((a :: as).map write)) ((a :: as).map mean) := by
  induction as generalizing a with
  | nil => exact .one (each a (List.mem_cons_self ..))
  | cons a' as ih =>
    obtain ⟨first, others⟩ := List.forall_mem_cons.mp each
    simp only [List.map_cons, Text.join, List.append_assoc] at ih ⊢
    exact .more first (ih others)

/-- Parts between two brackets are written as a list of what they mean. -/
theorem bracketed_spec (opening closing : Char) {as : List α}
    (each : ∀ a ∈ as, p (write a) (mean a)) :
    Bracketed opening closing p (bracketed opening closing (as.map write)) (as.map mean) := by
  cases as with
  | nil => exact .empty (List.forall_mem_nil _)
  | cons a as => exact .list (sequence_join each)

end

theorem denotes_json (v : Value) : Json.Denotes v.json v.plain := by
  induction v with
  | null => exact .null
  | boolean b =>
    cases b with
    | true => exact .true
    | false => exact .false
  | number x =>
    rw [json, plain]
    split
    · next finite => exact .number (Json.isNumber_write finite)
    · exact .null
  | text s => exact .string (Text.isString_json s)
  | date t => exact .string (Text.isString_json _)
  | array items ih =>
    rw [json, plain, jsonItems_eq, plainItems_eq]
    exact .array (bracketed_spec '[' ']' fun v mem => padded_self (ih v mem))
  | object entries ih =>
    rw [json, plain, jsonEntries_eq, plainEntries_eq]
    refine .object (bracketed_spec '\x7b' '\x7d' fun entry mem => ?_)
    exact .intro (padded_self (Text.isString_json entry.1)) (padded_self (ih entry mem))

/-- The JSON of a value is a JSON text, and what it says by the rules of JSON is what the value
means: the value itself, with its ISO text for each date and null for each number that is not
finite. -/
theorem isText_json_iff (v : Value) (j : Json) : Json.IsText v.json j ↔ j = v.plain := by
  have isText : Json.IsText v.json v.plain := padded_self (denotes_json v)
  constructor
  · exact isText.unique
  · rintro rfl
    exact isText

end Value

end ComputedFields
