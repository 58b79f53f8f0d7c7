import ComputedFields.Function.Strings
import Mathlib.Data.Nat.Find

/-!
# `ComputedFields.Proofs.Replacing` — replacing is cutting and joining

A text is cut at the occurrences of a search text: the first one from the left, then the first one
behind it, and so on. There is one way to do so, and replacing joins the pieces with the replacement
instead. What was put in is never looked at again, whatever it makes together with the bytes beside
it: the same text comes out when each occurrence is replaced in the text itself, as long as the next
one is looked for behind the replacement only.

* `Text.CutAt` — the pieces of a text;
* `Text.Edited` — replacing in the text itself;
* `Text.replaceAll_of_cutAt`, `Text.edited_iff_of_cutAt` — both join the pieces;
* `Function.Strings.replace_joins` — so for the function on texts.
-/

namespace ComputedFields

namespace Text

variable {search replacement : Text}

/-- A search text stands at an offset of a text. -/
def OccursAt (search s : Text) (i : Nat) : Prop := search <+: s.drop i

/-- The pieces of a text that is cut at its occurrences of a search text, from the left and without
overlaps. -/
inductive CutAt (search : Text) : Text → List Text → Prop
  | uncut {s : Text} : (∀ i, ¬ OccursAt search s i) → CutAt search s [s]
  | cut {before rest : Text} {pieces : List Text} :
    (∀ i < before.length, ¬ OccursAt search (before ++ (search ++ rest)) i) →
    CutAt search rest pieces → CutAt search (before ++ (search ++ rest)) (before :: pieces)

/-- What comes of a text in which the first occurrence at `start` or behind it is replaced, then the
first one behind the replacement, and so on until there is no other. -/
inductive Edited (search replacement : Text) : Nat → Text → Text → Prop
  | finished {start : Nat} {s : Text} : (∀ i, start ≤ i → ¬ OccursAt search s i) →
    Edited search replacement start s s
  | replaced {start i : Nat} {s t : Text} : start ≤ i → OccursAt search s i →
    (∀ j, start ≤ j → j < i → ¬ OccursAt search s j) →
    Edited search replacement (i + replacement.length)
      (s.take i ++ replacement ++ s.drop (i + search.length)) t →
    Edited search replacement start s t

/-! ## Occurrences -/

theorem occursAt_append (before rest : Text) :
    OccursAt search (before ++ (search ++ rest)) before.length := by
  rw [OccursAt, List.drop_left]
  exact List.prefix_append ..

/-- Behind some bytes, what occurs is what occurs in the text after them. -/
theorem occursAt_append_left (before s : Text) (i : Nat) :
    OccursAt search (before ++ s) (before.length + i) ↔ OccursAt search s i := by
  rw [OccursAt, OccursAt, List.drop_length_add_append]

theorem not_occursAt_append_left (before : Text) {s : Text} {n : Nat}
    (none : ∀ i < n, ¬ OccursAt search s i) (i : Nat) (le : before.length ≤ i)
    (lt : i < before.length + n) : ¬ OccursAt search (before ++ s) i := by
  obtain ⟨i, rfl⟩ := Nat.exists_eq_add_of_le le
  rw [occursAt_append_left]
  exact none i (by omega)

theorem occursAt_cons_succ (b : UInt8) (s : Text) (i : Nat) :
    OccursAt search (b :: s) (i + 1) ↔ OccursAt search s i := by
  rw [OccursAt, OccursAt, List.drop_succ_cons]

/-- What occurs in a part occurs in the whole. -/
theorem OccursAt.append {s : Text} {i : Nat} (h : OccursAt search s i) (nonempty : search ≠ [])
    (rest : Text) : i < s.length ∧ OccursAt search (s ++ rest) i := by
  have within : i < s.length := by
    by_contra beyond
    rw [OccursAt, List.drop_eq_nil_of_le (Nat.le_of_not_lt beyond)] at h
    exact nonempty (List.prefix_nil.mp h)
  refine ⟨within, ?_⟩
  rw [OccursAt, List.drop_append_of_le_length (Nat.le_of_lt within)]
  exact h.trans (List.prefix_append ..)

/-! ## Cutting -/

/-- Every text can be cut. -/
theorem exists_cutAt (nonempty : search ≠ []) (s : Text) : ∃ pieces, CutAt search s pieces := by
  classical
  induction hn : s.length using Nat.strong_induction_on generalizing s with
  | _ n ih =>
    by_cases occurs : ∃ i, OccursAt search s i
    · -- the first occurrence splits the text, and what is behind it is shorter
      have first := Nat.find_spec occurs
      have none : ∀ i < Nat.find occurs, ¬ OccursAt search s i := fun _ => Nat.find_min occurs
      obtain ⟨within, -⟩ := first.append nonempty []
      obtain ⟨rest, behind⟩ := first
      obtain ⟨before, length, rfl⟩ :
          ∃ before, before.length = Nat.find occurs ∧ before ++ (search ++ rest) = s :=
        ⟨_, List.length_take_of_le (Nat.le_of_lt within), by rw [behind, List.take_append_drop]⟩
      rw [← length] at none
      have pos := List.length_pos_iff.mpr nonempty
      obtain ⟨pieces, ofRest⟩ := ih rest.length (by simp only [← hn, List.length_append]; omega)
        rest rfl
      exact ⟨before :: pieces, .cut none ofRest⟩
    · exact ⟨[s], .uncut (not_exists.mp occurs)⟩

/-- A text is cut in one way. -/
theorem CutAt.unique {s : Text} {pieces others : List Text} (h : CutAt search s pieces)
    (h' : CutAt search s others) : others = pieces := by
  induction h generalizing others with
  | uncut none =>
    cases h' with
    | uncut => rfl
    | @cut before => exact absurd (occursAt_append before _) (none _)
  | @cut before rest pieces none ofRest ih =>
    generalize hs : before ++ (search ++ rest) = s at h' none
    cases h' with
    | uncut never =>
      rw [← hs] at never
      exact absurd (occursAt_append before rest) (never _)
    | @cut before' rest' pieces' none' ofRest' =>
      -- neither of the two places is before the other, as each is the first
      have same : before.length = before'.length := by
        rcases Nat.lt_trichotomy before.length before'.length with lt | same | lt
        · refine absurd ?_ (none' _ lt)
          rw [← hs]
          exact occursAt_append before rest
        · exact same
        · exact absurd (occursAt_append before' rest') (none _ lt)
      obtain ⟨rfl, tails⟩ := List.append_inj hs same
      obtain rfl := List.append_cancel_left tails
      rw [ih ofRest']

theorem CutAt.ne_nil {s : Text} {pieces : List Text} (h : CutAt search s pieces) :
    pieces ≠ [] := by
  cases h <;> exact List.cons_ne_nil _ _

/-- Nothing is left in the pieces that the text could have been cut at. -/
theorem CutAt.not_occursAt {s : Text} {pieces : List Text} (h : CutAt search s pieces)
    (nonempty : search ≠ []) : ∀ piece ∈ pieces, ∀ i, ¬ OccursAt search piece i := by
  induction h with
  | uncut none => exact List.forall_mem_singleton.mpr none
  | cut none _ ih =>
    refine List.forall_mem_cons.mpr ⟨fun i occurs => ?_, ih⟩
    obtain ⟨within, inWhole⟩ := occurs.append nonempty _
    exact none i within inWhole

theorem join_cons {separator piece : Text} {pieces : List Text} (more : pieces ≠ []) :
    join separator (piece :: pieces) = piece ++ (separator ++ join separator pieces) := by
  cases pieces with
  | nil => exact absurd rfl more
  | cons => rw [join, List.append_assoc]

/-- The pieces with the search text between each two of them are the text. -/
theorem CutAt.join_search {s : Text} {pieces : List Text} (h : CutAt search s pieces) :
    join search pieces = s := by
  induction h with
  | uncut => rfl
  | cut _ ofRest ih => rw [join_cons ofRest.ne_nil, ih]

/-! ## Replacing -/

/-- The bytes of an occurrence are skipped. -/
theorem replaceFrom_skip (skipped s : Text) :
    replaceFrom search replacement skipped.length (skipped ++ s) =
      replaceFrom search replacement 0 s := by
  induction skipped with
  | nil => rfl
  | cons b skipped ih => exact ih

theorem replaceFrom_occurrence (nonempty : search ≠ []) (rest : Text) :
    replaceFrom search replacement 0 (search ++ rest) =
      replacement ++ replaceFrom search replacement 0 rest := by
  have atStart : search.isPrefixOf (search ++ rest) = true :=
    List.isPrefixOf_iff_prefix.mpr (List.prefix_append ..)
  cases search with
  | nil => exact absurd rfl nonempty
  | cons b search =>
    rw [List.cons_append] at atStart ⊢
    rw [replaceFrom, if_pos atStart, List.length_cons, Nat.add_sub_cancel, replaceFrom_skip]

/-- The bytes before the first occurrence stay. -/
theorem replaceFrom_append {before s : Text}
    (none : ∀ i < before.length, ¬ OccursAt search (before ++ s) i) :
    replaceFrom search replacement 0 (before ++ s) =
      before ++ replaceFrom search replacement 0 s := by
  induction before with
  | nil => rfl
  | cons b before ih =>
    have notHere : ¬ search.isPrefixOf (b :: (before ++ s)) = true := by
      rw [List.isPrefixOf_iff_prefix]
      exact none 0 (Nat.succ_pos _)
    rw [List.cons_append, replaceFrom, if_neg notHere, ih, List.cons_append]
    intro i lt
    rw [← occursAt_cons_succ b]
    exact none (i + 1) (Nat.succ_lt_succ lt)

theorem replaceFrom_of_cutAt (nonempty : search ≠ []) {s : Text} {pieces : List Text}
    (h : CutAt search s pieces) :
    replaceFrom search replacement 0 s = join replacement pieces := by
  induction h with
  | @uncut s none =>
    have whole : replaceFrom search replacement 0 (s ++ []) =
        s ++ replaceFrom search replacement 0 [] := by
      refine replaceFrom_append fun i _ => ?_
      rw [List.append_nil]
      exact none i
    rwa [List.append_nil, replaceFrom, List.append_nil] at whole
  | cut none ofRest ih =>
    rw [replaceFrom_append none, replaceFrom_occurrence nonempty, ih, join_cons ofRest.ne_nil]

/-- Replacing joins the pieces with the replacement. -/
theorem replaceAll_of_cutAt (nonempty : search ≠ []) {s : Text} {pieces : List Text}
    (h : CutAt search s pieces) : replaceAll search replacement s = join replacement pieces := by
  rw [replaceAll, if_neg (by rwa [List.isEmpty_iff]), replaceFrom_of_cutAt nonempty h]

/-! ## Replacing in the text itself -/

theorem Edited.unique {start : Nat} {s t t' : Text} (h : Edited search replacement start s t)
    (h' : Edited search replacement start s t') : t' = t := by
  induction h generalizing t' with
  | finished none =>
    cases h' with
    | finished => rfl
    | replaced le occurs => exact absurd occurs (none _ le)
  | @replaced start i s t le occurs none after ih =>
    cases h' with
    | finished never => exact absurd occurs (never _ le)
    | @replaced _ i' _ _ le' occurs' none' after' =>
      have same : i' = i := by
        rcases Nat.lt_trichotomy i' i with lt | same | lt
        · exact absurd occurs' (none _ le' lt)
        · exact same
        · exact absurd occurs (none' _ le lt)
      subst same
      exact ih after'

/-- Whatever stands before `start`, the pieces of the text behind it are joined. What was put in
goes over to the bytes that are done, and these take no part in the search: that is the invariant of
the edits. -/
theorem edited_of_cutAt {s : Text} {pieces : List Text} (h : CutAt search s pieces) (done : Text) :
    Edited search replacement done.length (done ++ s) (done ++ join replacement pieces) := by
  induction h generalizing done with
  | uncut none =>
    refine .finished fun i le => ?_
    exact not_occursAt_append_left done (n := i + 1) (fun i _ => none i) i le (by omega)
  | @cut before rest pieces none ofRest ih =>
    refine .replaced (i := done.length + before.length) (Nat.le_add_right ..) ?_
      (not_occursAt_append_left done none) ?_
    · rw [occursAt_append_left]
      exact occursAt_append before rest
    · have kept : (done ++ (before ++ (search ++ rest))).take (done.length + before.length) =
          done ++ before := by
        rw [← List.append_assoc, ← List.length_append, List.take_left]
      have left : (done ++ (before ++ (search ++ rest))).drop
          (done.length + before.length + search.length) = rest := by
        rw [Nat.add_assoc, List.drop_length_add_append, List.drop_length_add_append, List.drop_left]
      have edited := ih (done ++ before ++ replacement)
      rw [List.length_append, List.length_append] at edited
      rw [kept, left, join_cons ofRest.ne_nil]
      simpa only [List.append_assoc] using edited

theorem edited_iff_of_cutAt {s : Text} {pieces : List Text} (h : CutAt search s pieces) (t : Text) :
    Edited search replacement 0 s t ↔ t = join replacement pieces := by
  have edited : Edited search replacement 0 s (join replacement pieces) := edited_of_cutAt h []
  constructor
  · exact edited.unique
  · rintro rfl
    exact edited

end Text

/-! ## The function -/

namespace Function.Strings

open Text

/-- The first text is cut in one way at the occurrences of the second, if that is not empty; nothing
is left in the pieces to cut at; with the second text between them they are the first text, and with
the third they are what the function returns. The same comes of editing the first text itself. -/
theorem replace_joins {arguments : List Value} (context : Context)
    (nonempty : textArgument arguments 1 ≠ []) :
    let text := textArgument arguments 0
    let search := textArgument arguments 1
    let replacement := textArgument arguments 2
    ∃ pieces, (∀ others, CutAt search text others ↔ others = pieces) ∧
      (∀ piece ∈ pieces, ∀ i, ¬ OccursAt search piece i) ∧ join search pieces = text ∧
      replace arguments context = .ok (.text (join replacement pieces)) ∧
      ∀ t, Edited search replacement 0 text t ↔ t = join replacement pieces := by
  intro text search replacement
  obtain ⟨pieces, cut⟩ := exists_cutAt nonempty text
  refine ⟨pieces, fun others => ⟨cut.unique, ?_⟩, cut.not_occursAt nonempty, cut.join_search, ?_,
    edited_iff_of_cutAt cut⟩
  · rintro rfl
    exact cut
  · show Except.ok (Value.text (replaceAll search replacement text)) = _
    rw [replaceAll_of_cutAt nonempty cut]

/-- In `aaaaa` the second `a` starts an occurrence of `aa` as well, but it overlaps the first one;
and the replacements make another `aa` with the last `a`, which stays. -/
theorem replace_joins_of_overlaps :
    textArgument [.text (utf8 "aaaaa"), .text (utf8 "aa"), .text (utf8 "ba")] 1 ≠ [] ∧
      CutAt (utf8 "aa") (utf8 "aaaaa") [[], [], utf8 "a"] ∧
      replace [.text (utf8 "aaaaa"), .text (utf8 "aa"), .text (utf8 "ba")] {} =
        .ok (.text (utf8 "babaa")) := by
  have nonempty :
      textArgument [.text (utf8 "aaaaa"), .text (utf8 "aa"), .text (utf8 "ba")] 1 ≠ [] := by
    decide +kernel
  have uncut : CutAt (utf8 "aa") (utf8 "a") [utf8 "a"] := by
    refine .uncut fun i occurs => ?_
    have tooLong : (utf8 "aa").length ≤ 1 - i := (List.length_drop ▸ occurs.length_le :)
    have two : (utf8 "aa").length = 2 := by decide +kernel
    omega
  have atStart {rest : Text} {pieces : List Text} (ofRest : CutAt (utf8 "aa") rest pieces) :
      CutAt (utf8 "aa") (utf8 "aa" ++ rest) ([] :: pieces) :=
    @CutAt.cut (utf8 "aa") [] rest pieces (fun _ lt => absurd lt (Nat.not_lt_zero _)) ofRest
  have cut : CutAt (utf8 "aa") (utf8 "aaaaa") [[], [], utf8 "a"] := atStart (atStart uncut)
  obtain ⟨pieces, unique, -, -, returned, -⟩ := replace_joins {} nonempty
  rw [← (unique _).mp cut] at returned
  exact ⟨nonempty, cut, returned⟩

end Function.Strings

end ComputedFields
