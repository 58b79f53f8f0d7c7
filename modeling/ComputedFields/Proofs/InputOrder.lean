import ComputedFields.Proofs.Turns

/-!
# `ComputedFields.Proofs.InputOrder` — the order of a batch does not matter

Two batches of the same formulas in different orders are evaluated in different orders, each formula
in a context of its own. As long as no formula calls `Get`, a formula sees of that context only what
it names, and what it names is finished in both, with the same report: this goes by induction along
the one history, and the other is only known to have come to its end.

What the order of a batch does show in is the message for a circle, which lists the formulas that
are left.

* `Report.Agrees` — two reports that differ at most in that message;
* `History.reportIn_eq` — a formula gets one report at its turns in two orders;
* `History.subset` — what is finished in one order is finished in the other, with the same report.
-/

namespace ComputedFields

/-- Two reports agree in all that they say, but that the message for a circle may differ. -/
structure Report.Agrees (a b : Report) : Prop where
  success : a.success = b.success
  value : a.value = b.value
  kind : a.kind = b.kind
  display : a.display = b.display
  code : a.code? = b.code?
  dependencies : a.dependencies = b.dependencies
  error : a.code? ≠ some .circularReference → a.error? = b.error?

@[refl] theorem Report.Agrees.refl (a : Report) : a.Agrees a :=
  ⟨rfl, rfl, rfl, rfl, rfl, rfl, fun _ => rfl⟩

namespace Recalculation

/-- Reports on the same formula that name different formulas as left agree. -/
theorem circular_agrees (evaluator : Evaluator) (stuck stuck' : List Text) (entry : Entry) :
    (circular evaluator stuck entry).Agrees (circular evaluator stuck' entry) :=
  ⟨rfl, rfl, rfl, rfl, rfl, rfl, fun other => absurd rfl other⟩

variable {formulas formulas' : List NamedFormula}

/-- What a formula needs does not depend on the order of the batch. -/
theorem entries_perm (perm : formulas.Perm formulas') :
    (entries formulas).Perm (entries formulas') := by
  have names : (formulas.map (·.name)).contains = (formulas'.map (·.name)).contains := by
    funext name
    rw [Bool.eq_iff_iff, List.contains_iff_mem, List.contains_iff_mem]
    exact (perm.map _).mem_iff
  have same : Entry.ofFormula (formulas.map (·.name)) =
      Entry.ofFormula (formulas'.map (·.name)) := by
    funext formula
    simp only [Entry.ofFormula, names]
  rw [entries, entries, same]
  exact perm.map _

section

variable {evaluator : Evaluator} {base : Context} {finished finished' : List (Text × Report)}
  {done : Progress}

/-- When a formula without `Get` has its turn in one order and in another, it gets one report, as
long as what is finished in both orders has one report each: of the fields it sees only those that
it names. -/
theorem History.reportIn_eq (builtin : evaluator.registry = Function.catalog)
    (perm : formulas.Perm formulas') {gives gives' : Context → Entry → Report → Prop}
    (h : History gives base (entries formulas) finished)
    (h' : History gives' base (entries formulas') finished') {entry : Entry}
    (turn : firstReady (entries formulas) (namesOf finished) = some entry)
    (turn' : firstReady (entries formulas') (namesOf finished') = some entry)
    (getFree : ∀ e, entry.parsed = .ok e → ¬ e.Calls (utf8 "Get"))
    (one : ∀ name report report', (name, report) ∈ finished → (name, report') ∈ finished' →
      report = report') :
    entry.reportIn evaluator (base.withResults finished) =
      entry.reportIn evaluator (base.withResults finished') := by
  have inBatch_iff : ∀ name, name ∈ formulas.map (·.name) ↔ name ∈ formulas'.map (·.name) :=
    fun _ => (perm.map _).mem_iff
  refine Entry.reportIn_congr builtin ((base.sameSurroundings_withResults finished).symm.trans
    (base.sameSurroundings_withResults finished')) fun e parsed name names => ?_
  rw [Expr.gets_eq_nil (getFree e parsed), List.append_nil] at names
  rcases h.field_cases turn parsed names with ⟨inBatch, report, mem, field⟩ | ⟨notIn, field⟩
  · rcases h'.field_cases turn' parsed names with ⟨_, report', mem', field'⟩ | ⟨notIn', _⟩
    · rw [field, field', one name report report' mem mem']
    · exact absurd ((inBatch_iff name).mp inBatch) notIn'
  · rcases h'.field_cases turn' parsed names with ⟨inBatch', _⟩ | ⟨_, field'⟩
    · exact absurd ((inBatch_iff name).mpr inBatch') notIn
    · rw [field, field']

/-- What is finished in one order of a batch is finished in every other order, with the same
report. The induction is along the one order, of the other one only its end is known. -/
theorem History.subset (builtin : evaluator.registry = Function.catalog)
    (distinct : (formulas.map (·.name)).Nodup) (perm : formulas.Perm formulas')
    (getFree : ∀ entry ∈ entries formulas, ∀ e, entry.parsed = .ok e → ¬ e.Calls (utf8 "Get"))
    (h : History (ReportedIn evaluator) base (entries formulas) finished)
    (h' : Reached (ReportedIn evaluator) base (entries formulas') done)
    (stop : firstReady (entries formulas') done.order = none) : finished ⊆ done.finished := by
  have entryDistinct : ((entries formulas').map (·.name)).Nodup := by
    rw [map_name_entries]
    exact (perm.map _).nodup_iff.mp distinct
  induction h with
  | nil => exact List.nil_subset _
  | @snoc finished entry report history turn given ih =>
    obtain ⟨mem, -, ready⟩ := firstReady_eq_some turn
    have mem' : entry ∈ entries formulas' := (entries_perm perm).mem_iff.mp mem
    -- the other run cannot have stopped before this formula: all that it needs is finished there
    have order : entry.name ∈ done.order := by
      by_contra left
      obtain ⟨need, needed, missing⟩ := exists_need_of_firstReady_eq_none stop mem' left
      exact missing (List.map_subset _ ih (ready need needed))
    obtain ⟨⟨_, report'⟩, found, rfl⟩ := List.mem_map.mp order
    obtain ⟨before, after, entry', split, same, history', turn', given'⟩ := h'.history.mem found
    obtain ⟨mem'', -, -⟩ := firstReady_eq_some turn'
    obtain rfl : entry' = entry := eq_of_name_eq entryDistinct mem'' mem' same
    have agree : report = report' := by
      rw [← given, ← given']
      refine history.reportIn_eq builtin perm history' turn turn' (getFree entry' mem) ?_
      intro name seen seen' inFinished inBefore
      have inDone : (name, seen') ∈ done.finished := split ▸ List.mem_append_left _ inBefore
      have both := List.inj_on_of_nodup_map h'.history.nodup (ih inFinished) inDone rfl
      exact (Prod.mk.inj both).2
    subst agree
    exact List.append_subset.mpr ⟨ih, List.cons_subset.mpr ⟨found, List.nil_subset _⟩⟩

end

/-- Without `Get`, the recalculations of a batch in two orders have the same results, up to the
formulas that the message for a circle lists. -/
theorem recalculate_perm (options : Options) {formulas formulas' : List NamedFormula}
    (base : Context) (distinct : (formulas.map (·.name)).Nodup) (perm : formulas.Perm formulas')
    (getFree : ∀ formula ∈ formulas, ∀ e, parse formula.source = .ok e → ¬ e.Calls (utf8 "Get")) :
    ∃ r r', recalculate (m := Id) { options } none formulas base = .ok r ∧
      recalculate (m := Id) { options } none formulas' base = .ok r' ∧
      r.results.names.Perm r'.results.names ∧
      ∀ formula ∈ formulas, ∃ report report',
        Table.find? formula.name r.results = some report ∧
        Table.find? formula.name r'.results = some report' ∧ report.Agrees report' := by
  have distinct' : (formulas'.map (·.name)).Nodup := (perm.map _).nodup_iff.mp distinct
  have entryDistinct : ((entries formulas).map (·.name)).Nodup := by rwa [map_name_entries]
  have entryDistinct' : ((entries formulas').map (·.name)).Nodup := by rwa [map_name_entries]
  have free : ∀ entry ∈ entries formulas, ∀ e, entry.parsed = .ok e → ¬ e.Calls (utf8 "Get") := by
    intro entry mem
    obtain ⟨formula, formulaMem, rfl⟩ := List.mem_map.mp mem
    exact getFree formula formulaMem
  have free' : ∀ entry ∈ entries formulas', ∀ e, entry.parsed = .ok e → ¬ e.Calls (utf8 "Get") :=
    fun entry mem => free entry ((entries_perm perm).mem_iff.mpr mem)
  obtain ⟨r, returned, done, rfl, reached, stop⟩ :=
    recalculate_reached_of_no_resolver { options } base distinct
  obtain ⟨r', returned', done', rfl, reached', stop'⟩ :=
    recalculate_reached_of_no_resolver { options } base distinct'
  have there := reached.history.subset rfl distinct perm free reached' stop'
  have back := reached'.history.subset rfl distinct' perm.symm free' reached stop
  refine ⟨_, _, returned, returned', ?_, fun formula mem => ?_⟩
  · refine (reached.names_results _ entryDistinct).trans (.trans ?_
      (reached'.names_results _ entryDistinct').symm)
    exact (entries_perm perm).map _
  have entryMem : Entry.ofFormula (formulas.map (·.name)) formula ∈ entries formulas :=
    List.mem_map_of_mem mem
  by_cases finished : formula.name ∈ done.order
  · obtain ⟨⟨_, report⟩, found, same⟩ := List.mem_map.mp finished
    subst same
    exact ⟨report, report, reached.find?_finished _ entryDistinct found,
      reached'.find?_finished _ entryDistinct' (there found), .refl _⟩
  · have left' : formula.name ∉ done'.order := fun finished' =>
      finished (List.map_subset _ back finished')
    exact ⟨_, _, reached.find?_left _ entryDistinct entryMem finished,
      reached'.find?_left _ entryDistinct' ((entries_perm perm).mem_iff.mp entryMem) left',
      circular_agrees ..⟩

/-- A formula before and after the one that it reads, beside two that read each other and are left
in either order. -/
theorem recalculate_perm_of_reverse :
    let formulas : List NamedFormula :=
      [⟨utf8 "a", utf8 "b + \"!\""⟩, ⟨utf8 "b", utf8 "Upper(x)"⟩, ⟨utf8 "c", utf8 "d"⟩,
        ⟨utf8 "d", utf8 "c"⟩]
    (formulas.map (·.name)).Nodup ∧ formulas.Perm formulas.reverse ∧
      (∀ formula ∈ formulas, ∀ e, parse formula.source = .ok e → ¬ e.Calls (utf8 "Get")) ∧
      ∃ r r', recalculate (m := Id) {} none formulas {} = .ok r ∧
        recalculate (m := Id) {} none formulas.reverse {} = .ok r' ∧
        r.results.names.Perm r'.results.names ∧
        ∀ formula ∈ formulas, ∃ report report',
          Table.find? formula.name r.results = some report ∧
          Table.find? formula.name r'.results = some report' ∧ report.Agrees report' := by
  intro formulas
  have distinct : (formulas.map (·.name)).Nodup := by decide
  have perm : formulas.Perm formulas.reverse := formulas.reverse_perm.symm
  have getFree : ∀ formula ∈ formulas, ∀ e, parse formula.source = .ok e →
      ¬ e.Calls (utf8 "Get") := by
    have free : ∀ formula ∈ formulas, ∀ e ∈ (parse formula.source).toOption,
        ¬ e.Calls (utf8 "Get") := by decide
    exact fun formula mem e parsed => free formula mem e (parsed ▸ rfl)
  exact ⟨distinct, perm, getFree, recalculate_perm {} {} distinct perm getFree⟩

end Recalculation

end ComputedFields
