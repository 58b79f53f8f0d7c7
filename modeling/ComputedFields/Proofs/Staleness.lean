import ComputedFields.Proofs.Turns

/-!
# `ComputedFields.Proofs.Staleness` — recalculating once more

After a recalculation its values are fields of the block. Recalculating then should change nothing:
each result should be what its formula comes to over these fields. The order is indeed the same, and
for a formula that reads fields by their names only so is the result, since such fields are settled
at its turn. But `Get` reads a field that is not among the dependencies. A formula may get one that
is computed later, or its own, and its result is then out of date as soon as the recalculation ends.

* `applied` — a context with the values of a recalculation;
* `ConsistentWith`, `GetsSettled` — the results are up to date, and why they are;
* `Reached.consistentWith_of_getsSettled` — settled fields give results that are up to date;
* `Reached.results_eq_iff` — when recalculating once more changes nothing.
-/

namespace ComputedFields.Recalculation

/-! ## Values as fields -/

/-- The value of a formula; null of a failed one. -/
def value (r : Recalculation) (name : Text) : Value :=
  (Table.find? name r.results).elim .null Report.value

/-- A context with the values of some formulas for fields, set one after the other. -/
def applied (r : Recalculation) (names : List Text) (base : Context) : Context :=
  names.foldl (fun context name => context.setField name (r.value name)) base

/-- Every evaluated formula has the result that its source comes to in a context. -/
def ConsistentWith (evaluator : Evaluator) (formulas : List NamedFormula) (r : Recalculation)
    (context : Context) : Prop :=
  ∀ formula ∈ formulas, formula.name ∈ r.order → Table.find? formula.name r.results =
    some (evaluator.evaluate (m := Id) none formula.source context).run

/-- The fields that a formula gets through calls of `Get` have at its turn the values that they have
in the end. -/
def GetsSettled (evaluator : Evaluator) (formulas : List NamedFormula) (r : Recalculation)
    (base : Context) : Prop :=
  ∀ before name after, r.order = before ++ name :: after → ∀ e, tree? formulas name = some e →
    ∀ field ∈ e.gets (evaluator.environment (r.applied before base) none),
      Table.find? field (r.applied before base).fields =
        Table.find? field (r.applied r.order base).fields

theorem applied_eq_withResults {r : Recalculation} {finished : List (Text × Report)}
    (values : ∀ name report, (name, report) ∈ finished → r.value name = report.value)
    (base : Context) : r.applied (namesOf finished) base = base.withResults finished := by
  induction finished generalizing base with
  | nil => rfl
  | cons head rest ih =>
    obtain ⟨name, report⟩ := head
    have first := values name report (List.mem_cons_self ..)
    have others := ih (fun name report mem => values name report (List.mem_cons_of_mem _ mem))
      (base.setField name report.value)
    rw [namesOf, List.map_cons, applied, List.foldl_cons, first]
    exact others

variable {formulas : List NamedFormula} {base : Context} {done : Progress} {evaluator : Evaluator}
  {finished : List (Text × Report)}

theorem Reached.applied_eq {gives : Context → Entry → Report → Prop}
    (distinct : (formulas.map (·.name)).Nodup) (h : Reached gives base (entries formulas) done)
    {before after : List (Text × Report)} (split : done.finished = before ++ after)
    (evaluator : Evaluator) :
    (done.outcome evaluator).applied (namesOf before) base = base.withResults before := by
  refine applied_eq_withResults (fun name report mem => ?_) base
  rw [value, h.find?_finished evaluator (by rwa [map_name_entries])
    (split ▸ List.mem_append_left _ mem), Option.elim_some]

/-- The report of an entry is that on the source of its formula. -/
theorem reportIn_ofFormula (names : List Text) (formula : NamedFormula) (c : Context) :
    (Entry.ofFormula names formula).reportIn evaluator c =
      (evaluator.evaluate (m := Id) none formula.source c).run := rfl

/-! ## Results that the fields hold already -/

/-- Results that the fields hold already do not matter for a report. -/
theorem reportIn_withResults_of_held (builtin : evaluator.registry = Function.catalog)
    (distinct : (namesOf finished).Nodup)
    (held : ∀ name report, (name, report) ∈ finished →
      Table.find? name base.fields = some report.value) (entry : Entry) :
    entry.reportIn evaluator (base.withResults finished) = entry.reportIn evaluator base :=
  Entry.reportIn_congr builtin (base.sameSurroundings_withResults finished).symm
    fun _ _ name _ => Context.find?_withResults_of_held distinct held name

/-- A history over a base that holds its results is one of reports over that base. -/
theorem History.reportIn_of_held (builtin : evaluator.registry = Function.catalog)
    {batch : List Entry}
    (h : History (ReportedIn evaluator) base batch finished)
    (held : ∀ name report, (name, report) ∈ finished →
      Table.find? name base.fields = some report.value)
    {entry : Entry} (distinct : (batch.map (·.name)).Nodup) (inBatch : entry ∈ batch)
    {report : Report} (mem : (entry.name, report) ∈ finished) :
    entry.reportIn evaluator base = report := by
  obtain ⟨before, after, entry', split, same, history, turn, given⟩ := h.mem mem
  obtain rfl := eq_of_name_eq distinct (firstReady_eq_some turn).1 inBatch same
  rw [← given, reportIn_withResults_of_held builtin history.nodup]
  exact fun name report mem => held name report (split ▸ List.mem_append_left _ mem)

/-- A history of results that are those over another base, which holds them, is one over that base
too. -/
theorem History.over_held (builtin : evaluator.registry = Function.catalog)
    {gives : Context → Entry → Report → Prop} {batch : List Entry} {base' : Context}
    (h : History gives base batch finished)
    (held : ∀ name report, (name, report) ∈ finished →
      Table.find? name base'.fields = some report.value)
    (reports : ∀ entry ∈ batch, ∀ report, (entry.name, report) ∈ finished →
      entry.reportIn evaluator base' = report) :
    History (ReportedIn evaluator) base' batch finished := by
  induction h with
  | nil => exact .nil
  | @snoc finished entry report history turn _ ih =>
    have earlier : ∀ name report, (name, report) ∈ finished →
        Table.find? name base'.fields = some report.value :=
      fun name report mem => held name report (List.mem_append_left _ mem)
    refine (ih earlier fun entry mem report found =>
      reports entry mem report (List.mem_append_left _ found)).snoc turn ?_
    calc entry.reportIn evaluator (base'.withResults finished)
      _ = entry.reportIn evaluator base' :=
        reportIn_withResults_of_held builtin history.nodup earlier entry
      _ = report := reports entry (firstReady_eq_some turn).1 report
        (List.mem_append_right _ (List.mem_singleton_self _))

/-! ## Recalculating over the values -/

/-- The results that a recalculation has to be consistent with, one by one. -/
theorem Reached.consistentWith_iff {gives : Context → Entry → Report → Prop}
    (distinct : (formulas.map (·.name)).Nodup) (h : Reached gives base (entries formulas) done)
    {context : Context} :
    ConsistentWith evaluator formulas (done.outcome evaluator) context ↔
      ∀ entry ∈ entries formulas, ∀ report, (entry.name, report) ∈ done.finished →
        entry.reportIn evaluator context = report := by
  have entryDistinct : ((entries formulas).map (·.name)).Nodup := by rwa [map_name_entries]
  constructor
  · intro consistent entry inBatch report mem
    obtain ⟨formula, formulaMem, rfl⟩ := List.mem_map.mp inBatch
    have result := consistent formula formulaMem (List.mem_map_of_mem mem)
    exact (Option.some.inj ((h.find?_finished evaluator entryDistinct mem).symm.trans result)).symm
  · intro reports formula formulaMem finished
    obtain ⟨⟨_, report⟩, mem, same⟩ := List.mem_map.mp finished
    subst same
    rw [h.find?_finished evaluator entryDistinct mem,
      ← reports _ (List.mem_map_of_mem formulaMem) report mem, reportIn_ofFormula]

/-- At a formula's turn, the fields of its tree are what they are in the end; so if the fields that
it gets are too, its result is up to date. -/
theorem Reached.consistentWith_of_getsSettled (builtin : evaluator.registry = Function.catalog)
    (distinct : (formulas.map (·.name)).Nodup)
    (h : Reached (ReportedIn evaluator) base (entries formulas) done)
    (settled : GetsSettled evaluator formulas (done.outcome evaluator) base) :
    ConsistentWith evaluator formulas (done.outcome evaluator)
      (base.withResults done.finished) := by
  refine (h.consistentWith_iff distinct).mpr fun entry inBatch report mem => ?_
  obtain ⟨before, after, entry', split, same, history, turn, given⟩ := h.history.mem mem
  obtain rfl := eq_of_name_eq (by rwa [map_name_entries]) (firstReady_eq_some turn).1 inBatch same
  have order : (done.outcome evaluator).order = namesOf before ++ entry'.name :: namesOf after := by
    show done.order = _
    rw [Progress.order, split, List.map_append, List.map_cons]
  have atTurn := h.applied_eq distinct split evaluator
  have atEnd := h.applied_eq distinct (List.append_nil done.finished).symm evaluator
  rw [← given]
  refine (Entry.reportIn_congr builtin ((base.sameSurroundings_withResults before).symm.trans
    (base.sameSurroundings_withResults done.finished)) fun e parsed name names => ?_).symm
  rcases List.mem_append.mp names with field | got
  -- a field of the tree is computed before, or not at all; only one that it gets may come later
  · have early := h.settled split inBatch (firstReady_eq_some turn).2.2 parsed field
    rw [split, Context.withResults_append, Context.find?_withResults_of_notMem early]
  · have tree := (tree?_eq_some_iff distinct inBatch).mpr parsed
    have same := settled _ _ _ order e tree name (atTurn ▸ got)
    rwa [atTurn, show (done.outcome evaluator).order = namesOf done.finished from rfl, atEnd]
      at same

/-- What is returned depends on what is finished. -/
theorem Reached.outcome_congr {gives gives' : Context → Entry → Report → Prop} {base' : Context}
    {batch : List Entry} {done' : Progress} (h : Reached gives base batch done)
    (h' : Reached gives' base' batch done') (same : done'.finished = done.finished) :
    done'.outcome evaluator = done.outcome evaluator := by
  have order : done'.order = done.order := by rw [Progress.order, same, Progress.order]
  have waiting : done'.waiting = done.waiting := by rw [h.waiting, h'.waiting, order]
  simp only [Progress.outcome, Progress.stuck, same, waiting, order]

/-- Recalculations of one order and with the same results finished with the same reports. -/
theorem Reached.mem_of_results_eq {gives gives' : Context → Entry → Report → Prop}
    {base' : Context} {batch : List Entry} {done' : Progress}
    (distinct : (batch.map (·.name)).Nodup) (h : Reached gives base batch done)
    (h' : Reached gives' base' batch done') (order : done.order = done'.order)
    (results : (done.outcome evaluator).results = (done'.outcome evaluator).results) {name : Text}
    {report : Report} (mem : (name, report) ∈ done.finished) : (name, report) ∈ done'.finished := by
  have finished : name ∈ done'.order := order ▸ List.mem_map_of_mem mem
  obtain ⟨⟨_, report'⟩, mem', same⟩ := List.mem_map.mp finished
  subst same
  have result := h.find?_finished evaluator distinct mem
  rw [results, h'.find?_finished evaluator distinct mem', Option.some.injEq] at result
  exact result ▸ mem'

/-- A recalculation over the values of another has the same results exactly if these were
consistent with the values. -/
theorem Reached.results_eq_iff (builtin : evaluator.registry = Function.catalog)
    (distinct : (formulas.map (·.name)).Nodup)
    (h : Reached (ReportedIn evaluator) base (entries formulas) done) {done' : Progress}
    (h' : Reached (ReportedIn evaluator) (base.withResults done.finished) (entries formulas) done')
    (order : done'.order = done.order) :
    (done'.outcome evaluator).results = (done.outcome evaluator).results ↔
      ConsistentWith evaluator formulas (done.outcome evaluator)
        (base.withResults done.finished) := by
  have entryDistinct : ((entries formulas).map (·.name)).Nodup := by rwa [map_name_entries]
  have held : ∀ name report, (name, report) ∈ done.finished →
      Table.find? name (base.withResults done.finished).fields = some report.value :=
    fun _ _ mem => Context.find?_withResults_of_mem h.history.nodup mem
  rw [h.consistentWith_iff distinct]
  constructor
  · intro results entry inBatch report mem
    -- both have the same reports, so the fields hold those of the second as well
    have held' : ∀ name report, (name, report) ∈ done'.finished →
        Table.find? name (base.withResults done.finished).fields = some report.value :=
      fun name report mem => held _ _ (h'.mem_of_results_eq entryDistinct h order results mem)
    exact h'.history.reportIn_of_held builtin held' entryDistinct inBatch
      (h.mem_of_results_eq entryDistinct h' order.symm results.symm mem)
  -- the first history is then also one over the values, and there is only one of this order
  · intro reports
    have again := h.history.over_held builtin held reports
    refine congrArg results (h.outcome_congr h' ?_)
    exact h'.history.unique (fun _ _ _ _ given given' => given.symm.trans given') again order

/-- The recalculation of a batch over the values of its recalculation has the same order. It has the
same results exactly if every result was consistent with these values, which is the case when no
formula gets, through calls of `Get`, a field that still changes. -/
theorem recalculate_again (options : Options) (formulas : List NamedFormula) (base : Context)
    (distinct : (formulas.map (·.name)).Nodup) :
    ∃ r r', recalculate (m := Id) { options } none formulas base = .ok r ∧
      recalculate (m := Id) { options } none formulas (r.applied r.order base) = .ok r' ∧
      r'.order = r.order ∧
      (r'.results = r.results ↔
        ConsistentWith { options } formulas r (r.applied r.order base)) ∧
      (GetsSettled { options } formulas r base → r'.results = r.results) := by
  obtain ⟨r, returned, done, rfl, reached, stop⟩ :=
    recalculate_reached_of_no_resolver { options } base distinct
  have values : (done.outcome { options }).applied (done.outcome { options }).order base =
      base.withResults done.finished :=
    reached.applied_eq distinct (List.append_nil _).symm { options }
  obtain ⟨r', returned', done', rfl, reached', stop'⟩ :=
    recalculate_reached_of_no_resolver { options } (base.withResults done.finished) distinct
  have order : done'.order = done.order :=
    reached'.history.order_unique reached.history stop' stop
  have same := reached.results_eq_iff rfl distinct reached' order
  rw [← values] at returned' same
  refine ⟨_, _, returned, returned', order, same, fun settled => same.mpr ?_⟩
  rw [values]
  exact reached.consistentWith_of_getsSettled rfl distinct settled

/-- A formula that gets a field which is computed before. -/
theorem recalculate_again_of_get_after :
    let formulas : List NamedFormula := [⟨utf8 "b", utf8 "\"x\""⟩, ⟨utf8 "a", utf8 "Get(\"b\")"⟩]
    (formulas.map (·.name)).Nodup ∧
      ∃ r r', recalculate (m := Id) {} none formulas {} = .ok r ∧
        recalculate (m := Id) {} none formulas (r.applied r.order {}) = .ok r' ∧
        r'.order = r.order ∧ GetsSettled {} formulas r {} ∧ r'.results = r.results := by
  intro formulas
  have distinct : (formulas.map (·.name)).Nodup := by decide
  obtain ⟨r, r', returned, returned', order, -, same⟩ := recalculate_again {} formulas {} distinct
  have result : r =
      ⟨[utf8 "b", utf8 "a"],
        [(utf8 "a", ⟨.ok (.text (utf8 "x")), utf8 "Error", []⟩),
          (utf8 "b", ⟨.ok (.text (utf8 "x")), utf8 "Error", []⟩)]⟩ :=
    Except.ok.inj (returned.symm.trans rfl)
  have settled : GetsSettled {} formulas r {} := by
    rw [result]
    rintro (_ | ⟨first, _ | ⟨second, before⟩⟩) name after split e tree field got
    · obtain ⟨rfl, rfl⟩ := List.cons.inj split
      obtain rfl : Expr.text 0 (utf8 "x") = e := Option.some.inj tree
      exact absurd got List.not_mem_nil
    · obtain ⟨rfl, rest⟩ := List.cons.inj split
      obtain ⟨rfl, rfl⟩ := List.cons.inj rest
      obtain rfl : Expr.call 0 (utf8 "Get") [.text 4 (utf8 "b")] = e := Option.some.inj tree
      obtain rfl : field = utf8 "b" := List.mem_singleton.mp got
      rfl
    · simp at split
  exact ⟨distinct, r, r', returned, returned', order, settled, same settled⟩

/-- A formula that gets a field which is computed after it: at its turn there is no such field, and
over the values there is one. -/
theorem recalculate_again_stale :
    let formulas : List NamedFormula := [⟨utf8 "a", utf8 "Get(\"b\")"⟩, ⟨utf8 "b", utf8 "\"x\""⟩]
    (formulas.map (·.name)).Nodup ∧
      ∃ r r', recalculate (m := Id) {} none formulas {} = .ok r ∧
        recalculate (m := Id) {} none formulas (r.applied r.order {}) = .ok r' ∧
        r'.results ≠ r.results := by
  refine ⟨by decide, _, _, rfl, rfl, fun same => ?_⟩
  have displays := congrArg (fun results : Table Report => results.map (·.2.display)) same
  revert displays
  decide

end ComputedFields.Recalculation
