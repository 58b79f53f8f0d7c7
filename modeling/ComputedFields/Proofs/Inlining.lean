import ComputedFields.Proofs.Turns

/-!
# `ComputedFields.Proofs.Inlining` — a batch as one formula

What a formula of a batch comes to can be had without the batch: write the trees of the formulas
that it reads in the places of their fields, and so on until no field of the batch is left, and
evaluate that tree in the base. The base may hold fields of the same names; they are not looked at.

The formulas that are read have to succeed. A failed one leaves a field with null, and a formula
that reads that goes on, while in the one tree the failure would end the evaluation. And none may
call `Get`, which takes its fields from the context by names that are not in the tree.

* `StandsFor` — a tree in which nothing of the batch is left, and its result;
* `History.standsFor_inlined_succ` — one round of substitution, at the turn of a formula;
* `History.standsFor_inlined` — the tree of a finished formula, by induction along the order.
-/

namespace ComputedFields.Recalculation

open Relation

variable {formulas : List NamedFormula}

section

variable {evaluator : Evaluator} {base : Context} {finished : List (Text × Report)}

/-- A formula that succeeded has a tree. -/
theorem History.exists_tree (distinct : (formulas.map (·.name)).Nodup)
    (h : History (ReportedIn evaluator) base (entries formulas) finished) {name : Text}
    {report : Report} (mem : (name, report) ∈ finished) (success : report.success) :
    ∃ e, tree? formulas name = some e := by
  obtain ⟨before, after, entry, -, rfl, -, turn, given⟩ := h.mem mem
  rw [tree?_of_entry distinct (firstReady_eq_some turn).1]
  cases parsed : entry.parsed with
  | ok e => exact ⟨e, rfl⟩
  | error error =>
    rw [← given, Entry.reportIn_of_misread _ _ parsed] at success
    cases success

/-- A report of success has its value for result. -/
theorem result_of_success {report : Report} (h : report.success) :
    report.result = .ok report.value := by
  obtain ⟨result, _, _⟩ := report
  cases result with
  | ok v => rfl
  | error failure => cases h

/-- A tree that needs no batch: none of its fields is computed, and it has a result in the base. -/
structure StandsFor (evaluator : Evaluator) (formulas : List NamedFormula) (base : Context)
    (tree : Expr) (result : Except Failure Value) : Prop where
  complete : ∀ name ∈ tree.fieldNames, name ∉ formulas.map (·.name)
  eval_eq : tree.eval (evaluator.environment base none) = result

/-- One round of substitution, for a formula whose turn it is: if the trees of what it reads stand
for the reports on them, its own stands for its value at its turn. -/
theorem History.standsFor_inlined_succ (builtin : evaluator.registry = Function.catalog)
    {gives : Context → Entry → Report → Prop} (h : History gives base (entries formulas) finished)
    {entry : Entry} (turn : firstReady (entries formulas) (namesOf finished) = some entry)
    {e : Expr} (parsed : entry.parsed = .ok e) (getFree : ¬ e.Calls (utf8 "Get")) {k : Nat}
    (known : ∀ name ∈ e.fieldNames, ∀ report, (name, report) ∈ finished → report.success ∧
      ∃ t, tree? formulas name = some t ∧
        StandsFor evaluator formulas base (t.inlined (tree? formulas) k) report.result) :
    StandsFor evaluator formulas base (e.inlined (tree? formulas) (k + 1))
      (e.eval (evaluator.environment (base.withResults finished) none)) where
  complete x mem := by
    obtain ⟨name, field, mem⟩ := Expr.mem_fieldNames_substitute.mp mem
    rcases h.field_cases turn parsed field with ⟨-, report, found, -⟩ | ⟨notInBatch, -⟩
    · obtain ⟨-, t, tree, stands⟩ := known name field report found
      simp only [Expr.fieldsFor, tree, Option.map_some, Option.elim_some] at mem
      exact stands.complete x mem
    · simp only [Expr.fieldsFor, tree?_eq_none_of_notMem notInBatch, Option.map_none,
        Option.elim_none, List.mem_singleton] at mem
      exact mem ▸ notInBatch
  eval_eq := by
    refine (Expr.eval_substitute builtin (evaluator.environment_sameButFields
      (base.sameSurroundings_withResults finished).symm) e (fun name field => ?_) ?_).symm
    · rcases h.field_cases turn parsed field with ⟨-, report, found, value⟩ | ⟨notInBatch, same⟩
      -- the field holds the value of the formula, and so does the tree, as the formula succeeded
      · obtain ⟨success, t, tree, stands⟩ := known name field report found
        simp only [Environment.Replaced, tree, Option.map_some]
        exact ⟨report.value, value, stands.eval_eq.trans (result_of_success success)⟩
      · simp only [Environment.Replaced, tree?_eq_none_of_notMem notInBatch, Option.map_none]
        exact same
    · rw [Expr.gets_eq_nil getFree]
      exact List.forall_mem_nil _

/-- After as many rounds as formulas are finished, the tree of a finished formula stands for the
report on it. The induction is along the order: a formula needs one round more than what it
reads. -/
theorem History.standsFor_inlined (builtin : evaluator.registry = Function.catalog)
    (distinct : (formulas.map (·.name)).Nodup)
    (h : History (ReportedIn evaluator) base (entries formulas) finished) {name : Text}
    {report : Report} (mem : (name, report) ∈ finished) {e : Expr} (tree : tree? formulas name = some e)
    (succeeded : ∀ needed, TransGen (Reads formulas) name needed →
      ∀ report, (needed, report) ∈ finished → report.success)
    (getFree : ∀ other t, ReflTransGen (Reads formulas) name other →
      tree? formulas other = some t → ¬ t.Calls (utf8 "Get"))
    {n : Nat} (enough : finished.length ≤ n) :
    StandsFor evaluator formulas base (e.inlined (tree? formulas) n) report.result := by
  induction h generalizing name report e n with
  | nil => cases mem
  | @snoc finished entry last history turn given ih =>
    rw [List.length_append, List.length_singleton] at enough
    rcases List.mem_append.mp mem with earlier | latest
    · exact ih earlier tree
        (fun needed path report mem => succeeded needed path report (List.mem_append_left _ mem))
        getFree (Nat.le_of_succ_le enough)
    obtain ⟨rfl, rfl⟩ := Prod.mk.inj (List.mem_singleton.mp latest)
    obtain ⟨inBatch, -, -⟩ := firstReady_eq_some turn
    obtain ⟨k, rfl⟩ := Nat.exists_eq_add_one_of_ne_zero (Nat.ne_zero_of_lt enough)
    have parsed := (tree?_eq_some_iff distinct inBatch).mp tree
    rw [← given, Entry.reportIn_of_parsed _ _ parsed]
    refine history.standsFor_inlined_succ builtin turn parsed (getFree _ _ .refl tree) ?_
    intro needed field report found
    -- what it reads is finished already, and has its tree from the rounds that are left
    have reads : Reads formulas entry.name needed :=
      ⟨e, tree, Expr.mem_fields.mpr field, history.mem_batch (List.mem_map_of_mem found)⟩
    have success := succeeded needed (.single reads) report (List.mem_append_left _ found)
    obtain ⟨t, needed_tree⟩ := history.exists_tree distinct found success
    refine ⟨success, t, needed_tree, ih found needed_tree ?_ ?_ (Nat.le_of_succ_le_succ enough)⟩
    · exact fun other path report mem =>
        succeeded other (.head reads path) report (List.mem_append_left _ mem)
    · exact fun other t path => getFree other t (.head reads path)

end

/-- The result of a formula without `Get` that reads only such formulas, and only ones that
succeeded, is that of one tree in the base: its own with the trees of the formulas that it reads in
the places of their fields, round by round until none of these fields is left. -/
theorem recalculate_inlined (options : Options) (formulas : List NamedFormula) (base : Context)
    (distinct : (formulas.map (·.name)).Nodup) :
    ∃ r, recalculate (m := Id) { options } none formulas base = .ok r ∧
      ∀ name ∈ r.order, ∀ e, tree? formulas name = some e →
        (∀ needed, TransGen (Reads formulas) name needed →
          ∃ report, Table.find? needed r.results = some report ∧ report.success) →
        (∀ other t, ReflTransGen (Reads formulas) name other → tree? formulas other = some t →
          ¬ t.Calls (utf8 "Get")) →
        let tree := e.inlined (tree? formulas) formulas.length
        (∀ field ∈ tree.fields, field ∉ formulas.map (·.name)) ∧
          ∃ report, Table.find? name r.results = some report ∧
            report.result = (Evaluator.value (m := Id) { options } none tree base).run := by
  obtain ⟨r, returned, done, rfl, reached, -⟩ :=
    recalculate_reached_of_no_resolver { options } base distinct
  have entryDistinct : ((entries formulas).map (·.name)).Nodup := by rwa [map_name_entries]
  refine ⟨_, returned, fun name finished e tree succeeded getFree => ?_⟩
  obtain ⟨⟨_, report⟩, found, rfl⟩ := List.mem_map.mp finished
  -- there are as many rounds as formulas, and no more than that are finished
  have rounds : done.finished.length ≤ formulas.length := by
    have count := (reached.names_perm entryDistinct).length_eq
    simp only [List.length_append, Progress.order, entries, List.length_map] at count
    omega
  have stands := reached.history.standsFor_inlined rfl distinct found tree
    (fun needed path report mem => by
      obtain ⟨report', result, success⟩ := succeeded needed path
      rw [reached.find?_finished _ entryDistinct mem, Option.some.injEq] at result
      exact result ▸ success)
    getFree rounds
  exact ⟨fun field mem => stands.complete field (Expr.mem_fields.mp mem), report,
    reached.find?_finished _ entryDistinct found, stands.eval_eq.symm⟩

/-- A formula and one that it reads, over a base that has a field of that name too. -/
theorem recalculate_inlined_over_same_name :
    let formulas : List NamedFormula :=
      [⟨utf8 "a", utf8 "b + \"!\""⟩, ⟨utf8 "b", utf8 "Upper(x)"⟩]
    let base : Context :=
      { fields := [(utf8 "b", .text (utf8 "old")), (utf8 "x", .text (utf8 "new"))] }
    let tree : Expr :=
      .binary 2 .add (.call 0 (utf8 "Upper") [.field 6 (utf8 "x")]) (.text 4 (utf8 "!"))
    (formulas.map (·.name)).Nodup ∧
      ∃ r, recalculate (m := Id) {} none formulas base = .ok r ∧ utf8 "a" ∈ r.order ∧
        (∀ needed, TransGen (Reads formulas) (utf8 "a") needed →
          ∃ report, Table.find? needed r.results = some report ∧ report.success) ∧
        (∀ other t, ReflTransGen (Reads formulas) (utf8 "a") other →
          tree? formulas other = some t → ¬ t.Calls (utf8 "Get")) ∧
        (∀ field ∈ tree.fields, field ∉ formulas.map (·.name)) ∧
        ∃ report, Table.find? (utf8 "a") r.results = some report ∧
          report.result = (Evaluator.value (m := Id) {} none tree base).run := by
  intro formulas base tree
  have distinct : (formulas.map (·.name)).Nodup := by decide
  obtain ⟨r, returned, inlined⟩ := recalculate_inlined {} formulas base distinct
  have result : r =
      ⟨[utf8 "b", utf8 "a"],
        [(utf8 "a", ⟨.ok (.text (utf8 "NEW!")), utf8 "Error", [utf8 "b"]⟩),
          (utf8 "b", ⟨.ok (.text (utf8 "NEW")), utf8 "Error", [utf8 "x"]⟩)]⟩ :=
    Except.ok.inj (returned.symm.trans rfl)
  have order : utf8 "a" ∈ r.order := by
    rw [result]
    decide
  have succeeded : ∀ needed, TransGen (Reads formulas) (utf8 "a") needed →
      ∃ report, Table.find? needed r.results = some report ∧ report.success := by
    have all : ∀ name ∈ formulas.map (·.name),
        ∃ report, Table.find? name r.results = some report ∧ report.success := by
      rw [result]
      exact List.forall_mem_cons.mpr ⟨⟨_, rfl, rfl⟩, List.forall_mem_singleton.mpr ⟨_, rfl, rfl⟩⟩
    intro needed path
    obtain ⟨_, _, reads⟩ := TransGen.tail'_iff.mp path
    exact all needed reads.mem
  have getFree : ∀ other t, ReflTransGen (Reads formulas) (utf8 "a") other →
      tree? formulas other = some t → ¬ t.Calls (utf8 "Get") := by
    have free : ∀ formula ∈ formulas, ∀ e ∈ (parse formula.source).toOption,
        ¬ e.Calls (utf8 "Get") := by decide
    rintro other t - found
    obtain ⟨formula, mem, -, parsed⟩ := exists_of_tree?_eq_some found
    exact free formula mem t (parsed ▸ rfl)
  exact ⟨distinct, r, returned, order, succeeded, getFree,
    inlined (utf8 "a") order (.binary 2 .add (.field 0 (utf8 "b")) (.text 4 (utf8 "!"))) rfl
      succeeded getFree⟩

end ComputedFields.Recalculation
