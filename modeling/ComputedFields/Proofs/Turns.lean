import ComputedFields.Proofs.Circles
import ComputedFields.Proofs.Reading

/-!
# `ComputedFields.Proofs.Turns` — what a formula sees at its turn

At its turn a formula sees the base with the values of the formulas before it. Whatever it reads
through the names in its tree is settled by then: a formula of the batch that it reads is finished,
and will not change any more, and any other field is that of the base. Only what it gets through
calls of `Get` may still be open.

* `find?_withResults_of_mem`, `find?_withResults_of_notMem` — the fields at a turn;
* `Entry.reportIn_congr` — a report depends on what the formula reads and gets;
* `History.field_cases` — the fields of a formula's tree at its turn;
* `Reached.settled` — they do not change after it.
-/

namespace ComputedFields

/-! ## The fields at a turn -/

namespace Context

variable {base : Context} {finished others : List (Text × Report)} {name : Text} {report : Report}

theorem sameSurroundings_withResults (base : Context) (finished : List (Text × Report)) :
    base.SameSurroundings (base.withResults finished) := ⟨rfl, rfl, rfl⟩

/-- The names of the values are those of the reports. -/
theorem map_fst_values (finished : List (Text × Report)) :
    (finished.map fun (name, report) => (name, report.value)).map (·.1) = finished.map (·.1) :=
  List.map_map

theorem find?_withResults_of_mem (distinct : (finished.map (·.1)).Nodup)
    (h : (name, report) ∈ finished) :
    Table.find? name (base.withResults finished).fields = some report.value := by
  have value : (name, report.value) ∈ finished.map fun (name, report) => (name, report.value) :=
    List.mem_map.mpr ⟨(name, report), h, rfl⟩
  exact Table.find?_insertAll_of_mem (by rwa [map_fst_values]) value _

theorem find?_withResults_of_notMem (h : name ∉ finished.map (·.1)) :
    Table.find? name (base.withResults finished).fields = Table.find? name base.fields :=
  Table.find?_insertAll_of_notMem (by rwa [map_fst_values]) _

theorem withResults_append :
    base.withResults (finished ++ others) = (base.withResults finished).withResults others := by
  simp only [withResults, List.map_append, Table.insertAll_append]

/-- Results that the fields hold already change nothing that can be found. -/
theorem find?_withResults_of_held (distinct : (finished.map (·.1)).Nodup)
    (held : ∀ name report, (name, report) ∈ finished →
      Table.find? name base.fields = some report.value) (name : Text) :
    Table.find? name (base.withResults finished).fields = Table.find? name base.fields := by
  by_cases h : name ∈ finished.map (·.1)
  · obtain ⟨⟨_, report⟩, mem, rfl⟩ := List.mem_map.mp h
    rw [find?_withResults_of_mem distinct mem, held _ _ mem]
  · exact find?_withResults_of_notMem h

end Context

namespace Recalculation

/-! ## What a report depends on -/

/-- The report on a formula of the catalog's functions depends on the fields that it names and on
those that it gets. -/
theorem Entry.reportIn_congr {evaluator : Evaluator}
    (builtin : evaluator.registry = Function.catalog) {c c' : Context}
    (same : c.SameSurroundings c') {entry : Entry}
    (agree : ∀ e, entry.parsed = .ok e →
      ∀ name ∈ e.fieldNames ++ e.gets (evaluator.environment c none),
        Table.find? name c.fields = Table.find? name c'.fields) :
    entry.reportIn evaluator c = entry.reportIn evaluator c' := by
  cases parsed : entry.parsed with
  | error error => rw [reportIn_of_misread _ _ parsed, reportIn_of_misread _ _ parsed]
  | ok e =>
    rw [reportIn_of_parsed _ _ parsed, reportIn_of_parsed _ _ parsed,
      Expr.eval_congr builtin (evaluator.environment_sameButFields same)
        (fun name mem => agree e parsed name (List.mem_append_left _ mem))
        (fun name mem => agree e parsed name (List.mem_append_right _ mem))]

/-! ## What is settled at a turn -/

section

variable {formulas : List NamedFormula} {entry : Entry} {e : Expr}

/-- Of the fields of a formula's tree, those that the batch computes are among its needs. -/
theorem mem_needs_of_mem_fieldNames (mem : entry ∈ entries formulas) (parsed : entry.parsed = .ok e)
    {name : Text} (field : name ∈ e.fieldNames) (inBatch : name ∈ formulas.map (·.name)) :
    name ∈ entry.needs := by
  obtain ⟨formula, -, rfl⟩ := List.mem_map.mp mem
  have source : parse formula.source = .ok e := parsed
  simp only [Entry.ofFormula, source, List.mem_filter, List.contains_iff_mem]
  exact ⟨Expr.mem_fields.mpr field, inBatch⟩

variable {gives : Context → Entry → Report → Prop} {base : Context} {done : Progress}
  {finished before after : List (Text × Report)} {name : Text}

/-- A field of a formula's tree has, at the formula's turn, the value of the formula that computes
it, or the value that it has in the base when no formula does. -/
theorem History.field_cases (h : History gives base (entries formulas) finished)
    (turn : firstReady (entries formulas) (namesOf finished) = some entry)
    (parsed : entry.parsed = .ok e) (field : name ∈ e.fieldNames) :
    (name ∈ formulas.map (·.name) ∧ ∃ report, (name, report) ∈ finished ∧
      Table.find? name (base.withResults finished).fields = some report.value) ∨
    (name ∉ formulas.map (·.name) ∧
      Table.find? name (base.withResults finished).fields = Table.find? name base.fields) := by
  obtain ⟨mem, -, ready⟩ := firstReady_eq_some turn
  by_cases inBatch : name ∈ formulas.map (·.name)
  · have early := ready name (mem_needs_of_mem_fieldNames mem parsed field inBatch)
    obtain ⟨⟨_, report⟩, found, rfl⟩ := List.mem_map.mp early
    exact .inl ⟨inBatch, report, found, Context.find?_withResults_of_mem h.nodup found⟩
  · have fresh : name ∉ namesOf finished := fun early => inBatch (h.mem_batch early)
    exact .inr ⟨inBatch, Context.find?_withResults_of_notMem fresh⟩

/-- A field of a formula's tree is not computed at the formula's turn or later. -/
theorem Reached.settled (h : Reached gives base (entries formulas) done)
    (split : done.finished = before ++ after) (mem : entry ∈ entries formulas)
    (ready : ∀ name ∈ entry.needs, name ∈ namesOf before) (parsed : entry.parsed = .ok e)
    (field : name ∈ e.fieldNames) : name ∉ namesOf after := fun late => by
  have order : done.order = namesOf before ++ namesOf after := by
    rw [Progress.order, split, List.map_append]
  have inBatch : name ∈ formulas.map (·.name) :=
    map_name_entries formulas ▸ h.order_subset (order ▸ List.mem_append_right _ late)
  have early := ready name (mem_needs_of_mem_fieldNames mem parsed field inBatch)
  have nodup : (namesOf before ++ namesOf after).Nodup := order ▸ h.history.nodup
  exact (List.nodup_append.mp nodup).2.2 name early name late rfl

end

end Recalculation

end ComputedFields
