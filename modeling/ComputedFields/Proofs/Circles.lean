import ComputedFields.Proofs.History
import Mathlib.Data.Fintype.Pigeonhole
import Mathlib.Data.Set.Finite.List
import Mathlib.Logic.Relation

/-!
# `ComputedFields.Proofs.Circles` — which formulas of a batch are evaluated

A recalculation never looks for circles: it stops when it is no formula's turn. What is left then
needs, formula by formula, something that is left, and in a finite batch that leads into a circle;
while a formula that is finished comes after everything that it reads, directly or through others,
so that no circle can be reached from it. Evaluation has no part in this: what the formulas come to,
and what a resolver answers, changes neither the order nor what is left.

* `Reads`, `ReachesCircle` — the dependencies of a batch as a graph on its names;
* `exists_circle` — in a finite set with no way out, every path comes to a circle;
* `finished_iff` — finished means that no circle is reached;
* `ReportsCircle` — the report on a formula that is left;
* `RunsByNeed`, `Reached.runsByNeed` — the whole account.
-/

namespace ComputedFields.Recalculation

open Relation

/-! ## The dependencies of a batch -/

/-- The tree of a formula of a batch; none when there is no formula of the name, or when its source
is no formula. -/
def tree? (formulas : List NamedFormula) (name : Text) : Option Expr :=
  (formulas.find? (·.name == name)).bind fun formula => (parse formula.source).toOption

/-- A formula of a batch reads another: its tree has a field of that name. -/
def Reads (formulas : List NamedFormula) (name needed : Text) : Prop :=
  ∃ e, tree? formulas name = some e ∧ needed ∈ e.fields ∧ needed ∈ formulas.map (·.name)

/-- A formula lies on a circle, or reads one, directly or through other formulas. A formula that
reads itself is a circle. -/
def ReachesCircle (formulas : List NamedFormula) (name : Text) : Prop :=
  ∃ other, ReflTransGen (Reads formulas) name other ∧ TransGen (Reads formulas) other other

section

variable {formulas : List NamedFormula}

theorem exists_of_tree?_eq_some {name : Text} {e : Expr} (h : tree? formulas name = some e) :
    ∃ formula ∈ formulas, formula.name = name ∧ parse formula.source = .ok e := by
  obtain ⟨formula, found, tree⟩ := Option.bind_eq_some_iff.mp h
  refine ⟨formula, List.mem_of_find?_eq_some found, by simpa using List.find?_some found, ?_⟩
  cases parsed : parse formula.source with
  | error error => rw [parsed] at tree; cases tree
  | ok e' => rw [parsed] at tree; cases tree; rfl

theorem tree?_eq_none_of_notMem {name : Text} (h : name ∉ formulas.map (·.name)) :
    tree? formulas name = none := by
  cases tree : tree? formulas name with
  | none => rfl
  | some e =>
    obtain ⟨formula, mem, rfl, -⟩ := exists_of_tree?_eq_some tree
    exact absurd (List.mem_map_of_mem mem) h

theorem Reads.mem {name needed : Text} (h : Reads formulas name needed) :
    needed ∈ formulas.map (·.name) :=
  let ⟨_, _, _, mem⟩ := h
  mem

end

section

variable {formulas : List NamedFormula} (distinct : (formulas.map (·.name)).Nodup)
include distinct

theorem tree?_of_mem {formula : NamedFormula} (h : formula ∈ formulas) :
    tree? formulas formula.name = (parse formula.source).toOption := by
  have found : formulas.find? (·.name == formula.name) = some formula := by
    cases found : formulas.find? (·.name == formula.name) with
    | none => exact absurd (beq_self_eq_true _) (List.find?_eq_none.mp found formula h)
    | some other =>
      have same : other.name = formula.name := by simpa using List.find?_some found
      rw [List.inj_on_of_nodup_map distinct (List.mem_of_find?_eq_some found) h same]
  rw [tree?, found, Option.bind_some]

theorem tree?_of_entry {entry : Entry} (h : entry ∈ entries formulas) :
    tree? formulas entry.name = entry.parsed.toOption := by
  obtain ⟨formula, mem, rfl⟩ := List.mem_map.mp h
  exact tree?_of_mem distinct mem

theorem tree?_eq_some_iff {entry : Entry} (h : entry ∈ entries formulas) {e : Expr} :
    tree? formulas entry.name = some e ↔ entry.parsed = .ok e := by
  rw [tree?_of_entry distinct h]
  cases entry.parsed <;> simp [Except.toOption]

theorem mem_needs_iff {entry : Entry} (h : entry ∈ entries formulas) {name : Text} :
    name ∈ entry.needs ↔ Reads formulas entry.name name := by
  rw [Reads, tree?_of_entry distinct h]
  obtain ⟨formula, -, rfl⟩ := List.mem_map.mp h
  simp only [Entry.ofFormula, List.mem_filter, List.contains_iff_mem]
  cases parse formula.source with
  | error e => simp [Except.toOption]
  | ok e => simp [Except.toOption]

end

/-! ## Finite sets with no way out -/

/-- Where every member of a list is related to a member, every member leads into a circle: going on
for ever, a path comes to some member twice. -/
theorem exists_circle {α : Type} {R : α → α → Prop} {l : List α}
    (on : ∀ a ∈ l, ∃ b ∈ l, R a b) {a : α} (mem : a ∈ l) :
    ∃ b, ReflTransGen R a b ∧ TransGen R b b := by
  choose next next_mem related using on
  let step : {x // x ∈ l} → {x // x ∈ l} := fun x => ⟨next x x.2, next_mem x x.2⟩
  -- going on from a member, any number of times, leads to members that it is related to
  have path : ∀ n x, TransGen R x.1 (step^[n + 1] x).1 := fun n => by
    induction n with
    | zero => exact fun x => .single (related x x.2)
    | succ n ih => exact fun x => .head (related x x.2) (ih (step x))
  have reach : ∀ n x, ReflTransGen R x.1 (step^[n] x).1
    | 0, _ => .refl
    | n + 1, x => (path n x).to_reflTransGen
  have : Finite {x // x ∈ l} := (List.finite_toSet l).to_subtype
  obtain ⟨i, j, ne, same⟩ := Finite.exists_ne_map_eq_of_infinite fun n => step^[n] ⟨a, mem⟩
  -- the path comes to one member at two times, and the way from the first to the second is a circle
  wlog lt : i < j generalizing i j
  · exact this j i ne.symm same.symm (ne.lt_or_gt.resolve_left lt)
  refine ⟨(step^[i] ⟨a, mem⟩).1, reach i ⟨a, mem⟩, ?_⟩
  obtain ⟨k, rfl⟩ := Nat.exists_eq_add_of_lt lt
  have later := path k (step^[i] ⟨a, mem⟩)
  rwa [← Function.iterate_add_apply, show k + 1 + i = i + k + 1 by omega, ← same] at later

/-! ## What is finished and what is left -/

variable {gives : Context → Entry → Report → Prop} {base : Context}
  {formulas : List NamedFormula} {done : Progress}

/-- A finished formula comes after every formula that it reads. -/
theorem Reached.idxOf_lt (distinct : (formulas.map (·.name)).Nodup)
    (h : Reached gives base (entries formulas) done) {name needed : Text}
    (finished : name ∈ done.order) (reads : Reads formulas name needed) :
    done.order.idxOf needed < done.order.idxOf name := by
  obtain ⟨⟨_, report⟩, mem, rfl⟩ := List.mem_map.mp finished
  obtain ⟨before, after, entry, split, same, _, turn, _⟩ := h.history.mem mem
  obtain ⟨inBatch, fresh, ready⟩ := firstReady_eq_some turn
  have earlier := ready needed ((mem_needs_iff distinct inBatch).mpr (same ▸ reads))
  rw [same] at fresh
  have order : done.order = namesOf before ++ entry.name :: namesOf after := by
    rw [Progress.order, split, List.map_append, List.map_cons, same]
  rw [order, same, List.idxOf_append_of_mem earlier, List.idxOf_append_of_notMem fresh,
    List.idxOf_cons_self, Nat.add_zero]
  exact List.idxOf_lt_length_of_mem earlier

theorem Reached.mem_order_of_reads (distinct : (formulas.map (·.name)).Nodup)
    (h : Reached gives base (entries formulas) done) {name needed : Text}
    (finished : name ∈ done.order) (reads : Reads formulas name needed) : needed ∈ done.order :=
  List.idxOf_lt_length_iff.mp
    ((h.idxOf_lt distinct finished reads).trans (List.idxOf_lt_length_of_mem finished))

/-- Reading through other formulas goes back in the order too. -/
theorem Reached.idxOf_lt_of_transGen (distinct : (formulas.map (·.name)).Nodup)
    (h : Reached gives base (entries formulas) done) {name other : Text}
    (finished : name ∈ done.order) (path : TransGen (Reads formulas) name other) :
    other ∈ done.order ∧ done.order.idxOf other < done.order.idxOf name := by
  induction path with
  | single reads =>
    exact ⟨h.mem_order_of_reads distinct finished reads, h.idxOf_lt distinct finished reads⟩
  | tail _ reads ih =>
    exact ⟨h.mem_order_of_reads distinct ih.1 reads,
      (h.idxOf_lt distinct ih.1 reads).trans ih.2⟩

theorem Reached.mem_order_of_reflTransGen (distinct : (formulas.map (·.name)).Nodup)
    (h : Reached gives base (entries formulas) done) {name other : Text}
    (finished : name ∈ done.order) (path : ReflTransGen (Reads formulas) name other) :
    other ∈ done.order := by
  rcases reflTransGen_iff_eq_or_transGen.mp path with rfl | path
  · exact finished
  · exact (h.idxOf_lt_of_transGen distinct finished path).1

/-- When the recalculation ends, the formulas of the batch that are finished are those from which no
circle is reached. -/
theorem Reached.finished_iff (distinct : (formulas.map (·.name)).Nodup)
    (h : Reached gives base (entries formulas) done)
    (stop : firstReady (entries formulas) done.order = none) {name : Text}
    (inBatch : name ∈ formulas.map (·.name)) :
    name ∈ done.order ↔ ¬ ReachesCircle formulas name := by
  constructor
  · rintro finished ⟨other, path, circle⟩
    have reached := h.mem_order_of_reflTransGen distinct finished path
    exact (h.idxOf_lt_of_transGen distinct reached circle).2.ne rfl
  · refine fun none_reached => by_contra fun left => none_reached ?_
    refine exists_circle (l := (formulas.map (·.name)).filter (· ∉ done.order)) ?_
      (List.mem_filter.mpr ⟨inBatch, decide_eq_true left⟩)
    -- nothing left is ready, so each formula that is left reads one that is left
    intro waiting mem
    obtain ⟨inBatch, left⟩ := List.mem_filter.mp mem
    rw [← map_name_entries] at inBatch
    obtain ⟨entry, entry_mem, rfl⟩ := List.mem_map.mp inBatch
    obtain ⟨need, needed, missing⟩ :=
      exists_need_of_firstReady_eq_none stop entry_mem (of_decide_eq_true left)
    have reads := (mem_needs_iff distinct entry_mem).mp needed
    obtain ⟨_, _, _, needInBatch⟩ := id reads
    exact ⟨need, List.mem_filter.mpr ⟨needInBatch, decide_eq_true missing⟩, reads⟩

/-- The report on a formula that is left, when `stuck` are all that are left: it failed with a
circular reference, in words that name them all, at no place; it has no value, and it tells what the
formula reads. -/
structure ReportsCircle (evaluator : Evaluator) (stuck : List Text) (formula : NamedFormula)
    (report : Report) : Prop where
  success : report.success = false
  code : report.code? = some .circularReference
  error : report.error? =
    some (utf8 "Circular reference among " ++ Text.join (utf8 ", ") (stuck.map inQuotes))
  value : report.value = .null
  display : report.display = evaluator.options.errorDisplay
  dependencies : report.dependencies = (parse formula.source).toOption.elim [] Expr.dependencies
  result : report.result = .error ⟨.circular stuck, none⟩

theorem reportsCircle_circular (evaluator : Evaluator) (stuck names : List Text)
    (formula : NamedFormula) :
    ReportsCircle evaluator stuck formula
      (circular evaluator stuck (Entry.ofFormula names formula)) where
  success := rfl
  code := rfl
  error := rfl
  value := rfl
  display := rfl
  dependencies := by
    simp only [circular, Entry.ofFormula]
    cases parse formula.source <;> rfl
  result := rfl

/-- What a recalculation owes to a batch, whatever its formulas come to. -/
structure RunsByNeed (evaluator : Evaluator) (formulas : List NamedFormula) (r : Recalculation) :
    Prop where
  /-- Every formula has one result. -/
  results : r.results.names.Perm (formulas.map (·.name))
  /-- Only formulas of the batch are evaluated. -/
  order : r.order ⊆ formulas.map (·.name)
  /-- The formulas from which a circle is reached, and no others, are not evaluated and are reported
  as circular references, with the names of all that were left. -/
  circular : ∀ formula ∈ formulas,
    ReachesCircle formulas formula.name ↔
      formula.name ∉ r.order ∧
      ∃ report, Table.find? formula.name r.results = some report ∧
        ReportsCircle evaluator ((formulas.map (·.name)).filter (· ∉ r.order)) formula report
  /-- All others are evaluated once, -/
  once : ∀ formula ∈ formulas, ¬ ReachesCircle formulas formula.name →
    r.order.count formula.name = 1
  /-- and after every formula that they read. -/
  after : ∀ formula ∈ formulas, ¬ ReachesCircle formulas formula.name →
    ∀ needed, Reads formulas formula.name needed →
      r.order.idxOf needed < r.order.idxOf formula.name

/-- The order lists the formulas of the batch from which no circle is reached. -/
theorem RunsByNeed.mem_order_iff {evaluator : Evaluator} {r : Recalculation}
    (h : RunsByNeed evaluator formulas r) {formula : NamedFormula} (mem : formula ∈ formulas) :
    formula.name ∈ r.order ↔ ¬ ReachesCircle formulas formula.name := by
  constructor
  · intro finished circle
    exact ((h.circular formula mem).mp circle).1 finished
  · intro none_reached
    rw [← List.count_pos_iff, h.once formula mem none_reached]
    exact Nat.one_pos

theorem RunsByNeed.nodup_order {evaluator : Evaluator} {r : Recalculation}
    (h : RunsByNeed evaluator formulas r) : r.order.Nodup := by
  refine List.nodup_iff_count_eq_one.mpr fun name finished => ?_
  obtain ⟨formula, mem, rfl⟩ := List.mem_map.mp (h.order finished)
  exact h.once formula mem ((h.mem_order_iff mem).mp finished)

theorem Reached.runsByNeed (evaluator : Evaluator) (distinct : (formulas.map (·.name)).Nodup)
    (h : Reached gives base (entries formulas) done)
    (stop : firstReady (entries formulas) done.order = none) :
    RunsByNeed evaluator formulas (done.outcome evaluator) := by
  have entryDistinct : ((entries formulas).map (·.name)).Nodup := by rwa [map_name_entries]
  have finished : ∀ formula ∈ formulas,
      (formula.name ∈ done.order ↔ ¬ ReachesCircle formulas formula.name) :=
    fun formula mem => h.finished_iff distinct stop (List.mem_map_of_mem mem)
  exact
    { results := map_name_entries formulas ▸ h.names_results evaluator entryDistinct
      order := map_name_entries formulas ▸ h.order_subset
      circular := by
        refine fun formula mem => ⟨fun circle => ?_, fun left => ?_⟩
        · have left : formula.name ∉ done.order := fun order =>
            (finished formula mem).mp order circle
          have reported := h.find?_left evaluator entryDistinct (List.mem_map_of_mem mem) left
          rw [h.stuck_eq, map_name_entries] at reported
          exact ⟨left, _, reported, reportsCircle_circular ..⟩
        · exact by_contra fun none_reached => left.1 ((finished formula mem).mpr none_reached)
      once := fun formula mem none_reached =>
        List.count_eq_one_of_mem h.history.nodup ((finished formula mem).mpr none_reached)
      after := fun formula mem none_reached needed reads =>
        h.idxOf_lt distinct ((finished formula mem).mpr none_reached) reads }

/-- The recalculation of a batch of distinct names returns, and it evaluates what reaches no circle.
Neither the context nor the evaluator matters for this, nor what a resolver answers or what its
answers do to the world. -/
theorem recalculate_runsByNeed {σ : Type} (evaluator : Evaluator)
    (resolver : Option (Resolver (StateM σ))) (formulas : List NamedFormula) (base : Context)
    (distinct : (formulas.map (·.name)).Nodup) :
    ∃ run : StateM σ Recalculation, recalculate evaluator resolver formulas base = .ok run ∧
      ∀ s, RunsByNeed evaluator formulas (run.run s).1 := by
  obtain ⟨run, returned, runs⟩ := recalculate_reached evaluator resolver base distinct
  refine ⟨run, returned, fun s => ?_⟩
  obtain ⟨done, result, reached, stop⟩ := runs s
  exact result ▸ reached.runsByNeed evaluator distinct stop

/-- Two formulas that read each other and one that reads them, before one that asks a resolver which
counts how often it is asked. Only the last is evaluated, and the others are reported. -/
theorem recalculate_runsByNeed_beside_circle :
    let formulas : List NamedFormula :=
      [⟨utf8 "a", utf8 "b"⟩, ⟨utf8 "b", utf8 "a"⟩, ⟨utf8 "c", utf8 "a"⟩, ⟨utf8 "d", utf8 "@x"⟩]
    let resolver : Resolver (StateM Nat) := fun _ => do
      modify (· + 1)
      return .ok (.answered (.ok none))
    (formulas.map (·.name)).Nodup ∧
      ∃ run : StateM Nat Recalculation, recalculate {} (some resolver) formulas {} = .ok run ∧
        ∀ s, RunsByNeed {} formulas (run.run s).1 ∧ (run.run s).1.order = [utf8 "d"] ∧
          ∀ formula ∈ formulas.take 3, ∃ report,
            Table.find? formula.name (run.run s).1.results = some report ∧
            report.success = false ∧ report.code? = some .circularReference ∧
            report.error? = some (utf8 "Circular reference among 'a', 'b', 'c'") ∧
            report.display = utf8 "Error" := by
  intro formulas resolver
  have distinct : (formulas.map (·.name)).Nodup := by decide
  have readsB : Reads formulas (utf8 "a") (utf8 "b") := ⟨_, rfl, by decide +kernel, by decide⟩
  have readsA : Reads formulas (utf8 "b") (utf8 "a") := ⟨_, rfl, by decide +kernel, by decide⟩
  have reads : Reads formulas (utf8 "c") (utf8 "a") := ⟨_, rfl, by decide +kernel, by decide⟩
  have circle : TransGen (Reads formulas) (utf8 "a") (utf8 "a") :=
    .tail (.single readsB) readsA
  have reached : ∀ formula ∈ formulas.take 3, ReachesCircle formulas formula.name :=
    List.forall_mem_cons.mpr ⟨⟨_, .refl, circle⟩, List.forall_mem_cons.mpr
      ⟨⟨_, .single readsA, circle⟩, List.forall_mem_singleton.mpr ⟨_, .single reads, circle⟩⟩⟩
  have apart : ¬ ReachesCircle formulas (utf8 "d") := by
    have silent (name : Text) : ¬ Reads formulas (utf8 "d") name := by
      rintro ⟨e, tree, mem, -⟩
      cases tree
      exact List.not_mem_nil mem
    rintro ⟨other, path, circle⟩
    rcases path.cases_head with rfl | ⟨name, reads, -⟩
    · obtain ⟨name, reads, -⟩ := TransGen.head'_iff.mp circle
      exact silent name reads
    · exact silent name reads
  -- these are all the formulas, so that what is owed to them leaves one order
  have order {r : Recalculation} (owed : RunsByNeed {} formulas r) : r.order = [utf8 "d"] := by
    rw [← List.perm_singleton,
      List.perm_ext_iff_of_nodup owed.nodup_order (List.nodup_singleton _)]
    intro name
    rw [List.mem_singleton]
    constructor
    · intro finished
      obtain ⟨formula, mem, rfl⟩ := List.mem_map.mp (owed.order finished)
      rw [owed.mem_order_iff mem] at finished
      rcases List.mem_append.mp (List.take_append_drop 3 formulas ▸ mem) with early | last
      · exact absurd (reached formula early) finished
      · rw [List.mem_singleton.mp last]
    · rintro rfl
      have mem : ⟨utf8 "d", utf8 "@x"⟩ ∈ formulas := by simp [formulas]
      exact (owed.mem_order_iff mem).mpr apart
  obtain ⟨run, returned, runs⟩ := recalculate_runsByNeed {} (some resolver) formulas {} distinct
  refine ⟨distinct, run, returned, fun s => ⟨runs s, order (runs s), fun formula mem => ?_⟩⟩
  obtain ⟨-, report, found, reported⟩ :=
    ((runs s).circular formula (List.mem_of_mem_take mem)).mp (reached formula mem)
  have words := reported.error
  rw [order (runs s)] at words
  exact ⟨report, found, reported.success, reported.code, words.trans (by decide +kernel),
    reported.display⟩

end ComputedFields.Recalculation
