import ComputedFields.Recalculation
import Mathlib.Data.List.Basic
import Mathlib.Data.List.Nodup

/-!
# `ComputedFields.Proofs.History` — how a recalculation comes about

A recalculation is a sequence of choices, each of which is forced: the next formula is the first in
the batch that is not finished and needs nothing unfinished. `History` says this of a list of
finished formulas with their reports, and says in which context each was evaluated: the base with
the values of the formulas before it. One formula more keeps this (`Reached.finish`), so it holds
when the recalculation ends (`run_reached`).

What a resolver answers may change from one formula to the next. It is therefore run in a state that
stands for the rest of the world, and a report is any that evaluation gives in some such state.

* `firstReady` — the formula whose turn it is;
* `History`, `History.split` — finished formulas, and what was the case at the turn of one of them;
* `Reached` — the invariant of a batch under way;
* `recalculate_reached`, `recalculate_reached_of_no_resolver` — what a recalculation returns.
-/

namespace ComputedFields

/-- The context with the values of some reports for fields; the value of a failure is null. -/
def Context.withResults (base : Context) (finished : List (Text × Report)) : Context :=
  let values := finished.map fun (name, report) => (name, report.value)
  { base with fields := Table.insertAll values base.fields }

namespace Recalculation

/-! ## The formulas of a batch -/

/-- The formulas of a batch with the names that they need. -/
def entries (formulas : List NamedFormula) : List Entry :=
  formulas.map (Entry.ofFormula (formulas.map (·.name)))

theorem map_name_entries (formulas : List NamedFormula) :
    (entries formulas).map (·.name) = formulas.map (·.name) :=
  List.map_map

/-- Two formulas of one name are one formula. -/
theorem eq_of_name_eq {batch : List Entry} (distinct : (batch.map (·.name)).Nodup) {a b : Entry}
    (ha : a ∈ batch) (hb : b ∈ batch) (same : a.name = b.name) : a = b :=
  List.inj_on_of_nodup_map distinct ha hb same

theorem ready_iff {finished : List Text} {entry : Entry} :
    entry.ready finished ↔ ∀ name ∈ entry.needs, name ∈ finished := by
  simp only [Entry.ready, List.all_eq_true, List.contains_iff_mem]

/-- The formula whose turn it is: the first that is not finished and needs nothing unfinished. -/
def firstReady (batch : List Entry) (finished : List Text) : Option Entry :=
  batch.find? fun entry => !finished.contains entry.name && entry.ready finished

theorem firstReady_eq_some {batch : List Entry} {finished : List Text} {entry : Entry}
    (h : firstReady batch finished = some entry) :
    entry ∈ batch ∧ entry.name ∉ finished ∧ ∀ name ∈ entry.needs, name ∈ finished := by
  have turn := List.find?_some h
  rw [Bool.and_eq_true, Bool.not_eq_true', List.contains_eq_mem, decide_eq_false_iff_not] at turn
  exact ⟨List.mem_of_find?_eq_some h, turn.1, ready_iff.mp turn.2⟩

/-- When it is no formula's turn, every formula that is left needs one that is left. -/
theorem exists_need_of_firstReady_eq_none {batch : List Entry} {finished : List Text}
    (h : firstReady batch finished = none) {entry : Entry} (mem : entry ∈ batch)
    (left : entry.name ∉ finished) : ∃ name ∈ entry.needs, name ∉ finished := by
  have waits := List.find?_eq_none.mp h entry mem
  simp only [List.contains_eq_mem, left, decide_false, Bool.not_false, Bool.true_and] at waits
  simpa only [ready_iff, not_forall, exists_prop] using waits

/-! ## Taking the first ready formula off those that wait -/

theorem takeFirst_eq_none {p : Entry → Bool} {batch : List Entry}
    (h : takeFirst p batch = none) : batch.find? p = none := by
  induction batch with
  | nil => rfl
  | cons entry rest ih =>
    by_cases hp : p entry
    · simp [takeFirst, hp] at h
    · simp only [takeFirst, hp, Bool.false_eq_true, if_false, Option.map_eq_none_iff] at h
      rw [List.find?_cons_of_neg hp, ih h]

theorem takeFirst_eq_some {p : Entry → Bool} {batch others : List Entry} {entry : Entry}
    (distinct : (batch.map (·.name)).Nodup) (h : takeFirst p batch = some (entry, others)) :
    batch.find? p = some entry ∧ others = batch.filter fun other => other.name ≠ entry.name := by
  induction batch generalizing others with
  | nil => simp [takeFirst] at h
  | cons first rest ih =>
    obtain ⟨fresh, distinct⟩ := List.nodup_cons.mp distinct
    by_cases hp : p first
    · simp only [takeFirst, hp, if_true, Option.some.injEq, Prod.mk.injEq] at h
      obtain ⟨rfl, rfl⟩ := h
      refine ⟨List.find?_cons_of_pos hp, ?_⟩
      rw [List.filter_cons_of_neg (by simp)]
      refine (List.filter_eq_self.mpr fun other mem => ?_).symm
      exact decide_eq_true (p := other.name ≠ first.name) fun same =>
        fresh (List.mem_map.mpr ⟨other, mem, same⟩)
    · simp only [takeFirst, hp, Bool.false_eq_true, if_false, Option.map_eq_some_iff,
        Prod.mk.injEq, Prod.exists] at h
      obtain ⟨_, later, found, rfl, rfl⟩ := h
      obtain ⟨turn, rfl⟩ := ih distinct found
      have other : first.name ≠ _ := fun same =>
        fresh (List.mem_map.mpr ⟨_, List.mem_of_find?_eq_some turn, same.symm⟩)
      rw [List.find?_cons_of_neg hp, List.filter_cons_of_pos (by simpa using other)]
      exact ⟨turn, rfl⟩

/-! ## Finished formulas -/

/-- The names of finished formulas. -/
abbrev namesOf (finished : List (Text × Report)) : List Text := finished.map (·.1)

/-- How the finished formulas of a batch came about: one after the other, each when it was its turn,
and with a report that `gives` allows for it in the context of that moment. -/
inductive History (gives : Context → Entry → Report → Prop) (base : Context)
    (batch : List Entry) : List (Text × Report) → Prop
  | nil : History gives base batch []
  | snoc {finished : List (Text × Report)} {entry : Entry} {report : Report} :
    History gives base batch finished → firstReady batch (namesOf finished) = some entry →
    gives (base.withResults finished) entry report →
    History gives base batch (finished ++ [(entry.name, report)])

variable {gives : Context → Entry → Report → Prop} {base : Context} {batch : List Entry}

namespace History

/-- What was the case when a formula was evaluated. -/
theorem split {before after : List (Text × Report)} {name : Text} {report : Report}
    (h : History gives base batch (before ++ (name, report) :: after)) :
    ∃ entry, entry.name = name ∧ History gives base batch before ∧
      firstReady batch (namesOf before) = some entry ∧
      gives (base.withResults before) entry report := by
  generalize all : before ++ (name, report) :: after = finished at h
  induction h generalizing after with
  | nil => simp at all
  | @snoc finished entry last history turn given ih =>
    rcases List.eq_nil_or_concat after with rfl | ⟨after, _, rfl⟩
    -- either it is the last that was finished, or it stands in the history before that
    · obtain ⟨rfl, same⟩ := List.append_inj' all rfl
      obtain ⟨rfl, rfl⟩ := Prod.mk.inj (List.cons.inj same).1
      exact ⟨entry, rfl, history, turn, given⟩
    · rw [List.concat_eq_append, ← List.cons_append, ← List.append_assoc] at all
      exact ih (List.append_inj' all rfl).1

/-- No formula is finished twice. -/
theorem nodup {finished : List (Text × Report)} (h : History gives base batch finished) :
    (namesOf finished).Nodup := by
  induction h with
  | nil => exact .nil
  | snoc history turn given ih =>
    rw [namesOf, List.map_append, List.nodup_append_comm]
    exact List.nodup_cons.mpr ⟨(firstReady_eq_some turn).2.1, ih⟩

/-- A finished formula, with what was the case at its turn. -/
theorem mem {finished : List (Text × Report)} (h : History gives base batch finished)
    {name : Text} {report : Report} (mem : (name, report) ∈ finished) :
    ∃ before after entry, finished = before ++ (name, report) :: after ∧ entry.name = name ∧
      History gives base batch before ∧ firstReady batch (namesOf before) = some entry ∧
      gives (base.withResults before) entry report := by
  obtain ⟨before, after, rfl⟩ := List.append_of_mem mem
  obtain ⟨entry, same, history, turn, given⟩ := h.split
  exact ⟨before, after, entry, rfl, same, history, turn, given⟩

theorem name_mem {finished : List (Text × Report)} (h : History gives base batch finished)
    {name : Text} (mem : name ∈ namesOf finished) : ∃ entry ∈ batch, entry.name = name := by
  obtain ⟨⟨_, report⟩, found, rfl⟩ := List.mem_map.mp mem
  obtain ⟨_, _, entry, _, same, _, turn, _⟩ := h.mem found
  exact ⟨entry, (firstReady_eq_some turn).1, same⟩

/-- Only formulas of the batch are finished. -/
theorem mem_batch {formulas : List NamedFormula} {finished : List (Text × Report)}
    (h : History gives base (entries formulas) finished) {name : Text}
    (mem : name ∈ namesOf finished) : name ∈ formulas.map (·.name) := by
  obtain ⟨entry, inBatch, rfl⟩ := h.name_mem mem
  exact map_name_entries formulas ▸ List.mem_map_of_mem inBatch

theorem mono {gives' : Context → Entry → Report → Prop}
    (weaker : ∀ c entry report, gives c entry report → gives' c entry report)
    {finished : List (Text × Report)} (h : History gives base batch finished) :
    History gives' base batch finished := by
  induction h with
  | nil => exact .nil
  | snoc _ turn given ih => exact ih.snoc turn (weaker _ _ _ given)

/-- Where one report at most can be given, the order leaves no choice of the reports. -/
theorem unique (functional : ∀ c entry a b, gives c entry a → gives c entry b → a = b)
    {finished finished' : List (Text × Report)} (h : History gives base batch finished)
    (h' : History gives base batch finished') (order : namesOf finished = namesOf finished') :
    finished = finished' := by
  induction h generalizing finished' with
  | nil => exact (List.map_eq_nil_iff.mp order.symm).symm
  | @snoc finished entry report _ turn given ih =>
    cases h' with
    | nil => simp at order
    | @snoc finished' entry' report' history' turn' given' =>
      rw [namesOf, namesOf, List.map_append, List.map_append] at order
      obtain rfl := ih history' (List.append_inj' order rfl).1
      rw [turn, Option.some.injEq] at turn'
      subst turn'
      rw [functional _ _ _ _ given given']

/-- A history runs ahead of no other history of the same batch that has come to its end. -/
theorem order_prefix {gives' : Context → Entry → Report → Prop} {base' : Context}
    {finished finished' : List (Text × Report)} (h : History gives base batch finished)
    (h' : History gives' base' batch finished')
    (stop : firstReady batch (namesOf finished') = none) :
    namesOf finished <+: namesOf finished' := by
  induction h with
  | nil => exact List.nil_prefix
  | @snoc finished entry report _ turn _ ih =>
    obtain ⟨rest, names⟩ := ih
    obtain ⟨before, after, rfl, same, remaining⟩ := List.map_eq_append_iff.mp names.symm
    replace same : namesOf before = namesOf finished := same
    match after, remaining with
    | [], _ =>
      rw [List.append_nil, same, turn] at stop
      exact absurd stop (Option.some_ne_none entry)
    | (name, report') :: after, _ =>
      -- both histories finished the same formulas so far, so it is the same formula's turn
      obtain ⟨entry', rfl, _, turn', _⟩ := h'.split
      rw [same, turn, Option.some.injEq] at turn'
      subst turn'
      refine ⟨namesOf after, ?_⟩
      simp only [List.map_append, same, List.append_assoc]
      rfl

/-- The order does not depend on the base or on what the formulas come to. -/
theorem order_unique {gives' : Context → Entry → Report → Prop} {base' : Context}
    {finished finished' : List (Text × Report)} (h : History gives base batch finished)
    (h' : History gives' base' batch finished')
    (stop : firstReady batch (namesOf finished) = none)
    (stop' : firstReady batch (namesOf finished') = none) :
    namesOf finished = namesOf finished' :=
  (h.order_prefix h' stop').sublist.antisymm (h'.order_prefix h stop).sublist

end History

/-! ## A batch under way -/

/-- The invariant of a batch under way. -/
structure Reached (gives : Context → Entry → Report → Prop) (base : Context) (batch : List Entry)
    (progress : Progress) : Prop where
  context : progress.context = base.withResults progress.finished
  waiting : progress.waiting = batch.filter fun entry => entry.name ∉ progress.order
  history : History gives base batch progress.finished

namespace Reached

variable {progress : Progress}

theorem start (formulas : List NamedFormula) :
    Reached gives base (entries formulas) (.start formulas base) where
  context := rfl
  waiting := (List.filter_eq_self.mpr fun _ _ => rfl).symm
  history := .nil

/-- The scan over the formulas that wait stops at the formula whose turn it is. -/
theorem next?_eq (distinct : (batch.map (·.name)).Nodup) (h : Reached gives base batch progress) :
    match progress.next? with
    | none => firstReady batch progress.order = none
    | some (entry, others) => firstReady batch progress.order = some entry ∧
      others = batch.filter fun other => other.name ∉ progress.order ++ [entry.name] := by
  -- the scan asks only whether a formula is ready, since what waits is not finished anyway
  have scan : progress.waiting.find? (·.ready progress.order)
      = firstReady batch progress.order := by
    simp only [h.waiting, List.find?_filter, firstReady, List.contains_eq_mem, decide_not,
      Bool.decide_and, Bool.decide_eq_true]
  cases next : progress.next? with
  | none => exact scan ▸ takeFirst_eq_none next
  | some found =>
    obtain ⟨entry, others⟩ := found
    have waitingDistinct : (progress.waiting.map (·.name)).Nodup := by
      rw [h.waiting]
      exact (List.filter_sublist.map _).nodup distinct
    obtain ⟨turn, rest⟩ := takeFirst_eq_some waitingDistinct next
    refine ⟨scan ▸ turn, ?_⟩
    rw [rest, h.waiting, List.filter_filter]
    refine List.filter_congr fun other _ => ?_
    simp [and_comm]

theorem order_finish (progress : Progress) (entry : Entry) (others : List Entry)
    (report : Report) :
    (progress.finish entry others report).order = progress.order ++ [entry.name] :=
  List.map_append

/-- One formula more. -/
theorem finish (h : Reached gives base batch progress) {entry : Entry} {report : Report}
    (turn : firstReady batch progress.order = some entry)
    (given : gives progress.context entry report) :
    Reached gives base batch (progress.finish entry
      (batch.filter fun other => other.name ∉ progress.order ++ [entry.name]) report) where
  context := by
    simp only [Progress.finish, h.context, Context.setField, Context.withResults, List.map_append,
      Table.insertAll_append]
    rfl
  waiting := by rw [order_finish]; rfl
  history := h.history.snoc turn (h.context ▸ given)

/-- Every turn leaves fewer formulas to wait. -/
theorem length_left_lt {finished : List Text} {entry : Entry}
    (turn : firstReady batch finished = some entry) :
    (batch.filter fun other => other.name ∉ finished ++ [entry.name]).length
      < (batch.filter fun other => other.name ∉ finished).length := by
  obtain ⟨mem, fresh, _⟩ := firstReady_eq_some turn
  -- what waits afterwards is what waited before, without this formula
  have again : (batch.filter fun other => other.name ∉ finished ++ [entry.name])
      = (batch.filter fun other => other.name ∉ finished).filter
          fun other => other.name ≠ entry.name := by
    rw [List.filter_filter]
    refine List.filter_congr fun other _ => ?_
    simp [and_comm]
  rw [again, List.length_filter_lt_length_iff_exists]
  exact ⟨entry, List.mem_filter.mpr ⟨mem, decide_eq_true fresh⟩, by simp⟩

theorem mono {gives' : Context → Entry → Report → Prop}
    (weaker : ∀ c entry report, gives c entry report → gives' c entry report)
    (h : Reached gives base batch progress) : Reached gives' base batch progress where
  context := h.context
  waiting := h.waiting
  history := h.history.mono weaker

end Reached

/-! ## What is returned -/

namespace Reached

variable {done : Progress}

/-- The formulas that are left are those that are not finished, in the order of the batch. -/
theorem stuck_eq (h : Reached gives base batch done) :
    done.stuck = (batch.map (·.name)).filter (· ∉ done.order) := by
  rw [Progress.stuck, h.waiting, List.filter_map]
  rfl

theorem order_subset (h : Reached gives base batch done) :
    done.order ⊆ batch.map (·.name) := fun name finished => by
  obtain ⟨entry, mem, same⟩ := h.history.name_mem finished
  exact List.mem_map.mpr ⟨entry, mem, same⟩

/-- Every formula of the batch is finished or left, and none is both. -/
theorem names_perm (distinct : (batch.map (·.name)).Nodup) (h : Reached gives base batch done) :
    (done.order ++ done.stuck).Perm (batch.map (·.name)) := by
  rw [h.stuck_eq]
  refine (List.perm_ext_iff_of_nodup ?_ distinct).mpr fun name => ?_
  · refine List.nodup_append.mpr ⟨h.history.nodup, distinct.filter _, ?_⟩
    rintro name finished _ left rfl
    exact of_decide_eq_true (List.mem_filter.mp left).2 finished
  · have inBatch : name ∈ done.order → name ∈ batch.map (·.name) := fun mem => h.order_subset mem
    simp only [List.mem_append, List.mem_filter, decide_eq_true_iff]
    tauto

variable (evaluator : Evaluator)

/-- The entries from which the table of results is made. -/
theorem names_entries (done : Progress) :
    (done.finished ++ done.waiting.map fun entry =>
      (entry.name, circular evaluator done.stuck entry)).map (·.1) = done.order ++ done.stuck := by
  simp only [List.map_append, List.map_map]
  rfl

theorem names_results (distinct : (batch.map (·.name)).Nodup) (h : Reached gives base batch done) :
    (Table.names (done.outcome evaluator).results).Perm (batch.map (·.name)) := by
  have perm := h.names_perm distinct
  refine (Table.names_ofList ?_).trans ?_ <;> rw [names_entries]
  · exact perm.nodup_iff.mpr distinct
  · exact perm

/-- The result of a finished formula is the report that was given at its turn. -/
theorem find?_finished (distinct : (batch.map (·.name)).Nodup)
    (h : Reached gives base batch done) {name : Text} {report : Report}
    (mem : (name, report) ∈ done.finished) :
    Table.find? name (done.outcome evaluator).results = some report := by
  refine Table.find?_ofList_of_mem ?_ (List.mem_append_left _ mem)
  rw [names_entries]
  exact (h.names_perm distinct).nodup_iff.mpr distinct

/-- The result of a formula that is left says so. -/
theorem find?_left (distinct : (batch.map (·.name)).Nodup)
    (h : Reached gives base batch done) {entry : Entry} (mem : entry ∈ batch)
    (left : entry.name ∉ done.order) :
    Table.find? entry.name (done.outcome evaluator).results
      = some (circular evaluator done.stuck entry) := by
  refine Table.find?_ofList_of_mem ?_ (List.mem_append_right _ (List.mem_map.mpr ⟨entry, ?_, rfl⟩))
  · rw [names_entries]
    exact (h.names_perm distinct).nodup_iff.mpr distinct
  · rw [h.waiting]
    exact List.mem_filter.mpr ⟨mem, decide_eq_true left⟩

end Reached

/-! ## Whole recalculations -/

section

variable {σ : Type} (evaluator : Evaluator) (resolver : Option (Resolver (StateM σ)))

/-- Evaluation gives a report on a formula in some state of the world. -/
def Gives (context : Context) (entry : Entry) (report : Report) : Prop :=
  ∃ s, ((entry.report evaluator resolver context).run s).1 = report

/-- A run keeps the invariant, and with steps for all that wait it goes on until it is no formula's
turn. -/
theorem run_reached (distinct : (batch.map (·.name)).Nodup) (n : Nat) (progress : Progress) (s : σ)
    (h : Reached (Gives evaluator resolver) base batch progress)
    (enough : progress.waiting.length ≤ n) :
    ∃ done, ((progress.run evaluator resolver n).run s).1 = done ∧
      Reached (Gives evaluator resolver) base batch done ∧ firstReady batch done.order = none := by
  induction n generalizing progress s with
  | zero =>
    have none_waits : progress.next? = none := by
      simp only [Progress.next?, List.length_eq_zero_iff.mp (Nat.le_zero.mp enough), takeFirst]
    exact ⟨progress, rfl, h, by simpa only [none_waits] using h.next?_eq distinct⟩
  | succ n ih =>
    have scan := h.next?_eq distinct
    cases next : progress.next? with
    | none =>
      rw [next] at scan
      exact ⟨progress, by simp only [Progress.run, next]; rfl, h, scan⟩
    | some found =>
      obtain ⟨entry, others⟩ := found
      rw [next] at scan
      obtain ⟨turn, rfl⟩ := scan
      -- the report is the one that evaluation gives in the state `s` of this moment
      simp only [Progress.run, next]
      refine ih _ _ (h.finish turn ⟨s, rfl⟩) (Nat.le_of_lt_succ ?_)
      exact Nat.lt_of_lt_of_le (Reached.length_left_lt turn) (h.waiting ▸ enough)

/-- The recalculation of a batch of distinct names returns, and what it returns came about turn by
turn. -/
theorem recalculate_reached (base : Context) {formulas : List NamedFormula}
    (distinct : (formulas.map (·.name)).Nodup) :
    ∃ run, recalculate evaluator resolver formulas base = .ok run ∧ ∀ s, ∃ done,
      (run.run s).1 = done.outcome evaluator ∧
      Reached (Gives evaluator resolver) base (entries formulas) done ∧
      firstReady (entries formulas) done.order = none := by
  have unrepeated : Text.repeated? id [] (formulas.map (·.name)) = none := by
    simpa [Text.repeated?_eq_none_iff] using distinct
  refine ⟨_, by rw [recalculate, unrepeated], fun s => ?_⟩
  obtain ⟨done, eq, reached, stop⟩ := run_reached evaluator resolver
    (by rwa [map_name_entries]) formulas.length (.start formulas base) s (.start formulas)
    (by simp [Progress.start])
  exact ⟨done, eq ▸ rfl, reached, stop⟩

end

/-! ## Without a resolver -/

/-- The report on a formula in a context whose own mentions are looked up. -/
def Entry.reportIn (evaluator : Evaluator) (context : Context) (entry : Entry) : Report :=
  (entry.report (m := Id) evaluator none context).run

/-- The one report that can be given on a formula when its mentions are looked up in the context. -/
abbrev ReportedIn (evaluator : Evaluator) (context : Context) (entry : Entry) (report : Report) :
    Prop :=
  entry.reportIn evaluator context = report

theorem Entry.reportIn_of_parsed (evaluator : Evaluator) (context : Context) {entry : Entry}
    {e : Expr} (h : entry.parsed = .ok e) :
    entry.reportIn evaluator context =
      ⟨e.eval (evaluator.environment context none), evaluator.options.errorDisplay,
        e.dependencies⟩ := by
  simp only [reportIn, report, h]
  rfl

theorem Entry.reportIn_of_misread (evaluator : Evaluator) (context : Context) {entry : Entry}
    {error : ParseError} (h : entry.parsed = .error error) :
    entry.reportIn evaluator context =
      ⟨.error (.ofParse error), evaluator.options.errorDisplay, []⟩ := by
  simp only [reportIn, report, h]
  rfl

section

variable {m : Type → Type} [Monad m] [LawfulMonad m] (evaluator : Evaluator)

theorem report_of_no_resolver (context : Context) (entry : Entry) :
    entry.report (m := m) evaluator none context = pure (entry.reportIn evaluator context) := by
  simp only [Entry.reportIn, Entry.report]
  cases entry.parsed with
  | error e => rfl
  | ok e => simp [Evaluator.evaluateTree, Evaluator.value]

theorem run_of_no_resolver (n : Nat) (progress : Progress) :
    progress.run (m := m) evaluator none n
      = pure (progress.run (m := Id) evaluator none n).run := by
  induction n generalizing progress with
  | zero => rfl
  | succ n ih =>
    simp only [Progress.run]
    cases progress.next? with
    | none => rfl
    | some found =>
      simp only [report_of_no_resolver, pure_bind, ih]

end

/-- Without a resolver a recalculation has no effects, and at every turn there is one report. -/
theorem recalculate_reached_of_no_resolver (evaluator : Evaluator) (base : Context)
    {formulas : List NamedFormula} (distinct : (formulas.map (·.name)).Nodup) :
    ∃ r, recalculate (m := Id) evaluator none formulas base = .ok r ∧ ∃ done,
      r = done.outcome evaluator ∧ Reached (ReportedIn evaluator) base (entries formulas) done ∧
      firstReady (entries formulas) done.order = none := by
  have unrepeated : Text.repeated? id [] (formulas.map (·.name)) = none := by
    simpa [Text.repeated?_eq_none_iff] using distinct
  obtain ⟨done, eq, reached, stop⟩ := run_reached (σ := Unit) evaluator none
    (by rwa [map_name_entries]) formulas.length (.start formulas base) ()
    (.start formulas) (by simp [Progress.start])
  rw [run_of_no_resolver] at eq
  refine ⟨_, by rw [recalculate, unrepeated], done, ?_, reached.mono ?_, stop⟩
  · subst eq
    rfl
  · rintro c entry report ⟨_, rfl⟩
    rw [report_of_no_resolver]
    rfl

end Recalculation

end ComputedFields
