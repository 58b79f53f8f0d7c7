import ComputedFields.Evaluation.Report

/-!
# `ComputedFields.Recalculation` — computing fields that read each other

The formulas of a batch are evaluated one after the other, each as soon as the formulas of the batch
that it reads are finished, and of several such the first in the batch. The value of a finished
formula becomes a field of the context. What is left when no formula can be evaluated reads a
circle.

* `Recalculation` — the reports with the order in which the formulas were evaluated;
* `recalculate` — the recalculation of a batch.
-/

namespace ComputedFields

/-- A formula for a field. -/
structure NamedFormula where
  name : Text
  source : Text

/-- The reports on a batch by name, and the names of the evaluated formulas in their order. -/
structure Recalculation where
  order : List Text
  results : Table Report

namespace Recalculation

/-- A formula of a batch that is not evaluated yet, with the names of the batch that it reads. A
source that is no formula reads none. -/
structure Entry where
  name : Text
  parsed : Except ParseError Expr
  needs : List Text

/-- A formula of the batch with the given names. -/
def Entry.ofFormula (names : List Text) (formula : NamedFormula) : Entry :=
  let parsed := parse formula.source
  let reads := match parsed with
    | .ok e => e.fields
    | .error _ => []
  { name := formula.name, parsed, needs := reads.filter names.contains }

/-- All that a formula needs is finished. -/
def Entry.ready (finished : List Text) (entry : Entry) : Bool := entry.needs.all finished.contains

variable {m : Type → Type} [Monad m]

/-- The report on a formula in a context. -/
def Entry.report (evaluator : Evaluator) (resolver : Option (Resolver m)) (context : Context)
    (entry : Entry) : m Report :=
  match entry.parsed with
  | .ok e => evaluator.evaluateTree resolver e context
  | .error e => return ⟨.error (.ofParse e), evaluator.options.errorDisplay, []⟩

/-- The first entry with a property, and the entries without it. -/
def takeFirst (p : Entry → Bool) : List Entry → Option (Entry × List Entry)
  | [] => none
  | entry :: rest =>
    if p entry then some (entry, rest)
    else (takeFirst p rest).map fun (found, others) => (found, entry :: others)

/-- A batch under way: the context with the values so far, the finished formulas with their reports
in the order in which they were evaluated, and those that wait. -/
structure Progress where
  context : Context
  finished : List (Text × Report)
  waiting : List Entry

/-- The report on a formula that reads a circle. -/
def circular (evaluator : Evaluator) (stuck : List Text) (entry : Entry) : Report :=
  let dependencies := match entry.parsed with
    | .ok e => e.dependencies
    | .error _ => []
  ⟨.error ⟨.circular stuck, none⟩, evaluator.options.errorDisplay, dependencies⟩

namespace Progress

/-- A batch before its first formula. -/
def start (formulas : List NamedFormula) (base : Context) : Progress :=
  { context := base
    finished := []
    waiting := formulas.map (Entry.ofFormula (formulas.map (·.name))) }

/-- The names of the finished formulas. -/
def order (progress : Progress) : List Text := progress.finished.map (·.1)

/-- The first formula that is ready, and the others that wait. -/
def next? (progress : Progress) : Option (Entry × List Entry) :=
  takeFirst (·.ready progress.order) progress.waiting

/-- The progress after a formula is finished with a report while others go on waiting. -/
def finish (progress : Progress) (entry : Entry) (others : List Entry) (report : Report) :
    Progress :=
  { context := progress.context.setField entry.name report.value
    finished := progress.finished ++ [(entry.name, report)]
    waiting := others }

/-- The progress after at most `n` more formulas. -/
def run (evaluator : Evaluator) (resolver : Option (Resolver m)) : Nat → Progress → m Progress
  | 0, progress => return progress
  | n + 1, progress =>
    match progress.next? with
    | none => return progress
    | some (entry, others) => do
      let report ← entry.report evaluator resolver progress.context
      run evaluator resolver n (progress.finish entry others report)

/-- The names of the formulas that wait. -/
def stuck (progress : Progress) : List Text := progress.waiting.map (·.name)

/-- What has become of a batch of which no formula is ready any more. -/
def outcome (evaluator : Evaluator) (progress : Progress) : Recalculation :=
  let left := progress.waiting.map fun entry =>
    (entry.name, circular evaluator progress.stuck entry)
  ⟨progress.order, Table.ofList (progress.finished ++ left)⟩

end Progress

end Recalculation

open Recalculation in
/-- The recalculation of a batch, unless two of its formulas have one name. A resolver is asked
anew for every formula, when the turn of that formula comes. -/
def recalculate {m : Type → Type} [Monad m] (evaluator : Evaluator)
    (resolver : Option (Resolver m)) (formulas : List NamedFormula) (base : Context) :
    Except Repetition (m Recalculation) :=
  match Text.repeated? id [] (formulas.map (·.name)) with
  | some name => .error (.formula name)
  | none => .ok do
    let done ← (Progress.start formulas base).run evaluator resolver formulas.length
    return done.outcome evaluator

end ComputedFields
