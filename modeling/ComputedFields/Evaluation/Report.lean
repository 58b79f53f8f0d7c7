import ComputedFields.Evaluation.Lookup
import ComputedFields.Evaluation.Walk
import ComputedFields.Expr.Parser
import ComputedFields.Function.Catalog

/-!
# `ComputedFields.Evaluation.Report` — evaluating formulas

Evaluating a formula always ends with a report: the value with the way it is displayed, or the fault
with its place, and in both cases the names that the formula reads.

* `Evaluator.value` — the value of a tree or its failure;
* `Evaluator.evaluateTree`, `Evaluator.evaluate` — the report on a tree and on a source.
-/

namespace ComputedFields

/-- How formulas are evaluated: with a deadline in milliseconds for the lookups of mentions or
without one, with names that are no fields as failures or as texts, and with the text that is
displayed for a failure. -/
structure Options where
  timeout : Option Int := none
  strict : Bool := false
  errorDisplay : Text := utf8 "Error"

/-- What is reported on a formula: its value or its failure, with the text that is displayed for a
failure and the names that the formula reads. -/
structure Report where
  result : Except Failure Value
  errorDisplay : Text
  dependencies : List Text

namespace Report

/-- The formula has a value. -/
def success (r : Report) : Bool := r.result.isOk

/-- The value of the formula; null when it failed. -/
def value (r : Report) : Value :=
  match r.result with
  | .ok v => v
  | .error _ => .null

/-- The kind of the value. -/
def kind (r : Report) : Kind := r.value.kind

/-- What is displayed. -/
def display (r : Report) : Text :=
  match r.result with
  | .ok v => v.display
  | .error _ => r.errorDisplay

/-- The message of the failure. -/
def error? (r : Report) : Option Text :=
  match r.result with
  | .ok _ => none
  | .error failure => some failure.message

/-- The class of the failure. -/
def code? (r : Report) : Option ErrorCode :=
  match r.result with
  | .ok _ => none
  | .error failure => some failure.fault.code

end Report

/-- The functions that formulas may call, and how they are evaluated. -/
structure Evaluator where
  registry : Function.Registry := Function.catalog
  options : Options := {}

namespace Evaluator

/-- What a tree is evaluated in when its mentions are looked up among those of the context, or were
looked up elsewhere. -/
def environment (evaluator : Evaluator) (context : Context) (lookups : Option Lookups) :
    Environment :=
  { context, registry := evaluator.registry, strict := evaluator.options.strict
    mention := fun name =>
      match lookups with
      | none => .ok (context.mentionValue name)
      | some lookups => lookups.await evaluator.options.timeout.isSome name }

variable {m : Type → Type} [Monad m]

/-- The value of a tree. A resolver is asked for all mentions before the tree is evaluated. -/
def value (evaluator : Evaluator) (resolver : Option (Resolver m)) (e : Expr) (context : Context) :
    m (Except Failure Value) := do
  let lookups ← resolver.mapM fun resolver => Lookups.start resolver e
  return e.eval (evaluator.environment context lookups)

/-- The report on a tree. -/
def evaluateTree (evaluator : Evaluator) (resolver : Option (Resolver m)) (e : Expr)
    (context : Context) : m Report := do
  let result ← evaluator.value resolver e context
  return ⟨result, evaluator.options.errorDisplay, e.dependencies⟩

/-- The report on a source. One that is no formula reads nothing. -/
def evaluate (evaluator : Evaluator) (resolver : Option (Resolver m)) (source : Text)
    (context : Context) : m Report :=
  match parse source with
  | .ok e => evaluator.evaluateTree resolver e context
  | .error e => return ⟨.error (.ofParse e), evaluator.options.errorDisplay, []⟩

end Evaluator

end ComputedFields
