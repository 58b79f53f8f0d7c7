import ComputedFields.Expr.Printer
import ComputedFields.Recalculation
import ComputedFields.Suggestion

/-!
# `ComputedFields.Session` — working on the fields of a block

A session holds a context, the options of evaluation, and formulas that were read once to be
evaluated often. A step changes one of these or asks a question; a step that fails changes nothing.
Formulas call the functions of the catalog and find their mentions in the context.
-/

namespace ComputedFields

/-- A context under work, with options and formulas by their ids. -/
structure Session where
  context : Context := {}
  options : Options := {}
  formulas : Table Expr := []

namespace Session

/-- What may be done in a session. -/
inductive Step where
  | setField (name : Text) (v : Value)
  | unsetField (name : Text)
  | addMention (m : Mention)
  | addSibling (v : Value)
  | setNow (t : Instant)
  | setOptions (options : Options)
  | read (id source : Text)
  | run (id : Text)
  | evaluate (source : Text)
  | assign (name source : Text)
  | recalculate (formulas : List NamedFormula)
  | suggest

/-- The collections of a context. -/
inductive Collection where
  | fields | mentions | siblings
  deriving Repr, DecidableEq

/-- What a step answers. -/
inductive Answer where
  | size (collection : Collection) (n : Nat)
  | text (s : Text)
  | report (report : Report)
  | recalculation (recalculation : Recalculation)
  | suggestions (sources : List Text)
  | misread (e : ParseError)
  | repeated (repetition : Repetition)
  | noFormula (id : Text)

/-- The evaluator of a session. -/
def evaluator (session : Session) : Evaluator := { options := session.options }

/-- The report on a source in a session. -/
def report (session : Session) (source : Text) : Report :=
  (session.evaluator.evaluate (m := Id) none source session.context).run

/-- The session with another table of fields, and the size of that table. -/
def withFields (session : Session) (fields : Table Value) : Answer × Session :=
  (.size .fields fields.length,
    { session with context := { session.context with fields } })

/-- The answer to a step, and the session after it. -/
def step (session : Session) : Step → Answer × Session
  | .setField name v => session.withFields (Table.insert name v session.context.fields)
  | .unsetField name => session.withFields (Table.erase name session.context.fields)
  | .addMention m =>
    let mentions := session.context.mentions ++ [m]
    (.size .mentions mentions.length,
      { session with context := { session.context with mentions } })
  | .addSibling v =>
    let siblings := session.context.siblings ++ [v]
    (.size .siblings siblings.length,
      { session with context := { session.context with siblings } })
  | .setNow now =>
    (.text (Calendar.writeIso now), { session with context := { session.context with now } })
  | .setOptions options => (.text options.errorDisplay, { session with options })
  | .read id source =>
    match parse source with
    | .ok e => (.text e.render, { session with formulas := Table.insert id e session.formulas })
    | .error e => (.misread e, session)
  | .run id =>
    match Table.find? id session.formulas with
    | some e =>
      (.report (session.evaluator.evaluateTree (m := Id) none e session.context).run, session)
    | none => (.noFormula id, session)
  | .evaluate source => (.report (session.report source), session)
  | .assign name source =>
    let report := session.report source
    (.report report, { session with context := session.context.setField name report.value })
  | .recalculate formulas =>
    match ComputedFields.recalculate (m := Id) session.evaluator none formulas session.context with
    | .ok recalculation => (.recalculation recalculation, session)
    | .error repetition => (.repeated repetition, session)
  | .suggest => (.suggestions session.context.suggestions, session)

/-- The answers to some steps, one after the other. -/
def steps (session : Session) : List Step → List Answer
  | [] => []
  | s :: rest =>
    let (answer, session) := session.step s
    answer :: session.steps rest

end Session

end ComputedFields
