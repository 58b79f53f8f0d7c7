import ComputedFields.Expr.References
import ComputedFields.Function.Definition

/-!
# `ComputedFields.Evaluation.Lookup` — looking mentions up elsewhere

A resolver is asked for entities by name and may answer later. All lookups of a formula are started
before it is evaluated, one for each name; what became of a lookup matters only where the evaluation
comes to the mention.

* `Lookup` — what a resolver may hand back;
* `Lookup.await` — what a mention finds when the evaluation comes to it;
* `Lookups.start` — the lookups of a formula.
-/

namespace ComputedFields

/-- What a lookup ends with: an entity or the knowledge that there is none, or something raised. -/
abbrev LookupOutcome := Except Raised (Option Mention)

/-- A lookup that was started. An answer that is there, or that is given when it is asked for, is
never late, whatever the deadline; an answer that is not there by the deadline may come after it or
never; and a lookup may have no state at all. -/
inductive Lookup where
  | answered (outcome : LookupOutcome)
  | late (eventually : Option LookupOutcome)
  | stateless

namespace Lookup

/-- The value of an outcome; no entity is null. -/
def outcomeValue (name : Text) (outcome : LookupOutcome) : Except Failure Value :=
  match outcome with
  | .ok found => .ok (found.elim .null Mention.value)
  | .error raised => .error (raised.toFailure (.lookupFailed name))

/-- What the mention of a name finds. With a deadline a late answer is a timeout; without one it is
waited for, and a wait that never ends counts as a timeout too. -/
def await (deadline : Bool) (name : Text) : Lookup → Except Failure Value
  | .answered outcome => outcomeValue name outcome
  | .late (some outcome) =>
    if deadline then .error ⟨.lookupTimedOut name, none⟩ else outcomeValue name outcome
  | .late none => .error ⟨.lookupTimedOut name, none⟩
  | .stateless => .error ⟨.noLookup name, none⟩

end Lookup

/-- Someone who may be asked for entities by name, with the effects of `m`. What asking raises is
kept until the answer is needed. -/
abbrev Resolver (m : Type → Type) := Text → m (Except Raised Lookup)

/-- Lookups by name. -/
abbrev Lookups := List (Text × Lookup)

namespace Lookups

/-- The lookup that asking led to. -/
def ofAsking : Except Raised Lookup → Lookup
  | .ok lookup => lookup
  | .error raised => .answered (.error raised)

/-- Asks for some names, in their order. -/
def ask {m : Type → Type} [Monad m] (resolver : Resolver m) (names : List Text) : m Lookups :=
  names.mapM fun name => return (name, ofAsking (← resolver name))

/-- Asks for the mentions of a formula, each name once, in the order of the source. -/
def start {m : Type → Type} [Monad m] (resolver : Resolver m) (e : Expr) : m Lookups :=
  ask resolver e.mentions

/-- What the mention of a name finds. -/
def await (deadline : Bool) (lookups : Lookups) (name : Text) : Except Failure Value :=
  ((lookups.lookup name).getD .stateless).await deadline name

end Lookups

end ComputedFields
