import ComputedFields.Proofs.Asking

/-!
# `ComputedFields.Proofs.Sightings` — what an evaluation sees of its lookups

All lookups are started before the evaluation, but a lookup is looked at only where the evaluation
comes to a mention of its name. What it may tell there is a `Sighting`: what it ended with, or that
it has not ended by the deadline, or that it has no state. It makes no difference whether what it
ended with was there at once, came in time or was raised when the resolver was asked. So resolvers
that differ in other ways, or for mentions that the evaluation does not come to, lead to the same
report; and a resolver that knows what the context knows leads to the report without a resolver.

* `Sighting`, `Lookup.await_eq` — a lookup is read only through what a mention can see of it;
* `Evaluator.eval_congr_of_reached` — the mentions that an evaluation comes to;
* `Evaluator.evaluateTree_congr_of_reached` — two resolvers;
* `Evaluator.evaluateTree_of_answered` — a resolver beside the mentions of the context.
-/

namespace ComputedFields

/-! ## Sightings -/

/-- What a mention sees of a lookup: what it ended with, or that it did not end by the deadline, or
that it has no state. -/
inductive Sighting where
  | ended (outcome : LookupOutcome)
  | unanswered
  | stateless

/-- What a mention that comes to a lookup sees of it. Without a deadline every answer is waited for,
and one that never comes is the same as one that does not come by a deadline. -/
def Lookup.sighting (deadline : Bool) : Lookup → Sighting
  | .answered outcome => .ended outcome
  | .late (some outcome) => if deadline then .unanswered else .ended outcome
  | .late none => .unanswered
  | .stateless => .stateless

/-- The value of a mention by what it sees. -/
def Sighting.value (name : Text) : Sighting → Except Failure Value
  | .ended outcome => Lookup.outcomeValue name outcome
  | .unanswered => .error ⟨.lookupTimedOut name, none⟩
  | .stateless => .error ⟨.noLookup name, none⟩

theorem Lookup.await_eq (deadline : Bool) (name : Text) (lookup : Lookup) :
    lookup.await deadline name = (lookup.sighting deadline).value name := by
  cases lookup with
  | answered outcome => rfl
  | late eventually =>
    cases eventually with
    | none => rfl
    | some outcome => cases deadline <;> rfl
  | stateless => rfl

section

variable {σ τ : Type}

/-- What a mention of a name sees when a resolver is asked for the mentions of a formula. -/
def Resolver.sighting? (resolver : Resolver (StateM σ)) (deadline : Bool) (e : Expr) (s : σ)
    (name : Text) : Option Sighting :=
  (((Lookups.start resolver e).run s).1.lookup name).map (Lookup.sighting deadline)

/-- The mentions that the evaluation of a formula comes to, before it ends or fails. -/
def Evaluator.reached (evaluator : Evaluator) (resolver : Resolver (StateM σ)) (e : Expr)
    (context : Context) (s : σ) : List Text :=
  e.reached (evaluator.environment context (some ((Lookups.start resolver e).run s).1))

theorem Lookups.await_eq (deadline : Bool) (lookups : Lookups) (name : Text) :
    lookups.await deadline name =
      (((lookups.lookup name).map (Lookup.sighting deadline)).getD .stateless).value name := by
  rw [await, Lookup.await_eq]
  cases lookups.lookup name <;> rfl

theorem Lookups.await_congr {deadline : Bool} {lookups lookups' : Lookups} {name : Text}
    (h : (lookups.lookup name).map (Lookup.sighting deadline) =
      (lookups'.lookup name).map (Lookup.sighting deadline)) :
    lookups.await deadline name = lookups'.await deadline name := by
  rw [await_eq, await_eq, h]

namespace Evaluator

/-! ## Two sources of mentions -/

/-- Where mentions are looked up matters only for those that the evaluation comes to. -/
theorem eval_congr_of_reached (evaluator : Evaluator) (context : Context) {e : Expr}
    {lookups lookups' : Option Lookups}
    (agree : ∀ name ∈ e.reached (evaluator.environment context lookups),
      (evaluator.environment context lookups).mention name =
        (evaluator.environment context lookups').mention name) :
    e.eval (evaluator.environment context lookups) =
      e.eval (evaluator.environment context lookups') := by
  have registry : (evaluator.environment context lookups).registry =
      (evaluator.environment context lookups').registry := rfl
  refine Expr.eval_congr_of_visited registry fun node visited => ?_
  cases node with
  | mention p name => exact agree name (Expr.mem_reached.mpr ⟨p, visited⟩)
  | field => rfl
  | call => exact fun _ _ _ _ => rfl
  | number | text | member | negate | binary | conditional | array => trivial

/-- Two resolvers lead to the same report when each mention that the evaluation comes to sees the
same with both. What they do for other mentions, and what else they do while they are asked, is not
to be seen. -/
theorem evaluateTree_congr_of_reached (evaluator : Evaluator) (e : Expr) (context : Context)
    (resolver : Resolver (StateM σ)) (resolver' : Resolver (StateM τ)) (s : σ) (t : τ)
    (same : ∀ name ∈ evaluator.reached resolver e context s,
      resolver.sighting? evaluator.options.timeout.isSome e s name =
        resolver'.sighting? evaluator.options.timeout.isSome e t name) :
    ((evaluator.evaluateTree (some resolver) e context).run s).1 =
      ((evaluator.evaluateTree (some resolver') e context).run t).1 := by
  have values : e.eval (evaluator.environment context (some ((Lookups.start resolver e).run s).1)) =
      e.eval (evaluator.environment context (some ((Lookups.start resolver' e).run t).1)) :=
    evaluator.eval_congr_of_reached context fun name mem => Lookups.await_congr (same name mem)
  rw [run_evaluateTree, run_evaluateTree, values]

/-- The first two of three mentions are reached: the second raises a failure, which one resolver
does at once and the other when the answer is asked for. What they do for the third mention and for
that in the other branch has nothing in common. -/
theorem evaluateTree_congr_of_reached_before_failure :
    let failure : Failure := ⟨.divisionByZero, none⟩
    let resolver : Resolver (StateM Nat) := fun name asked =>
      (if name = utf8 "a" then .ok (.answered (.ok none))
        else if name = utf8 "b" then .error (.failure failure) else .error .undescribed, asked + 1)
    let resolver' : Resolver (StateM Unit) := fun name _ =>
      (if name = utf8 "a" then .ok (.answered (.ok none))
        else if name = utf8 "b" then .ok (.answered (.error (.failure failure)))
        else if name = utf8 "c" then .ok .stateless else .ok (.late none), ())
    let e : Expr := .conditional 2 (.field 0 (utf8 "x"))
      (.array 4 [.mention 5 (utf8 "a"), .mention 9 (utf8 "b"), .mention 13 (utf8 "c")])
      (.mention 19 (utf8 "d"))
    let evaluator : Evaluator := { options := { timeout := some 10 } }
    evaluator.reached resolver e {} 0 = [utf8 "a", utf8 "b"] ∧
      (∀ name ∈ evaluator.reached resolver e {} 0,
        resolver.sighting? true e 0 name = resolver'.sighting? true e () name) ∧
      ((evaluator.evaluateTree (some resolver) e {}).run 0).1 =
        ((evaluator.evaluateTree (some resolver') e {}).run ()).1 := by
  intro failure resolver resolver' e evaluator
  have reached : evaluator.reached resolver e {} 0 = [utf8 "a", utf8 "b"] := by decide +kernel
  have same : ∀ name ∈ evaluator.reached resolver e {} 0,
      resolver.sighting? true e 0 name = resolver'.sighting? true e () name := by
    rw [reached]
    exact List.forall_mem_cons.mpr ⟨rfl, List.forall_mem_singleton.mpr rfl⟩
  exact ⟨reached, same, evaluateTree_congr_of_reached evaluator e {} resolver resolver' 0 () same⟩

/-- A resolver whose lookups are answered at once, with the entities of the context, leads to the
report that there is without a resolver, with and without a deadline. -/
theorem evaluateTree_of_answered (evaluator : Evaluator) (e : Expr) (context : Context)
    (resolver : Resolver (StateM σ))
    (answered : ∀ name s, ((resolver name).run s).1 = .ok (.answered (.ok (context.mention? name))))
    (s : σ) :
    ((evaluator.evaluateTree (some resolver) e context).run s).1 =
      (evaluator.evaluateTree (m := Id) none e context).run := by
  have values : e.eval (evaluator.environment context (some ((Lookups.start resolver e).run s).1)) =
      e.eval (evaluator.environment context none) := by
    refine evaluator.eval_congr_of_reached context fun name reached => ?_
    have mentioned : name ∈ e.mentions := List.mem_eraseDups.mpr (Expr.reached_subset _ e reached)
    obtain ⟨before, after, split, first⟩ := List.eq_append_cons_of_mem mentioned
    have found : ((Lookups.start resolver e).run s).1.lookup name =
        some (.answered (.ok (context.mention? name))) := by
      rw [Lookups.start, split, Lookups.lookup_ask resolver first, answered]
      rfl
    simp only [environment, Lookups.await, found, Option.getD_some]
    rfl
  rw [run_evaluateTree, values]
  rfl

/-- A resolver that counts how often it is asked. Two entities have labels of the same letters, and
a third name has none; the deadline is over before the evaluation starts. -/
theorem evaluateTree_of_answered_overdue :
    let context : Context := { mentions :=
      [{ id := utf8 "1", label := utf8 "Paris" }, { id := utf8 "2", label := utf8 "PARIS" }] }
    let resolver : Resolver (StateM Nat) := fun name asked =>
      (.ok (.answered (.ok (context.mention? name))), asked + 1)
    let e : Expr := .array 0 [.member 7 (.mention 1 (utf8 "paris")) (utf8 "id"),
      .mention 12 (utf8 "x"), .member 22 (.mention 16 (utf8 "paris")) (utf8 "id")]
    let evaluator : Evaluator := { options := { timeout := some (-1) } }
    (∀ name s, ((resolver name).run s).1 = .ok (.answered (.ok (context.mention? name)))) ∧
      ((evaluator.evaluateTree (some resolver) e context).run 0).1 =
        (evaluator.evaluateTree (m := Id) none e context).run ∧
      ((evaluator.evaluateTree (some resolver) e context).run 0).1.result =
        .ok (.array [.text (utf8 "1"), .null, .text (utf8 "1")]) ∧
      ((evaluator.evaluateTree (some resolver) e context).run 0).2 = 2 := by
  intro context resolver e evaluator
  have answered : ∀ name s,
      ((resolver name).run s).1 = .ok (.answered (.ok (context.mention? name))) :=
    fun _ _ => rfl
  exact ⟨answered, evaluateTree_of_answered evaluator e context resolver answered 0, by rfl, by rfl⟩

end Evaluator

end

end ComputedFields
