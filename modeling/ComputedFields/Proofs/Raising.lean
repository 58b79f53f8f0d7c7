import ComputedFields.Evaluation.Report
import ComputedFields.Proofs.Substitution

/-!
# `ComputedFields.Proofs.Raising` — what is raised while a tree is evaluated

A fault arises at some node, and what functions and lookups raise comes from outside of the engine:
a failure, with a place or without one, or an exception of any kind. All of it goes up through the
nodes above, to be reported at the root, where an exception would have neither a class nor a place.
`Evaluator.walk` follows it on its way. Each node gives a place to what goes up through it, unless
it has one, and the nodes that run code from outside make failures of the exceptions that this
raises.

Nothing but failures arrives at the root (`Evaluator.walk_eq`), with the place of the innermost node
or the one that they came with. So it is enough to give a place to each failure where it arises, as
`Expr.eval` does, and to let it pass through the nodes above.

* `Evaluator.walk` — the value of a tree, or whatever is raised;
* `Expr.positions`, `Expr.parts` — the nodes of a tree and the trees below its root;
* `Expr.FailsOnly` — the failures that a tree may have;
* `Expr.eval_placed` — all of them have places;
* `Evaluator.walk_eq` — nothing else is raised.
-/

namespace ComputedFields

/-! ## What is raised and handled -/

namespace Raised

/-- What is raised when it goes up through a node: a failure gets the offset of the node, unless it
has one. An exception has no room for it. -/
def orAt (position : Nat) : Raised → Raised
  | .failure f => .failure (f.orAt position)
  | raised => raised

/-- What code from outside of the engine raised, as the node that ran it passes it on: an exception
becomes a failure at the node. -/
def handled (wrap : Option Text → Fault) (position : Nat) : Raised → Raised
  | .failure f => .failure f
  | .described reason => .failure (.placed (wrap (some reason.untilNul)) position)
  | .undescribed => .failure (.placed (wrap none) position)

end Raised

/-- A fault is raised without a place. -/
def raise {α : Type} (result : Except Fault α) : Except Raised α :=
  result.mapError fun fault => .failure ⟨fault, none⟩

/-- A result that goes up through a node. -/
def upThrough {α : Type} (position : Nat) (result : Except Raised α) : Except Raised α :=
  result.mapError (Raised.orAt position)

section

variable (evaluator : Evaluator) (context : Context) (lookups : Option Lookups)

namespace Lookup

/-- What a mention takes from a lookup that has ended. -/
def receive (position : Nat) (name : Text) (outcome : LookupOutcome) : Except Raised Value :=
  (outcome.map fun found => found.elim .null Mention.value).mapError
    (Raised.handled (.lookupFailed name) position)

/-- What a mention finds that waits for a lookup. -/
def awaitRaising (deadline : Bool) (position : Nat) (name : Text) : Lookup → Except Raised Value
  | .answered outcome => receive position name outcome
  | .late (some outcome) =>
    if deadline then .error (.failure (.placed (.lookupTimedOut name) position))
    else receive position name outcome
  | .late none => .error (.failure (.placed (.lookupTimedOut name) position))
  | .stateless => .error (.failure (.placed (.noLookup name) position))

end Lookup

namespace Evaluator

/-- What a mention finds. -/
def walkMention (position : Nat) (name : Text) : Except Raised Value :=
  match lookups with
  | none => .ok (context.mentionValue name)
  | some lookups =>
    match lookups.lookup name with
    | none => .error (.failure (.placed (.noLookup name) position))
    | some lookup => lookup.awaitRaising evaluator.options.timeout.isSome position name

/-- A call of a function with the values of its arguments. -/
def walkCall (position : Nat) (d : Function.Definition) (arguments : List Value) :
    Except Raised Value :=
  if d.accepts arguments.length then
    (d.implementation arguments context).mapError (Raised.handled (.functionFailed d.name) position)
  else .error (.failure (.placed (.argumentCount d.name d.least d.most arguments.length) position))

mutual

/-- The value of a tree when whatever is raised goes up through all nodes above. -/
def walk : Expr → Except Raised Value
  | .number p x => upThrough p (.ok (.number x))
  | .text p s => upThrough p (.ok (.text s))
  | .field p name => upThrough p (raise ((evaluator.environment context lookups).field name))
  | .mention p name => upThrough p (evaluator.walkMention context lookups p name)
  | .member p object property => upThrough p do
    let v ← walk object
    pure (v.property property)
  | .call p function arguments => upThrough p (
    match evaluator.registry.find? function with
    | none => .error (.failure (.placed (.unknownFunction function) p))
    | some d => do
      let vs ← walkAll arguments
      walkCall context p d vs)
  | .negate p operand => upThrough p do
    let v ← walk operand
    raise v.negate
  | .binary p op left right => upThrough p do
    let v ← walk left
    let w ← walk right
    raise (op.apply v w)
  | .conditional p condition whenTrue whenFalse => upThrough p do
    let v ← walk condition
    if v.truthy then walk whenTrue else walk whenFalse
  | .array p items => upThrough p do
    let vs ← walkAll items
    pure (.array vs)

/-- The values of trees, from the left. -/
def walkAll : List Expr → Except Raised (List Value)
  | [] => .ok []
  | e :: rest => do
    let v ← walk e
    let vs ← walkAll rest
    pure (v :: vs)

end

end Evaluator

end

/-! ## Nodes -/

namespace Expr

mutual

/-- The offsets of the nodes of a tree. -/
def positions : Expr → List Nat
  | .number p _ | .text p _ | .field p _ | .mention p _ => [p]
  | .member p object _ => p :: object.positions
  | .call p _ arguments => p :: positionsOfAll arguments
  | .negate p operand => p :: operand.positions
  | .binary p _ left right => p :: (left.positions ++ right.positions)
  | .conditional p c a b => p :: (c.positions ++ a.positions ++ b.positions)
  | .array p items => p :: positionsOfAll items

/-- The offsets of the nodes of several trees. -/
def positionsOfAll : List Expr → List Nat
  | [] => []
  | e :: rest => e.positions ++ positionsOfAll rest

end

/-- The trees below the root. -/
def parts : Expr → List Expr
  | .number .. | .text .. | .field .. | .mention .. => []
  | .member _ object _ => [object]
  | .call _ _ arguments => arguments
  | .negate _ operand => [operand]
  | .binary _ _ left right => [left, right]
  | .conditional _ c a b => [c, a, b]
  | .array _ items => items

theorem positionsOfAll_eq (es : List Expr) : positionsOfAll es = es.flatMap positions := by
  induction es with
  | nil => rfl
  | cons e rest ih => rw [positionsOfAll, ih, List.flatMap_cons]

theorem positions_of_part {e part : Expr} (h : part ∈ e.parts) : part.positions ⊆ e.positions := by
  intro p mem
  cases e <;> simp only [parts, positions, positionsOfAll_eq] at h ⊢ <;> grind

theorem functionNames_of_part {e part : Expr} (h : part ∈ e.parts) :
    part.functionNames ⊆ e.functionNames := by
  intro p mem
  cases e <;> simp only [parts, functionNames, functionNamesOfAll_eq] at h ⊢ <;> grind

theorem mentionNames_of_part {e part : Expr} (h : part ∈ e.parts) :
    part.mentionNames ⊆ e.mentionNames := by
  intro p mem
  cases e <;> simp only [parts, mentionNames, mentionNamesOfAll_eq] at h ⊢ <;> grind

end Expr

/-! ## How trees fail -/

/-- If there is a failure, it is of a kind. -/
def Fails {α : Type} (kind : Failure → Prop) (result : Except Failure α) : Prop :=
  ∀ failure, result = .error failure → kind failure

namespace Fails

variable {α β : Type} {kind : Failure → Prop} {p : Nat}

theorem ok (a : α) : Fails kind (.ok a) := nofun

theorem error {failure : Failure} (h : kind failure) : Fails (α := α) kind (.error failure) := by
  rintro _ ⟨⟩
  exact h

theorem bind {x : Except Failure α} {f : α → Except Failure β} (h : Fails kind x)
    (later : ∀ a, Fails kind (f a)) : Fails kind (x >>= f) := by
  cases x with
  | ok a => exact later a
  | error failure => exact error (h failure rfl)

theorem faultAt (h : ∀ fault, kind (.placed fault p)) (result : Except Fault α) :
    Fails kind (faultAt p result) := by
  cases result with
  | ok a => exact ok a
  | error fault => exact error (h fault)

/-- A failure at a node, or one that was placed before. -/
theorem located (h : ∀ fault, kind (.placed fault p)) {result : Except Failure α}
    (placed : ∀ fault q, result = .error ⟨fault, some q⟩ → kind ⟨fault, some q⟩) :
    Fails kind (located p result) := by
  cases result with
  | ok a => exact ok a
  | error failure =>
    obtain ⟨fault, position⟩ := failure
    cases position with
    | none => exact error (h fault)
    | some q => exact error (placed fault q rfl)

end Fails

/-- The failures that a tree may have are of a kind: those that arise at its nodes, and those that
have a place already when a function raises them that is called, or when they are what a mentioned
name was looked up as. -/
structure Expr.FailsOnly (kind : Failure → Prop) (env : Environment) (e : Expr) : Prop where
  node : ∀ p ∈ e.positions, ∀ fault, kind (.placed fault p)
  call : ∀ function ∈ e.functionNames, ∀ d, env.registry.find? function = some d →
    ∀ vs fault p, d.apply vs env.context = .error ⟨fault, some p⟩ → kind ⟨fault, some p⟩
  mention : ∀ name ∈ e.mentionNames, ∀ fault p,
    env.mention name = .error ⟨fault, some p⟩ → kind ⟨fault, some p⟩

namespace Expr

variable {kind : Failure → Prop} {env : Environment}

theorem FailsOnly.part {e part : Expr} (h : e.FailsOnly kind env) (mem : part ∈ e.parts) :
    part.FailsOnly kind env where
  node p inPart := h.node p (positions_of_part mem inPart)
  call function inPart := h.call function (functionNames_of_part mem inPart)
  mention name inPart := h.mention name (mentionNames_of_part mem inPart)

theorem evalAll_fails {es : List Expr} (h : ∀ e ∈ es, Fails kind (e.eval env)) :
    Fails kind (evalAll env es) := by
  induction es with
  | nil => exact .ok _
  | cons e rest ih =>
    obtain ⟨first, others⟩ := List.forall_mem_cons.mp h
    exact first.bind fun v => (ih others).bind fun vs => .ok _

/-- No tree fails in any other way. -/
theorem FailsOnly.eval {e : Expr} (h : e.FailsOnly kind env) : Fails kind (e.eval env) := by
  induction e with
  | number | text => exact .ok _
  | field p name => exact .faultAt (h.node p (List.mem_cons_self ..)) _
  | mention p name =>
    exact .located (h.node p (List.mem_cons_self ..)) (h.mention name (List.mem_cons_self ..))
  | member p object property ih =>
    exact (ih (h.part (List.mem_singleton_self _))).bind fun v => .ok _
  | call p function arguments ih =>
    have node := h.node p (List.mem_cons_self ..)
    rw [Expr.eval]
    cases found : env.registry.find? function with
    | none => exact .error (node _)
    | some d =>
      refine (evalAll_fails fun e mem => ih e mem (h.part mem)).bind fun vs => .located node ?_
      exact h.call function (List.mem_cons_self ..) d found vs
  | negate p operand ih =>
    refine (ih (h.part (List.mem_singleton_self _))).bind fun v => ?_
    exact .faultAt (h.node p (List.mem_cons_self ..)) _
  | binary p op left right ihl ihr =>
    refine (ihl (h.part (by simp [parts]))).bind fun v => ?_
    refine (ihr (h.part (by simp [parts]))).bind fun w => ?_
    exact .faultAt (h.node p (List.mem_cons_self ..)) _
  | conditional p c a b ihc iha ihb =>
    refine (ihc (h.part (by simp [parts]))).bind fun v => ?_
    split
    · exact iha (h.part (by simp [parts]))
    · exact ihb (h.part (by simp [parts]))
  | array p items ih =>
    exact (evalAll_fails fun e mem => ih e mem (h.part mem)).bind fun vs => .ok _

/-- Every failure of a tree has a place. -/
theorem eval_placed (env : Environment) (e : Expr) :
    Fails (fun failure => failure.position.isSome) (e.eval env) :=
  FailsOnly.eval ⟨fun _ _ _ => rfl, fun _ _ _ _ _ _ _ _ => rfl, fun _ _ _ _ _ => rfl⟩

end Expr

/-! ## Nothing but failures -/

section

variable {α β : Type} (p : Nat)

theorem upThrough_bind (x : Except Raised α) (f : α → Except Raised β) :
    upThrough p (x >>= f) = (upThrough p x >>= fun a => upThrough p (f a)) := by
  cases x <;> rfl

/-- A fault gets its place from the node in which it is raised. -/
theorem upThrough_raise (result : Except Fault α) :
    upThrough p (raise result) = (faultAt p result).mapError .failure := by
  cases result <;> rfl

/-- What comes from a node below has a place already. -/
theorem upThrough_mapError {result : Except Failure α}
    (placed : Fails (fun failure => failure.position.isSome) result) :
    upThrough p (result.mapError .failure) = result.mapError .failure := by
  cases result with
  | ok a => rfl
  | error failure =>
    obtain ⟨fault, position⟩ := failure
    obtain ⟨q, rfl⟩ := Option.isSome_iff_exists.mp (placed _ rfl)
    rfl

theorem mapError_bind (result : Except Failure α) (f : α → Except Failure β) :
    (result >>= f).mapError Raised.failure =
      (result.mapError Raised.failure >>= fun a => (f a).mapError Raised.failure) := by
  cases result <;> rfl

/-- Handling what was raised where it was raised is the same as making a failure of it, which then
gets the place of the node. -/
theorem upThrough_handled (wrap : Option Text → Fault) (result : Except Raised α) :
    upThrough p (result.mapError (Raised.handled wrap p)) =
      (located p (result.mapError (Raised.toFailure wrap))).mapError .failure := by
  cases result with
  | ok a => rfl
  | error raised => cases raised <;> rfl

end

namespace Evaluator

variable (evaluator : Evaluator) (context : Context) (lookups : Option Lookups)

theorem upThrough_walkMention (p : Nat) (name : Text) :
    upThrough p (evaluator.walkMention context lookups p name) =
      (located p ((evaluator.environment context lookups).mention name)).mapError .failure := by
  have received (outcome : LookupOutcome) : upThrough p (Lookup.receive p name outcome) =
      (located p (Lookup.outcomeValue name outcome)).mapError .failure := by
    cases outcome with
    | ok found => rfl
    | error raised => cases raised <;> rfl
  cases lookups with
  | none => rfl
  | some lookups =>
    simp only [walkMention, environment, Lookups.await]
    cases lookups.lookup name with
    | none => rfl
    | some lookup =>
      cases lookup with
      | answered outcome => exact received outcome
      | late eventually =>
        cases eventually with
        | none => rfl
        | some outcome =>
          simp only [Lookup.awaitRaising, Option.getD_some, Lookup.await]
          split
          · rfl
          · exact received outcome
      | stateless => rfl

theorem upThrough_walkCall (p : Nat) (d : Function.Definition) (arguments : List Value) :
    upThrough p (walkCall context p d arguments) =
      (located p (d.apply arguments context)).mapError .failure := by
  rw [walkCall, Function.Definition.apply]
  split
  · exact upThrough_handled p (.functionFailed d.name) _
  · rfl

variable {evaluator context lookups}

theorem walkAll_eq {es : List Expr} (h : ∀ e ∈ es, evaluator.walk context lookups e =
      (e.eval (evaluator.environment context lookups)).mapError .failure) :
    evaluator.walkAll context lookups es =
      (Expr.evalAll (evaluator.environment context lookups) es).mapError .failure := by
  induction es with
  | nil => rfl
  | cons e rest ih =>
    obtain ⟨first, others⟩ := List.forall_mem_cons.mp h
    simp only [walkAll, Expr.evalAll, first, ih others, mapError_bind]
    rfl

/-- Nothing but failures is raised out of a tree, and they are those that its evaluation ends with:
each was given its place where it arose, and every node above leaves it as it is. -/
theorem walk_eq (e : Expr) : evaluator.walk context lookups e =
    (e.eval (evaluator.environment context lookups)).mapError .failure := by
  have placed := Expr.eval_placed (evaluator.environment context lookups)
  induction e with
  | number | text => rfl
  | field p name => exact upThrough_raise p _
  | mention p name => exact upThrough_walkMention evaluator context lookups p name
  | member p object property ih =>
    simp only [walk, Expr.eval, upThrough_bind, ih, upThrough_mapError p (placed object),
      mapError_bind]
    rfl
  | call p function arguments ih =>
    simp only [walk, Expr.eval]
    have registry : (evaluator.environment context lookups).registry = evaluator.registry := rfl
    rw [registry]
    cases evaluator.registry.find? function with
    | none => rfl
    | some d =>
      simp only [upThrough_bind, walkAll_eq ih, upThrough_walkCall, mapError_bind,
        upThrough_mapError p (Expr.evalAll_fails fun e _ => placed e)]
      rfl
  | negate p operand ih =>
    simp only [walk, Expr.eval, upThrough_bind, ih, upThrough_mapError p (placed operand),
      upThrough_raise, mapError_bind]
  | binary p op left right ihl ihr =>
    simp only [walk, Expr.eval, upThrough_bind, ihl, ihr, upThrough_mapError p (placed left),
      upThrough_mapError p (placed right), upThrough_raise, mapError_bind]
  | conditional p c a b ihc iha ihb =>
    simp only [walk, Expr.eval, upThrough_bind, ihc, upThrough_mapError p (placed c), mapError_bind]
    refine congrArg _ (funext fun v => ?_)
    split
    · rw [iha, upThrough_mapError p (placed a)]
    · rw [ihb, upThrough_mapError p (placed b)]
  | array p items ih =>
    simp only [walk, Expr.eval, upThrough_bind, walkAll_eq ih, mapError_bind,
      upThrough_mapError p (Expr.evalAll_fails fun e _ => placed e)]
    rfl

end Evaluator

end ComputedFields
