import ComputedFields.Proofs.Raising
import ComputedFields.Proofs.Soundness

/-!
# `ComputedFields.Proofs.ReportShape` — what every report has

A report is made of a value or of a failure, and all that is reported follows from which it is. What
does not is the place in the message: that a failure has one depends on every way in which a source,
a tree, a function or a lookup may fail. Of a tree, `Evaluator.Place` says which places there are.

A resolver is run in a state that evaluating goes on from, so that it may answer the same name
differently at another time.

* `Function.Definition.raised_of_apply`, `Lookup.outcome?_of_await` — a failure that is not given
  its place by a node came with it from outside;
* `Evaluator.Place`, `Evaluator.value_fails` — the places of the failures of a tree;
* `evaluate_shape` — the shape of every report.
-/

namespace ComputedFields

/-! ## Failures that were placed elsewhere -/

theorem Function.Definition.raised_of_apply {d : Definition} {arguments : List Value}
    {context : Context} {fault : Fault} {p : Nat}
    (h : d.apply arguments context = .error ⟨fault, some p⟩) :
    d.implementation arguments context = .error (.failure ⟨fault, some p⟩) := by
  rw [apply] at h
  split at h
  · cases raised : d.implementation arguments context with
    | ok v =>
      rw [raised] at h
      cases h
    | error raised' =>
      rw [raised] at h
      cases raised' <;> cases h
      rfl
  · cases h

/-- What a lookup ends with, if it ever does. -/
def Lookup.outcome? : Lookup → Option LookupOutcome
  | .answered outcome => some outcome
  | .late eventually => eventually
  | .stateless => none

theorem Lookup.outcome?_of_await {deadline : Bool} {name : Text} {lookup : Lookup} {fault : Fault}
    {p : Nat} (h : lookup.await deadline name = .error ⟨fault, some p⟩) :
    lookup.outcome? = some (.error (.failure ⟨fault, some p⟩)) := by
  have received {outcome : LookupOutcome}
      (h : outcomeValue name outcome = .error ⟨fault, some p⟩) :
      outcome = .error (.failure ⟨fault, some p⟩) := by
    cases outcome with
    | ok found => cases h
    | error raised => cases raised <;> cases h; rfl
  cases lookup with
  | answered outcome => exact congrArg some (received h)
  | late eventually =>
    cases eventually with
    | none => cases h
    | some outcome =>
      rw [await] at h
      split at h
      · cases h
      · exact congrArg some (received h)
  | stateless => cases h

variable {σ : Type}

/-- The lookup of a name is what asking for the name led to, in some state of the resolver. -/
theorem Lookups.exists_of_ask {resolver : Resolver (StateM σ)} {names : List Text} {s : σ}
    {name : Text} {lookup : Lookup} (h : ((ask resolver names).run s).1.lookup name = some lookup) :
    ∃ s, ofAsking ((resolver name).run s).1 = lookup := by
  induction names generalizing s with
  | nil => cases h
  | cons first rest ih =>
    have run : ((ask resolver (first :: rest)).run s).1 =
        (first, ofAsking ((resolver first).run s).1) ::
          ((ask resolver rest).run ((resolver first).run s).2).1 := by
      simp only [ask, List.mapM_cons]
      rfl
    rw [run, List.lookup_cons] at h
    split at h
    · next same =>
      obtain rfl := eq_of_beq same
      exact ⟨s, Option.some.inj h⟩
    · exact ih h

/-! ## Places -/

/-- Where a tree may fail: at one of its nodes, or at a place that came with a failure, which was
raised by a function that the tree calls, or by a resolver for a name that the tree mentions, at
once or when the lookup ended. -/
inductive Evaluator.Place (evaluator : Evaluator) (resolver : Option (Resolver (StateM σ)))
    (context : Context) (e : Expr) : Nat → Prop
  | node {p : Nat} (mem : p ∈ e.positions) : Place evaluator resolver context e p
  | function {name : Text} {d : Function.Definition} {arguments : List Value} {fault : Fault}
    {p : Nat} (called : name ∈ e.functionNames) (found : evaluator.registry.find? name = some d)
    (raised : d.implementation arguments context = .error (.failure ⟨fault, some p⟩)) :
    Place evaluator resolver context e p
  | lookup {r : Resolver (StateM σ)} {name : Text} {s : σ} {fault : Fault} {p : Nat}
    (asked : resolver = some r) (mentioned : name ∈ e.mentions)
    (raised : (Lookups.ofAsking ((r name).run s).1).outcome? =
      some (.error (.failure ⟨fault, some p⟩))) :
    Place evaluator resolver context e p

theorem Evaluator.value_fails (evaluator : Evaluator) (resolver : Option (Resolver (StateM σ)))
    (context : Context) (e : Expr) (s : σ) :
    Fails (fun failure => ∃ p, failure.position = some p ∧ evaluator.Place resolver context e p)
      ((evaluator.value resolver e context).run s).1 := by
  have run : ∃ lookups, ((evaluator.value resolver e context).run s).1 =
      e.eval (evaluator.environment context lookups) ∧
      ∀ looked, lookups = some looked → ∃ r, resolver = some r ∧
        looked = ((Lookups.start r e).run s).1 := by
    cases resolver with
    | none => exact ⟨none, rfl, nofun⟩
    | some r => exact ⟨some _, rfl, fun looked same => ⟨r, rfl, (Option.some.inj same).symm⟩⟩
  obtain ⟨lookups, run, started⟩ := run
  rw [run]
  refine Expr.FailsOnly.eval ⟨fun p mem fault => ⟨p, rfl, .node mem⟩, ?_, ?_⟩
  · intro function called d found vs fault p raised
    exact ⟨p, rfl, .function called found (Function.Definition.raised_of_apply raised)⟩
  · intro name mem fault p failed
    cases lookups with
    | none => cases failed
    | some looked =>
      obtain ⟨r, asked, rfl⟩ := started looked rfl
      cases found : ((Lookups.start r e).run s).1.lookup name with
      | none =>
        simp only [environment, Lookups.await, found] at failed
        cases failed
      | some lookup =>
        simp only [environment, Lookups.await, found] at failed
        obtain ⟨s', rfl⟩ := Lookups.exists_of_ask found
        exact ⟨p, rfl, .lookup asked (List.mem_eraseDups.mpr mem) (Lookup.outcome?_of_await failed)⟩

/-! ## Reports -/

/-- A report whose failures have places of a kind. -/
theorem Report.shape (r : Report) {place : Nat → Prop}
    (h : Fails (fun failure => ∃ p, failure.position = some p ∧ place p) r.result) :
    (r.success = true ↔ r.error? = none) ∧
    (r.success = true → r.kind = r.value.kind ∧ r.display = r.value.display) ∧
    (r.success = false → r.value = .null ∧ r.kind = .null ∧ r.display = r.errorDisplay ∧
      (∃ code, r.code? = some code) ∧
      ∃ message p,
        r.error? = some (message ++ utf8 " (at position " ++ Text.decimal p ++ utf8 ")") ∧
        place p) := by
  obtain ⟨result, errorDisplay, dependencies⟩ := r
  cases result with
  | ok v => exact ⟨⟨fun _ => rfl, fun _ => rfl⟩, fun _ => ⟨rfl, rfl⟩, nofun⟩
  | error failure =>
    obtain ⟨p, placed, located⟩ := h failure rfl
    have message : failure.message = failure.fault.message ++ utf8 " (at position " ++
        Text.decimal p ++ utf8 ")" := by
      rw [Failure.message, placed]
    refine ⟨⟨nofun, nofun⟩, nofun, fun _ => ⟨rfl, rfl, rfl, ⟨_, rfl⟩, failure.fault.message, p, ?_⟩⟩
    exact ⟨congrArg some message, located⟩

/-- Every evaluation ends with a report of one shape, whatever functions and resolvers raise. It has
a value, with its kind and its display, or else the message of a failure, which has a class and
names a place: in a source that is no formula that of a token or of the end, and otherwise that of a
node or one that came with a failure from outside. What the formula reads is reported in both cases.
That every failure has a class is no accident of how failures are made: whatever may be raised while
a tree is evaluated, nothing else arrives at its root. -/
theorem evaluate_shape (evaluator : Evaluator) (resolver : Option (Resolver (StateM σ)))
    (source : Text) (context : Context) (s : σ) :
    let r := ((evaluator.evaluate resolver source context).run s).1
    (r.success = true ↔ r.error? = none) ∧
    (r.success = true → r.kind = r.value.kind ∧ r.display = r.value.display) ∧
    (r.success = false → r.value = .null ∧ r.kind = .null ∧
      r.display = evaluator.options.errorDisplay ∧ (∃ code, r.code? = some code) ∧
      ∃ message p,
        r.error? = some (message ++ utf8 " (at position " ++ Text.decimal p ++ utf8 ")") ∧
        match parse source with
        | .error _ => ∃ token ∈ tokenize source, token.position = p
        | .ok e => evaluator.Place resolver context e p) ∧
    (r.dependencies = match parse source with
      | .error _ => []
      | .ok e => e.fields ++ e.mentions.map (utf8 "@" ++ ·)) ∧
    ∀ e, parse source = .ok e → ∀ lookups, evaluator.walk context lookups e =
      (e.eval (evaluator.environment context lookups)).mapError .failure := by
  intro r
  cases parsed : parse source with
  | error error =>
    have report : r = ⟨.error (.ofParse error), evaluator.options.errorDisplay, []⟩ := by
      simp only [r, Evaluator.evaluate, parsed]
      rfl
    have fails : Fails (fun failure => ∃ p, failure.position = some p ∧
        ∃ token ∈ tokenize source, token.position = p) r.result := by
      rw [report]
      exact .error ⟨error.position, rfl, List.mem_map.mp (position_mem_of_parse parsed)⟩
    obtain ⟨present, succeeded, failed⟩ := r.shape fails
    rw [report] at present succeeded failed ⊢
    exact ⟨present, succeeded, failed, rfl, nofun⟩
  | ok e =>
    have report : r = ⟨((evaluator.value resolver e context).run s).1,
        evaluator.options.errorDisplay, e.dependencies⟩ := by
      simp only [r, Evaluator.evaluate, parsed]
      rfl
    have fails : Fails (fun failure => ∃ p, failure.position = some p ∧
        evaluator.Place resolver context e p) r.result := by
      rw [report]
      exact evaluator.value_fails resolver context e s
    obtain ⟨present, succeeded, failed⟩ := r.shape fails
    rw [report] at present succeeded failed ⊢
    refine ⟨present, succeeded, failed, rfl, ?_⟩
    rintro _ ⟨⟩ lookups
    exact Evaluator.walk_eq e

/-- A resolver raises a failure that has a place already. The mention that asked for it stands
elsewhere, and so does every other node. -/
theorem evaluate_shape_of_carried :
    let resolver : Resolver (StateM Nat) := fun _ => do
      modify (· + 1)
      return .error (.failure (.placed .divisionByZero 99))
    let source := utf8 "1 + @m"
    let r := ((Evaluator.evaluate {} (some resolver) source {}).run 0).1
    r.success = false ∧ r.code? = some .divisionByZero ∧
      r.value = .null ∧ r.kind = .null ∧ r.display = utf8 "Error" ∧ (∃ code, r.code? = some code) ∧
      ∃ message p,
        r.error? = some (message ++ utf8 " (at position " ++ Text.decimal p ++ utf8 ")") ∧
        match parse source with
        | .error _ => ∃ token ∈ tokenize source, token.position = p
        | .ok e => Evaluator.Place {} (some resolver) {} e p := by
  intro resolver source r
  have failed : r.success = false := by rfl
  have code : r.code? = some .divisionByZero := by rfl
  exact ⟨failed, code, (evaluate_shape {} (some resolver) source {} 0).2.2.1 failed⟩

end ComputedFields
