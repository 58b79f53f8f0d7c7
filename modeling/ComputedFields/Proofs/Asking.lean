import ComputedFields.Proofs.Dependencies
import ComputedFields.Proofs.ReportShape
import ComputedFields.Proofs.Visits

/-!
# `ComputedFields.Proofs.Asking` — what a resolver is asked

Before a formula is evaluated the resolver is asked for the mentions that it depends on. These are
written with their `@`, in the order of the source and each of them once; the loop that goes through
them puts what it gets into a table of lookups, under the name without the `@`. What the resolver
raises is put there as well, so the loop always comes to its end, and the evaluation after it asks
for nothing. As the dependencies are taken from the whole tree, every mention in it has a lookup. A
mention that fails for want of one has got a lookup without a state.

* `Lookups.prefetch` — the loop, and `Lookups.prefetch_eq_start`, what it makes of a formula;
* `Lookups.lookup_ask` — which of several questions the lookup of a name comes from;
* `Resolver.recorded` — a resolver that writes down what it is asked;
* `Evaluator.wants_of_noLookup` — why a formula fails for want of a lookup;
* `Evaluator.evaluate_asks` — what an evaluation asks for.
-/

namespace ComputedFields

/-! ## Names without repetition -/

theorem nodup_eraseDups : ∀ names : List Text, names.eraseDups.Nodup
  | [] => List.nodup_nil
  | name :: rest => by
    rw [List.eraseDups_cons, List.nodup_cons]
    refine ⟨fun again => ?_, nodup_eraseDups _⟩
    have kept := (List.mem_filter.mp (List.mem_eraseDups.mp again)).2
    simp at kept
termination_by names => names.length
decreasing_by exact Nat.lt_succ_of_le (List.length_filter_le ..)

namespace Lookups

section

variable {m : Type → Type} [Monad m]

/-! ## The loop that starts lookups -/

/-- A lookup put under a name, unless there is one under it. -/
def emplace (pending : Lookups) (name : Text) (lookup : Lookup) : Lookups :=
  match pending.lookup name with
  | some _ => pending
  | none => pending ++ [(name, lookup)]

/-- Starts the lookups of mentions that are written with their `@`, one after another, and puts each
under its name. What asking raises is put there too, and does not keep the others from being
started. -/
def prefetch (resolver : Resolver m) (pending : Lookups) : List Text → m Lookups
  | [] => pure pending
  | mention :: rest => do
    let name := mention.tail
    let answer ← resolver name
    prefetch resolver (pending.emplace name (ofAsking answer)) rest

theorem lookup_eq_none_of_notMem {pending : Lookups} {name : Text}
    (h : name ∉ pending.map (·.1)) : pending.lookup name = none := by
  refine List.lookup_eq_none_iff.mpr fun entry mem => ?_
  have other : name ≠ entry.1 := fun same => h (List.mem_map.mpr ⟨entry, mem, same.symm⟩)
  simpa using other

variable [LawfulMonad m]

theorem ask_cons (resolver : Resolver m) (name : Text) (rest : List Text) :
    ask resolver (name :: rest) = do
      let answer ← resolver name
      let others ← ask resolver rest
      return (name, ofAsking answer) :: others := by
  simp [ask, List.mapM_cons]

/-- Of distinct names none is there already when its turn comes. -/
theorem prefetch_eq_ask (resolver : Resolver m) {names : List Text} {pending : Lookups}
    (distinct : names.Nodup) (fresh : ∀ name ∈ names, name ∉ pending.map (·.1)) :
    prefetch resolver pending (names.map ('@'.toUInt8 :: ·)) =
      (pending ++ ·) <$> ask resolver names := by
  induction names generalizing pending with
  | nil => simp [prefetch, ask]
  | cons name rest ih =>
    obtain ⟨notInRest, distinct⟩ := List.nodup_cons.mp distinct
    obtain ⟨notPending, others⟩ := List.forall_mem_cons.mp fresh
    have emplaced (lookup : Lookup) :
        pending.emplace name lookup = pending ++ [(name, lookup)] := by
      rw [emplace, lookup_eq_none_of_notMem notPending]
    have later (lookup : Lookup) : ∀ other ∈ rest,
        other ∉ (pending ++ [(name, lookup)]).map (·.1) := by
      intro other mem
      rw [List.map_append, List.mem_append, not_or]
      refine ⟨others other mem, fun same => ?_⟩
      obtain rfl : other = name := List.mem_singleton.mp same
      exact notInRest mem
    rw [List.map_cons, prefetch, ask_cons, map_bind]
    refine bind_congr fun answer => ?_
    rw [List.tail_cons, emplaced, ih distinct (later _), map_bind]
    simp

/-- The lookups of a formula are those that the loop starts for the mentions that it depends on. -/
theorem prefetch_eq_start (resolver : Resolver m) (e : Expr) :
    prefetch resolver [] e.mentionDependencies = start resolver e := by
  have started : prefetch resolver [] (e.mentions.map ('@'.toUInt8 :: ·)) =
      ([] ++ ·) <$> ask resolver e.mentions :=
    prefetch_eq_ask resolver (nodup_eraseDups _) fun _ _ => List.not_mem_nil
  rw [Expr.mentionDependencies, started]
  simp [start]

end

variable {σ : Type} (resolver : Resolver (StateM σ))

theorem run_ask_cons (name : Text) (rest : List Text) (s : σ) :
    (ask resolver (name :: rest)).run s =
      ((name, ofAsking ((resolver name).run s).1) ::
          ((ask resolver rest).run ((resolver name).run s).2).1,
        ((ask resolver rest).run ((resolver name).run s).2).2) := by
  rw [ask_cons]
  rfl

/-- The lookup of a name is what asking for it led to, after the names before it were asked for. -/
theorem lookup_ask {before after : List Text} {name : Text} (first : name ∉ before) (s : σ) :
    ((ask resolver (before ++ name :: after)).run s).1.lookup name =
      some (ofAsking ((resolver name).run ((ask resolver before).run s).2).1) := by
  induction before generalizing s with
  | nil =>
    rw [List.nil_append, run_ask_cons, List.lookup_cons_self]
    rfl
  | cons other before ih =>
    obtain ⟨different, first⟩ := not_or.mp (List.mem_cons.not.mp first)
    rw [List.cons_append, run_ask_cons, run_ask_cons, List.lookup_cons, beq_false_of_ne different]
    exact ih first _

end Lookups

/-! ## Recording what is asked -/

/-- The resolver that also writes down the names that it is asked for. -/
def Resolver.recorded {σ : Type} (resolver : Resolver (StateM σ)) :
    Resolver (StateM (σ × List Text)) := fun name (s, asked) =>
  let (answer, s) := (resolver name).run s
  (answer, (s, asked ++ [name]))

theorem Lookups.run_ask_recorded {σ : Type} (resolver : Resolver (StateM σ)) (names : List Text)
    (s : σ) (asked : List Text) :
    (ask resolver.recorded names).run (s, asked) =
      (((ask resolver names).run s).1, ((ask resolver names).run s).2, asked ++ names) := by
  induction names generalizing s asked with
  | nil =>
    rw [List.append_nil]
    rfl
  | cons name rest ih =>
    have recorded : (resolver.recorded name).run (s, asked) =
        (((resolver name).run s).1, ((resolver name).run s).2, asked ++ [name]) := rfl
    rw [run_ask_cons, run_ask_cons, recorded, ih, List.append_assoc]
    rfl

/-! ## Formulas without a lookup -/

theorem Raised.toFailure_cases (wrap : Option Text → Fault) (raised : Raised) :
    raised = .failure (raised.toFailure wrap) ∨
      ∃ reason, raised.toFailure wrap = ⟨wrap reason, none⟩ := by
  cases raised with
  | failure f => exact .inl rfl
  | described reason => exact .inr ⟨some reason.untilNul, rfl⟩
  | undescribed => exact .inr ⟨none, rfl⟩

/-- A call fails with what the function raised, or with the number of its arguments. -/
theorem Function.Definition.apply_error_cases {d : Definition} {arguments : List Value}
    {context : Context} {failure : Failure} (h : d.apply arguments context = .error failure) :
    d.implementation arguments context = .error (.failure failure) ∨
    (∃ reason, failure = ⟨.functionFailed d.name reason, none⟩) ∨
    failure = ⟨.argumentCount d.name d.least d.most arguments.length, none⟩ := by
  rw [apply] at h
  split at h
  · cases raised : d.implementation arguments context with
    | ok v =>
      rw [raised] at h
      cases h
    | error raised' =>
      rw [raised] at h
      cases h
      rcases raised'.toFailure_cases (.functionFailed d.name) with same | ⟨reason, same⟩
      · exact .inl (congrArg Except.error same)
      · exact .inr (.inl ⟨reason, same⟩)
  · cases h
    exact .inr (.inr rfl)

/-- A mention fails with what its lookup ended with, with the time that it takes, or for want of a
lookup. -/
theorem Lookup.await_error_cases {deadline : Bool} {name : Text} {lookup : Lookup}
    {failure : Failure} (h : lookup.await deadline name = .error failure) :
    lookup.outcome? = some (.error (.failure failure)) ∨
    (∃ reason, failure = ⟨.lookupFailed name reason, none⟩) ∨
    failure = ⟨.lookupTimedOut name, none⟩ ∨
    (lookup = .stateless ∧ failure = ⟨.noLookup name, none⟩) := by
  have received {outcome : LookupOutcome} (h : outcomeValue name outcome = .error failure) :
      outcome = .error (.failure failure) ∨
        ∃ reason, failure = ⟨.lookupFailed name reason, none⟩ := by
    cases outcome with
    | ok found => cases h
    | error raised =>
      cases h
      rcases raised.toFailure_cases (.lookupFailed name) with same | ⟨reason, same⟩
      · exact .inl (congrArg Except.error same)
      · exact .inr ⟨reason, same⟩
  cases lookup with
  | answered outcome => exact (received h).imp (congrArg some) .inl
  | late eventually =>
    cases eventually with
    | none =>
      cases h
      exact .inr (.inr (.inl rfl))
    | some outcome =>
      rw [await] at h
      split at h
      · cases h
        exact .inr (.inr (.inl rfl))
      · exact (received h).imp (congrArg some) .inl
  | stateless =>
    cases h
    exact .inr (.inr (.inr ⟨rfl, rfl⟩))

/-- Why a formula may fail for want of a lookup for a name: the evaluation came to a mention of the
name whose lookup has no state, or else the failure was made outside of the engine and was what a
lookup ended with or what a function raised. -/
inductive Evaluator.Wants (evaluator : Evaluator) (context : Context) (lookups : Lookups) (e : Expr)
    (name : Text) : Prop
  | stateless {p : Nat} (visited :
      .mention p name ∈ e.visited (evaluator.environment context (some lookups)))
    (found : lookups.lookup name = some .stateless) : Wants evaluator context lookups e name
  | lookup {other : Text} {lookup : Lookup} {position : Option Nat} (mentioned : other ∈ e.mentions)
    (found : lookups.lookup other = some lookup)
    (ended : lookup.outcome? = some (.error (.failure ⟨.noLookup name, position⟩))) :
    Wants evaluator context lookups e name
  | function {function : Text} {d : Function.Definition} {arguments : List Value}
    {position : Option Nat} (called : function ∈ e.functionNames)
    (found : evaluator.registry.find? function = some d)
    (raised : d.implementation arguments context =
      .error (.failure ⟨.noLookup name, position⟩)) : Wants evaluator context lookups e name

/-- When every mention has a lookup, none fails for want of one but those whose lookup has no
state. -/
theorem Evaluator.wants_of_noLookup {evaluator : Evaluator} {context : Context} {lookups : Lookups}
    {e : Expr} (complete : ∀ name ∈ e.mentionNames, ∃ lookup, lookups.lookup name = some lookup)
    {failure : Failure}
    (h : e.eval (evaluator.environment context (some lookups)) = .error failure) {name : Text}
    (wants : failure.fault = .noLookup name) : evaluator.Wants context lookups e name := by
  obtain ⟨node, visited, breaks⟩ := Expr.eval_eq_error_iff.mp h
  cases breaks with
  | @field p other fault failed =>
    obtain rfl : fault = .noLookup name := wants
    exact absurd failed ((Environment.field_faultsIn _ other).ne_error (by simp [Fault.code]))
  | @mention p other inner failed =>
    have mentioned := Expr.reached_subset _ e (Expr.mem_reached.mpr ⟨p, visited⟩)
    obtain ⟨lookup, found⟩ := complete other mentioned
    have awaited : lookup.await evaluator.options.timeout.isSome other = .error inner := by
      simpa only [environment, Lookups.await, found, Option.getD_some] using failed
    have fault : inner.fault = .noLookup name := wants
    rcases Lookup.await_error_cases awaited with ended | ⟨reason, rfl⟩ | rfl | ⟨rfl, rfl⟩
    · obtain ⟨_, position⟩ := inner
      cases fault
      exact .lookup (List.mem_eraseDups.mpr mentioned) found ended
    · cases fault
    · cases fault
    · cases fault
      exact .stateless visited found
  | unknownFunction => cases wants
  | @call p function arguments d vs inner found values failed =>
    have fault : inner.fault = .noLookup name := wants
    rcases Function.Definition.apply_error_cases failed with raised | ⟨reason, rfl⟩ | rfl
    · obtain ⟨_, position⟩ := inner
      cases fault
      have called : function ∈ e.functionNames :=
        Expr.subset_of_mem_visited Expr.functionNames_of_part visited (List.mem_cons_self ..)
      exact .function called found raised
    · cases fault
    · cases fault
  | @negate p operand v fault value failed =>
    obtain rfl : fault = .noLookup name := wants
    exact absurd failed (v.negate_faultsIn.ne_error (by simp [Fault.code]))
  | @binary p op left right v w fault leftValue rightValue failed =>
    obtain rfl : fault = .noLookup name := wants
    exact absurd failed ((op.apply_faultsIn v w).ne_error (by simp [Fault.code]))

/-! ## Evaluations -/

theorem Evaluator.run_evaluateTree {σ : Type} (evaluator : Evaluator)
    (resolver : Resolver (StateM σ)) (e : Expr) (context : Context) (s : σ) :
    (evaluator.evaluateTree (some resolver) e context).run s =
      (⟨e.eval (evaluator.environment context (some ((Lookups.start resolver e).run s).1)),
        evaluator.options.errorDisplay, e.dependencies⟩, ((Lookups.start resolver e).run s).2) :=
  rfl

/-- An evaluation asks for each name that the source mentions once, in the order in which the names
occur first, whatever is raised and wherever it ends. The lookup of a mention is what asking for its
name led to: every mention of the tree has one, whether or not the evaluation comes to it. So if a
formula fails for want of a lookup, that is because a lookup has no state, unless the failure came
from outside. -/
theorem Evaluator.evaluate_asks {σ : Type} (evaluator : Evaluator) (resolver : Resolver (StateM σ))
    {source : Text} {e : Expr} (parsed : parse source = .ok e) (context : Context) (s : σ) :
    let names := (Token.mentionNames (tokenize source)).eraseDups
    let run := (evaluator.evaluate (some resolver.recorded) source context).run (s, [])
    let lookups := ((Lookups.prefetch resolver [] e.mentionDependencies).run s).1
    (names.Nodup ∧ ∀ name, name ∈ names ↔ ∃ token ∈ tokenize source, token.lexeme = .mention name) ∧
    run.2.2 = names ∧
    (evaluator.evaluate (some resolver) source context).run s = (run.1, run.2.1) ∧
    run.1.result = e.eval (evaluator.environment context (some lookups)) ∧
    (∀ name ∈ e.mentionNames, ∃ before after, names = before ++ name :: after ∧
      lookups.lookup name = some
        (Lookups.ofAsking ((resolver name).run ((Lookups.ask resolver before).run s).2).1)) ∧
    ∀ name position, run.1.result = .error ⟨.noLookup name, position⟩ →
      evaluator.Wants context lookups e name := by
  intro names run lookups
  have mentions : e.mentions = names := by
    simp only [names, mentionNames_of_parse parsed]
    rfl
  have table : lookups = ((Lookups.ask resolver names).run s).1 := by
    simp only [lookups, Lookups.prefetch_eq_start, Lookups.start, mentions]
  have evaluated : (evaluator.evaluate (some resolver) source context).run s =
      (⟨e.eval (evaluator.environment context (some lookups)), evaluator.options.errorDisplay,
        e.dependencies⟩, ((Lookups.ask resolver names).run s).2) := by
    simp only [evaluate, parsed, run_evaluateTree, Lookups.start, mentions, table]
  have recorded : run = (⟨e.eval (evaluator.environment context (some lookups)),
      evaluator.options.errorDisplay, e.dependencies⟩,
        ((Lookups.ask resolver names).run s).2, names) := by
    simp only [run, evaluate, parsed, run_evaluateTree, Lookups.start, mentions,
      Lookups.run_ask_recorded, List.nil_append, table]
  have entry : ∀ name ∈ e.mentionNames, ∃ before after, names = before ++ name :: after ∧
      lookups.lookup name = some
        (Lookups.ofAsking ((resolver name).run ((Lookups.ask resolver before).run s).2).1) := by
    intro name mem
    rw [← List.mem_eraseDups] at mem
    obtain ⟨before, after, split, first⟩ := List.eq_append_cons_of_mem mem
    rw [show e.mentionNames.eraseDups = names from mentions] at split
    refine ⟨before, after, split, ?_⟩
    rw [table, split]
    exact Lookups.lookup_ask resolver first s
  refine ⟨⟨nodup_eraseDups _, fun name => List.mem_eraseDups.trans Token.mem_mentionNames⟩,
    ?_, ?_, ?_, entry, ?_⟩
  · rw [recorded]
  · rw [recorded, evaluated]
  · rw [recorded]
  · intro name position failed
    rw [recorded] at failed
    refine wants_of_noLookup (fun name mem => ?_) failed rfl
    obtain ⟨_, _, _, found⟩ := entry name mem
    exact ⟨_, found⟩

/-- Of three names that are asked for, one gets a lookup without a state, one raises something and
one is not found. The evaluation ends with the first of them. -/
theorem Evaluator.evaluate_asks_of_raising :
    let resolver : Resolver (StateM Nat) := fun name asked =>
      (if name = utf8 "a" then .ok .stateless
        else if name = utf8 "b" then .error (.described (utf8 "down"))
        else .ok (.answered (.ok none)), asked + 1)
    let source := utf8 "x ? [@a, @b, @a] : @c.id + @b"
    let run := (Evaluator.evaluate {} (some resolver.recorded) source {}).run (0, [])
    ∃ e, parse source = .ok e ∧ run.2 = (3, [utf8 "a", utf8 "b", utf8 "c"]) ∧
      run.1.result = .error (.placed (.noLookup (utf8 "a")) 5) ∧
      Evaluator.Wants {} {} ((Lookups.prefetch resolver [] e.mentionDependencies).run 0).1 e
        (utf8 "a") := by
  intro resolver source run
  obtain ⟨e, parsed⟩ : ∃ e, parse source = .ok e := ⟨_, rfl⟩
  obtain ⟨-, asked, -, -, -, wants⟩ := evaluate_asks {} resolver parsed {} 0
  have count : run.2.1 = 3 := by rfl
  have names : (Token.mentionNames (tokenize source)).eraseDups =
      [utf8 "a", utf8 "b", utf8 "c"] := by
    decide +kernel
  have failed : run.1.result = .error (.placed (.noLookup (utf8 "a")) 5) := by rfl
  exact ⟨e, parsed, Prod.ext count (asked.trans names), failed, wants _ _ failed⟩

end ComputedFields
