import ComputedFields.Proofs.Visits

/-!
# `ComputedFields.Proofs.Strictness` — names that are no fields, in strict mode and otherwise

A name that is no field of the context is a failure in strict mode, and stands for itself otherwise.
Nothing else depends on the mode. So a strict evaluation and a lenient one of the same formula go
side by side: they come to the same nodes and find the same values, up to the first unknown name.
There the strict one ends. The lenient one goes on with the name as a text, which may lead it to
branches, collections and failures that the strict one never comes to.

* `Environment.withStrict`, `Evaluator.withStrict` — either mode;
* `Expr.Unknown` — a node that names no field of the context;
* `Expr.Abreast`, `Expr.eval_abreast` — the two evaluations of a tree;
* `Evaluator.evaluateTree_strict` — the two reports on a formula.
-/

namespace ComputedFields

/-- The evaluator with strict mode on or off. -/
def Evaluator.withStrict (evaluator : Evaluator) (strict : Bool) : Evaluator :=
  { evaluator with options := { evaluator.options with strict } }

/-- The environment with strict mode on or off. -/
def Environment.withStrict (env : Environment) (strict : Bool) : Environment := { env with strict }

namespace Expr

/-- The node names something that is no field of the context. -/
def Unknown (context : Context) : Expr → Prop
  | .field _ name => Table.find? name context.fields = none
  | _ => False

/-- A strict and a lenient evaluation side by side: the nodes that either comes to, and what either
ends with. If all of these nodes are known, the two are the same. Otherwise the strict one ends at
the first unknown node, which the lenient one comes to as well. -/
inductive Abreast {α : Type} (context : Context) :
    List Expr → List Expr → Except Failure α → Except Failure α → Prop
  | same {nodes : List Expr} {result : Except Failure α}
    (known : ∀ node ∈ nodes, ¬ node.Unknown context) : Abreast context nodes nodes result result
  | apart {nodes after : List Expr} {p : Nat} {name : Text} {result : Except Failure α}
    (known : ∀ node ∈ nodes, ¬ node.Unknown context)
    (unknown : Table.find? name context.fields = none) :
    Abreast context (nodes ++ [.field p name]) (nodes ++ .field p name :: after)
      (.error (.placed (.unknownReference name) p)) result

namespace Abreast

variable {α β : Type} {context : Context} {nodes nodes' : List Expr}

/-- Nodes that both come to first, and that end neither. -/
theorem append {x x' : Except Failure α} (h : Abreast context nodes nodes' x x') {first : List Expr}
    (inFirst : ∀ node ∈ first, ¬ node.Unknown context) :
    Abreast context (first ++ nodes) (first ++ nodes') x x' := by
  cases h with
  | same known => exact .same (List.forall_mem_append.mpr ⟨inFirst, known⟩)
  | apart known unknown =>
    simp only [← List.append_assoc]
    exact .apart (List.forall_mem_append.mpr ⟨inFirst, known⟩) unknown

/-- Of two steps the second is taken only after the first, and by the lenient evaluation alone when
the strict one has ended. -/
theorem bind {x x' : Except Failure α} {f f' : α → Except Failure β} {rest rest' : α → List Expr}
    (h : Abreast context nodes nodes' x x')
    (later : ∀ a, Abreast context (rest a) (rest' a) (f a) (f' a)) :
    Abreast context (nodes ++ andThen x rest) (nodes' ++ andThen x' rest') (x >>= f)
      (x' >>= f') := by
  cases h with
  | same known =>
    cases x with
    | ok a => exact (later a).append known
    | error failure => exact .same (by simpa only [andThen, List.append_nil] using known)
  | apart known unknown =>
    simp only [andThen, List.append_nil, List.append_assoc, List.cons_append]
    exact .apart known unknown

/-- What is made of a value does not fail. -/
theorem map {x x' : Except Failure α} (h : Abreast context nodes nodes' x x') (f : α → β) :
    Abreast context nodes nodes' (x >>= fun a => pure (f a)) (x' >>= fun a => pure (f a)) := by
  cases h with
  | same known => exact .same known
  | apart known unknown => exact .apart known unknown

/-- A node after its operands. -/
theorem node (node : Expr) {result : Except Failure α} (known : ¬ node.Unknown context) :
    Abreast context [node] [node] result result :=
  .same (List.forall_mem_singleton.mpr known)

end Abreast

variable (env : Environment)

theorem evalAll_abreast {es : List Expr}
    (each : ∀ e ∈ es, Abreast env.context (e.visited (env.withStrict true))
      (e.visited (env.withStrict false)) (e.eval (env.withStrict true))
      (e.eval (env.withStrict false))) :
    Abreast env.context (visitedOfAll (env.withStrict true) es)
      (visitedOfAll (env.withStrict false) es) (evalAll (env.withStrict true) es)
      (evalAll (env.withStrict false) es) := by
  induction es with
  | nil => exact .same (List.forall_mem_nil _)
  | cons e rest ih =>
    obtain ⟨first, others⟩ := List.forall_mem_cons.mp each
    exact first.bind fun v => (ih others).map (v :: ·)

/-- A strict evaluation and a lenient one go side by side. -/
theorem eval_abreast (e : Expr) :
    Abreast env.context (e.visited (env.withStrict true)) (e.visited (env.withStrict false))
      (e.eval (env.withStrict true)) (e.eval (env.withStrict false)) := by
  induction e with
  | number | text | mention => exact .node _ id
  | field p name =>
    simp only [eval, Environment.field, Environment.withStrict]
    cases found : Table.find? name env.context.fields with
    | some v => exact .node _ (by simp [Unknown, found])
    | none =>
      have first : ∀ node : Expr, node ∈ [] → ¬ node.Unknown env.context := List.forall_mem_nil _
      exact .apart first found
  | member p object property ih => exact ih.bind fun v => .node _ id
  | negate p operand ih => exact ih.bind fun v => .node _ id
  | binary p op left right ihl ihr => exact ihl.bind fun v => ihr.bind fun w => .node _ id
  | conditional p c a b ihc iha ihb =>
    refine ihc.bind fun v => ?_
    cases v.truthy with
    | true => exact iha.append (List.forall_mem_singleton.mpr id)
    | false => exact ihb.append (List.forall_mem_singleton.mpr id)
  | call p function arguments ih =>
    have registry (strict : Bool) : (env.withStrict strict).registry = env.registry := rfl
    simp only [eval, visited, registry]
    cases env.registry.find? function with
    | none => exact .node _ id
    | some d =>
      exact (evalAll_abreast env ih).bind fun vs => .node (.call p function arguments) id
  | array p items ih =>
    exact (evalAll_abreast env ih).bind fun vs => .node (.array p items) id

end Expr

namespace Evaluator

variable {σ : Type}

/-- Strict mode only rejects. A strict evaluation ends with the report of the lenient one, after the
same nodes, unless it fails at a field that the context does not have: at the first one that both
come to, with the fault that names it. When a strict evaluation succeeds, all fields that it came to
are in the context. -/
theorem evaluateTree_strict (evaluator : Evaluator) (resolver : Option (Resolver (StateM σ)))
    (e : Expr) (context : Context) (s : σ) :
    let strict := evaluator.withStrict true
    let lenient := evaluator.withStrict false
    let run := (strict.evaluateTree resolver e context).run s
    let run' := (lenient.evaluateTree resolver e context).run s
    (run = run' ∧ strict.visited resolver e context s = lenient.visited resolver e context s ∨
      ∃ p name, run.1.result = .error (.placed (.unknownReference name) p) ∧
        Table.find? name context.fields = none ∧
        ∃ before after,
          strict.visited resolver e context s = before ++ [.field p name] ∧
          lenient.visited resolver e context s = before ++ .field p name :: after ∧
          ∀ node ∈ before, ¬ node.Unknown context) ∧
    (run.1.success = true → ∀ p name, .field p name ∈ strict.visited resolver e context s →
      ∃ v, Table.find? name context.fields = some v) := by
  intro strict lenient run run'
  have abreast : Expr.Abreast context (strict.visited resolver e context s)
      (lenient.visited resolver e context s) run.1.result run'.1.result := by
    simp only [run, run', evaluateTree_run]
    exact Expr.eval_abreast (evaluator.environmentFrom resolver e context s) e
  have same (results : run.1.result = run'.1.result) : run = run' := by
    simp only [run, run', evaluateTree_run] at results ⊢
    rw [results]
    rfl
  have succeeded : run.1.success = run.1.result.isOk := rfl
  generalize strict.visited resolver e context s = nodes,
    lenient.visited resolver e context s = nodes', run.1.result = result,
    run'.1.result = result' at *
  rw [succeeded]
  cases abreast with
  | same known =>
    refine ⟨.inl ⟨same rfl, rfl⟩, fun _ p name mem => ?_⟩
    exact Option.ne_none_iff_exists'.mp (known _ mem)
  | @apart before after p name _ known unknown =>
    exact ⟨.inr ⟨p, name, rfl, unknown, before, after, rfl, rfl, known⟩, nofun⟩

/-- The condition `x` is a field, and `y` is not. The branch that is taken and the mention in it are
known, and a strict evaluation does not come to the name in the other branch. -/
theorem evaluateTree_strict_of_other_branch :
    let evaluator : Evaluator := { options := { timeout := some 10 } }
    let resolver : Resolver (StateM Nat) := fun _ asked => (.ok (.answered (.ok none)), asked + 1)
    let e : Expr := .conditional 2 (.field 0 (utf8 "x"))
      (.array 4 [.field 5 (utf8 "x"), .mention 8 (utf8 "m")])
      (.binary 16 .add (.field 14 (utf8 "y")) (.mention 18 (utf8 "n")))
    let context : Context := { fields := [(utf8 "x", .boolean true)] }
    let strict := evaluator.withStrict true
    ((strict.evaluateTree (some resolver) e context).run 0).1.success = true ∧
      .field 5 (utf8 "x") ∈ strict.visited (some resolver) e context 0 ∧
      ∃ v, Table.find? (utf8 "x") context.fields = some v := by
  intro evaluator resolver e context strict
  have succeeded : ((strict.evaluateTree (some resolver) e context).run 0).1.success = true := by
    rfl
  have mem : .field 5 (utf8 "x") ∈ strict.visited (some resolver) e context 0 :=
    List.mem_cons_of_mem _ (List.mem_cons_of_mem _ (List.mem_cons_self ..))
  exact ⟨succeeded, mem,
    (evaluateTree_strict evaluator (some resolver) e context 0).2 succeeded 5 (utf8 "x") mem⟩

end Evaluator

end ComputedFields
