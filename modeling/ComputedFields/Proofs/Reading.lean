import ComputedFields.Evaluation.Report
import ComputedFields.Proofs.Substitution

/-!
# `ComputedFields.Proofs.Reading` — which fields the value of a formula depends on

The fields of a context reach a formula in two ways only: through the field names in its tree, and
through calls of `Get`, which take the name from a value. All other functions of the catalog are
given the whole context as well, and look at its mentions, its siblings and its instant at most
(`Function.ignoresFields_or_isGet`). So two evaluations agree as soon as they agree on the names
in the tree and on the names that calls of `Get` come to ask for; and a name in the tree may be
exchanged for any tree that has the value of the field.

* `Context.SameSurroundings` — two contexts that may differ in their fields;
* `Expr.gets` — the names that calls of `Get` ask for while a tree is evaluated;
* `Expr.eval_substitute` — substitution keeps the value or the failure;
* `Expr.eval_congr` — evaluation in two contexts that agree on what is read;
* `Evaluator.evaluateTree_congr` — without `Get`, the dependencies of a formula are all it reads.
-/

namespace ComputedFields

/-- Two contexts with the same mentions, siblings and instant. Their fields may differ, and so may
what no formula reads: the settings, the strand and the block. -/
structure Context.SameSurroundings (c c' : Context) : Prop where
  mentions : c.mentions = c'.mentions
  siblings : c.siblings = c'.siblings
  now : c.now = c'.now

namespace Context.SameSurroundings

@[symm] theorem symm {c c' : Context} (h : c.SameSurroundings c') : c'.SameSurroundings c :=
  ⟨h.mentions.symm, h.siblings.symm, h.now.symm⟩

theorem trans {c c' c'' : Context} (h : c.SameSurroundings c') (h' : c'.SameSurroundings c'') :
    c.SameSurroundings c'' :=
  ⟨h.mentions.trans h'.mentions, h.siblings.trans h'.siblings, h.now.trans h'.now⟩

end Context.SameSurroundings

/-! ## The functions of the catalog -/

namespace Function

/-- The fields that a call of a function of the catalog looks up: `Get` with one argument looks up
the field that the argument names, and no other function looks up any. -/
def lookedUp (function : Text) (arguments : List Value) : List Text :=
  if Text.sameLetters function (utf8 "Get") then
    match arguments with
    | [v] => [v.display]
    | _ => []
  else []

/-- The function does not depend on the fields of the context. -/
def Definition.IgnoresFields (d : Definition) : Prop :=
  ∀ {c c' : Context}, c.SameSurroundings c' → ∀ vs, d.implementation vs c = d.implementation vs c'

/-- The function is `Get`. -/
structure Definition.IsGet (d : Definition) : Prop where
  name : d.name = utf8 "Get"
  accepts : ∀ n, d.accepts n = (n == 1)
  implementation : d.implementation = Builtin.implementation Reference.field

/-- Changing the parts of a context that may differ one by one is the form in which the catalog's
functions are checked: both sides then compute alike. -/
theorem Definition.ignoresFields_of_update {d : Definition}
    (h : ∀ (c : Context) fields settings strand block vs,
      d.implementation vs c = d.implementation vs { c with fields, settings, strand, block }) :
    d.IgnoresFields := by
  rintro ⟨_, _, _, _, _, _, _⟩ ⟨fields, _, _, settings, strand, block, _⟩ ⟨rfl, rfl, rfl⟩ vs
  exact h _ fields settings strand block vs

theorem ignoresFields_of_mem {d : Definition}
    (h : d ∈ Math.definitions ++ Strings.definitions ++ Dates.definitions ++ Logic.definitions
      ++ Aggregate.definitions ++ Travel.definitions) : d.IgnoresFields := by
  revert d
  simp only [Math.definitions, Strings.definitions, Dates.definitions, Logic.definitions,
    Aggregate.definitions, Travel.definitions, List.forall_mem_append, List.forall_mem_cons,
    List.not_mem_nil, false_imp_iff, implies_true, and_true]
  and_intros <;> exact Definition.ignoresFields_of_update fun _ _ _ _ _ _ => rfl

theorem ignoresFields_or_isGet_of_mem_reference {d : Definition}
    (h : d ∈ Reference.definitions) : d.IgnoresFields ∨ d.IsGet := by
  revert d
  simp only [Reference.definitions, List.forall_mem_cons, List.not_mem_nil, false_imp_iff,
    implies_true, and_true]
  refine ⟨.inr ⟨rfl, fun n => ?_, rfl⟩, ?_, ?_⟩
  · show (decide (1 ≤ n) && decide (n ≤ 1)) = (n == 1)
    rw [Bool.eq_iff_iff, Bool.and_eq_true, decide_eq_true_iff, decide_eq_true_iff, beq_iff_eq]
    omega
  · exact .inl (Definition.ignoresFields_of_update fun _ _ _ _ _ _ => rfl)
  · exact .inl (Definition.ignoresFields_of_update fun _ _ _ _ _ _ => rfl)

/-- `Get` is the one function of the catalog that depends on the fields of the context. -/
theorem ignoresFields_or_isGet {d : Definition} (h : d ∈ catalog.definitions) :
    d.IgnoresFields ∨ d.IsGet :=
  (List.mem_append.mp h).elim (fun h => .inl (ignoresFields_of_mem h))
    ignoresFields_or_isGet_of_mem_reference

/-- A call of a function of the catalog depends on the fields that it looks up, and on no others. -/
theorem apply_congr {d : Definition} (h : d ∈ catalog.definitions) {c c' : Context}
    (same : c.SameSurroundings c') {vs : List Value}
    (agree : ∀ name ∈ lookedUp d.name vs, Table.find? name c.fields = Table.find? name c'.fields) :
    d.apply vs c = d.apply vs c' := by
  rcases ignoresFields_or_isGet h with ignores | get
  · simp only [Definition.apply, ignores same]
  · simp only [Definition.apply, get.accepts, get.implementation]
    match vs, agree with
    | [], _ => rfl
    | [v], agree =>
      have found := agree v.display (by rw [get.name]; exact List.mem_singleton_self _)
      simp only [Builtin.implementation, Reference.field, textArgument, argument,
        List.getElem?_cons_zero, Option.getD_some, found]
    | _ :: _ :: _, _ => rfl

/-- The letter case of a function does not matter for what it looks up. -/
theorem lookedUp_congr {f g : Text} (h : Text.sameLetters f g) (vs : List Value) :
    lookedUp f vs = lookedUp g vs := by
  have lower : Text.lower f = Text.lower g := by simpa [Text.sameLetters] using h
  have same : ∀ t, Text.sameLetters f t = Text.sameLetters g t := fun t => by
    simp only [Text.sameLetters, lower]
  simp only [lookedUp, same]

theorem Registry.mem_of_find? {registry : Registry} {function : Text} {d : Definition}
    (h : registry.find? function = some d) :
    d ∈ registry.definitions ∧ Text.sameLetters d.name function :=
  ⟨List.mem_of_find?_eq_some h,
    List.find?_some (p := fun d : Definition => Text.sameLetters d.name function) h⟩

end Function

/-! ## Environments -/

namespace Environment

/-- Two environments that differ at most in the fields and in what no formula reads. -/
structure SameButFields (env env' : Environment) : Prop where
  registry : env.registry = env'.registry
  strict : env.strict = env'.strict
  mention : env.mention = env'.mention
  context : env.context.SameSurroundings env'.context

/-- The two environments have the same field of a name, or neither has one. -/
def AgreeOn (env env' : Environment) (name : Text) : Prop :=
  Table.find? name env.context.fields = Table.find? name env'.context.fields

/-- What `trees` puts in the place of a field has, in `env'`, the value that the field has in `env`;
a field that stays is the same in both. -/
def Replaced (trees : Text → Option Expr) (env env' : Environment) (name : Text) : Prop :=
  match trees name with
  | none => AgreeOn env env' name
  | some e => ∃ v, Table.find? name env.context.fields = some v ∧ e.eval env' = .ok v

theorem field_congr {env env' : Environment} (strict : env.strict = env'.strict) {name : Text}
    (agree : AgreeOn env env' name) : env.field name = env'.field name := by
  simp only [field, strict, show Table.find? name env.context.fields = _ from agree]

end Environment

/-- With the same lookups or with none, a change of the fields changes nothing else in the
environment. -/
theorem Evaluator.environment_sameButFields (evaluator : Evaluator) {c c' : Context}
    (same : c.SameSurroundings c') {lookups : Option Lookups} :
    (evaluator.environment c lookups).SameButFields (evaluator.environment c' lookups) where
  registry := rfl
  strict := rfl
  mention := by
    cases lookups with
    | none => simp only [environment, Context.mentionValue, Context.mention?, same.mentions]
    | some lookups => rfl
  context := same

namespace Expr

open Environment

/-! ## The names that `Get` is asked for -/

/-- The names that follow a result, if there is one. -/
def following {α : Type} (result : Except Failure α) (names : α → List Text) : List Text :=
  match result with
  | .ok a => names a
  | .error _ => []

mutual

/-- The names that calls of `Get` ask for while a tree is evaluated, as far as the evaluation comes
and in its order. -/
def gets (env : Environment) : Expr → List Text
  | .number .. | .text .. | .field .. | .mention .. => []
  | .member _ object _ => object.gets env
  | .call _ function arguments =>
    match env.registry.find? function with
    | none => []
    | some _ =>
      getsOfAll env arguments ++ following (evalAll env arguments) (Function.lookedUp function)
  | .negate _ operand => operand.gets env
  | .binary _ _ left right => left.gets env ++ following (left.eval env) fun _ => right.gets env
  | .conditional _ c a b =>
    c.gets env ++ following (c.eval env) fun v => if v.truthy then a.gets env else b.gets env
  | .array _ items => getsOfAll env items

/-- The names that calls of `Get` ask for while several trees are evaluated. -/
def getsOfAll (env : Environment) : List Expr → List Text
  | [] => []
  | e :: rest => e.gets env ++ following (e.eval env) fun _ => getsOfAll env rest

end

theorem following_nil {α : Type} (result : Except Failure α) :
    following result (fun _ => []) = [] := by
  cases result <;> rfl

theorem getsOfAll_eq_nil {env : Environment} {es : List Expr} (h : ∀ e ∈ es, e.gets env = []) :
    getsOfAll env es = [] := by
  induction es with
  | nil => rfl
  | cons e rest ih =>
    obtain ⟨first, others⟩ := List.forall_mem_cons.mp h
    simp only [getsOfAll, first, ih others, following_nil, List.append_nil]

/-- A formula in which `Get` does not occur asks for nothing. -/
theorem gets_eq_nil {e : Expr} (h : ¬ e.Calls (utf8 "Get")) (env : Environment) :
    e.gets env = [] := by
  simp only [Calls, not_exists, not_and] at h
  induction e with
  | number | text | field | mention => rfl
  | member p object property ih => exact ih h
  | negate p operand ih => exact ih h
  | binary p op left right ihl ihr =>
    simp only [functionNames, List.mem_append] at h
    simp only [gets, ihl fun f hf => h f (.inl hf), ihr fun f hf => h f (.inr hf), following_nil,
      List.append_nil]
  | conditional p c a b ihc iha ihb =>
    simp only [functionNames, List.mem_append] at h
    simp only [gets, ihc fun f hf => h f (.inl (.inl hf)), iha fun f hf => h f (.inl (.inr hf)),
      ihb fun f hf => h f (.inr hf), ite_self, following_nil, List.append_nil]
  | call p function arguments ih =>
    simp only [functionNames, functionNamesOfAll_eq, List.mem_cons, List.mem_flatMap] at h
    have inner := getsOfAll_eq_nil fun e he =>
      ih e he fun f hf => h f (.inr ⟨e, he, hf⟩)
    have outer : Function.lookedUp function = fun _ => [] := by
      funext vs
      exact if_neg (h function (.inl rfl))
    simp only [gets, inner, outer, following_nil, List.append_nil]
    cases env.registry.find? function <;> rfl
  | array p items ih =>
    simp only [functionNames, functionNamesOfAll_eq, List.mem_flatMap] at h
    exact getsOfAll_eq_nil fun e he => ih e he fun f hf => h f ⟨e, he, hf⟩

/-! ## Evaluation after substitution -/

theorem bind_congr_of_ok {α β : Type} {x : Except Failure α} {f g : α → Except Failure β}
    (h : ∀ a, x = .ok a → f a = g a) : (x >>= f) = (x >>= g) := by
  cases x with
  | error failure => rfl
  | ok a => exact h a rfl

section

variable {env env' : Environment} {trees : Text → Option Expr}

theorem evalAll_substitute {es : List Expr}
    (h : ∀ e ∈ es, (∀ name ∈ e.fieldNames, Replaced trees env env' name) →
      (∀ name ∈ e.gets env, AgreeOn env env' name) → e.eval env = (e.substitute trees).eval env')
    (fields : ∀ name ∈ es.flatMap fieldNames, Replaced trees env env' name)
    (gets : ∀ name ∈ getsOfAll env es, AgreeOn env env' name) :
    evalAll env es = evalAll env' (es.map (substitute trees)) := by
  induction es with
  | nil => rfl
  | cons e rest ih =>
    simp only [List.flatMap_cons, List.mem_append] at fields
    simp only [getsOfAll, List.mem_append] at gets
    have first := h e (List.mem_cons_self ..) (fun name mem => fields name (.inl mem))
      (fun name mem => gets name (.inl mem))
    simp only [List.map_cons, evalAll, ← first]
    refine bind_congr_of_ok fun v value => ?_
    rw [value] at gets
    rw [ih (fun e he => h e (List.mem_cons_of_mem _ he)) (fun name mem => fields name (.inr mem))
      (fun name mem => gets name (.inr mem))]

/-- A tree in which fields gave way to trees of the same value has the value or the failure, with
its place, that it had before. The trees that are put in have a value, so that a failure can only
come from the nodes that stay. -/
theorem eval_substitute (builtin : env.registry = Function.catalog)
    (same : env.SameButFields env') (e : Expr)
    (fields : ∀ name ∈ e.fieldNames, Replaced trees env env' name)
    (gets : ∀ name ∈ e.gets env, AgreeOn env env' name) :
    e.eval env = (e.substitute trees).eval env' := by
  induction e with
  | number | text => rfl
  | mention p name => simp only [substitute, eval, same.mention]
  | field p name =>
    have replaced := fields name (List.mem_singleton_self _)
    simp only [Replaced] at replaced
    cases tree : trees name with
    | none =>
      rw [tree] at replaced
      simp only [substitute, tree, Option.getD_none, eval, field_congr same.strict replaced]
    | some t =>
      rw [tree] at replaced
      -- the node at which a failure would arise is gone, but there is no failure
      obtain ⟨v, found, value⟩ := replaced
      simp only [substitute, tree, Option.getD_some, eval, value, Environment.field, found]
      rfl
  | member p object property ih => simp only [substitute, eval, ih fields gets]
  | negate p operand ih => simp only [substitute, eval, ih fields gets]
  | binary p op left right ihl ihr =>
    simp only [fieldNames, List.mem_append] at fields
    simp only [Expr.gets, List.mem_append] at gets
    simp only [substitute, eval, ← ihl (fun name mem => fields name (.inl mem))
      (fun name mem => gets name (.inl mem))]
    refine bind_congr_of_ok fun v value => ?_
    rw [value] at gets
    rw [ihr (fun name mem => fields name (.inr mem)) (fun name mem => gets name (.inr mem))]
  | conditional p c a b ihc iha ihb =>
    simp only [fieldNames, List.mem_append] at fields
    simp only [Expr.gets, List.mem_append] at gets
    simp only [substitute, eval, ← ihc (fun name mem => fields name (.inl (.inl mem)))
      (fun name mem => gets name (.inl mem))]
    refine bind_congr_of_ok fun v value => ?_
    -- only the branch that is taken is evaluated, and only its calls count
    simp only [value, following] at gets
    by_cases truthy : v.truthy
    · simp only [truthy, if_true] at gets ⊢
      exact iha (fun name mem => fields name (.inl (.inr mem))) fun name mem =>
        gets name (.inr mem)
    · simp only [truthy] at gets ⊢
      exact ihb (fun name mem => fields name (.inr mem)) fun name mem => gets name (.inr mem)
  | call p function arguments ih =>
    simp only [fieldNames, fieldNamesOfAll_eq] at fields
    simp only [substitute, eval, substituteAll_eq, ← same.registry]
    cases found : env.registry.find? function with
    | none => rfl
    | some d =>
      simp only [Expr.gets, found, List.mem_append] at gets
      simp only [← evalAll_substitute ih fields fun name mem => gets name (.inl mem)]
      refine bind_congr_of_ok fun vs values => ?_
      rw [values] at gets
      obtain ⟨mem, spelled⟩ := Function.Registry.mem_of_find? found
      rw [Function.apply_congr (builtin ▸ mem) same.context fun name mem =>
        gets name (.inr (by rwa [Function.lookedUp_congr spelled] at mem))]
  | array p items ih =>
    simp only [fieldNames, fieldNamesOfAll_eq] at fields
    simp only [substitute, eval, substituteAll_eq, ← evalAll_substitute ih fields gets]

end

/-- The value of a tree depends on no other fields than those it names and those it gets. -/
theorem eval_congr {env env' : Environment} (builtin : env.registry = Function.catalog)
    (same : env.SameButFields env') {e : Expr}
    (fields : ∀ name ∈ e.fieldNames, AgreeOn env env' name)
    (gets : ∀ name ∈ e.gets env, AgreeOn env env' name) : e.eval env = e.eval env' := by
  calc e.eval env = (e.substitute fun _ => none).eval env' :=
        eval_substitute builtin same e fields gets
    _ = e.eval env' := by rw [substitute_none]

end Expr

/-! ## Dependencies -/

/-- The report on a formula in which `Get` does not occur depends on no other field than those that
are reported as its dependencies, nor on settings, strand and block. A resolver is asked the same
questions in both contexts, and what it does while it is asked is the same too. -/
theorem Evaluator.evaluateTree_congr {m : Type → Type} [Monad m] (options : Options)
    (resolver : Option (Resolver m)) {e : Expr} (getFree : ¬ e.Calls (utf8 "Get"))
    {c c' : Context} (same : c.SameSurroundings c')
    (agree : ∀ name ∈ e.fields, Table.find? name c.fields = Table.find? name c'.fields) :
    Evaluator.evaluateTree { options } resolver e c =
      Evaluator.evaluateTree { options } resolver e c' := by
  have values : ∀ lookups : Option Lookups,
      e.eval (Evaluator.environment { options } c lookups) =
        e.eval (Evaluator.environment { options } c' lookups) := by
    intro lookups
    refine Expr.eval_congr rfl (environment_sameButFields { options } same) ?_ ?_
    · intro name mem
      exact agree name (Expr.mem_fields.mpr mem)
    · rw [Expr.gets_eq_nil getFree]
      exact List.forall_mem_nil _
  -- the lookups are started before the context is looked at
  simp only [Evaluator.evaluateTree, Evaluator.value, values]

/-- In strict mode, with a resolver that counts how often it is asked: of two blocks with the same
`price` and no `rate`, the one has a field `note`, a setting and a strand that the other has not. -/
theorem Evaluator.evaluateTree_congr_of_unread :
    let e : Expr :=
      .conditional 6 (.field 0 (utf8 "price")) (.member 10 (.mention 8 (utf8 "x")) (utf8 "id"))
        (.binary 20 .add (.field 15 (utf8 "rate"))
          (.call 22 (utf8 "count") [.text 28 (utf8 "siblings")]))
    let c : Context :=
      { fields := [(utf8 "note", .boolean true), (utf8 "price", .text [])], siblings := [.null],
        settings := [(utf8 "theme", .null)], strand := utf8 "s" }
    let c' : Context := { fields := [(utf8 "price", .text [])], siblings := [.null] }
    let resolver : Resolver (StateM Nat) := fun _ => do
      modify (· + 1)
      return .ok (.answered (.ok none))
    ¬ e.Calls (utf8 "Get") ∧ c.SameSurroundings c' ∧
      (∀ name ∈ e.fields, Table.find? name c.fields = Table.find? name c'.fields) ∧
      Evaluator.evaluateTree { options := { strict := true } } (some resolver) e c =
        Evaluator.evaluateTree { options := { strict := true } } (some resolver) e c' := by
  intro e c c' resolver
  have getFree : ¬ e.Calls (utf8 "Get") := by decide
  have same : c.SameSurroundings c' := ⟨rfl, rfl, rfl⟩
  have agree : ∀ name ∈ e.fields, Table.find? name c.fields = Table.find? name c'.fields := by
    have fields : e.fields = [utf8 "price", utf8 "rate"] := by decide
    rw [fields]
    exact List.forall_mem_cons.mpr ⟨rfl, List.forall_mem_singleton.mpr rfl⟩
  exact ⟨getFree, same, agree, evaluateTree_congr { strict := true } _ getFree same agree⟩

end ComputedFields
