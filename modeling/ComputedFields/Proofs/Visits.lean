import ComputedFields.Proofs.Raising
import ComputedFields.Proofs.Reading

/-!
# `ComputedFields.Proofs.Visits` — the nodes that an evaluation comes to

An evaluation does not come to every node of a tree: it takes one branch of a conditional, it does
not look at the arguments of a function that there is none of, and it ends with the first failure.
The nodes that it comes to do their part one after another, in an order that the tree and the values
before them decide. Each of them may fail in few ways, and the evaluation fails just when one of
them does. Of the environment it reads what these nodes read: the field of a name, the mention of a
name, or what a function makes of its arguments.

* `Operator.apply_faultsIn` — the classes of faults that operators have;
* `Expr.visited`, `Expr.reached` — the nodes and the mentions that an evaluation comes to;
* `Expr.eval_eq_error_iff` — the failure of a tree is that of a visited node;
* `Expr.eval_congr_of_visited` — an evaluation depends on what its visited nodes read;
* `Evaluator.environmentFrom`, `Evaluator.visited` — the same for formulas with a resolver.
-/

namespace ComputedFields

/-! ## Faults of operators -/

/-- If there is a fault, it is of one of some classes. -/
def FaultsIn {α : Type} (codes : List ErrorCode) (result : Except Fault α) : Prop :=
  ∀ fault, result = .error fault → fault.code ∈ codes

namespace FaultsIn

variable {α β : Type} {codes : List ErrorCode}

theorem ok (a : α) : FaultsIn codes (.ok a) := nofun

theorem error {fault : Fault} (h : fault.code ∈ codes) :
    FaultsIn (α := α) codes (.error fault) := by
  rintro _ ⟨⟩
  exact h

theorem bind {x : Except Fault α} {f : α → Except Fault β} (h : FaultsIn codes x)
    (later : ∀ a, FaultsIn codes (f a)) : FaultsIn codes (x >>= f) := by
  cases x with
  | ok a => exact later a
  | error fault => exact error (h fault rfl)

theorem ite {c : Prop} [Decidable c] {x y : Except Fault α} (whenTrue : FaultsIn codes x)
    (whenFalse : FaultsIn codes y) : FaultsIn codes (if c then x else y) := by
  split
  · exact whenTrue
  · exact whenFalse

theorem mapM {f : α → Except Fault β} (each : ∀ a, FaultsIn codes (f a)) (as : List α) :
    FaultsIn codes (as.mapM f) := by
  induction as with
  | nil => exact ok []
  | cons a rest ih =>
    rw [List.mapM_cons]
    exact (each a).bind fun b => ih.bind fun bs => ok _

theorem mono {codes' : List ErrorCode} {x : Except Fault α} (h : FaultsIn codes x)
    (subset : codes ⊆ codes') : FaultsIn codes' x :=
  fun fault failed => subset (h fault failed)

theorem ne_error {x : Except Fault α} (h : FaultsIn codes x) {fault : Fault}
    (other : fault.code ∉ codes) : x ≠ .error fault :=
  fun failed => other (h fault failed)

end FaultsIn

theorem instantOfNumber_faultsIn (x : Float) : FaultsIn [.typeError] (instantOfNumber x) :=
  .ite (.ok _) (.error (List.mem_singleton_self _))

namespace Value

theorem toNumber_faultsIn (v : Value) : FaultsIn [.typeError] v.toNumber := by
  cases v with
  | boolean | number => exact .ok _
  | text s =>
    rw [toNumber]
    split
    · exact .ok _
    · exact .error (List.mem_singleton_self _)
  | null | date | array | object => exact .error (List.mem_singleton_self _)

theorem toInstant_faultsIn (v : Value) : FaultsIn [.typeError] v.toInstant := by
  cases v with
  | date => exact .ok _
  | number x => exact instantOfNumber_faultsIn x
  | text s =>
    rw [toInstant]
    split
    · exact .ok _
    · exact .error (List.mem_singleton_self _)
  | null | boolean | array | object => exact .error (List.mem_singleton_self _)

/-- Two values have an order as texts, as instants or as numbers, or they have none. -/
theorem order_cases (v w : Value) :
    (∃ ordering, v.order w = .ok ordering) ∨
    v.order w = (do pure (compare (← v.toInstant) (← w.toInstant))) ∨
    v.order w = (do pure (orderNumbers (← v.toNumber) (← w.toNumber))) ∨
    v.order w = .error (.notComparable v.kind w.kind) := by
  unfold order
  split <;> simp

theorem order_faultsIn (v w : Value) : FaultsIn [.typeError] (v.order w) := by
  rcases order_cases v w with ⟨ordering, same⟩ | same | same | same <;> rw [same]
  · exact .ok _
  · exact v.toInstant_faultsIn.bind fun _ => w.toInstant_faultsIn.bind fun _ => .ok _
  · exact v.toNumber_faultsIn.bind fun _ => w.toNumber_faultsIn.bind fun _ => .ok _
  · exact .error (List.mem_singleton_self _)

theorem negate_faultsIn (v : Value) : FaultsIn [.typeError] v.negate :=
  v.toNumber_faultsIn.bind fun _ => .ok _

end Value

namespace Operator

theorem onNumbers_faultsIn (f : Float → Float → Float) (v w : Value) :
    FaultsIn [.typeError] (onNumbers f v w) :=
  v.toNumber_faultsIn.bind fun _ => w.toNumber_faultsIn.bind fun _ => .ok _

theorem onDivisor_faultsIn (f : Float → Float → Float) (v w : Value) :
    FaultsIn [.typeError, .divisionByZero] (onDivisor f v w) := by
  refine (v.toNumber_faultsIn.mono (by simp)).bind fun x =>
    (w.toNumber_faultsIn.mono (by simp)).bind fun y => ?_
  split
  · exact .error (by simp [Fault.code])
  · exact .ok _

theorem onOrder_faultsIn (test : Ordering → Bool) (v w : Value) :
    FaultsIn [.typeError] (onOrder test v w) :=
  (v.order_faultsIn w).bind fun _ => .ok _

/-- An operator fails with values that it cannot convert or compare, and with a divisor of zero. -/
theorem apply_faultsIn (op : Operator) (v w : Value) :
    FaultsIn [.typeError, .divisionByZero] (op.apply v w) := by
  cases op with
  | add =>
    rw [apply, Value.add]
    split
    · exact .ok _
    · exact (onNumbers_faultsIn (· + ·) v w).mono (by simp)
  | subtract | multiply => exact (onNumbers_faultsIn _ v w).mono (by simp)
  | divide | modulo => exact onDivisor_faultsIn _ v w
  | equal | doubleEqual | notEqual | lessGreater => exact .ok _
  | less | greater | lessEqual | greaterEqual => exact (onOrder_faultsIn _ v w).mono (by simp)

end Operator

theorem Environment.field_faultsIn (env : Environment) (name : Text) :
    FaultsIn [.unknownReference] (env.field name) := by
  rw [field]
  split
  · exact .ok _
  · split
    · exact .error (List.mem_singleton_self _)
    · exact .ok _

namespace Expr

/-! ## Visited nodes -/

/-- What is done after a result, if there is one: a failure ends the evaluation. -/
def andThen {α β : Type} (result : Except Failure α) (rest : α → List β) : List β :=
  match result with
  | .ok a => rest a
  | .error _ => []

mutual

/-- The nodes of a tree that do their part while it is evaluated, in the order in which they do it:
a node after its operands, and a conditional between its condition and the branch that it takes. If
there is a failure, the last of them has it. -/
def visited (env : Environment) : Expr → List Expr
  | .number p x => [.number p x]
  | .text p s => [.text p s]
  | .field p name => [.field p name]
  | .mention p name => [.mention p name]
  | .member p object property =>
    object.visited env ++ andThen (object.eval env) fun _ => [.member p object property]
  | .call p function arguments =>
    match env.registry.find? function with
    | none => [.call p function arguments]
    | some _ =>
      visitedOfAll env arguments ++
        andThen (evalAll env arguments) fun _ => [.call p function arguments]
  | .negate p operand =>
    operand.visited env ++ andThen (operand.eval env) fun _ => [.negate p operand]
  | .binary p op left right =>
    left.visited env ++ andThen (left.eval env) fun _ =>
      right.visited env ++ andThen (right.eval env) fun _ => [.binary p op left right]
  | .conditional p c a b =>
    c.visited env ++ andThen (c.eval env) fun v =>
      .conditional p c a b :: if v.truthy then a.visited env else b.visited env
  | .array p items =>
    visitedOfAll env items ++ andThen (evalAll env items) fun _ => [.array p items]

/-- The nodes of several trees that do their part while they are evaluated from the left. -/
def visitedOfAll (env : Environment) : List Expr → List Expr
  | [] => []
  | e :: rest => e.visited env ++ andThen (e.eval env) fun _ => visitedOfAll env rest

end

/-- The mentions that an evaluation comes to. -/
def reached (env : Environment) (e : Expr) : List Text :=
  (e.visited env).filterMap fun
    | .mention _ name => some name
    | _ => none

theorem mem_andThen {α β : Type} {result : Except Failure α} {rest : α → List β} {b : β} :
    b ∈ andThen result rest ↔ ∃ a, result = .ok a ∧ b ∈ rest a := by
  cases result <;> simp [andThen]

theorem eq_of_mem_andThen {α β : Type} {result : Except Failure α} {b b' : β}
    (h : b ∈ andThen result fun _ => [b']) : b = b' := by
  obtain ⟨_, -, mem⟩ := mem_andThen.mp h
  exact List.mem_singleton.mp mem

theorem mem_reached {env : Environment} {e : Expr} {name : Text} :
    name ∈ e.reached env ↔ ∃ p, .mention p name ∈ e.visited env := by
  simp only [reached, List.mem_filterMap]
  constructor
  · rintro ⟨node, visited, same⟩
    split at same <;> cases same
    exact ⟨_, visited⟩
  · rintro ⟨p, visited⟩
    exact ⟨_, visited, rfl⟩

theorem exists_of_mem_visitedOfAll {env : Environment} {es : List Expr} {node : Expr}
    (h : node ∈ visitedOfAll env es) : ∃ e ∈ es, node ∈ e.visited env := by
  induction es with
  | nil => cases h
  | cons e rest ih =>
    rcases List.mem_append.mp h with first | later
    · exact ⟨e, List.mem_cons_self .., first⟩
    · obtain ⟨_, -, later⟩ := mem_andThen.mp later
      obtain ⟨e', mem, visited⟩ := ih later
      exact ⟨e', List.mem_cons_of_mem _ mem, visited⟩

/-- A node that is visited is the root or is visited below it. -/
theorem eq_or_exists_of_mem_visited {env : Environment} {e node : Expr}
    (h : node ∈ e.visited env) : node = e ∨ ∃ part ∈ e.parts, node ∈ part.visited env := by
  cases e with
  | number | text | field | mention => exact .inl (List.mem_singleton.mp h)
  | member p object property | negate p operand =>
    simp only [visited, List.mem_append, mem_andThen, List.mem_singleton] at h
    simp only [parts, List.mem_singleton, exists_eq_left]
    grind
  | call p function arguments =>
    simp only [visited] at h
    split at h
    · exact .inl (List.mem_singleton.mp h)
    · simp only [List.mem_append, mem_andThen, List.mem_singleton] at h
      rcases h with below | ⟨_, -, root⟩
      · exact .inr (exists_of_mem_visitedOfAll below)
      · exact .inl root
  | binary p op left right =>
    simp only [visited, List.mem_append, mem_andThen, List.mem_singleton] at h
    simp only [parts, List.mem_cons, List.not_mem_nil, or_false]
    grind
  | conditional p c a b =>
    simp only [visited, List.mem_append, mem_andThen, List.mem_cons] at h
    simp only [parts, List.mem_cons, List.not_mem_nil, or_false]
    grind
  | array p items =>
    simp only [visited, List.mem_append, mem_andThen, List.mem_singleton] at h
    rcases h with below | ⟨_, -, root⟩
    · exact .inr (exists_of_mem_visitedOfAll below)
    · exact .inl root

/-- Induction over trees by what is below the root, of whatever kind the root is. -/
theorem induct_parts {motive : Expr → Prop}
    (step : ∀ e, (∀ part ∈ e.parts, motive part) → motive e) (e : Expr) : motive e := by
  induction e with
  | number | text | field | mention => exact step _ (List.forall_mem_nil _)
  | member p object property ih => exact step _ (List.forall_mem_singleton.mpr ih)
  | negate p operand ih => exact step _ (List.forall_mem_singleton.mpr ih)
  | call p function arguments ih => exact step _ ih
  | array p items ih => exact step _ ih
  | binary p op left right ihl ihr =>
    exact step _ (List.forall_mem_cons.mpr ⟨ihl, List.forall_mem_singleton.mpr ihr⟩)
  | conditional p c a b ihc iha ihb =>
    exact step _ (List.forall_mem_cons.mpr
      ⟨ihc, List.forall_mem_cons.mpr ⟨iha, List.forall_mem_singleton.mpr ihb⟩⟩)

/-- What a part of a tree has, the tree has: then it also has what its visited nodes have. -/
theorem subset_of_mem_visited {α : Type} {items : Expr → List α}
    (ofPart : ∀ {e part : Expr}, part ∈ e.parts → items part ⊆ items e) {env : Environment}
    {e node : Expr} (h : node ∈ e.visited env) : items node ⊆ items e := by
  induction e using induct_parts with
  | step e ih =>
    rcases eq_or_exists_of_mem_visited h with rfl | ⟨part, mem, below⟩
    · exact List.Subset.refl _
    · exact List.Subset.trans (ih part mem below) (ofPart mem)

theorem reached_subset (env : Environment) (e : Expr) : e.reached env ⊆ e.mentionNames := by
  intro name mem
  obtain ⟨p, visited⟩ := mem_reached.mp mem
  exact subset_of_mem_visited mentionNames_of_part visited (List.mem_singleton_self _)

/-! ## Where a failure comes from -/

/-- How a node fails when it does its part. -/
inductive Breaks (env : Environment) : Expr → Failure → Prop
  | field {p : Nat} {name : Text} {fault : Fault} (h : env.field name = .error fault) :
    Breaks env (.field p name) (.placed fault p)
  | mention {p : Nat} {name : Text} {failure : Failure} (h : env.mention name = .error failure) :
    Breaks env (.mention p name) (failure.orAt p)
  | unknownFunction {p : Nat} {function : Text} {arguments : List Expr}
    (h : env.registry.find? function = none) :
    Breaks env (.call p function arguments) (.placed (.unknownFunction function) p)
  | call {p : Nat} {function : Text} {arguments : List Expr} {d : Function.Definition}
    {vs : List Value} {failure : Failure} (found : env.registry.find? function = some d)
    (values : evalAll env arguments = .ok vs) (h : d.apply vs env.context = .error failure) :
    Breaks env (.call p function arguments) (failure.orAt p)
  | negate {p : Nat} {operand : Expr} {v : Value} {fault : Fault} (value : operand.eval env = .ok v)
    (h : v.negate = .error fault) : Breaks env (.negate p operand) (.placed fault p)
  | binary {p : Nat} {op : Operator} {left right : Expr} {v w : Value} {fault : Fault}
    (leftValue : left.eval env = .ok v) (rightValue : right.eval env = .ok w)
    (h : op.apply v w = .error fault) : Breaks env (.binary p op left right) (.placed fault p)

variable {env : Environment}

/-- If there is a failure, it is that of one of some nodes. -/
def BrokenBy {α : Type} (env : Environment) (nodes : List Expr) (result : Except Failure α) :
    Prop :=
  ∀ failure, result = .error failure → ∃ node ∈ nodes, node.Breaks env failure

namespace BrokenBy

variable {α β : Type} {nodes : List Expr}

theorem ok (a : α) : BrokenBy env nodes (.ok a) := nofun

theorem cons {result : Except Failure α} (h : BrokenBy env nodes result) (first : Expr) :
    BrokenBy env (first :: nodes) result := by
  intro failure failed
  obtain ⟨node, mem, breaks⟩ := h failure failed
  exact ⟨node, List.mem_cons_of_mem _ mem, breaks⟩

/-- Of two steps the second is taken only after the first. -/
theorem bind {x : Except Failure α} {f : α → Except Failure β} {rest : α → List Expr}
    (h : BrokenBy env nodes x) (later : ∀ a, x = .ok a → BrokenBy env (rest a) (f a)) :
    BrokenBy env (nodes ++ andThen x rest) (x >>= f) := by
  intro failure failed
  cases x with
  | ok a =>
    obtain ⟨node, mem, breaks⟩ := later a rfl failure failed
    exact ⟨node, List.mem_append_right _ mem, breaks⟩
  | error other =>
    cases failed
    obtain ⟨node, mem, breaks⟩ := h _ rfl
    exact ⟨node, List.mem_append_left _ mem, breaks⟩

/-- What is made of a value does not fail. -/
theorem map {x : Except Failure α} (h : BrokenBy env nodes x) (f : α → β) :
    BrokenBy env nodes (x >>= fun a => pure (f a)) := by
  cases x with
  | ok a => exact ok _
  | error failure =>
    rintro _ ⟨⟩
    exact h failure rfl

theorem faultAt {node : Expr} {p : Nat} {result : Except Fault α}
    (h : ∀ fault, result = .error fault → node.Breaks env (.placed fault p)) :
    BrokenBy env [node] (faultAt p result) := by
  cases result with
  | ok a => exact ok a
  | error fault =>
    rintro _ ⟨⟩
    exact ⟨node, List.mem_singleton_self _, h fault rfl⟩

theorem located {node : Expr} {p : Nat} {result : Except Failure α}
    (h : ∀ failure, result = .error failure → node.Breaks env (failure.orAt p)) :
    BrokenBy env [node] (located p result) := by
  cases result with
  | ok a => exact ok a
  | error failure =>
    rintro _ ⟨⟩
    exact ⟨node, List.mem_singleton_self _, h failure rfl⟩

end BrokenBy

theorem evalAll_brokenBy {es : List Expr}
    (each : ∀ e ∈ es, BrokenBy env (e.visited env) (e.eval env)) :
    BrokenBy env (visitedOfAll env es) (evalAll env es) := by
  induction es with
  | nil => exact .ok _
  | cons e rest ih =>
    obtain ⟨first, others⟩ := List.forall_mem_cons.mp each
    exact first.bind fun v _ => (ih others).map (v :: ·)

/-- If a tree fails, it is as one of the visited nodes does. -/
theorem eval_brokenBy (e : Expr) : BrokenBy env (e.visited env) (e.eval env) := by
  induction e with
  | number | text => exact .ok _
  | field p name => exact .faultAt fun fault failed => .field failed
  | mention p name => exact .located fun failure failed => .mention failed
  | member p object property ih => exact ih.bind fun v _ => .ok _
  | negate p operand ih => exact ih.bind fun v value => .faultAt fun fault => .negate value
  | binary p op left right ihl ihr =>
    refine ihl.bind fun v leftValue => ihr.bind fun w rightValue => ?_
    exact .faultAt fun fault => .binary leftValue rightValue
  | conditional p c a b ihc iha ihb =>
    refine ihc.bind fun v _ => BrokenBy.cons ?_ _
    cases v.truthy with
    | true => exact iha
    | false => exact ihb
  | call p function arguments ih =>
    rw [eval, visited]
    cases found : env.registry.find? function with
    | none =>
      rintro _ ⟨⟩
      exact ⟨_, List.mem_singleton_self _, .unknownFunction found⟩
    | some d =>
      refine (evalAll_brokenBy ih).bind fun vs values => ?_
      exact .located fun failure => .call found values
  | array p items ih => exact (evalAll_brokenBy ih).bind fun vs _ => .ok _

theorem evalAll_of_breaks {es : List Expr} {node : Expr} {failure : Failure}
    (each : ∀ e ∈ es, node ∈ e.visited env → e.eval env = .error failure)
    (visited : node ∈ visitedOfAll env es) : evalAll env es = .error failure := by
  induction es with
  | nil => cases visited
  | cons e rest ih =>
    obtain ⟨first, others⟩ := List.forall_mem_cons.mp each
    rcases List.mem_append.mp visited with inFirst | later
    · rw [evalAll, first inFirst]
      rfl
    · obtain ⟨v, value, later⟩ := mem_andThen.mp later
      rw [evalAll, value, ih others later]
      rfl

/-- A visited node that fails ends the evaluation. -/
theorem eval_of_breaks {e node : Expr} {failure : Failure} (visited : node ∈ e.visited env)
    (breaks : node.Breaks env failure) : e.eval env = .error failure := by
  induction e with
  | number | text =>
    cases List.mem_singleton.mp visited
    cases breaks
  | field p name =>
    cases List.mem_singleton.mp visited
    cases breaks with
    | field failed =>
      rw [eval, failed]
      rfl
  | mention p name =>
    cases List.mem_singleton.mp visited
    cases breaks with
    | mention failed =>
      rw [eval, failed]
      rfl
  | member p object property ih =>
    rcases List.mem_append.mp visited with below | root
    · rw [eval, ih below]
      rfl
    · cases eq_of_mem_andThen root
      cases breaks
  | negate p operand ih =>
    rcases List.mem_append.mp visited with below | root
    · rw [eval, ih below]
      rfl
    · cases eq_of_mem_andThen root
      cases breaks with
      | negate value failed =>
        rw [eval, value]
        show faultAt p _ = _
        rw [failed]
        rfl
  | binary p op left right ihl ihr =>
    rcases List.mem_append.mp visited with inLeft | later
    · rw [eval, ihl inLeft]
      rfl
    · obtain ⟨v, leftValue, later⟩ := mem_andThen.mp later
      rcases List.mem_append.mp later with inRight | root
      · rw [eval, leftValue, ihr inRight]
        rfl
      · cases eq_of_mem_andThen root
        cases breaks with
        | binary leftValue rightValue failed =>
          rw [eval, leftValue, rightValue]
          show faultAt p _ = _
          rw [failed]
          rfl
  | conditional p c a b ihc iha ihb =>
    rcases List.mem_append.mp visited with inCondition | later
    · rw [eval, ihc inCondition]
      rfl
    · obtain ⟨v, value, later⟩ := mem_andThen.mp later
      rw [eval, value]
      show (if v.truthy then a.eval env else b.eval env) = _
      rcases List.mem_cons.mp later with rfl | inBranch
      · cases breaks
      · split at inBranch
        · next truthy => rw [if_pos truthy, iha inBranch]
        · next falsy => rw [if_neg falsy, ihb inBranch]
  | call p function arguments ih =>
    rw [Expr.visited] at visited
    cases found : env.registry.find? function with
    | none =>
      rw [found] at visited
      cases List.mem_singleton.mp visited
      cases breaks with
      | unknownFunction =>
        rw [eval, found]
      | call other => cases found.symm.trans other
    | some d =>
      rw [found] at visited
      rcases List.mem_append.mp visited with below | root
      · rw [eval, found]
        show (evalAll env arguments >>= _) = _
        rw [evalAll_of_breaks ih below]
        rfl
      · cases eq_of_mem_andThen root
        cases breaks with
        | unknownFunction missing => cases found.symm.trans missing
        | call same values failed =>
          cases found.symm.trans same
          rw [eval, found]
          show (evalAll env arguments >>= _) = _
          rw [values]
          show located p _ = _
          rw [failed]
          rfl
  | array p items ih =>
    rcases List.mem_append.mp visited with below | root
    · rw [eval, evalAll_of_breaks ih below]
      rfl
    · cases eq_of_mem_andThen root
      cases breaks

/-- A tree fails when and as a visited node fails. -/
theorem eval_eq_error_iff {e : Expr} {failure : Failure} :
    e.eval env = .error failure ↔ ∃ node ∈ e.visited env, node.Breaks env failure :=
  ⟨eval_brokenBy e failure, fun ⟨_, visited, breaks⟩ => eval_of_breaks visited breaks⟩

/-! ## Agreement at the nodes that are visited -/

/-- Two environments that hold the same for a node, when it does its part. -/
def AgreeAt (env env' : Environment) : Expr → Prop
  | .field _ name => env.field name = env'.field name
  | .mention _ name => env.mention name = env'.mention name
  | .call _ function arguments => ∀ d vs, env.registry.find? function = some d →
    evalAll env arguments = .ok vs → d.apply vs env.context = d.apply vs env'.context
  | _ => True

variable {env' : Environment}

theorem evalAll_congr_of_visited {es : List Expr}
    (each : ∀ e ∈ es, (∀ node ∈ e.visited env, AgreeAt env env' node) → e.eval env = e.eval env')
    (agree : ∀ node ∈ visitedOfAll env es, AgreeAt env env' node) :
    evalAll env es = evalAll env' es := by
  induction es with
  | nil => rfl
  | cons e rest ih =>
    obtain ⟨first, others⟩ := List.forall_mem_cons.mp each
    obtain ⟨inFirst, later⟩ := List.forall_mem_append.mp agree
    simp only [evalAll, ← first inFirst]
    refine bind_congr_of_ok fun v value => ?_
    rw [ih others fun node visited => later node (mem_andThen.mpr ⟨v, value, visited⟩)]

/-- The value or the failure of a tree depends on no more of the environment than what it holds for
the nodes that are visited. -/
theorem eval_congr_of_visited (registry : env.registry = env'.registry) {e : Expr}
    (agree : ∀ node ∈ e.visited env, AgreeAt env env' node) : e.eval env = e.eval env' := by
  induction e with
  | number | text => rfl
  | field p name =>
    have same : env.field name = env'.field name := agree _ (List.mem_singleton_self _)
    simp only [eval, same]
  | mention p name =>
    have same : env.mention name = env'.mention name := agree _ (List.mem_singleton_self _)
    simp only [eval, same]
  | member p object property ih =>
    simp only [eval, ih (List.forall_mem_append.mp agree).1]
  | negate p operand ih =>
    simp only [eval, ih (List.forall_mem_append.mp agree).1]
  | binary p op left right ihl ihr =>
    obtain ⟨inLeft, later⟩ := List.forall_mem_append.mp agree
    simp only [eval, ← ihl inLeft]
    refine bind_congr_of_ok fun v value => ?_
    rw [ihr fun node visited =>
      later node (mem_andThen.mpr ⟨v, value, List.mem_append_left _ visited⟩)]
  | conditional p c a b ihc iha ihb =>
    obtain ⟨inCondition, later⟩ := List.forall_mem_append.mp agree
    simp only [eval, ← ihc inCondition]
    refine bind_congr_of_ok fun v value => ?_
    have inBranch : ∀ node ∈ if v.truthy then a.visited env else b.visited env,
        AgreeAt env env' node := fun node visited =>
      later node (mem_andThen.mpr ⟨v, value, List.mem_cons_of_mem _ visited⟩)
    cases truthy : v.truthy with
    | true => exact iha fun node visited => inBranch node (by rwa [truthy])
    | false => exact ihb fun node visited => inBranch node (by rwa [truthy])
  | call p function arguments ih =>
    simp only [eval, ← registry]
    cases found : env.registry.find? function with
    | none => rfl
    | some d =>
      simp only [visited, found] at agree
      obtain ⟨inArguments, later⟩ := List.forall_mem_append.mp agree
      simp only [← evalAll_congr_of_visited ih inArguments]
      refine bind_congr_of_ok fun vs values => ?_
      -- the call comes to its turn with the values that both environments have for its arguments
      have same := later _ (mem_andThen.mpr ⟨vs, values, List.mem_singleton_self _⟩)
      rw [same d vs found values]
  | array p items ih =>
    simp only [eval, evalAll_congr_of_visited ih (List.forall_mem_append.mp agree).1]

end Expr

/-! ## Evaluations -/

namespace Evaluator

variable {σ : Type}

/-- What a formula is evaluated in, after its lookups were started in a state of the resolver. -/
def environmentFrom (evaluator : Evaluator) (resolver : Option (Resolver (StateM σ))) (e : Expr)
    (context : Context) (s : σ) : Environment :=
  evaluator.environment context ((resolver.mapM fun r => Lookups.start r e).run s).1

/-- The nodes that the evaluation of a formula comes to. -/
def visited (evaluator : Evaluator) (resolver : Option (Resolver (StateM σ))) (e : Expr)
    (context : Context) (s : σ) : List Expr :=
  e.visited (evaluator.environmentFrom resolver e context s)

/-- Evaluating a formula starts its lookups, and then does no more to the resolver. -/
theorem evaluateTree_run (evaluator : Evaluator) (resolver : Option (Resolver (StateM σ)))
    (e : Expr) (context : Context) (s : σ) :
    (evaluator.evaluateTree resolver e context).run s =
      (⟨e.eval (evaluator.environmentFrom resolver e context s), evaluator.options.errorDisplay,
        e.dependencies⟩, ((resolver.mapM fun r => Lookups.start r e).run s).2) := by
  cases resolver <;> rfl

end Evaluator

end ComputedFields
