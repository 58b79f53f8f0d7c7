import ComputedFields.Expr.References
import Mathlib.Data.List.Basic

/-!
# `ComputedFields.Proofs.Substitution` — trees in the place of fields

A formula that reads computed fields can be written without them: every field is replaced by the
formula that computes it, and so on for the fields of that formula. Nothing here evaluates a tree;
what substitution means for values is in `ComputedFields.Proofs.Reading`.

* `Expr.inductOn` — induction over trees, with a hypothesis for every argument and every item;
* `Expr.Calls` — a function occurs in a formula, in any letter case;
* `Expr.substitute`, `Expr.inlined` — trees for fields, once and for several rounds;
* `Expr.mem_fieldNames_substitute` — the fields of a tree after substitution.
-/

namespace ComputedFields.Expr

/-! ## Induction -/

/-- Trees nest lists of trees. The recursor that Lean derives has a second motive for those lists;
here it is fixed to say that the first holds of every member. -/
@[elab_as_elim, induction_eliminator]
theorem inductOn {motive : Expr → Prop}
    (number : ∀ position value, motive (.number position value))
    (text : ∀ position contents, motive (.text position contents))
    (field : ∀ position name, motive (.field position name))
    (mention : ∀ position name, motive (.mention position name))
    (member : ∀ position object property, motive object →
      motive (.member position object property))
    (call : ∀ position function arguments, (∀ e ∈ arguments, motive e) →
      motive (.call position function arguments))
    (negate : ∀ position operand, motive operand → motive (.negate position operand))
    (binary : ∀ position op left right, motive left → motive right →
      motive (.binary position op left right))
    (conditional : ∀ position condition whenTrue whenFalse, motive condition → motive whenTrue →
      motive whenFalse → motive (.conditional position condition whenTrue whenFalse))
    (array : ∀ position items, (∀ e ∈ items, motive e) → motive (.array position items))
    (e : Expr) : motive e :=
  @Expr.rec motive (fun es => ∀ e ∈ es, motive e) number text field mention member call negate
    binary conditional array (List.forall_mem_nil _)
    (fun _ _ first others => List.forall_mem_cons.mpr ⟨first, others⟩) e

/-! ## The names in several trees -/

theorem fieldNamesOfAll_eq (es : List Expr) : fieldNamesOfAll es = es.flatMap fieldNames := by
  induction es with
  | nil => rfl
  | cons e rest ih => rw [fieldNamesOfAll, ih, List.flatMap_cons]

theorem mentionNamesOfAll_eq (es : List Expr) : mentionNamesOfAll es = es.flatMap mentionNames := by
  induction es with
  | nil => rfl
  | cons e rest ih => rw [mentionNamesOfAll, ih, List.flatMap_cons]

theorem mem_fields {name : Text} {e : Expr} : name ∈ e.fields ↔ name ∈ e.fieldNames :=
  List.mem_eraseDups

mutual

/-- The functions that a formula calls, at each occurrence and as they are spelled. -/
def functionNames : Expr → List Text
  | .number .. | .text .. | .field .. | .mention .. => []
  | .member _ object _ => object.functionNames
  | .call _ function arguments => function :: functionNamesOfAll arguments
  | .negate _ operand => operand.functionNames
  | .binary _ _ left right => left.functionNames ++ right.functionNames
  | .conditional _ c a b => c.functionNames ++ a.functionNames ++ b.functionNames
  | .array _ items => functionNamesOfAll items

/-- The functions that several formulas call. -/
def functionNamesOfAll : List Expr → List Text
  | [] => []
  | e :: rest => e.functionNames ++ functionNamesOfAll rest

end

theorem functionNamesOfAll_eq (es : List Expr) :
    functionNamesOfAll es = es.flatMap functionNames := by
  induction es with
  | nil => rfl
  | cons e rest ih => rw [functionNamesOfAll, ih, List.flatMap_cons]

/-- A formula calls a function, whose letter case is disregarded. -/
def Calls (function : Text) (e : Expr) : Prop :=
  ∃ f ∈ e.functionNames, Text.sameLetters f function

instance (function : Text) (e : Expr) : Decidable (e.Calls function) :=
  inferInstanceAs (Decidable (∃ f ∈ e.functionNames, Text.sameLetters f function))

/-! ## Substitution -/

mutual

/-- A tree with a tree in the place of every field that `trees` has one for. Names of functions and
of properties are no fields. -/
def substitute (trees : Text → Option Expr) : Expr → Expr
  | .number p x => .number p x
  | .text p s => .text p s
  | .field p name => (trees name).getD (.field p name)
  | .mention p name => .mention p name
  | .member p object property => .member p (object.substitute trees) property
  | .call p function arguments => .call p function (substituteAll trees arguments)
  | .negate p operand => .negate p (operand.substitute trees)
  | .binary p op left right => .binary p op (left.substitute trees) (right.substitute trees)
  | .conditional p c a b =>
    .conditional p (c.substitute trees) (a.substitute trees) (b.substitute trees)
  | .array p items => .array p (substituteAll trees items)

/-- Substitution in several trees. -/
def substituteAll (trees : Text → Option Expr) : List Expr → List Expr
  | [] => []
  | e :: rest => e.substitute trees :: substituteAll trees rest

end

theorem substituteAll_eq (trees : Text → Option Expr) (es : List Expr) :
    substituteAll trees es = es.map (substitute trees) := by
  induction es with
  | nil => rfl
  | cons e rest ih => rw [substituteAll, ih, List.map_cons]

theorem substitute_none (e : Expr) : e.substitute (fun _ => none) = e := by
  induction e with
  | number | text | field | mention => rfl
  | member p object property ih => simp only [substitute, ih]
  | negate p operand ih => simp only [substitute, ih]
  | binary p op left right ihl ihr => simp only [substitute, ihl, ihr]
  | conditional p c a b ihc iha ihb => simp only [substitute, ihc, iha, ihb]
  | call p function items ih | array p items ih =>
    simp only [substitute, substituteAll_eq, List.map_congr_left ih, List.map_id']

/-- The fields that stand where a field stood: its own name, or the fields of its tree. -/
def fieldsFor (trees : Text → Option Expr) (name : Text) : List Text :=
  (trees name).elim [name] fieldNames

/-- The fields of a tree after substitution, each where the field was that it comes from. -/
theorem fieldNames_substitute (trees : Text → Option Expr) (e : Expr) :
    (e.substitute trees).fieldNames = e.fieldNames.flatMap (fieldsFor trees) := by
  induction e with
  | number | text | mention => rfl
  | field p name =>
    simp only [substitute, fieldNames, List.flatMap_singleton, fieldsFor]
    cases trees name <;> rfl
  | member p object property ih => exact ih
  | negate p operand ih => exact ih
  | binary p op left right ihl ihr =>
    simp only [substitute, fieldNames, ihl, ihr, List.flatMap_append]
  | conditional p c a b ihc iha ihb =>
    simp only [substitute, fieldNames, ihc, iha, ihb, List.flatMap_append]
  | call p f items ih | array p items ih =>
    simp only [substitute, fieldNames, substituteAll_eq, fieldNamesOfAll_eq, List.flatMap_map,
      List.flatMap_assoc]
    exact List.flatMap_congr ih

theorem mem_fieldNames_substitute {trees : Text → Option Expr} {e : Expr} {x : Text} :
    x ∈ (e.substitute trees).fieldNames ↔ ∃ name ∈ e.fieldNames, x ∈ fieldsFor trees name := by
  rw [fieldNames_substitute, List.mem_flatMap]

/-- A tree after some rounds of substitution: in each round every field that has a tree gives way to
that tree. Once no such field is left, further rounds change nothing. -/
def inlined (trees : Text → Option Expr) : (rounds : Nat) → Expr → Expr
  | 0, e => e
  | rounds + 1, e => e.substitute fun name => (trees name).map (inlined trees rounds)

end ComputedFields.Expr
