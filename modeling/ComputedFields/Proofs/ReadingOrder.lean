import ComputedFields.Proofs.Raising
import ComputedFields.Proofs.Scanning
import ComputedFields.Proofs.Soundness
import Mathlib.Data.List.Forall2
import Mathlib.Data.List.Perm.Basic

/-!
# `ComputedFields.Proofs.ReadingOrder` — the nodes of a formula in the order of its source

A failure tells where it happened by an offset alone, which is that of a node. Each node is made by
one token: an operator, a question mark or a point stands after the first part of its node, and a
minus, a bracket, the name of a function and a leaf stand before all parts. Read in this order, the
nodes of a formula are made by tokens of its source from left to right. So a later node has a later
token, and no two nodes have one offset.

A phrase has tokens besides those that make its nodes: parentheses, commas, colons, closing brackets
and the names of properties. The induction on phrases is therefore about the nodes of a tree and
some of the tokens of its phrase.

* `Expr.inOrder` — the nodes of a tree in reading order;
* `Makes` — the token that makes a node;
* `madeFrom_of_derives` — the nodes of a phrase and its tokens;
* `inOrder_of_parse` — the offsets of a formula that is read.
-/

namespace ComputedFields

namespace Expr

mutual

/-- The nodes of a tree, each with the tree below it, in the order in which a reader of the source
comes to their tokens. -/
def inOrder : Expr → List Expr
  | e@(.number ..) | e@(.text ..) | e@(.field ..) | e@(.mention ..) => [e]
  | e@(.member _ object _) => object.inOrder ++ [e]
  | e@(.call _ _ arguments) => e :: inOrderOfAll arguments
  | e@(.negate _ operand) => e :: operand.inOrder
  | e@(.binary _ _ left right) => left.inOrder ++ e :: right.inOrder
  | e@(.conditional _ c a b) => c.inOrder ++ e :: (a.inOrder ++ b.inOrder)
  | e@(.array _ items) => e :: inOrderOfAll items

/-- The nodes of several trees, one tree after another. -/
def inOrderOfAll : List Expr → List Expr
  | [] => []
  | e :: rest => e.inOrder ++ inOrderOfAll rest

end

theorem inOrderOfAll_eq (es : List Expr) : inOrderOfAll es = es.flatMap inOrder := by
  induction es with
  | nil => rfl
  | cons e rest ih => rw [inOrderOfAll, ih, List.flatMap_cons]

/-- No node is left out, and none is there twice. -/
theorem map_position_inOrder_perm (e : Expr) : (e.inOrder.map position).Perm e.positions := by
  have all (es : List Expr) (each : ∀ e ∈ es, (e.inOrder.map position).Perm e.positions) :
      ((inOrderOfAll es).map position).Perm (positionsOfAll es) := by
    rw [inOrderOfAll_eq, positionsOfAll_eq, List.map_flatMap]
    exact List.Perm.flatMap_left es each
  induction e with
  | number | text | field | mention => exact .refl _
  | member p object property ih =>
    rw [inOrder, positions, List.map_append]
    exact List.perm_append_comm.trans (ih.cons p)
  | call p function arguments ih => exact (all arguments ih).cons p
  | negate p operand ih => exact ih.cons p
  | binary p op left right ihl ihr =>
    rw [inOrder, positions, List.map_append, List.map_cons]
    exact List.perm_middle.trans ((ihl.append ihr).cons p)
  | conditional p c a b ihc iha ihb =>
    rw [inOrder, positions, List.map_append, List.map_cons, List.map_append, List.append_assoc]
    exact List.perm_middle.trans ((ihc.append (iha.append ihb)).cons p)
  | array p items ih => exact (all items ih).cons p

end Expr

/-- The token makes the node: it stands at its offset and is what the node is named for. -/
inductive Makes : Token → Expr → Prop
  | number (spelling : Text) (p : Nat) :
    Makes ⟨.number spelling, p⟩ (.number p (Number.ofSpelling spelling))
  | text (contents : Text) (p : Nat) : Makes ⟨.text contents, p⟩ (.text p contents)
  | field (name : Text) (p : Nat) : Makes ⟨.name name, p⟩ (.field p name)
  | mention (name : Text) (p : Nat) : Makes ⟨.mention name, p⟩ (.mention p name)
  | member (p : Nat) (object : Expr) (property : Text) :
    Makes ⟨.mark .dot, p⟩ (.member p object property)
  | call (function : Text) (p : Nat) (arguments : List Expr) :
    Makes ⟨.name function, p⟩ (.call p function arguments)
  | negate (p : Nat) (operand : Expr) : Makes ⟨.operator .subtract, p⟩ (.negate p operand)
  | binary (op : Operator) (p : Nat) (left right : Expr) :
    Makes ⟨.operator op, p⟩ (.binary p op left right)
  | conditional (p : Nat) (condition whenTrue whenFalse : Expr) :
    Makes ⟨.mark .question, p⟩ (.conditional p condition whenTrue whenFalse)
  | array (p : Nat) (items : List Expr) : Makes ⟨.mark .openBracket, p⟩ (.array p items)

theorem Makes.position {token : Token} {e : Expr} (h : Makes token e) :
    e.position = token.position := by
  cases h <;> rfl

/-! ## Nodes and tokens -/

/-- The nodes are made, one after another, by some of the tokens. -/
def MadeFrom (nodes : List Expr) (tokens : List Token) : Prop :=
  ∃ makers, makers.Sublist tokens ∧ List.Forall₂ Makes makers nodes

namespace MadeFrom

variable {nodes others : List Expr} {tokens more : List Token}

theorem nil (tokens : List Token) : MadeFrom [] tokens :=
  ⟨[], List.nil_sublist tokens, .nil⟩

/-- A token that makes a node. -/
theorem cons {token : Token} {e : Expr} (makes : Makes token e) (h : MadeFrom nodes tokens) :
    MadeFrom (e :: nodes) (token :: tokens) := by
  obtain ⟨makers, inside, made⟩ := h
  exact ⟨token :: makers, inside.cons_cons token, .cons makes made⟩

/-- A token that makes none. -/
theorem skip (token : Token) (h : MadeFrom nodes tokens) : MadeFrom nodes (token :: tokens) := by
  obtain ⟨makers, inside, made⟩ := h
  exact ⟨makers, inside.cons token, made⟩

theorem append (h : MadeFrom nodes tokens) (h' : MadeFrom others more) :
    MadeFrom (nodes ++ others) (tokens ++ more) := by
  obtain ⟨makers, inside, made⟩ := h
  obtain ⟨makers', inside', made'⟩ := h'
  exact ⟨makers ++ makers', inside.append inside', List.rel_append made made'⟩

/-- Tokens that make none. -/
theorem append_left (h : MadeFrom nodes tokens) (more : List Token) :
    MadeFrom nodes (tokens ++ more) := by
  obtain ⟨makers, inside, made⟩ := h
  exact ⟨makers, List.sublist_append_of_sublist_left inside, made⟩

theorem exists_of_mem (h : MadeFrom nodes tokens) {node : Expr} (mem : node ∈ nodes) :
    ∃ token ∈ tokens, Makes token node := by
  obtain ⟨makers, inside, made⟩ := h
  suffices found : ∃ token ∈ makers, Makes token node by
    obtain ⟨token, isMaker, makes⟩ := found
    exact ⟨token, inside.subset isMaker, makes⟩
  clear inside
  induction made with
  | nil => cases mem
  | cons makes _ ih =>
    rcases List.mem_cons.mp mem with rfl | later
    · exact ⟨_, List.mem_cons_self .., makes⟩
    · obtain ⟨token, isMaker, makes⟩ := ih later
      exact ⟨token, List.mem_cons_of_mem _ isMaker, makes⟩

/-- If the tokens stand one after another, so do the nodes. -/
theorem pairwise (h : MadeFrom nodes tokens) (ordered : tokens.Pairwise (·.position < ·.position)) :
    (nodes.map Expr.position).Pairwise (· < ·) := by
  obtain ⟨makers, inside, made⟩ := h
  have same : nodes.map Expr.position = makers.map (·.position) := by
    clear inside
    induction made with
    | nil => rfl
    | cons makes _ ih => rw [List.map_cons, List.map_cons, makes.position, ih]
  rw [same, List.pairwise_map]
  exact ordered.sublist inside

end MadeFrom

/-! ## Phrases -/

theorem madeFrom_of_separated {parts : List (List Token × Expr)} {list : List Token}
    (separated : Separated (parts.map (·.1)) list)
    (each : ∀ part ∈ parts, MadeFrom part.2.inOrder part.1) :
    MadeFrom (Expr.inOrderOfAll (parts.map (·.2))) list := by
  induction parts generalizing list with
  | nil => exact .nil list
  | cons part others ih =>
    obtain ⟨first, later⟩ := List.forall_mem_cons.mp each
    cases others with
    | nil =>
      cases separated
      rw [List.map_cons, Expr.inOrderOfAll, List.map_nil, Expr.inOrderOfAll, List.append_nil]
      exact first
    | cons second others =>
      cases separated with
      | more separated => exact first.append (.skip _ (ih separated later))

/-- The nodes of a tree are made by tokens of its phrase. -/
theorem madeFrom_of_derives {layer : Layer} {tokens : List Token} {e : Expr}
    (h : Derives layer tokens e) : MadeFrom e.inOrder tokens := by
  induction h with
  | next _ _ ih => exact ih
  | conditional _ _ _ ihc iha ihb =>
    exact ihc.append (.cons (.conditional ..) (iha.append (.skip _ ihb)))
  | binary _ _ _ _ ihl ihr => exact ihl.append (.cons (.binary ..) ihr)
  | negate _ ih => exact .cons (.negate ..) ih
  | member _ ih => exact ih.append (.cons (.member ..) (.nil _))
  | number spelling p => exact .cons (.number spelling p) (.nil _)
  | text contents p => exact .cons (.text contents p) (.nil _)
  | mention name p => exact .cons (.mention name p) (.nil _)
  | field name p => exact .cons (.field name p) (.nil _)
  | call _ separated ih =>
    exact .cons (.call ..) (.skip _ ((madeFrom_of_separated separated ih).append_left _))
  | parenthesis _ ih => exact .skip _ (ih.append_left _)
  | array _ separated ih =>
    exact .cons (.array ..) ((madeFrom_of_separated separated ih).append_left _)

/-- In reading order the nodes of a formula that is read stand one after another, so that all its
nodes have different offsets; and at the offset of each node stands a token of the source that makes
it. -/
theorem inOrder_of_parse {source : Text} {e : Expr} (h : parse source = .ok e) :
    (e.inOrder.map Expr.position).Pairwise (· < ·) ∧ e.positions.Nodup ∧
      ∀ node ∈ e.inOrder, ∃ token ∈ tokenize source,
        token.position = node.position ∧ Makes token node := by
  have made : MadeFrom e.inOrder (tokenize source) :=
    (madeFrom_of_derives (derives_of_parse h)).append_left _
  have ordered := made.pairwise (Token.pairwise_tokenize source)
  refine ⟨ordered, ?_, ?_⟩
  · rw [← e.map_position_inOrder_perm.nodup_iff]
    exact ordered.imp Nat.ne_of_lt
  · intro node mem
    obtain ⟨token, isToken, makes⟩ := made.exists_of_mem mem
    exact ⟨token, isToken, makes.position.symm, makes⟩

/-- A formula with a node of every kind, whose nodes stand in parentheses and below one another. -/
theorem inOrder_of_parse_allKinds :
    let source := utf8 "(a.b.c) + -f([1, @m], 'x') * 2 ? (a) : b - c - 1"
    ∃ e, parse source = .ok e ∧ (e.inOrder.map Expr.position).Pairwise (· < ·) ∧
      e.positions.Nodup ∧
      (∀ node ∈ e.inOrder, ∃ token ∈ tokenize source,
        token.position = node.position ∧ Makes token node) ∧
      e.inOrder.map Expr.position =
        [1, 2, 4, 8, 10, 11, 13, 14, 17, 22, 27, 29, 31, 34, 39, 41, 43, 45, 47] := by
  intro source
  obtain ⟨e, parsed⟩ : ∃ e, parse source = .ok e := ⟨_, rfl⟩
  obtain ⟨ordered, distinct, made⟩ := inOrder_of_parse parsed
  refine ⟨e, parsed, ordered, distinct, made, ?_⟩
  cases parsed
  decide +kernel

end ComputedFields
