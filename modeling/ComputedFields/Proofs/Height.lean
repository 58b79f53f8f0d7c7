import ComputedFields.Proofs.Completeness
import ComputedFields.Proofs.Scanning
import ComputedFields.Proofs.Substitution
import Mathlib.Order.Bounds.Defs
import Mathlib.Tactic.Ring

/-!
# `ComputedFields.Proofs.Height` — how high the tree of a formula may be

Whatever walks over a tree goes as deep as the tree is high, and the limit on constructs that are
open at once is all that keeps trees low. It does not keep them as low as itself. The links of a
chain are counted only while the chain is read, and by then its first operand has closed all that it
opened, although in the tree it is below every link. So an operand of full height may come under as
many operators again, and this once more inside every pair of parentheses: the heights of nested
expressions add up to about the square of the limit.

What the limit does bound is the height when steps into a left operand, into the object of a property
and into a condition are free. `Expr.extent` counts such a step as any number of nodes, so that one
induction over the levels of the parser gives both bounds: for the nodes that are counted and, with
one node for such a step, for the height.

* `Expr.height` — the nodes on the longest way from the root to a leaf;
* `Expr.uncounted` — the free steps on such a way;
* `Parser.tallest`, `Parser.level_bounds` — what a number of constructs allows, and that it is kept;
* `Parser.expression_tall` — for every number of constructs there is an expression as high as that;
* `height_le_of_parse`, `isGreatest_height` — the bounds, and the greatest height of all;
* `not_height_le_depth` — a sum that is higher than the limit.
-/

namespace ComputedFields

namespace Expr

/-! ## Measures of trees -/

mutual

/-- The number of nodes on the longest way from the root to a leaf. -/
def height : Expr → Nat
  | .number .. | .text .. | .field .. | .mention .. => 1
  | .member _ object _ => object.height + 1
  | .call _ _ arguments => heightOfAll arguments + 1
  | .negate _ operand => operand.height + 1
  | .binary _ _ left right => max left.height right.height + 1
  | .conditional _ c a b => max c.height (max a.height b.height) + 1
  | .array _ items => heightOfAll items + 1

/-- The height of the highest of several trees. -/
def heightOfAll : List Expr → Nat
  | [] => 0
  | e :: rest => max e.height (heightOfAll rest)

end

mutual

/-- The greatest number of steps from the root towards a leaf that lead into a left operand, an
object of a property or a condition, when that is more than one node high. -/
def uncounted : Expr → Nat
  | .number .. | .text .. | .field .. | .mention .. => 0
  | .member _ object _ => object.uncounted + if object.height = 1 then 0 else 1
  | .call _ _ arguments => uncountedOfAll arguments
  | .negate _ operand => operand.uncounted
  | .binary _ _ left right =>
    max (left.uncounted + if left.height = 1 then 0 else 1) right.uncounted
  | .conditional _ c a b =>
    max (c.uncounted + if c.height = 1 then 0 else 1) (max a.uncounted b.uncounted)
  | .array _ items => uncountedOfAll items

/-- The greatest number of such steps in one of several trees. -/
def uncountedOfAll : List Expr → Nat
  | [] => 0
  | e :: rest => max e.uncounted (uncountedOfAll rest)

end

mutual

/-- The height, when a step into a left operand, an object or a condition counts as `back` nodes. A
property is at least two nodes high, as its point opens a construct. -/
def extent (back : Nat) : Expr → Nat
  | .number .. | .text .. | .field .. | .mention .. => 1
  | .member _ object _ => max (object.extent back + back) 2
  | .call _ _ arguments => extentOfAll back arguments + 1
  | .negate _ operand => operand.extent back + 1
  | .binary _ _ left right => max (left.extent back + back) (right.extent back + 1)
  | .conditional _ c a b =>
    max (c.extent back + back) (max (a.extent back) (b.extent back) + 1)
  | .array _ items => extentOfAll back items + 1

/-- The greatest extent of several trees. -/
def extentOfAll (back : Nat) : List Expr → Nat
  | [] => 0
  | e :: rest => max (e.extent back) (extentOfAll back rest)

end

theorem height_pos (e : Expr) : 0 < e.height := by
  cases e <;> simp [height]

theorem extent_pos (back : Nat) (e : Expr) : 0 < e.extent back := by
  cases e <;> simp [extent]

theorem extentOfAll_le {back h : Nat} {es : List Expr} (each : ∀ e ∈ es, e.extent back ≤ h) :
    extentOfAll back es ≤ h := by
  induction es with
  | nil => exact Nat.zero_le h
  | cons e rest ih =>
    obtain ⟨first, others⟩ := List.forall_mem_cons.mp each
    exact Nat.max_le.mpr ⟨first, ih others⟩

theorem heightOfAll_eq_extentOfAll {es : List Expr} (each : ∀ e ∈ es, e.height = e.extent 1) :
    heightOfAll es = extentOfAll 1 es := by
  induction es with
  | nil => rfl
  | cons e rest ih =>
    obtain ⟨first, others⟩ := List.forall_mem_cons.mp each
    rw [heightOfAll, extentOfAll, first, ih others]

/-- With one node for each step, the extent is the height. -/
theorem height_eq_extent (e : Expr) : e.height = e.extent 1 := by
  induction e with
  | number | text | field | mention => rfl
  | member p object property ih =>
    have pos := object.height_pos
    rw [height, extent]
    omega
  | call p function arguments ih => rw [height, extent, heightOfAll_eq_extentOfAll ih]
  | negate p operand ih => rw [height, extent, ih]
  | binary p op left right ihl ihr =>
    rw [height, extent]
    omega
  | conditional p c a b ihc iha ihb =>
    rw [height, extent]
    omega
  | array p items ih => rw [height, extent, heightOfAll_eq_extentOfAll ih]

theorem heightOfAll_le_add {es : List Expr}
    (each : ∀ e ∈ es, e.height ≤ e.extent 0 + e.uncounted) :
    heightOfAll es ≤ extentOfAll 0 es + uncountedOfAll es := by
  induction es with
  | nil => exact Nat.zero_le _
  | cons e rest ih =>
    obtain ⟨first, others⟩ := List.forall_mem_cons.mp each
    have le := ih others
    rw [heightOfAll, extentOfAll, uncountedOfAll]
    omega

/-- A way to a leaf is made of steps that are counted and steps that are not. A step that is not
counted, into a tree of one node, is no longer than one beside it that is counted. -/
theorem height_le_extent_add_uncounted (e : Expr) : e.height ≤ e.extent 0 + e.uncounted := by
  induction e with
  | number | text | field | mention => exact Nat.le_refl 1
  | member p object property ih =>
    rw [height, extent, uncounted]
    split <;> omega
  | call p function arguments ih =>
    have le := heightOfAll_le_add ih
    rw [height, extent, uncounted]
    omega
  | negate p operand ih =>
    rw [height, extent, uncounted]
    omega
  | binary p op left right ihl ihr =>
    have pos := right.height_pos
    rw [height, extent, uncounted]
    split <;> omega
  | conditional p c a b ihc iha ihb =>
    have pos := a.height_pos
    rw [height, extent, uncounted]
    split <;> omega
  | array p items ih =>
    have le := heightOfAll_le_add ih
    rw [height, extent, uncounted]
    omega

end Expr

namespace Parser

/-! ## The extents of a level -/

/-- The extent that an expression may have which may open `n` constructs: the constructs themselves
and, at every level, the links of a path and those of a chain once more. -/
def tallest (back n : Nat) : Nat := n + back * (n * n - 1)

theorem tallest_succ (back : Nat) {n : Nat} (pos : 0 < n) :
    tallest back (n + 1) = tallest back n + 2 * (back * n) + back + 1 := by
  have square : (n + 1) * (n + 1) - 1 = n * n - 1 + (2 * n + 1) := by
    have next : (n + 1) * (n + 1) = n * n + 2 * n + 1 := by ring
    have product : 0 < n * n := Nat.mul_pos pos pos
    omega
  rw [tallest, tallest, square]
  ring

theorem tallest_lt (back n : Nat) : tallest back n + 2 * (back * n) < tallest back (n + 1) := by
  rcases Nat.eq_zero_or_pos n with rfl | pos
  · simp [tallest]
  · rw [tallest_succ back pos]
    omega

/-- The extents of what the parsers give that may open `n` constructs. A chain of operators may open
all of them after its first operand has closed all that it opened itself, and so may the properties
of a value. -/
structure Level.Bounds (back stop n : Nat) (l : Level) : Prop where
  expression : ∀ tokens,
    Keeps stop (fun _ e _ => e.extent back ≤ tallest back n) tokens (l.expression tokens)
  chain : ∀ least tokens,
    Keeps stop (fun _ e _ => e.extent back ≤ tallest back n + 2 * (back * n) + 1) tokens
      (l.chain least tokens)
  links : ∀ least left tokens,
    Keeps stop
      (fun _ e _ => e.extent back ≤
        max (left.extent back) (tallest back n + back * n + 1) + back * n)
      tokens (l.links least left tokens)
  operand : ∀ tokens,
    Keeps stop (fun _ e _ => e.extent back ≤ tallest back n + back * n + 1) tokens
      (l.operand tokens)
  members : ∀ object tokens,
    Keeps stop
      (fun _ e _ => e.extent back ≤ max (object.extent back) (tallest back n + 1) + back * n)
      tokens (l.members object tokens)

theorem Listed.extentOfAll_le {back h : Nat} {construct : Unclosed} {used : List Token}
    {trees : List Expr} (listed : Listed (fun _ e => e.extent back ≤ h) construct used trees) :
    Expr.extentOfAll back trees ≤ h := by
  obtain ⟨parts, list, q, -, rfl, -, each⟩ := listed
  refine Expr.extentOfAll_le fun e mem => ?_
  obtain ⟨part, inParts, rfl⟩ := List.mem_map.mp mem
  exact each part inParts

/-- Delimiters add one node to the highest of the expressions between them. -/
theorem encloses_extent (back h : Nat) :
    Encloses (fun _ e => e.extent back ≤ h) (fun _ e => e.extent back ≤ h + 1) where
  number _ _ := Nat.le_add_left ..
  text _ _ := Nat.le_add_left ..
  mention _ _ := Nat.le_add_left ..
  field _ _ := Nat.le_add_left ..
  call _ _ _ _ _ listed := Nat.succ_le_succ listed.extentOfAll_le
  parenthesis _ _ _ _ inner := Nat.le_succ_of_le inner
  array _ _ _ listed := Nat.succ_le_succ listed.extentOfAll_le

section

variable {back stop n : Nat} {below : Option Level}
  (h : ∀ l ∈ below, ∃ m, n = m + 1 ∧ l.Bounds back stop m)
include h

theorem expressionOf_bounds (tokens : List Token) :
    Keeps stop (fun _ e _ => e.extent back ≤ tallest back n) tokens
      (expressionOf stop below tokens) := by
  match below, h with
  | none, _ => exact .fail
  | some l, h =>
    obtain ⟨m, rfl, bounds⟩ := h l rfl
    have step := tallest_lt back m
    refine conditional_keeps bounds.expression (bounds.chain 1) ?_ ?_ tokens
    · intro used c condition
      omega
    · intro used c p used₁ a q used₂ b condition whenTrue whenFalse
      -- there are branches, so that it was allowed to open a construct for them
      have pos : 0 < m := by
        have some := a.extent_pos back
        rcases Nat.eq_zero_or_pos m with rfl | pos
        · have none : tallest back 0 = 0 := by simp [tallest]
          omega
        · exact pos
      rw [tallest_succ back pos, Expr.extent]
      omega

theorem membersOf_bounds (object : Expr) (tokens : List Token) :
    Keeps stop
      (fun _ e _ => e.extent back ≤ max (object.extent back) (tallest back n + 1) + back * n)
      tokens (membersOf stop below object tokens) := by
  unfold membersOf
  split
  · next p rest =>
    split
    · exact .error
    · next l =>
      obtain ⟨m, rfl, bounds⟩ := h l rfl
      split
      · next property q rest =>
        refine Keeps.append [_, _] ((bounds.members _ rest).mono fun used e left high => ?_)
        have step := tallest_lt back m
        rw [Expr.extent] at high
        rw [Nat.mul_succ]
        omega
      · exact Keeps.append [_] .fail
  · exact .pure (by omega)

theorem operandOf_bounds {expression : Step Expr}
    (he : ∀ tokens, Keeps stop (fun _ e _ => e.extent back ≤ tallest back n) tokens
      (expression tokens))
    (tokens : List Token) :
    Keeps stop (fun _ e _ => e.extent back ≤ tallest back n + back * n + 1) tokens
      (operandOf stop below expression tokens) := by
  unfold operandOf
  split
  · next p rest =>
    split
    · exact .error
    · next l =>
      obtain ⟨m, rfl, bounds⟩ := h l rfl
      refine Keeps.append [_] ((bounds.operand rest).bind fun used e left high => .pure ?_)
      have step := tallest_lt back m
      rw [Expr.extent, Nat.mul_succ]
      omega
  · refine (primary_keeps he (encloses_extent back _) _).bind fun used e rest primary => ?_
    refine (membersOf_bounds h e rest).mono fun more e' left high => ?_
    omega

theorem linksOf_bounds (least : Nat) (left : Expr) (tokens : List Token) :
    Keeps stop
      (fun _ e _ => e.extent back ≤
        max (left.extent back) (tallest back n + back * n + 1) + back * n)
      tokens (linksOf below least left tokens) := by
  unfold linksOf
  split
  · next op p rest =>
    split
    · exact .pure (by omega)
    · split
      · exact .error
      · next l =>
        obtain ⟨m, rfl, bounds⟩ := h l rfl
        have step := tallest_lt back m
        refine Keeps.append [_] ((bounds.chain _ rest).bind fun used right rest' operand => ?_)
        refine (bounds.links least _ rest').mono fun more e left' high => ?_
        rw [Expr.extent] at high
        rw [Nat.mul_succ]
        omega
  · exact .pure (by omega)

theorem Level.ofBelow_bounds : (Level.ofBelow stop below).Bounds back stop n := by
  have operand := operandOf_bounds h (expressionOf_bounds h)
  exact
    { expression := expressionOf_bounds h
      links := linksOf_bounds h
      operand := operand
      members := membersOf_bounds h
      chain := fun least tokens => (operand tokens).bind fun used e rest high =>
        (linksOf_bounds h least e rest).mono fun more e' left linked => by omega }

end

theorem level_bounds (back stop : Nat) : ∀ n, (level stop n).Bounds back stop n
  | 0 => Level.ofBelow_bounds fun _ none => nomatch none
  | n + 1 => Level.ofBelow_bounds fun _ below =>
    ⟨n, rfl, Option.some.inj below ▸ level_bounds back stop n⟩

end Parser

theorem extent_le_of_parse (back : Nat) {source : Text} {e : Expr} (h : parse source = .ok e) :
    e.extent back ≤ Parser.tallest back Parser.depth := by
  have bounds := Parser.formula_keeps
    (Parser.level_bounds back source.length Parser.depth).expression (Token.scan source)
  rwa [← parse, h] at bounds

namespace Parser

/-! ## Expressions of the greatest height

A path, under as many operators of a sum as there are constructs left, and then under a condition:
the same again inside the call that the path starts with. Where its tokens stand in a source does not
matter, so that only their lexemes are given.
-/

/-- Two lexemes, a number of times. -/
def pairs (first second : Lexeme) : Nat → List Lexeme
  | 0 => []
  | n + 1 => first :: second :: pairs first second n

/-- An expression that is as high as `n + 1` constructs allow: `a`, and then
`f(a).x + a ? a : a`, and `f(f(a).x + a ? a : a).x.x + a + a ? a : a`. -/
def tall : Nat → List Lexeme
  | 0 => [.name (utf8 "a")]
  | n + 1 =>
    .name (utf8 "f") :: .mark .openParen :: (tall n ++ .mark .closeParen ::
      (pairs (.mark .dot) (.name (utf8 "x")) (n + 1) ++
        (pairs (.operator .add) (.name (utf8 "a")) (n + 1) ++
          [.mark .question, .name (utf8 "a"), .mark .colon, .name (utf8 "a")])))

theorem oneByte_of_mem_pairs {first second : Lexeme} (h : first.OneByte) (h' : second.OneByte)
    {n : Nat} : ∀ lexeme ∈ pairs first second n, lexeme.OneByte := by
  induction n with
  | zero => exact List.forall_mem_nil _
  | succ n ih => exact List.forall_mem_cons.mpr ⟨h, List.forall_mem_cons.mpr ⟨h', ih⟩⟩

theorem oneByte_of_mem_tall {n : Nat} : ∀ lexeme ∈ tall n, lexeme.OneByte := by
  have a : Lexeme.OneByte (.name (utf8 "a")) := ⟨_, rfl, rfl, fun _ => rfl⟩
  have f : Lexeme.OneByte (.name (utf8 "f")) := ⟨_, rfl, rfl, fun _ => rfl⟩
  have x : Lexeme.OneByte (.name (utf8 "x")) := ⟨_, rfl, rfl, fun _ => rfl⟩
  have add : Lexeme.OneByte (.operator .add) := ⟨_, rfl, rfl, fun _ => rfl⟩
  induction n with
  | zero => exact List.forall_mem_singleton.mpr a
  | succ n ih =>
    simp only [tall, List.forall_mem_cons, List.forall_mem_append]
    exact ⟨f, Lexeme.oneByte_mark _, ih, Lexeme.oneByte_mark _, oneByte_of_mem_pairs (Lexeme.oneByte_mark _) x,
      oneByte_of_mem_pairs add a, Lexeme.oneByte_mark _, a, Lexeme.oneByte_mark _, a, List.forall_mem_nil _⟩

section

variable {stop : Nat}

/-- A call of one argument is read as that, and then its properties. -/
theorem operand_call (p q : Nat) (function : Text) {n r : Nat} {first : Token}
    {tokens rest : List Token} {e : Expr} (other : first.lexeme ≠ .mark .closeParen)
    (h : (level stop n).expression (first :: tokens) = .ok (e, ⟨.mark .closeParen, r⟩ :: rest)) :
    (level stop n).operand (⟨.name function, p⟩ :: ⟨.mark .openParen, q⟩ :: first :: tokens) =
      (level stop n).members (.call p function [e]) rest := by
  rw [level_eq] at h ⊢
  have argument : items stop (Level.ofBelow stop (below? stop n)).expression .arguments
      (first :: tokens) = .ok ([e], rest) := by
    rw [items, close_of_ne other]
    exact bind_of_eq_ok h rfl
  have call : primary stop (Level.ofBelow stop (below? stop n)).expression
      (⟨.name function, p⟩ :: ⟨.mark .openParen, q⟩ :: first :: tokens) =
        .ok (.call p function [e], rest) := bind_of_eq_ok argument rfl
  exact bind_of_eq_ok call rfl

theorem members_pairs {n : Nat} {tokens : List Token}
    (h : tokens.map (·.lexeme) = pairs (.mark .dot) (.name (utf8 "x")) n) (stop : Nat)
    (object : Expr) :
    ∃ e, e.height = object.height + n ∧ ∀ rest, Lacks .dot rest →
      (level stop n).members object (tokens ++ rest) = .ok (e, rest) := by
  induction n generalizing tokens object with
  | zero =>
    obtain rfl := List.map_eq_nil_iff.mp h
    exact ⟨object, rfl, fun _ => level_members_of_lacks 0 object⟩
  | succ n ih =>
    simp only [pairs, List.map_eq_cons_iff] at h
    obtain ⟨⟨_, p⟩, _, rfl, rfl, ⟨_, q⟩, tokens, rfl, rfl, later⟩ := h
    obtain ⟨e, height, reads⟩ := ih later (.member p object (utf8 "x"))
    refine ⟨e, ?_, reads⟩
    rw [height, Expr.height]
    omega

theorem follows_pairs {n : Nat} {tokens rest : List Token}
    (h : tokens.map (·.lexeme) = pairs (.operator .add) (.name (utf8 "a")) n)
    (follows : Follows 0 rest) : Follows 2 (tokens ++ rest) := by
  cases n with
  | zero =>
    obtain rfl := List.map_eq_nil_iff.mp h
    exact follows.mono (Nat.zero_le 2)
  | succ n =>
    obtain ⟨⟨_, p⟩, _, rfl, rfl, _⟩ := List.map_eq_cons_iff.mp h
    exact .of_operator .add p _

theorem links_pairs {n : Nat} {tokens : List Token}
    (h : tokens.map (·.lexeme) = pairs (.operator .add) (.name (utf8 "a")) n) (stop : Nat)
    (left : Expr) :
    ∃ e, e.height = left.height + n ∧ ∀ rest, Follows 0 rest →
      (level stop n).links 1 left (tokens ++ rest) = .ok (e, rest) := by
  induction n generalizing tokens left with
  | zero =>
    obtain rfl := List.map_eq_nil_iff.mp h
    exact ⟨left, rfl, fun _ follows => level_links_of_stopsBelow 0 left follows.operator⟩
  | succ n ih =>
    simp only [pairs, List.map_eq_cons_iff] at h
    obtain ⟨⟨_, p⟩, _, rfl, rfl, ⟨_, q⟩, tokens, rfl, rfl, later⟩ := h
    obtain ⟨e, height, reads⟩ := ih later (.binary p .add left (.field q (utf8 "a")))
    refine ⟨e, ?_, fun rest follows => ?_⟩
    · have pos := left.height_pos
      rw [height]
      simp only [Expr.height]
      omega
    · exact bind_of_eq_ok (chain_field _ q n (follows_pairs later follows)) (reads rest follows)

theorem exists_first_tall {n : Nat} {tokens : List Token} (h : tokens.map (·.lexeme) = tall n) :
    ∃ first rest, tokens = first :: rest ∧ first.lexeme ≠ .mark .closeParen := by
  cases n <;>
  · obtain ⟨first, rest, rfl, name, -⟩ := List.map_eq_cons_iff.mp h
    exact ⟨first, rest, rfl, name ▸ nofun⟩

/-- A call of a tall expression, with as many properties and then as many summands as there are
constructs left. -/
theorem chain_tall (p q r : Nat) {m n : Nat} {inner dots plus : List Token} {e : Expr}
    (hInner : inner.map (·.lexeme) = tall m)
    (hDots : dots.map (·.lexeme) = pairs (.mark .dot) (.name (utf8 "x")) n)
    (hPlus : plus.map (·.lexeme) = pairs (.operator .add) (.name (utf8 "a")) n)
    (reads : ∀ rest, Ends rest → (level stop n).expression (inner ++ rest) = .ok (e, rest)) :
    ∃ sum, sum.height = e.height + 2 * n + 1 ∧ ∀ rest, Follows 0 rest →
      (level stop n).chain 1
        (⟨.name (utf8 "f"), p⟩ :: ⟨.mark .openParen, q⟩ :: (inner ++ ⟨.mark .closeParen, r⟩ ::
          (dots ++ (plus ++ rest)))) = .ok (sum, rest) := by
  obtain ⟨first, inner, rfl, other⟩ := exists_first_tall hInner
  obtain ⟨path, pathHeight, members⟩ := members_pairs hDots stop (.call p (utf8 "f") [e])
  obtain ⟨sum, sumHeight, links⟩ := links_pairs hPlus stop path
  refine ⟨sum, ?_, fun rest follows => ?_⟩
  · simp only [Expr.height, Expr.heightOfAll] at pathHeight
    omega
  · have closed := reads _ (.close .arguments r (dots ++ (plus ++ rest)))
    have call := operand_call p q (utf8 "f") other closed
    have operand := call.trans (members _ (follows_pairs hPlus follows).dot)
    have linked := links rest follows
    rw [level_eq] at operand linked ⊢
    exact bind_of_eq_ok operand linked

/-- The bound on the heights of expressions is attained at every level. -/
theorem expression_tall {n : Nat} {tokens : List Token} (h : tokens.map (·.lexeme) = tall n)
    (stop : Nat) :
    ∃ e, e.height = tallest 1 (n + 1) ∧ ∀ rest, Ends rest →
      (level stop (n + 1)).expression (tokens ++ rest) = .ok (e, rest) := by
  induction n generalizing tokens with
  | zero =>
    simp only [tall, List.map_eq_cons_iff, List.map_eq_nil_iff] at h
    obtain ⟨⟨_, p⟩, _, rfl, rfl, rfl⟩ := h
    exact ⟨.field p (utf8 "a"), rfl, fun _ => expression_field _ p 0⟩
  | succ n ih =>
    -- one token for each lexeme of the outermost expression, and lists for what is repeated
    simp only [tall, List.map_eq_cons_iff, List.map_eq_append_iff, List.map_eq_nil_iff] at h
    obtain ⟨⟨_, p⟩, _, rfl, rfl, ⟨_, q⟩, _, rfl, rfl, inner, _, rfl, hInner, ⟨_, r⟩, _, rfl, rfl,
      dots, _, rfl, hDots, plus, _, rfl, hPlus, ⟨_, s⟩, _, rfl, rfl, ⟨_, t⟩, _, rfl, rfl,
      ⟨_, u⟩, _, rfl, rfl, ⟨_, v⟩, _, rfl, rfl, rfl⟩ := h
    obtain ⟨argument, argumentHeight, reads⟩ := ih hInner
    obtain ⟨sum, sumHeight, condition⟩ := chain_tall p q r hInner hDots hPlus reads
    refine ⟨.conditional s sum (.field t (utf8 "a")) (.field v (utf8 "a")), ?_, fun rest ends => ?_⟩
    · have step : tallest 1 (n + 1 + 1) = tallest 1 (n + 1) + 2 * (1 * (n + 1)) + 1 + 1 :=
        tallest_succ 1 n.succ_pos
      simp only [Expr.height]
      omega
    · simp only [List.append_assoc, List.cons_append, List.nil_append]
      refine bind_of_eq_ok (condition _ (.question 0 s _)) ?_
      refine bind_of_eq_ok (expression_field _ t n (.close .conditional u _)) ?_
      exact bind_of_eq_ok (expression_field _ v n ends) rfl

/-- With all the constructs that may be open at once, the bound is attained by a formula. -/
theorem formula_tall {n : Nat} (full : depth = n + 1) {tokens : List Token}
    (h : tokens.map (·.lexeme) = tall n) (stop : Nat) :
    ∃ e, formula stop tokens = .ok e ∧ e.height = tallest 1 depth := by
  obtain ⟨e, height, reads⟩ := expression_tall h stop
  have whole := reads [] .nil
  obtain ⟨first, rest, rfl, -⟩ := exists_first_tall h
  rw [List.append_nil, ← full] at whole
  exact ⟨e, bind_of_eq_ok whole rfl, full ▸ height⟩

end

end Parser

/-- However a source mixes its constructs, the tree that it is read as is no higher than the 256
constructs that may be open at once and the steps that they do not count. So it is within the limit
when the left operands, the objects of properties and the conditions are single nodes. In any case it
is at most 65791 nodes high, which is `256 * 257 - 1`. -/
theorem height_le_of_parse {source : Text} {e : Expr} (h : parse source = .ok e) :
    e.height ≤ Parser.depth + e.uncounted ∧ e.height ≤ 65791 := by
  have counted : e.extent 0 ≤ Parser.tallest 0 Parser.depth := extent_le_of_parse 0 h
  have all : e.extent 1 ≤ 65791 := extent_le_of_parse 1 h
  rw [Parser.tallest, Nat.zero_mul, Nat.add_zero] at counted
  have split := e.height_le_extent_add_uncounted
  exact ⟨by omega, e.height_eq_extent ▸ all⟩

/-- A sum of 256 terms, of which the first stands under 255 minuses. -/
def minusesInSum : Text :=
  List.replicate 255 '-'.toUInt8 ++ utf8 "a" ++ (List.replicate 255 (utf8 "+b")).flatten

/-- The minuses are closed again when the first operator of the sum opens a construct, although they
stand below it in the tree. -/
theorem exists_height_of_minusesInSum :
    ∃ e, parse minusesInSum = .ok e ∧ e.height = 511 ∧ e.uncounted = 255 := by
  have measures : (parse minusesInSum).toOption.map (fun e => (e.height, e.uncounted)) =
      some (511, 255) := by decide +kernel
  match parse minusesInSum, measures with
  | .ok e, measures =>
    have both := Prod.mk.inj (Option.some.inj measures)
    exact ⟨e, rfl, both.1, both.2⟩

/-- Of this sum, the first bound is the height. -/
theorem height_le_of_parse_minusesInSum :
    ∃ e, parse minusesInSum = .ok e ∧ e.height = 511 ∧ e.uncounted = 255 ∧
      e.height ≤ Parser.depth + e.uncounted ∧ e.height ≤ 65791 := by
  obtain ⟨e, parsed, height, uncounted⟩ := exists_height_of_minusesInSum
  exact ⟨e, parsed, height, uncounted, height_le_of_parse parsed⟩

/-- The number of constructs that may be open at once does not bound the height. -/
theorem not_height_le_depth :
    ¬ ∀ (source : Text) (e : Expr), parse source = .ok e → e.height ≤ Parser.depth := by
  intro bounded
  obtain ⟨e, parsed, height, -⟩ := exists_height_of_minusesInSum
  have low := bounded minusesInSum e parsed
  rw [height] at low
  exact absurd low (by decide)

/-- The second bound is the greatest height that there is. -/
theorem isGreatest_height :
    IsGreatest {h | ∃ source e, parse source = .ok e ∧ e.height = h} 65791 := by
  constructor
  · have lexemes := Lexeme.map_lexeme_scanFrom_spaced (Parser.oneByte_of_mem_tall (n := 255)) 0
    obtain ⟨e, read, height⟩ := Parser.formula_tall rfl lexemes _
    exact ⟨_, e, read, height⟩
  · rintro _ ⟨source, e, read, rfl⟩
    rw [e.height_eq_extent]
    exact extent_le_of_parse 1 read

end ComputedFields
