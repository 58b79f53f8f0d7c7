import ComputedFields.Expr.Printer
import ComputedFields.Proofs.JsonText
import ComputedFields.Proofs.Offers
import ComputedFields.Proofs.ReadingOrder

/-!
# `ComputedFields.Proofs.SExpressions` — an s-expression tells its tree

A tree is written without counts: the arguments of a call and the items of an array stand behind one
another with spaces between them, and texts may hold any bytes, also those that structure is written
with. But the first bytes of what is written for a node tell its kind, and where it ends does not
depend on what follows it, as long as that is no byte of a name or a number: names and numbers take
all such bytes, a text ends at its closing quote, and all else has a bracket of its own at its end.
So nodes can be read off the text one after another, and two formulas with one s-expression are the
same tree, but for the offsets of their nodes and for how their numbers are spelled.

* `Expr.Alike` — trees that differ in their offsets only;
* `Expr.Plain` — trees whose names have the shape of names and whose numbers are finite;
* `Expr.Tag`, `Expr.tag?_render` — the first bytes tell the kind of a node;
* `Expr.readOnce` — one node is read off a text in one way;
* `Expr.render_eq_iff_of_parse` — the s-expressions of two formulas.
-/

namespace ComputedFields

open Text

/-! ## Names in a source -/

/-- The name of a lexeme has the shape of a name. -/
def Lexeme.Named : Lexeme → Prop
  | .name s | .mention s => IsName s
  | _ => True

theorem Token.named_of_mem_scan {source : Text} {token : Token} (mem : token ∈ scan source) :
    token.lexeme.Named := by
  obtain ⟨b, s, read⟩ := exists_start_of_mem_scanFrom mem
  unfold Lexeme.Named
  split
  · next same => exact Lexeme.isName_of_start (.inl (read.trans same))
  · next same => exact Lexeme.isName_of_start (.inr (read.trans same))
  · trivial

/-- What is in a part is in the list. -/
theorem mem_of_mem_part {parts : List (List Token)} {list : List Token}
    (h : Separated parts list) {part : List Token} (isPart : part ∈ parts) {token : Token}
    (mem : token ∈ part) : token ∈ list := by
  induction h with
  | nil => cases isPart
  | one =>
    obtain rfl := List.mem_singleton.mp isPart
    exact mem
  | more _ ih =>
    rcases List.mem_cons.mp isPart with rfl | later
    · exact List.mem_append_left _ mem
    · exact List.mem_append_right _ (List.mem_cons_of_mem _ (ih later))

namespace Expr

/-- Two trees are alike when they differ in the offsets of their nodes only, where numbers that are
written in the same way are not told apart. -/
inductive Alike : Expr → Expr → Prop
  | number {p q : Nat} {x y : Float} : Number.write x = Number.write y →
    Alike (.number p x) (.number q y)
  | text (p q : Nat) (contents : Text) : Alike (.text p contents) (.text q contents)
  | field (p q : Nat) (name : Text) : Alike (.field p name) (.field q name)
  | mention (p q : Nat) (name : Text) : Alike (.mention p name) (.mention q name)
  | member (p q : Nat) {object object' : Expr} (property : Text) : Alike object object' →
    Alike (.member p object property) (.member q object' property)
  | call (p q : Nat) (function : Text) {arguments arguments' : List Expr} :
    List.Forall₂ Alike arguments arguments' →
    Alike (.call p function arguments) (.call q function arguments')
  | negate (p q : Nat) {operand operand' : Expr} : Alike operand operand' →
    Alike (.negate p operand) (.negate q operand')
  | binary (p q : Nat) (op : Operator) {left left' right right' : Expr} : Alike left left' →
    Alike right right' → Alike (.binary p op left right) (.binary q op left' right')
  | conditional (p q : Nat) {c c' a a' b b' : Expr} : Alike c c' → Alike a a' → Alike b b' →
    Alike (.conditional p c a b) (.conditional q c' a' b')
  | array (p q : Nat) {items items' : List Expr} : List.Forall₂ Alike items items' →
    Alike (.array p items) (.array q items')

/-- The number of a leaf. -/
def number? : Expr → Option Float
  | .number _ x => some x
  | _ => none

/-- The numbers in a tree are finite. -/
def FiniteNumbers (e : Expr) : Prop := ∀ x ∈ e.inOrder.filterMap number?, x.isFinite = true

instance : DecidablePred FiniteNumbers := fun e =>
  inferInstanceAs (Decidable (∀ x ∈ e.inOrder.filterMap number?, x.isFinite = true))

/-- The names in a tree have the shape of names, and its numbers are finite. -/
inductive Plain : Expr → Prop
  | number (p : Nat) {x : Float} : x.isFinite = true → Plain (.number p x)
  | text (p : Nat) (contents : Text) : Plain (.text p contents)
  | field (p : Nat) {name : Text} : IsName name → Plain (.field p name)
  | mention (p : Nat) {name : Text} : IsName name → Plain (.mention p name)
  | member (p : Nat) {object : Expr} {property : Text} : Plain object → IsName property →
    Plain (.member p object property)
  | call (p : Nat) {function : Text} {arguments : List Expr} : IsName function →
    (∀ e ∈ arguments, Plain e) → Plain (.call p function arguments)
  | negate (p : Nat) {operand : Expr} : Plain operand → Plain (.negate p operand)
  | binary (p : Nat) (op : Operator) {left right : Expr} : Plain left → Plain right →
    Plain (.binary p op left right)
  | conditional (p : Nat) {c a b : Expr} : Plain c → Plain a → Plain b →
    Plain (.conditional p c a b)
  | array (p : Nat) {items : List Expr} : (∀ e ∈ items, Plain e) → Plain (.array p items)

/-! ## Formulas are plain -/

theorem FiniteNumbers.part {e part : Expr} (h : e.FiniteNumbers)
    (inside : ∀ node ∈ part.inOrder, node ∈ e.inOrder) : part.FiniteNumbers := by
  intro x mem
  obtain ⟨node, isNode, number⟩ := List.mem_filterMap.mp mem
  exact h x (List.mem_filterMap.mpr ⟨node, inside node isNode, number⟩)

theorem FiniteNumbers.items {e : Expr} {items : List Expr} (h : e.FiniteNumbers)
    (inside : ∀ node ∈ inOrderOfAll items, node ∈ e.inOrder) : ∀ e ∈ items, e.FiniteNumbers := by
  intro item mem
  refine h.part fun node isNode => inside node ?_
  rw [inOrderOfAll_eq]
  exact List.mem_flatMap_of_mem mem isNode

theorem plain_of_derives {layer : Layer} {tokens : List Token} {e : Expr}
    (h : Derives layer tokens e) (named : ∀ token ∈ tokens, token.lexeme.Named)
    (finite : e.FiniteNumbers) : e.Plain := by
  have listed {parts : List (List Token × Expr)} {list : List Token}
      (separated : Separated (parts.map (·.1)) list) (named : ∀ token ∈ list, token.lexeme.Named)
      (finite : ∀ e ∈ parts.map (·.2), e.FiniteNumbers)
      (each : ∀ part ∈ parts, (∀ token ∈ part.1, token.lexeme.Named) → part.2.FiniteNumbers →
        part.2.Plain) : ∀ e ∈ parts.map (·.2), e.Plain := by
    rintro _ mem
    obtain ⟨part, isPart, rfl⟩ := List.mem_map.mp mem
    refine each part isPart (fun token inside => named token ?_) (finite _ mem)
    exact mem_of_mem_part separated (List.mem_map_of_mem isPart) inside
  induction h with
  | next _ _ ih => exact ih named finite
  | conditional _ _ _ ihc iha ihb =>
    simp only [List.forall_mem_append, List.forall_mem_cons] at named
    obtain ⟨namedC, -, namedA, -, namedB⟩ := named
    exact .conditional _ (ihc namedC (finite.part (by simp +contextual [inOrder])))
      (iha namedA (finite.part (by simp +contextual [inOrder])))
      (ihb namedB (finite.part (by simp +contextual [inOrder])))
  | binary _ _ _ _ ihl ihr =>
    simp only [List.forall_mem_append, List.forall_mem_cons] at named
    obtain ⟨namedL, -, namedR⟩ := named
    exact .binary _ _ (ihl namedL (finite.part (by simp +contextual [inOrder])))
      (ihr namedR (finite.part (by simp +contextual [inOrder])))
  | negate _ ih =>
    exact .negate _ (ih (List.forall_mem_cons.mp named).2
      (finite.part (by simp +contextual [inOrder])))
  | member _ ih =>
    simp only [List.forall_mem_append, List.forall_mem_cons] at named
    obtain ⟨namedObject, -, namedProperty, -⟩ := named
    exact .member _ (ih namedObject (finite.part (by simp +contextual [inOrder]))) namedProperty
  | number spelling p => exact .number p (finite _ (List.mem_singleton_self _))
  | text contents p => exact .text p contents
  | mention name p => exact .mention p (named _ (List.mem_singleton_self _))
  | field name p => exact .field p (named _ (List.mem_singleton_self _))
  | call _ separated ih =>
    simp only [List.forall_mem_append, List.forall_mem_cons] at named
    obtain ⟨isName, -, namedList, -⟩ := named
    exact .call _ isName (listed separated namedList
      (finite.items fun _ mem => List.mem_cons_of_mem _ mem) ih)
  | parenthesis _ ih =>
    simp only [List.forall_mem_append, List.forall_mem_cons] at named
    exact ih named.2.1 finite
  | array _ separated ih =>
    simp only [List.forall_mem_append, List.forall_mem_cons] at named
    exact .array _ (listed separated named.2.1
      (finite.items fun _ mem => List.mem_cons_of_mem _ mem) ih)

theorem plain_of_parse {source : Text} {e : Expr} (h : parse source = .ok e)
    (finite : e.FiniteNumbers) : e.Plain :=
  plain_of_derives (derives_of_parse h) (fun _ => Token.named_of_mem_scan) finite

/-! ## The kind of a node -/

/-- The nodes that are written between parentheses. -/
inductive Head where
  | member | call | negate | conditional
  | binary (op : Operator)

/-- The kinds of nodes. -/
inductive Tag where
  | number | text | field | mention | array
  | form (head : Head)

/-- The word behind the opening parenthesis of a node. -/
def Head.word : Head → Text
  | .member => utf8 "."
  | .call => utf8 "call"
  | .negate => utf8 "neg"
  | .conditional => utf8 "?"
  | .binary op => op.spelling

/-- The nodes between parentheses, and all operators. -/
def Head.all : List Head :=
  [.member, .call, .negate, .conditional, .binary .add, .binary .subtract, .binary .multiply,
    .binary .divide, .binary .modulo, .binary .equal, .binary .doubleEqual, .binary .notEqual,
    .binary .lessGreater, .binary .less, .binary .greater, .binary .lessEqual,
    .binary .greaterEqual]

/-- No two words are the same, and none has a space in it. -/
theorem Head.word_spec (head : Head) :
    all.find? (·.word == head.word) = some head ∧ ∀ b ∈ head.word, (b != ' '.toUInt8) = true := by
  rcases head with _ | _ | _ | _ | op
  case binary => cases op <;> exact ⟨rfl, by decide +kernel⟩
  all_goals exact ⟨rfl, by decide +kernel⟩

def tag : Expr → Tag
  | .number .. => .number
  | .text .. => .text
  | .field .. => .field
  | .mention .. => .mention
  | .array .. => .array
  | .member .. => .form .member
  | .call .. => .form .call
  | .negate .. => .form .negate
  | .conditional .. => .form .conditional
  | .binary _ op _ _ => .form (.binary op)

/-- The kind of the node that a text starts with, told by its first bytes. -/
def tag? : Text → Option Tag
  | [] => none
  | b :: s =>
    if digit b || b == '-'.toUInt8 then some .number
    else if nameStart b then some .field
    else if b == '"'.toUInt8 then some .text
    else if b == '@'.toUInt8 then some .mention
    else if b == '['.toUInt8 then some .array
    else if b == '('.toUInt8 then
      (Head.all.find? (·.word == s.takeWhile (· != ' '.toUInt8))).map .form
    else none

/-! ## What is written one after another -/

/-- Parts with a space before each of them, and what closes them, before a text. -/
def closed (closing : UInt8) (parts : List Text) (t : Text) : Text :=
  parts.flatMap (' '.toUInt8 :: ·) ++ closing :: t

theorem closed_cons (closing : UInt8) (part : Text) (parts : List Text) (t : Text) :
    closed closing (part :: parts) t = ' '.toUInt8 :: (part ++ closed closing parts t) := by
  rw [closed, closed, List.flatMap_cons, List.cons_append, List.cons_append, List.append_assoc]

theorem closed_cons_inj {closing : UInt8} {part part' : Text} {parts parts' : List Text}
    {t t' : Text} (same : closed closing (part :: parts) t = closed closing (part' :: parts') t') :
    part ++ closed closing parts t = part' ++ closed closing parts' t' := by
  rw [closed_cons, closed_cons] at same
  exact (List.cons.inj same).2

theorem spaced_append (closing : UInt8) (part : Text) (parts : List Text) (t : Text) :
    spaced (part :: parts) ++ closing :: t = part ++ closed closing parts t := by
  induction parts generalizing part with
  | nil => rfl
  | cons second parts ih =>
    rw [closed_cons, ← ih, spaced, Text.join, List.append_assoc, List.append_assoc]
    rfl

theorem form_append (word part : Text) (parts : List Text) (t : Text) :
    form (word :: part :: parts) ++ t =
      '('.toUInt8 :: (word ++ ' '.toUInt8 :: (part ++ closed ')'.toUInt8 parts t)) := by
  rw [form, List.append_assoc, List.cons_append, List.cons_append, List.nil_append, spaced_append,
    closed_cons]

theorem render_array_append (p : Nat) (items : List Expr) (t : Text) :
    (array p items).render ++ t =
      '['.toUInt8 :: (spaced (renderItems items) ++ ']'.toUInt8 :: t) := by
  rw [render, List.append_assoc]
  rfl

theorem tag?_form (head : Head) (part : Text) (parts : List Text) (t : Text) :
    tag? (form (head.word :: part :: parts) ++ t) = some (.form head) := by
  obtain ⟨found, noSpace⟩ := head.word_spec
  have word : (head.word ++ ' '.toUInt8 :: (part ++ closed ')'.toUInt8 parts t)).takeWhile
      (· != ' '.toUInt8) = head.word :=
    (takeWhile_append_of_leaves noSpace (leaves_cons rfl _)).1
  rw [form_append]
  show (Head.all.find? _).map Tag.form = _
  rw [word, found]
  rfl

theorem form_inj {word part part' : Text} {parts parts' : List Text} {t t' : Text}
    (same : form (word :: part :: parts) ++ t = form (word :: part' :: parts') ++ t') :
    part ++ closed ')'.toUInt8 parts t = part' ++ closed ')'.toUInt8 parts' t' := by
  rw [form_append, form_append] at same
  exact (List.cons.inj (List.append_cancel_left (List.cons.inj same).2)).2

theorem tag?_field {name : Text} (isName : IsName name) (t : Text) :
    tag? (name ++ t) = some .field := by
  cases name with
  | nil => exact isName.elim
  | cons b s =>
    have isStart : nameStart b = true := isName.1
    have noDigit : digit b = false := by
      rw [Bool.eq_false_iff]
      intro isDigit
      rw [nameStart_of_digit isDigit] at isStart
      exact Bool.false_ne_true isStart
    have noMinus : (b == '-'.toUInt8) = false := by
      rw [beq_eq_false_iff_ne]
      rintro rfl
      exact absurd isStart (by decide)
    rw [List.cons_append, tag?, noDigit, noMinus, if_neg (by decide), if_pos isStart]

theorem tag?_number {s : Text} (isNumber : Json.IsNumber s) (t : Text) :
    tag? (s ++ t) = some .number := by
  obtain ⟨b, s, rfl, shape⟩ := isNumber.starts
  rw [List.cons_append, tag?]
  unfold Json.Shape.ofByte? at shape
  split at shape
  · next isFirst => rw [if_pos isFirst]
  · repeat' first | cases shape | split at shape

/-- The first bytes of what is written for a node tell its kind. -/
theorem tag?_render {e : Expr} (plain : e.Plain) (t : Text) :
    tag? (e.render ++ t) = some e.tag := by
  cases plain with
  | number p finite => exact tag?_number (Json.isNumber_write finite) t
  | text | mention | array => rfl
  | field p isName => exact tag?_field isName t
  | member => exact tag?_form .member ..
  | call => exact tag?_form .call ..
  | negate => exact tag?_form .negate ..
  | binary p op => exact tag?_form (.binary op) ..
  | conditional => exact tag?_form .conditional ..

theorem tag_eq_of_render {e e' : Expr} (plain : e.Plain) (plain' : e'.Plain) {t t' : Text}
    (same : e.render ++ t = e'.render ++ t') : e.tag = e'.tag := by
  have read := tag?_render plain t
  rw [same, tag?_render plain'] at read
  exact (Option.some.inj read).symm

/-! ## Reading nodes off a text -/

/-- The bytes that a name or a number may go on with. -/
def wordByte (b : UInt8) : Bool := nameByte b || Json.numberByte b

theorem leaves_nameByte {t : Text} (leaves : Leaves wordByte t) : Leaves nameByte t :=
  fun b mem => (Bool.or_eq_false_iff.mp (leaves b mem)).1

theorem leaves_numberByte {t : Text} (leaves : Leaves wordByte t) : Leaves Json.numberByte t :=
  fun b mem => (Bool.or_eq_false_iff.mp (leaves b mem)).2

theorem leaves_closed {closing : UInt8} (ends : wordByte closing = false) (parts : List Text)
    (t : Text) : Leaves wordByte (closed closing parts t) := by
  cases parts with
  | nil => exact leaves_cons ends t
  | cons part parts =>
    rw [closed_cons]
    exact leaves_cons rfl _

/-- What is written for a node is found in one way at the start of a text. -/
structure ReadOnce (e : Expr) : Prop where
  eq : ∀ {e' : Expr} {t t' : Text}, e'.Plain → Leaves wordByte t → Leaves wordByte t' →
    e.render ++ t = e'.render ++ t' → Alike e e' ∧ t' = t

/-- As the kind of a node is told by its first bytes, only nodes of that kind are in question. -/
theorem ReadOnce.of_tag {e : Expr} (plain : e.Plain)
    (h : ∀ {e' : Expr} {t t' : Text}, e'.Plain → e.tag = e'.tag → Leaves wordByte t →
      Leaves wordByte t' → e.render ++ t = e'.render ++ t' → Alike e e' ∧ t' = t) : e.ReadOnce :=
  ⟨fun plain' leaves leaves' same =>
    h plain' (tag_eq_of_render plain plain' same) leaves leaves' same⟩

/-- A name ends where no byte of a name follows. -/
theorem name_inj {name name' t t' : Text} (isName : IsName name) (isName' : IsName name')
    (leaves : Leaves wordByte t) (leaves' : Leaves wordByte t') (same : name ++ t = name' ++ t') :
    name' = name ∧ t' = t :=
  append_inj_of_leaves isName.nameByte isName'.nameByte (leaves_nameByte leaves)
    (leaves_nameByte leaves') same

section

variable {closing : UInt8} {t t' : Text}

/-- A node before others that are closed. -/
theorem ReadOnce.part {e e' : Expr} {parts parts' : List Text} (h : e.ReadOnce) (plain : e'.Plain)
    (ends : wordByte closing = false)
    (same : e.render ++ closed closing parts t = e'.render ++ closed closing parts' t') :
    Alike e e' ∧ closed closing parts' t' = closed closing parts t :=
  h.eq plain (leaves_closed ends parts t) (leaves_closed ends parts' t') same

/-- Nodes with a space before each of them end at what closes them. -/
theorem closed_items_inj (ends : wordByte closing = false) (noSpace : closing ≠ ' '.toUInt8)
    {es es' : List Expr} (each : ∀ e ∈ es, e.ReadOnce) (plain : ∀ e ∈ es', e.Plain)
    (same : closed closing (renderItems es) t = closed closing (renderItems es') t') :
    List.Forall₂ Alike es es' ∧ t' = t := by
  induction es generalizing es' with
  | nil =>
    cases es' with
    | nil => exact ⟨.nil, (List.cons.inj same).2.symm⟩
    | cons e' rest' =>
      rw [renderItems, renderItems, closed_cons] at same
      exact absurd (List.cons.inj same).1 noSpace
  | cons e rest ih =>
    cases es' with
    | nil =>
      rw [renderItems, renderItems, closed_cons] at same
      exact absurd (List.cons.inj same).1.symm noSpace
    | cons e' rest' =>
      obtain ⟨first, others⟩ := List.forall_mem_cons.mp each
      obtain ⟨plainFirst, plainOthers⟩ := List.forall_mem_cons.mp plain
      obtain ⟨alike, same⟩ := first.part plainFirst ends (closed_cons_inj same)
      obtain ⟨allAlike, same⟩ := ih others plainOthers same.symm
      exact ⟨.cons alike allAlike, same⟩

/-- The first of several nodes has no space before it, and what closes them is no first byte of a
node. -/
theorem spaced_items_inj (ends : wordByte closing = false) (noSpace : closing ≠ ' '.toUInt8)
    (noNode : ∀ t, tag? (closing :: t) = none) {es es' : List Expr}
    (each : ∀ e ∈ es, e.ReadOnce) (plain : ∀ e ∈ es, e.Plain) (plain' : ∀ e ∈ es', e.Plain)
    (same : spaced (renderItems es) ++ closing :: t = spaced (renderItems es') ++ closing :: t') :
    List.Forall₂ Alike es es' ∧ t' = t := by
  have starts {e : Expr} {rest : List Expr} {t s : Text} (plain : ∀ node ∈ e :: rest, node.Plain)
      (same : spaced (renderItems (e :: rest)) ++ closing :: t = closing :: s) : False := by
    have read := tag?_render (plain e (List.mem_cons_self ..))
      (closed closing (renderItems rest) t)
    rw [renderItems, spaced_append] at same
    rw [same, noNode] at read
    cases read
  cases es with
  | nil =>
    cases es' with
    | nil => exact ⟨.nil, (List.cons.inj same).2.symm⟩
    | cons e' rest' => exact (starts plain' same.symm).elim
  | cons e rest =>
    cases es' with
    | nil => exact (starts plain same).elim
    | cons e' rest' =>
      obtain ⟨first, others⟩ := List.forall_mem_cons.mp each
      obtain ⟨plainFirst, plainOthers⟩ := List.forall_mem_cons.mp plain'
      rw [renderItems, renderItems, spaced_append, spaced_append] at same
      obtain ⟨alike, same⟩ := first.part plainFirst ends same
      obtain ⟨allAlike, same⟩ := closed_items_inj ends noSpace others plainOthers same.symm
      exact ⟨.cons alike allAlike, same⟩

end

/-- The induction is on the node. The other node is of the same kind, and one part after another
ends where the other node's does. -/
theorem readOnce {e : Expr} (plain : e.Plain) : e.ReadOnce := by
  have ends : wordByte ')'.toUInt8 = false := rfl
  have noSpace : ')'.toUInt8 ≠ ' '.toUInt8 := by decide
  induction plain with
  | number p finite =>
    refine .of_tag (.number p finite) fun plain' tags leaves leaves' same => ?_
    cases plain' with
    | number q finite' =>
      obtain ⟨written, left⟩ := append_inj_of_leaves (Json.isNumber_write finite).numberByte
        (Json.isNumber_write finite').numberByte (leaves_numberByte leaves)
        (leaves_numberByte leaves') same
      exact ⟨.number written.symm, left⟩
    | _ => cases tags
  | text p contents =>
    refine .of_tag (.text p contents) fun plain' tags leaves leaves' same => ?_
    cases plain' with
    | text q contents' =>
      obtain ⟨rfl, left⟩ := (Json.only_isString wordByte contents).eq (isString_json _)
        (isString_json _) leaves leaves' same
      exact ⟨.text .., left⟩
    | _ => cases tags
  | field p isName =>
    refine .of_tag (.field p isName) fun plain' tags leaves leaves' same => ?_
    cases plain' with
    | field q isName' =>
      obtain ⟨rfl, left⟩ := name_inj isName isName' leaves leaves' same
      exact ⟨.field .., left⟩
    | _ => cases tags
  | mention p isName =>
    refine .of_tag (.mention p isName) fun plain' tags leaves leaves' same => ?_
    cases plain' with
    | mention q isName' =>
      obtain ⟨rfl, left⟩ := name_inj isName isName' leaves leaves' (List.cons.inj same).2
      exact ⟨.mention .., left⟩
    | _ => cases tags
  | member p object isName ih =>
    refine .of_tag (.member p object isName) fun plain' tags leaves leaves' same => ?_
    cases plain' with
    | member q object' isName' =>
      obtain ⟨alike, property⟩ := ih.part object' ends (form_inj same)
      obtain ⟨rfl, left⟩ := name_inj isName isName' (leaves_closed ends _ _)
        (leaves_closed ends _ _) (closed_cons_inj property.symm)
      exact ⟨.member _ _ _ alike, (List.cons.inj left).2⟩
    | _ => cases tags
  | call p isName plain ih =>
    refine .of_tag (.call p isName plain) fun plain' tags leaves leaves' same => ?_
    cases plain' with
    | call q isName' plain' =>
      obtain ⟨rfl, arguments⟩ := name_inj isName isName' (leaves_closed ends _ _)
        (leaves_closed ends _ _) (form_inj same)
      obtain ⟨alike, left⟩ := closed_items_inj ends noSpace ih plain' arguments.symm
      exact ⟨.call _ _ _ alike, left⟩
    | _ => cases tags
  | negate p operand ih =>
    refine .of_tag (.negate p operand) fun plain' tags leaves leaves' same => ?_
    cases plain' with
    | negate q operand' =>
      obtain ⟨alike, left⟩ := ih.part operand' ends (form_inj same)
      exact ⟨.negate _ _ alike, (List.cons.inj left).2⟩
    | _ => cases tags
  | binary p op left right ihl ihr =>
    refine .of_tag (.binary p op left right) fun plain' tags leaves leaves' same => ?_
    cases plain' with
    | binary q op' left' right' =>
      -- the operator is part of the kind of a node
      cases tags
      obtain ⟨alikeLeft, second⟩ := ihl.part left' ends (form_inj same)
      obtain ⟨alikeRight, left⟩ := ihr.part right' ends (closed_cons_inj second.symm)
      exact ⟨.binary _ _ _ alikeLeft alikeRight, (List.cons.inj left).2⟩
    | _ => cases tags
  | conditional p c a b ihc iha ihb =>
    refine .of_tag (.conditional p c a b) fun plain' tags leaves leaves' same => ?_
    cases plain' with
    | conditional q c' a' b' =>
      obtain ⟨alikeC, second⟩ := ihc.part c' ends (form_inj same)
      obtain ⟨alikeA, third⟩ := iha.part a' ends (closed_cons_inj second.symm)
      obtain ⟨alikeB, left⟩ := ihb.part b' ends (closed_cons_inj third.symm)
      exact ⟨.conditional _ _ alikeC alikeA alikeB, (List.cons.inj left).2⟩
    | _ => cases tags
  | array p plain ih =>
    refine .of_tag (.array p plain) fun plain' tags leaves leaves' same => ?_
    cases plain' with
    | array q plain' =>
      rw [render_array_append, render_array_append] at same
      obtain ⟨alike, left⟩ := spaced_items_inj rfl (by decide) (fun _ => rfl) ih plain plain'
        (List.cons.inj same).2
      exact ⟨.array _ _ alike, left⟩
    | _ => cases tags

/-! ## One s-expression, one tree -/

theorem render_eq_of_alike {e e' : Expr} (h : Alike e e') : e.render = e'.render := by
  have all {es es' : List Expr} (h : List.Forall₂ Alike es es')
      (each : ∀ e ∈ es, ∀ {e'}, Alike e e' → e.render = e'.render) :
      renderItems es = renderItems es' := by
    induction h with
    | nil => rfl
    | cons alike _ ih =>
      obtain ⟨first, others⟩ := List.forall_mem_cons.mp each
      rw [renderItems, renderItems, first alike, ih others]
  induction e generalizing e' with
  | number =>
    cases h with
    | number same => exact same
  | text | field | mention => cases h; rfl
  | member p object property ih =>
    cases h with
    | member _ _ _ alike => rw [render, render, ih alike]
  | call p function arguments ih =>
    cases h with
    | call _ _ _ alike => rw [render, render, all alike fun e mem {_} h => ih e mem h]
  | negate p operand ih =>
    cases h with
    | negate _ _ alike => rw [render, render, ih alike]
  | binary p op left right ihl ihr =>
    cases h with
    | binary _ _ _ alikeL alikeR => rw [render, render, ihl alikeL, ihr alikeR]
  | conditional p c a b ihc iha ihb =>
    cases h with
    | conditional _ _ alikeC alikeA alikeB =>
      rw [render, render, ihc alikeC, iha alikeA, ihb alikeB]
  | array p items ih =>
    cases h with
    | array _ _ alike => rw [render, render, all alike fun e mem {_} h => ih e mem h]

/-- Two formulas whose numbers are finite have the same s-expression exactly when they are the same
tree but for the offsets of their nodes and the spelling of their numbers. -/
theorem render_eq_iff_of_parse {source source' : Text} {e e' : Expr} (h : parse source = .ok e)
    (h' : parse source' = .ok e') (finite : e.FiniteNumbers) (finite' : e'.FiniteNumbers) :
    e.render = e'.render ↔ Alike e e' := by
  constructor
  · intro same
    have same : e.render ++ [] = e'.render ++ [] := congrArg (· ++ []) same
    exact ((readOnce (plain_of_parse h finite)).eq (plain_of_parse h' finite') (leaves_nil _)
      (leaves_nil _) same).1
  · exact render_eq_of_alike

/-- Other blanks, other quotes, parentheses that are not needed and a number with a zero at its end:
the texts in the two formulas hold a quote, a parenthesis and what looks like a mention. -/
theorem render_eq_iff_of_parse_respelled :
    let source := utf8 "f([a.b, 1.50], -@m, 'x) \"y') ? (a <> 2) : \"@m\""
    let source' := utf8 " f([a.b,1.5],(-@m),\"x) \\\"y\")?a<>2:'@m'"
    ∃ e e', parse source = .ok e ∧ parse source' = .ok e' ∧ e.FiniteNumbers ∧ e'.FiniteNumbers ∧
      e.render = e'.render ∧ Alike e e' ∧
      e.render =
        utf8 "(? (call f [(. a b) 1.5] (neg @m) \"x) \\\"y\") (<> a 2) \"@m\")" := by
  intro source source'
  obtain ⟨e, parsed⟩ : ∃ e, parse source = .ok e := ⟨_, rfl⟩
  obtain ⟨e', parsed'⟩ : ∃ e, parse source' = .ok e := ⟨_, rfl⟩
  have finite : e.FiniteNumbers := by
    cases parsed
    decide +kernel
  have finite' : e'.FiniteNumbers := by
    cases parsed'
    decide +kernel
  have written : e.render =
      utf8 "(? (call f [(. a b) 1.5] (neg @m) \"x) \\\"y\") (<> a 2) \"@m\")" := by
    cases parsed
    decide +kernel
  have written' : e'.render = e.render := by
    rw [written]
    cases parsed'
    decide +kernel
  exact ⟨e, e', parsed, parsed', finite, finite', written'.symm,
    (render_eq_iff_of_parse parsed parsed' finite finite').mp written'.symm, written⟩

end Expr

end ComputedFields
