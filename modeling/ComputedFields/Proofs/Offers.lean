import ComputedFields.Proofs.Dependencies
import ComputedFields.Proofs.Writing
import ComputedFields.Suggestion

/-!
# `ComputedFields.Proofs.Offers` — which of the formulas on offer are formulas

The formulas on offer in a context are calls whose arguments are written as the fields and entities
are named. A field may have any name and an entity any label, but a formula can name only those with
the shape of a name: a field named `unit price` is written as two names with nothing between them.
So an offer is a formula over what it was made for exactly when everything in it has the shape of a
name. Nothing that an offer is made of can be named otherwise, as what a formula reads always has
that shape.

* `isName_of_mem_fields`, `isName_of_mem_mentions` — what a formula reads has the shape of a name;
* `Item.call`, `parse_writeAll_call` — a call of names and mentions is read as it is written;
* `fields_of_callText_iff`, `mentions_of_callText_iff` — when a call reads what it was written with;
* `Context.suggestions_read_iff` — and so for all formulas on offer;
* `Context.sum_of_unitPrice_refused` — an offer that is no formula.
-/

namespace ComputedFields

open Text

/-! ## Names in formulas -/

namespace Lexeme

/-- The bytes of a name or a mention have the shape of a name. -/
theorem isName_of_start {b : UInt8} {s name : Text}
    (h : (start b s).1 = .name name ∨ (start b s).1 = .mention name) : IsName name := by
  have inside (t : Text) : ∀ c ∈ t.takeWhile nameByte, nameByte c = true :=
    List.all_eq_true.mp List.all_takeWhile
  unfold start at h
  split at h
  · rcases h with h | h <;> cases h
  · split at h
    · split at h <;> rcases h with h | h <;> cases h
    · split at h
      · next isMention =>
        obtain ⟨-, first⟩ := Bool.and_eq_true_iff.mp isMention
        rcases h with ⟨⟨⟩⟩ | ⟨⟨⟩⟩
        cases s with
        | nil => cases first
        | cons c s =>
          have isStart : nameStart c = true := first
          have isByte : nameByte c = true := by rw [nameByte, isStart, Bool.true_or]
          rw [List.takeWhile_cons_of_pos isByte]
          exact ⟨isStart, inside s⟩
      · split at h
        · next isStart =>
          rcases h with ⟨⟨⟩⟩ | ⟨⟨⟩⟩
          exact ⟨isStart, inside s⟩
        · split at h
          · rcases h with h | h <;> cases h
          · split at h <;> rcases h with h | h <;> cases h

end Lexeme

/-- Whatever a formula reads has the shape of a name. -/
theorem isName_of_mem_fields {source name : Text} {e : Expr} (h : parse source = .ok e)
    (mem : name ∈ e.fields) : IsName name := by
  have names : Token.fieldNames none (Token.scan source ++ []) = e.fieldNames ++ [] :=
    Parser.fieldNames_of_derives (derives_of_parse h) nofun
  rw [List.append_nil, List.append_nil] at names
  rw [Expr.mem_fields, ← names] at mem
  obtain ⟨token, inSource, same⟩ := Token.exists_of_mem_fieldNames mem
  obtain ⟨b, s, read⟩ := Token.exists_start_of_mem_scanFrom inSource
  exact Lexeme.isName_of_start (.inl (read.trans same))

theorem isName_of_mem_mentions {source name : Text} {e : Expr} (h : parse source = .ok e)
    (mem : name ∈ e.mentions) : IsName name := by
  unfold Expr.mentions at mem
  rw [List.mem_eraseDups, ← Parser.mentionNames_of_derives (derives_of_parse h),
    Token.mem_mentionNames] at mem
  obtain ⟨token, inSource, same⟩ := mem
  obtain ⟨b, s, read⟩ := Token.exists_start_of_mem_scanFrom inSource
  exact Lexeme.isName_of_start (.inr (read.trans same))

/-! ## Calls -/

namespace Item

/-- Names and mentions are the arguments of the calls on offer. -/
def IsReference : Item → Prop
  | .name .. | .mention .. => True
  | _ => False

/-- The field that an item names. -/
def fieldNames : Item → List Text
  | .name s _ => [s]
  | _ => []

/-- The entity that an item mentions. -/
def mentionNames : Item → List Text
  | .mention s _ => [s]
  | _ => []

/-- Arguments with a comma and a blank between each two of them, and the parenthesis after them. -/
def arguments : List Item → List (Item × Text)
  | [] => [(.mark .closeParen, [])]
  | [a] => [(a, []), (.mark .closeParen, [])]
  | a :: b :: rest => (a, []) :: (.mark .comma, utf8 " ") :: arguments (b :: rest)

/-- A call of a function. -/
def call (function : Text) (isName : IsName function) (args : List Item) : List (Item × Text) :=
  (.name function isName, []) :: (.mark .openParen, []) :: arguments args

theorem writeAll_arguments (args : List Item) :
    writeAll (arguments args) = Text.join (utf8 ", ") (args.map spelling) ++ [')'.toUInt8] := by
  fun_induction arguments args with
  | case1 => rfl
  | case2 a => rfl
  | case3 a b rest ih =>
    show a.spelling ++ (utf8 ", " ++ writeAll (arguments (b :: rest))) = _
    rw [ih, ← List.append_assoc, ← List.append_assoc]
    rfl

theorem writeAll_call {function : Text} (isName : IsName function) (args : List Item) :
    writeAll (call function isName args) = callText function (args.map spelling) := by
  show function ++ ('('.toUInt8 :: writeAll (arguments args)) = _
  rw [writeAll_arguments]
  unfold callText
  simp

theorem length_tokens (items : List (Item × Text)) (p : Nat) :
    (tokens p items).length = items.length := by
  induction items generalizing p with
  | nil => rfl
  | cons x rest ih =>
    unfold tokens
    rw [List.length_cons, List.length_cons, ih]

theorem length_le_arguments (args : List Item) : args.length ≤ (arguments args).length := by
  fun_induction arguments args with
  | case1 => exact Nat.zero_le _
  | case2 => exact Nat.le_succ _
  | case3 a b rest ih =>
    simp only [List.length_cons] at ih ⊢
    omega

theorem IsReference.lexeme_ne {a : Item} (h : a.IsReference) (m : Mark) : a.lexeme ≠ .mark m := by
  cases a with
  | name | mention => exact nofun
  | _ => exact h.elim

/-- A mark stops every reference. -/
theorem stops_of_mark {a : Item} (reference : a.IsReference) (m : Mark) (t : Text) :
    a.Stops (m.byte :: t) := by
  cases a with
  | name | mention =>
    rintro _ ⟨⟩
    cases m <;> rfl
  | _ => exact reference.elim

theorem legible_arguments {args : List Item} (references : ∀ a ∈ args, a.IsReference) :
    Legible (arguments args) := by
  fun_induction arguments args with
  | case1 => exact ⟨nofun, trivial, trivial⟩
  | case2 a =>
    exact ⟨nofun, stops_of_mark (references a (List.mem_cons_self ..)) .closeParen _, nofun, trivial,
      trivial⟩
  | case3 a b rest ih =>
    obtain ⟨first, others⟩ := List.forall_mem_cons.mp references
    refine ⟨nofun, stops_of_mark first .comma _, by decide +kernel, trivial, ih others⟩

theorem legible_call {function : Text} (isName : IsName function) {args : List Item}
    (references : ∀ a ∈ args, a.IsReference) : Legible (call function isName args) :=
  ⟨nofun, stops_of_mark (a := .name function isName) trivial .openParen _, nofun, trivial,
    legible_arguments references⟩

end Item

namespace Parser

variable (stop : Nat)

theorem expression_reference {a : Item} (reference : a.IsReference) (p n : Nat) {rest : List Token}
    (ends : Ends rest) :
    ∃ e, (level stop (n + 1)).expression (⟨a.lexeme, p⟩ :: rest) = .ok (e, rest) ∧
      e.fieldNames = a.fieldNames ∧ e.mentionNames = a.mentionNames := by
  cases a with
  | name s => exact ⟨_, expression_field s p n ends, rfl, rfl⟩
  | mention s => exact ⟨_, expression_mention s p n ends, rfl, rfl⟩
  | _ => exact reference.elim

/-- The induction is on the arguments, of which there is at least one. -/
theorem itemsFrom_references (n : Nat) {args : List Item} (references : ∀ a ∈ args, a.IsReference)
    (nonempty : args ≠ []) (p : Nat) {k : Nat} (enough : args.length ≤ k) :
    ∃ es, itemsFrom stop (level stop (n + 1)).expression .arguments k
        (Item.tokens p (Item.arguments args)) = .ok (es, []) ∧
      Expr.fieldNamesOfAll es = args.flatMap Item.fieldNames ∧
      Expr.mentionNamesOfAll es = args.flatMap Item.mentionNames := by
  fun_induction Item.arguments args generalizing p k with
  | case1 => exact absurd rfl nonempty
  | case2 a =>
    obtain ⟨k, rfl⟩ := Nat.exists_eq_add_of_le' enough
    obtain ⟨e, read, fields, mentions⟩ :=
      expression_reference stop (references a (List.mem_cons_self ..)) p n
        (.close .arguments (p + a.spelling.length) [])
    refine ⟨[e], bind_of_eq_ok read rfl, ?_, ?_⟩
    · simp [Expr.fieldNamesOfAll, fields]
    · simp [Expr.mentionNamesOfAll, mentions]
  | case3 a b rest ih =>
    obtain ⟨k, rfl⟩ := Nat.exists_eq_add_of_le' enough
    obtain ⟨first, others⟩ := List.forall_mem_cons.mp references
    obtain ⟨es, later, fieldsOfAll, mentionsOfAll⟩ :=
      ih others (List.cons_ne_nil _ _) (p + a.spelling.length + 2)
        (Nat.le_add_left (b :: rest).length k)
    obtain ⟨e, read, fields, mentions⟩ :=
      expression_reference stop first p n (.comma (p + a.spelling.length) _)
    refine ⟨e :: es, bind_of_eq_ok read (bind_of_eq_ok later rfl), ?_, ?_⟩
    · rw [Expr.fieldNamesOfAll, fields, fieldsOfAll]
      rfl
    · rw [Expr.mentionNamesOfAll, mentions, mentionsOfAll]
      rfl

/-- A call without arguments is read as well, but in another way. -/
theorem items_references (n : Nat) {args : List Item} (references : ∀ a ∈ args, a.IsReference)
    (p : Nat) :
    ∃ es, items stop (level stop (n + 1)).expression .arguments
        (Item.tokens p (Item.arguments args)) = .ok (es, []) ∧
      Expr.fieldNamesOfAll es = args.flatMap Item.fieldNames ∧
      Expr.mentionNamesOfAll es = args.flatMap Item.mentionNames := by
  cases args with
  | nil => exact ⟨[], rfl, rfl, rfl⟩
  | cons a rest =>
    have enough : (a :: rest).length ≤ (Item.tokens p (Item.arguments (a :: rest))).length + 1 := by
      rw [Item.length_tokens]
      exact Nat.le_succ_of_le (Item.length_le_arguments _)
    obtain ⟨es, read, names⟩ := itemsFrom_references stop n references (List.cons_ne_nil _ _) p enough
    have missed : close stop .arguments (Item.tokens p (Item.arguments (a :: rest))) =
        fail stop (.unclosed .arguments) (Item.tokens p (Item.arguments (a :: rest))) := by
      apply close_of_lacks
      intro q left same
      have noMark := (references a (List.mem_cons_self ..)).lexeme_ne .closeParen
      cases rest <;> exact noMark (congrArg Token.lexeme (List.cons.inj same).1)
    refine ⟨es, ?_, names⟩
    rw [items, missed]
    exact read

end Parser

/-- A call of names and mentions is read, and it reads the fields and entities that it was written
with. -/
theorem parse_writeAll_call {function : Text} (isName : IsName function) {args : List Item}
    (references : ∀ a ∈ args, a.IsReference) :
    ∃ e, parse (Item.writeAll (Item.call function isName args)) = .ok e ∧
      e.fieldNames = args.flatMap Item.fieldNames ∧
      e.mentionNames = args.flatMap Item.mentionNames := by
  let source := Item.writeAll (Item.call function isName args)
  have scanned : Token.scan source = Item.tokens 0 (Item.call function isName args) :=
    Item.scanFrom_writeAll (Item.legible_call isName references) 0
  -- the call opens a construct, and so do its arguments
  obtain ⟨n, full⟩ : ∃ n, Parser.depth = n + 1 + 1 := ⟨254, rfl⟩
  obtain ⟨es, read, names⟩ :=
    Parser.items_references source.length n references (0 + function.length + 1)
  refine ⟨.call 0 function es, ?_, names⟩
  have primary : Parser.primary source.length (Parser.level source.length (n + 1)).expression
      (Item.tokens 0 (Item.call function isName args)) = .ok (.call 0 function es, []) :=
    Parser.bind_of_eq_ok read rfl
  show parse source = _
  unfold parse
  rw [scanned]
  have noMinus : ∀ p left, Item.tokens 0 (Item.call function isName args) ≠
      ⟨.operator .subtract, p⟩ :: left := by
    rintro p left ⟨⟩
  have whole := Parser.expression_of_primary noMinus primary .nil
  rw [← full] at whole
  exact Parser.bind_of_eq_ok whole rfl

/-- Arguments of one kind, each made from a name. -/
theorem parse_callText_pmap {function : Text} (isName : IsName function)
    (reference : (s : Text) → IsName s → Item) (isReference : ∀ s h, (reference s h).IsReference)
    {names : List Text} (areNames : ∀ name ∈ names, IsName name) :
    ∃ e, parse (callText function (names.pmap (fun s h => (reference s h).spelling) areNames)) =
        .ok e ∧
      e.fieldNames = (names.pmap (fun s h => (reference s h).fieldNames) areNames).flatten ∧
      e.mentionNames = (names.pmap (fun s h => (reference s h).mentionNames) areNames).flatten := by
  have references : ∀ a ∈ names.pmap reference areNames, a.IsReference := by
    intro a mem
    obtain ⟨name, inNames, rfl⟩ := List.mem_pmap.mp mem
    exact isReference name _
  have read := parse_writeAll_call isName references
  rwa [Item.writeAll_call, List.flatMap_def, List.flatMap_def, List.map_pmap, List.map_pmap,
    List.map_pmap] at read

/-- A call that is written with names reads just these fields when all of them have the shape of a
name, and otherwise it does not. -/
theorem fields_of_callText_iff {function : Text} (isName : IsName function) (names : List Text) :
    (∃ e, parse (callText function names) = .ok e ∧ ∀ name, name ∈ e.fields ↔ name ∈ names) ↔
      ∀ name ∈ names, IsName name := by
  constructor
  · rintro ⟨e, parsed, same⟩ name mem
    exact isName_of_mem_fields parsed ((same name).mpr mem)
  · intro areNames
    obtain ⟨e, parsed, read, -⟩ :=
      parse_callText_pmap isName .name (fun _ _ => trivial) areNames
    have written : names.pmap (fun s h => (Item.name s h).spelling) areNames = names := by
      simp [Item.spelling]
    have fields : (names.pmap (fun s h => (Item.name s h).fieldNames) areNames).flatten = names := by
      simp only [Item.fieldNames, List.pmap_eq_map, ← List.flatMap_def, List.flatMap_singleton']
    rw [written] at parsed
    refine ⟨e, parsed, fun name => ?_⟩
    rw [Expr.mem_fields, read, fields]

/-- So does a call that is written with mentions. -/
theorem mentions_of_callText_iff {function : Text} (isName : IsName function) (labels : List Text) :
    (∃ e, parse (callText function (labels.map ('@'.toUInt8 :: ·))) = .ok e ∧
        e.mentionDependencies = (labels.map ('@'.toUInt8 :: ·)).eraseDups) ↔
      ∀ label ∈ labels, IsName label := by
  rw [eraseDups_map fun _ _ same => (List.cons.inj same).2]
  constructor
  · rintro ⟨e, parsed, same⟩ label mem
    apply isName_of_mem_mentions parsed
    have inLabels : '@'.toUInt8 :: label ∈ e.mentionDependencies := by
      rw [same]
      exact List.mem_map_of_mem (List.mem_eraseDups.mpr mem)
    obtain ⟨other, mem, same⟩ := List.mem_map.mp inLabels
    rwa [← (List.cons.inj same).2]
  · intro areNames
    obtain ⟨e, parsed, -, read⟩ :=
      parse_callText_pmap isName .mention (fun _ _ => trivial) areNames
    have written : labels.pmap (fun s h => (Item.mention s h).spelling) areNames =
        labels.map ('@'.toUInt8 :: ·) := by
      simp [Item.spelling, List.pmap_eq_map]
    have mentions :
        (labels.pmap (fun s h => (Item.mention s h).mentionNames) areNames).flatten = labels := by
      simp only [Item.mentionNames, List.pmap_eq_map, ← List.flatMap_def, List.flatMap_singleton']
    rw [written] at parsed
    refine ⟨e, parsed, ?_⟩
    unfold Expr.mentionDependencies Expr.mentions
    rw [read, mentions]

/-! ## Offers -/

namespace Context

/-- Of the formulas on offer in a context, those over numeric fields are formulas over just these
exactly when all of them have names that formulas can name, and those between two places are formulas
over the two labels exactly when formulas can name both. All others are formulas in every context. -/
theorem suggestions_read_iff (context : Context) :
    let labels := (context.places.take 2).map (·.label)
    (∀ s ∈ context.numberSuggestions,
      (∃ e, parse s = .ok e ∧ ∀ name, name ∈ e.fields ↔ name ∈ context.numericFields) ↔
        ∀ name ∈ context.numericFields, IsName name) ∧
    (∀ s ∈ context.placeSuggestions,
      (∃ e, parse s = .ok e ∧
        e.mentionDependencies = (labels.map ('@'.toUInt8 :: ·)).eraseDups) ↔
        ∀ label ∈ labels, IsName label) ∧
    ∀ s ∈ context.suggestions, s ∉ context.numberSuggestions → s ∉ context.placeSuggestions →
      ∃ e, parse s = .ok e := by
  intro labels
  refine ⟨?_, ?_, ?_⟩
  · intro s mem
    simp only [numberSuggestions] at mem
    split at mem
    · rcases List.mem_cons.mp mem with rfl | mem
      · exact fields_of_callText_iff (by decide +kernel) _
      · rw [List.mem_singleton.mp mem]
        exact fields_of_callText_iff (by decide +kernel) _
    · cases mem
  · intro s mem
    unfold placeSuggestions at mem
    split at mem
    · next a b rest places =>
      have both : labels = [a.label, b.label] := by simp [labels, places]
      rw [both]
      rcases List.mem_cons.mp mem with rfl | mem
      · exact mentions_of_callText_iff (by decide +kernel) [a.label, b.label]
      · rw [List.mem_singleton.mp mem]
        exact mentions_of_callText_iff (by decide +kernel) [a.label, b.label]
    · cases mem
  · intro s mem noNumbers noPlaces
    unfold suggestions at mem
    simp only [List.mem_append, noNumbers, noPlaces, or_false] at mem
    rcases mem with clock | counted
    · rcases List.mem_cons.mp clock with rfl | clock
      · exact ⟨_, rfl⟩
      · rw [List.mem_singleton.mp clock]
        exact ⟨_, rfl⟩
    · split at counted
      · cases counted
      · rw [List.mem_singleton.mp counted]
        exact ⟨_, rfl⟩

/-- A field whose name has a blank in it is offered to be summed, but that is no formula. -/
theorem sum_of_unitPrice_refused :
    let context : Context :=
      { fields := [(utf8 "amount", .number 2), (utf8 "unit price", .number 3)] }
    let offer := utf8 "Sum(amount, unit price)"
    offer ∈ context.suggestions ∧ parse offer = .error ⟨.unclosed .arguments, 17⟩ := by
  intro context offer
  exact ⟨by decide +kernel, rfl⟩

end Context

end ComputedFields
