import ComputedFields.Proofs.IsoRoundTrip
import ComputedFields.Proofs.Sightings

/-!
# `ComputedFields.Proofs.LookupFailures` — how a failed lookup is reported

A mention that an evaluation comes to has no value when its lookup did not end by the deadline, has
no state, or ended with something raised. The report then has the class of a late or of a failed
lookup and names the place of the mention, whatever exception was raised, at once or later. But a
resolver that raises a failure of the engine, for instance because it evaluated another formula,
has it passed on with its own class and its own place, which is a place in that other formula.

* `Report.Blames` — a report has a class and names a place, and `Report.blames_iff`;
* `Evaluator.FailsAt` — the node at which an evaluation fails;
* `Evaluator.evaluateTree_of_failing_mention` — the report when this is a mention;
* `Evaluator.not_blames_of_foreign_failure` — a failure from another formula.
-/

namespace ComputedFields

/-! ## Places in messages -/

/-- The end of a message that names a place. -/
def placeText (p : Nat) : Text := utf8 " (at position " ++ Text.decimal p ++ utf8 ")"

/-- A message tells where it names a place: after the last blank, up to the parenthesis. -/
theorem place_of_text {s t : Text} {p q : Nat} (h : s ++ placeText p = t ++ placeText q) :
    p = q := by
  have digits (s : Text) (p : Nat) :
      (s ++ placeText p).reverse.tail.takeWhile Text.digit = (Text.decimal p).reverse := by
    have split : (s ++ placeText p).reverse.tail =
        (Text.decimal p).reverse ++ (s ++ utf8 " (at position ").reverse := by
      simp [placeText, show utf8 ")" = [')'.toUInt8] by decide]
    have leaves : Text.Leaves Text.digit (s ++ utf8 " (at position ").reverse := by
      intro b mem
      have blank : utf8 " (at position " = utf8 " (at position" ++ [' '.toUInt8] := by decide
      simp only [blank, List.reverse_append, List.reverse_singleton, List.cons_append,
        List.nil_append, List.head?_cons, Option.mem_some_iff] at mem
      subst mem
      decide
    rw [split]
    exact (Text.takeWhile_append_of_leaves (by simpa using (Text.isDigits_decimal p).2) leaves).1
  have same : (Text.decimal p).reverse = (Text.decimal q).reverse := by
    rw [← digits s, ← digits t, h]
  rw [← Text.numeral_decimal p, ← Text.numeral_decimal q, List.reverse_inj.mp same]

/-- The report has a class, and its message ends with a place. -/
def Report.Blames (r : Report) (code : ErrorCode) (p : Nat) : Prop :=
  r.code? = some code ∧ ∃ message, r.error? = some (message ++ placeText p)

/-- A failure that went up through a node is blamed on the node, unless it has another place. -/
theorem Report.blames_iff {r : Report} {f : Failure} {p : Nat}
    (failed : r.result = .error (f.orAt p)) {code : ErrorCode} :
    r.Blames code p ↔ f.fault.code = code ∧ ∀ q, f.position = some q → q = p := by
  obtain ⟨fault, position⟩ := f
  have codes : r.code? = some fault.code := by
    rw [code?, failed]
    rfl
  have text : r.error? = some (fault.message ++ placeText (position.getD p)) := by
    rw [error?, failed]
    cases position <;> simp [Failure.message, Failure.orAt, placeText]
  have place : (∀ q, position = some q → q = p) ↔ position.getD p = p := by
    cases position <;> simp
  simp only [Blames, codes, text, Option.some.injEq, place]
  constructor
  · rintro ⟨same, message, h⟩
    exact ⟨same, place_of_text h⟩
  · rintro ⟨same, h⟩
    exact ⟨same, fault.message, by rw [h]⟩

section

variable {σ : Type}

/-- An evaluation fails at a node: it comes to the node, and the node cannot do its part. -/
def Evaluator.FailsAt (evaluator : Evaluator) (resolver : Option (Resolver (StateM σ))) (e : Expr)
    (context : Context) (s : σ) (node : Expr) : Prop :=
  node ∈ evaluator.visited resolver e context s ∧
    ∃ failure, node.Breaks (evaluator.environmentFrom resolver e context s) failure

/-- The class of faults of a mention that has no value, by what it sees of its lookup. -/
def Sighting.code : Sighting → ErrorCode
  | .unanswered => .timeout
  | .ended _ | .stateless => .asyncError

/-- A mention without a value makes a failure of what it sees, which has no place yet, unless it
sees a failure. -/
theorem Sighting.value_eq_error {sighting : Sighting} {name : Text} {failure : Failure}
    (h : sighting.value name = .error failure) :
    sighting = .ended (.error (.failure failure)) ∨
      (∀ f, sighting ≠ .ended (.error (.failure f))) ∧ failure.position = none ∧
        failure.fault.code = sighting.code := by
  cases sighting with
  | unanswered | stateless =>
    cases h
    exact .inr ⟨nofun, rfl, rfl⟩
  | ended outcome =>
    cases outcome with
    | ok found => cases h
    | error raised =>
      cases raised with
      | failure f =>
        cases h
        exact .inl rfl
      | described | undescribed =>
        cases h
        exact .inr ⟨nofun, rfl, rfl⟩

/-- A mention of a formula sees a lookup. -/
theorem Resolver.exists_sighting (resolver : Resolver (StateM σ)) (deadline : Bool) (e : Expr)
    (s : σ) {name : Text} (mentioned : name ∈ e.mentions) :
    ∃ sighting, resolver.sighting? deadline e s name = some sighting := by
  obtain ⟨before, after, split, first⟩ := List.eq_append_cons_of_mem mentioned
  rw [Resolver.sighting?, Lookups.start, split, Lookups.lookup_ask resolver first]
  exact ⟨_, rfl⟩

namespace Evaluator

/-- When an evaluation fails at a mention, the report has the failure that the mention sees, placed
at the mention unless it has a place. That is the class of a late or of a failed lookup with the
place of the mention, if and only if the lookup did not end with a failure of another class or of
another place. -/
theorem evaluateTree_of_failing_mention (evaluator : Evaluator) (resolver : Resolver (StateM σ))
    (e : Expr) (context : Context) (s : σ) {p : Nat} {name : Text}
    (failing : evaluator.FailsAt (some resolver) e context s (.mention p name)) :
    let r := ((evaluator.evaluateTree (some resolver) e context).run s).1
    ∃ sighting, resolver.sighting? evaluator.options.timeout.isSome e s name = some sighting ∧
      r.result = located p (sighting.value name) ∧
      (r.Blames sighting.code p ↔ ∀ f, sighting = .ended (.error (.failure f)) →
        f.fault.code = .asyncError ∧ ∀ q, f.position = some q → q = p) := by
  intro r
  obtain ⟨visited, failure, breaks⟩ := failing
  have mentioned : name ∈ e.mentions :=
    List.mem_eraseDups.mpr (Expr.reached_subset _ e (Expr.mem_reached.mpr ⟨p, visited⟩))
  obtain ⟨sighting, seen⟩ := resolver.exists_sighting evaluator.options.timeout.isSome e s mentioned
  have failed : r.result = .error failure := by
    simp only [r, evaluateTree_run]
    exact Expr.eval_of_breaks visited breaks
  cases breaks with
  | @mention _ _ inner unseen =>
    have found : sighting.value name = .error inner := by
      have awaited := Lookups.await_eq evaluator.options.timeout.isSome
        ((Lookups.start resolver e).run s).1 name
      rw [show ((((Lookups.start resolver e).run s).1.lookup name).map
        (Lookup.sighting evaluator.options.timeout.isSome)) = some sighting from seen] at awaited
      exact awaited.symm.trans unseen
    refine ⟨sighting, seen, by rw [failed, found]; rfl, ?_⟩
    rcases Sighting.value_eq_error found with rfl | ⟨foreign, unplaced, code⟩
    · rw [Report.blames_iff failed]
      constructor
      · rintro blamed _ ⟨⟩
        exact blamed
      · exact fun h => h inner rfl
    · refine iff_of_true ((Report.blames_iff failed).mpr ⟨code, ?_⟩) fun f same => ?_
      · rw [unplaced]
        nofun
      · exact absurd same (foreign f)

/-- The first of two mentions is answered. The answer for the second comes after the deadline. -/
theorem evaluateTree_of_failing_mention_late :
    let resolver : Resolver (StateM Nat) := fun name asked =>
      (if name = utf8 "a" then .ok (.answered (.ok none)) else .ok (.late (some (.ok none))),
        asked + 1)
    let e : Expr := .array 0 [.mention 1 (utf8 "a"), .mention 5 (utf8 "b")]
    let evaluator : Evaluator := { options := { timeout := some 20 } }
    evaluator.FailsAt (some resolver) e {} 0 (.mention 5 (utf8 "b")) ∧
      ((evaluator.evaluateTree (some resolver) e {}).run 0).1.Blames .timeout 5 := by
  intro resolver e evaluator
  have failing : evaluator.FailsAt (some resolver) e {} 0 (.mention 5 (utf8 "b")) :=
    ⟨List.mem_cons_of_mem _ (List.mem_cons_self ..), _, .mention rfl⟩
  obtain ⟨sighting, seen, -, blamed⟩ :=
    evaluateTree_of_failing_mention evaluator resolver e {} 0 failing
  obtain rfl : .unanswered = sighting := Option.some.inj seen
  exact ⟨failing, blamed.mpr nofun⟩

/-- A resolver that reads another formula for the entity `a` ends its lookup with the failure of
that formula. The evaluation of `1 + @a` fails at the mention, and the report has neither the class
of a failed lookup nor a place in `1 + @a`. -/
theorem not_blames_of_foreign_failure :
    let misread : Failure := .placed (.foreign .parseError (utf8 "Unexpected end of formula")) 12
    let resolver : Resolver (StateM Unit) := fun _ s =>
      (.ok (.answered (.error (.failure misread))), s)
    let e : Expr :=
      .binary 2 .add (.number 0 (Number.ofSpelling (utf8 "1"))) (.mention 4 (utf8 "a"))
    let evaluator : Evaluator := {}
    let r := ((evaluator.evaluateTree (some resolver) e {}).run ()).1
    parse (utf8 "1 + @a") = .ok e ∧
      evaluator.FailsAt (some resolver) e {} () (.mention 4 (utf8 "a")) ∧
      r.code? = some .parseError ∧
      r.error? = some (utf8 "Unexpected end of formula (at position 12)") ∧
      ¬ r.Blames .asyncError 4 := by
  intro misread resolver e evaluator r
  have visited : .mention 4 (utf8 "a") ∈ evaluator.visited (some resolver) e {} () :=
    List.mem_cons_of_mem _ (List.mem_cons_self ..)
  have code : r.code? = some .parseError := by rfl
  have error : r.error? = some (utf8 "Unexpected end of formula (at position 12)") := by
    decide +kernel
  refine ⟨by rfl, ⟨visited, _, .mention rfl⟩, code, error, fun blamed => ?_⟩
  cases code.symm.trans blamed.1

end Evaluator

end

end ComputedFields
