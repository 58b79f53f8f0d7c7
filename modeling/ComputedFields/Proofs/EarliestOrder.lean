import ComputedFields.Proofs.Circles

/-!
# `ComputedFields.Proofs.EarliestOrder` — why the formulas run in this order and in no other

Most batches can be evaluated in several orders. A recalculation looks for the first formula that is
ready, and starts at the front of the batch again after each one. So whatever other order is
proposed, at the first place where the two differ the recalculation has taken a formula that stands
earlier in the batch: both have finished the same formulas by then, the other order's next formula is
ready too, and the scan came to its own choice first.

* `Listing` — the orders in which a batch can be evaluated;
* `idxOf_le_of_firstReady` — whose turn it is stands before all others that are ready;
* `History.isPrefix_or_earlier` — the induction along the order;
* `recalculate_earliest` — the order is the earliest listing.
-/

namespace ComputedFields.Recalculation

open Relation

/-- An order in which a batch can be evaluated: of the formulas from which no circle is reached, each
is listed once, and after all that it reads. -/
structure Listing (formulas : List NamedFormula) (names : List Text) : Prop where
  nodup : names.Nodup
  mem_iff : ∀ name,
    name ∈ names ↔ name ∈ formulas.map (·.name) ∧ ¬ ReachesCircle formulas name
  after : ∀ before name later, names = before ++ name :: later →
    ∀ needed, Reads formulas name needed → needed ∈ before

/-- Where some formulas stand in their batch. -/
def places (formulas : List NamedFormula) (names : List Text) : List Nat :=
  names.map fun name => (formulas.map (·.name)).idxOf name

/-- The two orders begin with the same formulas, and go on with two of which that of the first order
stands earlier in the batch. -/
def Earlier (formulas : List NamedFormula) (names others : List Text) : Prop :=
  ∃ common name rest other rest', names = common ++ name :: rest ∧
    others = common ++ other :: rest' ∧
    (formulas.map (·.name)).idxOf name < (formulas.map (·.name)).idxOf other

theorem Earlier.lex {formulas : List NamedFormula} {names others : List Text}
    (h : Earlier formulas names others) :
    List.Lex (· < ·) (places formulas names) (places formulas others) := by
  obtain ⟨common, name, rest, other, rest', rfl, rfl, lt⟩ := h
  rw [places, places, List.map_append, List.map_append]
  exact List.Lex.append_left _ (List.Lex.rel lt) _

variable {formulas : List NamedFormula} {gives : Context → Entry → Report → Prop} {base : Context}
  {finished : List (Text × Report)} {done : Progress} {entry : Entry}

section

variable (distinct : (formulas.map (·.name)).Nodup)
include distinct

/-- The formula whose turn it is stands before every other one that could have its turn. -/
theorem idxOf_le_of_firstReady {finished : List Text}
    (turn : firstReady (entries formulas) finished = some entry) {other : Entry}
    (mem : other ∈ entries formulas) (waits : other.name ∉ finished)
    (ready : ∀ need ∈ other.needs, need ∈ finished) :
    (formulas.map (·.name)).idxOf entry.name ≤ (formulas.map (·.name)).idxOf other.name := by
  obtain ⟨-, front, back, batch, passed⟩ := List.find?_eq_some_iff_append.mp turn
  -- the scan would not have passed the other formula
  have notPassed : other.name ∉ front.map (·.name) := by
    intro passedName
    obtain ⟨same, sameMem, name⟩ := List.mem_map.mp passedName
    have same_eq : same = other := by
      refine eq_of_name_eq (by rwa [map_name_entries]) ?_ mem name
      rw [batch]
      exact List.mem_append_left _ sameMem
    have refused := passed same sameMem
    rw [same_eq, List.contains_eq_mem, decide_eq_false waits, ready_iff.mpr ready] at refused
    cases refused
  have names : formulas.map (·.name) = front.map (·.name) ++ entry.name :: back.map (·.name) := by
    rw [← map_name_entries, batch, List.map_append, List.map_cons]
  rw [names, List.idxOf_append_of_notMem notPassed]
  by_cases inFront : entry.name ∈ front.map (·.name)
  · have early := List.idxOf_lt_length_of_mem inFront
    rw [List.idxOf_append_of_mem inFront]
    omega
  · rw [List.idxOf_append_of_notMem inFront, List.idxOf_cons_self]
    omega

/-- The same, for two formulas: the one whose turn it is stands strictly before the other. -/
theorem idxOf_lt_of_firstReady {finished : List Text}
    (turn : firstReady (entries formulas) finished = some entry) {other : Entry}
    (mem : other ∈ entries formulas) (waits : other.name ∉ finished)
    (ready : ∀ need ∈ other.needs, need ∈ finished) (ne : entry.name ≠ other.name) :
    (formulas.map (·.name)).idxOf entry.name < (formulas.map (·.name)).idxOf other.name := by
  have le := idxOf_le_of_firstReady distinct turn mem waits ready
  have inBatch : entry.name ∈ formulas.map (·.name) := by
    rw [← map_name_entries]
    exact List.mem_map_of_mem (firstReady_eq_some turn).1
  exact Nat.lt_of_le_of_ne le fun same => ne ((List.idxOf_inj inBatch).mp same)

/-- As far as the recalculation has come, its order is the beginning of a given listing, or it is
earlier in the batch from some formula on. -/
theorem History.isPrefix_or_earlier (h : History gives base (entries formulas) finished)
    {names : List Text} (listing : Listing formulas names) (listed : namesOf finished ⊆ names) :
    namesOf finished <+: names ∨ Earlier formulas (namesOf finished) names := by
  induction h with
  | nil => exact .inl List.nil_prefix
  | @snoc finished entry report history turn given ih =>
    have step : namesOf (finished ++ [(entry.name, report)]) = namesOf finished ++ [entry.name] :=
      List.map_append
    rw [step] at listed ⊢
    rcases ih fun name mem => listed (List.mem_append_left _ mem) with ⟨later, same⟩ | earlier
    · have inNames : entry.name ∈ names := listed (List.mem_append_right _ (List.mem_singleton_self _))
      have fresh := (firstReady_eq_some turn).2.1
      match later, same with
      | [], same =>
        rw [List.append_nil] at same
        exact absurd (same ▸ inNames) fresh
      | other :: later, same =>
        by_cases taken : other = entry.name
        · refine .inl ⟨later, ?_⟩
          rw [← same, taken, List.append_assoc, List.singleton_append]
        -- the listing goes on with a formula that is ready as well, and was passed over
        · have otherIn : other ∈ names := same ▸ List.mem_append_right _ (List.mem_cons_self ..)
          have inBatch := ((listing.mem_iff other).mp otherIn).1
          rw [← map_name_entries] at inBatch
          obtain ⟨candidate, mem, rfl⟩ := List.mem_map.mp inBatch
          have waits : candidate.name ∉ namesOf finished := by
            intro early
            have nodup := same ▸ listing.nodup
            exact (List.nodup_append.mp nodup).2.2 _ early _ (List.mem_cons_self ..) rfl
          have ready : ∀ need ∈ candidate.needs, need ∈ namesOf finished := by
            intro need needed
            have reads := (mem_needs_iff distinct mem).mp needed
            exact listing.after _ _ _ same.symm need reads
          exact .inr ⟨namesOf finished, entry.name, [], candidate.name, later, rfl, same.symm,
            idxOf_lt_of_firstReady distinct turn mem waits ready (Ne.symm taken)⟩
    · obtain ⟨common, name, rest, other, rest', order, same, lt⟩ := earlier
      refine .inr ⟨common, name, rest ++ [entry.name], other, rest', ?_, same, lt⟩
      rw [order, List.append_assoc, List.cons_append]

/-- A formula that needs nothing runs after none that stands behind it in the batch. -/
theorem History.pairwise_idxOf_lt (h : History gives base (entries formulas) finished) :
    (namesOf finished).Pairwise fun earlier later =>
      (∀ needed, ¬ Reads formulas later needed) →
        (formulas.map (·.name)).idxOf earlier < (formulas.map (·.name)).idxOf later := by
  induction h with
  | nil => exact .nil
  | @snoc finished entry report history turn given ih =>
    obtain ⟨mem, fresh, -⟩ := firstReady_eq_some turn
    rw [namesOf, List.map_append]
    refine List.pairwise_append.mpr ⟨ih, List.pairwise_singleton _ _, ?_⟩
    intro earlier inFinished later isLast free
    obtain rfl : later = entry.name := List.mem_singleton.mp isLast
    obtain ⟨⟨_, report'⟩, found, rfl⟩ := List.mem_map.mp inFinished
    obtain ⟨before, after, entry', split, rfl, -, turn', -⟩ := history.mem found
    -- at the turn of the earlier formula, the later one was waiting and already free to run
    have waits : entry.name ∉ namesOf before := by
      intro early
      refine fresh ?_
      rw [split, namesOf, List.map_append]
      exact List.mem_append_left _ early
    refine idxOf_lt_of_firstReady distinct turn' mem waits ?_ ?_
    · intro need needed
      exact absurd ((mem_needs_iff distinct mem).mp needed) (free need)
    · intro same
      exact fresh (same ▸ inFinished)

/-- When the recalculation has ended, its order is a listing. -/
theorem Reached.listing (h : Reached gives base (entries formulas) done)
    (stop : firstReady (entries formulas) done.order = none) : Listing formulas done.order where
  nodup := h.history.nodup
  mem_iff name := by
    constructor
    · intro finished
      have inBatch := map_name_entries formulas ▸ h.order_subset finished
      exact ⟨inBatch, (h.finished_iff distinct stop inBatch).mp finished⟩
    · rintro ⟨inBatch, noCircle⟩
      exact (h.finished_iff distinct stop inBatch).mpr noCircle
  after before name later split needed reads := by
    obtain ⟨before', rest, finished, rfl, names⟩ := List.map_eq_append_iff.mp split
    obtain ⟨⟨_, report⟩, after, rfl, rfl, -⟩ := List.map_eq_cons_iff.mp names
    obtain ⟨entry, same, -, turn, -⟩ := (finished ▸ h.history).split
    obtain ⟨mem, -, ready⟩ := firstReady_eq_some turn
    exact ready needed ((mem_needs_iff distinct mem).mpr (same ▸ reads))

/-- No other listing is as early as the order of the recalculation. -/
theorem Reached.eq_or_lex (h : Reached gives base (entries formulas) done)
    (stop : firstReady (entries formulas) done.order = none) {names : List Text}
    (listing : Listing formulas names) :
    names = done.order ∨ List.Lex (· < ·) (places formulas done.order) (places formulas names) := by
  have own := h.listing distinct stop
  have listed : done.order ⊆ names := by
    intro name finished
    exact (listing.mem_iff name).mpr ((own.mem_iff name).mp finished)
  rcases h.history.isPrefix_or_earlier distinct listing listed with pre | earlier
  · have finished : names ⊆ done.order := by
      intro name mem
      exact (own.mem_iff name).mpr ((listing.mem_iff name).mp mem)
    have short := (listing.nodup.subperm finished).length_le
    exact .inl (pre.eq_of_length_le short).symm
  · exact .inr earlier.lex

/-- Formulas that read nothing of the batch, listed as they stand in the batch, are evaluated in that
order. -/
theorem Reached.sublist_order (h : Reached gives base (entries formulas) done)
    (stop : firstReady (entries formulas) done.order = none) {free : List Text}
    (standing : free.Sublist (formulas.map (·.name)))
    (readNothing : ∀ name ∈ free, ∀ needed, ¬ Reads formulas name needed) :
    free.Sublist done.order := by
  have own := h.listing distinct stop
  have finished : free ⊆ done.order := by
    intro name mem
    refine (own.mem_iff name).mpr ⟨standing.subset mem, ?_⟩
    rintro ⟨other, path, circle⟩
    -- the path to a circle, or the circle itself, starts with something that is read
    rcases ReflTransGen.cases_head path with rfl | ⟨needed, reads, -⟩
    · obtain ⟨needed, reads, -⟩ := TransGen.head'_iff.mp circle
      exact readNothing name mem needed reads
    · exact readNothing name mem needed reads
  have inBatch : (formulas.map (·.name)).Pairwise fun earlier later =>
      (formulas.map (·.name)).idxOf earlier < (formulas.map (·.name)).idxOf later := by
    refine List.pairwise_iff_getElem.mpr fun i j hi hj lt => ?_
    rwa [distinct.idxOf_getElem, distinct.idxOf_getElem]
  have inOrder : (done.order.filter (· ∈ free)).Pairwise fun earlier later =>
      (formulas.map (·.name)).idxOf earlier < (formulas.map (·.name)).idxOf later := by
    refine ((h.history.pairwise_idxOf_lt distinct).sublist List.filter_sublist).imp_of_mem ?_
    intro earlier later _ mem lt
    exact lt (readNothing later (of_decide_eq_true (List.mem_filter.mp mem).2))
  have perm : free.Perm (done.order.filter (· ∈ free)) := by
    refine (List.perm_ext_iff_of_nodup (standing.nodup distinct) (own.nodup.filter _)).mpr ?_
    intro name
    simp only [List.mem_filter, decide_eq_true_iff]
    exact ⟨fun mem => ⟨finished mem, mem⟩, And.right⟩
  have same := perm.eq_of_pairwise (fun _ _ _ _ lt gt => absurd gt lt.asymm)
    (inBatch.sublist standing) inOrder
  rw [same]
  exact List.filter_sublist

end

/-- The order of a recalculation is the earliest of all orders in which the batch can be evaluated,
when orders are compared formula by formula by where the formulas stand in the batch. Among
themselves, formulas that read nothing of the batch keep the order of the batch. -/
theorem recalculate_earliest {σ : Type} (evaluator : Evaluator)
    (resolver : Option (Resolver (StateM σ))) (formulas : List NamedFormula) (base : Context)
    (distinct : (formulas.map (·.name)).Nodup) :
    ∃ run : StateM σ Recalculation, recalculate evaluator resolver formulas base = .ok run ∧
      ∀ s, Listing formulas (run.run s).1.order ∧
        (∀ names, Listing formulas names → names = (run.run s).1.order ∨
          List.Lex (· < ·) (places formulas (run.run s).1.order) (places formulas names)) ∧
        ∀ free : List Text, free.Sublist (formulas.map (·.name)) →
          (∀ name ∈ free, ∀ needed, ¬ Reads formulas name needed) →
          free.Sublist (run.run s).1.order := by
  obtain ⟨run, returned, runs⟩ := recalculate_reached evaluator resolver base distinct
  refine ⟨run, returned, fun s => ?_⟩
  obtain ⟨done, result, reached, stop⟩ := runs s
  rw [result]
  refine ⟨reached.listing distinct stop, ?_, ?_⟩
  · intro names listing
    exact reached.eq_or_lex distinct stop listing
  · intro free standing readNothing
    exact reached.sublist_order distinct stop standing readNothing

/-- A formula that has to wait, two that need not, and one that reads itself: after the second has
run, the scan starts again and finds the first before the third. -/
theorem recalculate_earliest_of_waiting :
    let formulas : List NamedFormula :=
      [⟨utf8 "a", utf8 "b * 2"⟩, ⟨utf8 "b", utf8 "1"⟩, ⟨utf8 "c", utf8 "2"⟩, ⟨utf8 "d", utf8 "d"⟩]
    let order := [utf8 "b", utf8 "a", utf8 "c"]
    (formulas.map (·.name)).Nodup ∧
      ∃ run : StateM Unit Recalculation, recalculate {} none formulas {} = .ok run ∧
        (run.run ()).1.order = order ∧ Listing formulas order ∧
        (∀ names, Listing formulas names → names = order ∨
          List.Lex (· < ·) [1, 0, 2] (places formulas names)) ∧
        ∀ free : List Text, free.Sublist (formulas.map (·.name)) →
          (∀ name ∈ free, ∀ needed, ¬ Reads formulas name needed) → free.Sublist order := by
  intro formulas order
  have distinct : (formulas.map (·.name)).Nodup := by decide
  obtain ⟨run, returned, earliest⟩ := recalculate_earliest (σ := Unit) {} none formulas {} distinct
  have result : (run.run ()).1.order = order := by
    obtain rfl := Except.ok.inj (returned.symm.trans rfl)
    decide
  obtain ⟨listing, least, free⟩ := earliest ()
  rw [result] at listing least free
  exact ⟨distinct, run, returned, result, listing, least, free⟩

end ComputedFields.Recalculation
