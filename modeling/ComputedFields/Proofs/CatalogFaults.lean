import ComputedFields.Proofs.Calendar
import ComputedFields.Proofs.Reading
import ComputedFields.Proofs.Visits

/-!
# `ComputedFields.Proofs.CatalogFaults` — how formulas fail that call functions of the catalog

A function of the catalog takes any number of arguments of any kinds. What it cannot do with them
comes down to a value that is no number or no date, and to a date that is out of range, and all of
these are type errors. The number of arguments is not its concern, and of the tables that it looks
into it uses no index that is not there: a civil time has a month and a weekday.

So without a resolver a formula fails in six ways at most: because it is misread, with a function
that there is none of, with too few or too many arguments, with an unknown name in strict mode, with
a divisor of zero, or with a type error.

* `Builtin.TypeErrorsOnly`, `implementation_cases` — the functions of the catalog;
* `Dates.monthName_ofInstant`, `Dates.named_weekday` — the tables of names;
* `Fault.Plain`, `Evaluator.plain_of_breaks` — the failures of the nodes of a formula;
* `Evaluator.evaluate_code_of_catalog` — the failures of formulas.
-/

namespace ComputedFields

/-! ## The functions of the catalog -/

namespace Function

/-- Whatever its arguments are, the function returns a value or raises a type error. -/
def Builtin.TypeErrorsOnly (f : Builtin) : Prop :=
  ∀ arguments context, FaultsIn [.typeError] (f arguments context)

/-- The function is implemented by one that raises type errors at most. -/
def Definition.TypeErrorsOnly (d : Definition) : Prop :=
  ∃ f : Builtin, d.implementation = f.implementation ∧ f.TypeErrorsOnly

/-- A function that always returns a value. -/
theorem Builtin.TypeErrorsOnly.of_pure (f : List Value → Context → Value) :
    Builtin.TypeErrorsOnly fun arguments context => pure (f arguments context) :=
  fun _ _ => .ok _

namespace Math

theorem ofNumbers_typeErrorsOnly (f : List Float → Float) : (ofNumbers f).TypeErrorsOnly :=
  fun _ _ => (FaultsIn.mapM Value.toNumber_faultsIn _).bind fun _ => .ok _

theorem places_faultsIn (v : Value) : FaultsIn [.typeError] (places v) := by
  have clamped (x : Float) : FaultsIn [.typeError] (if x.isNaN then pure 0
      else if x < -15 then pure (-15)
      else if 15 < x then pure 15
      else pure (Number.truncate x)) :=
    .ite (.ok _) (.ite (.ok _) (.ite (.ok _) (.ok _)))
  exact .ite ((FaultsIn.ok 0).bind clamped) (v.toNumber_faultsIn.bind clamped)

theorem round_typeErrorsOnly : Builtin.TypeErrorsOnly round := fun _ _ =>
  (Value.toNumber_faultsIn _).bind fun _ => (places_faultsIn _).bind fun _ => .ok _

theorem absolute_typeErrorsOnly : Builtin.TypeErrorsOnly absolute := fun _ _ =>
  (Value.toNumber_faultsIn _).bind fun _ => .ok _

end Math

theorem Strings.length_typeErrorsOnly : Builtin.TypeErrorsOnly Strings.length := by
  intro arguments context
  rw [Strings.length]
  split <;> exact .ok _

namespace Dates

theorem duration_typeErrorsOnly : Builtin.TypeErrorsOnly duration := fun _ _ =>
  (Value.toInstant_faultsIn _).bind fun _ => (Value.toInstant_faultsIn _).bind fun _ => .ok _

theorem shiftMonths_faultsIn (t : Instant) (months : Float) :
    FaultsIn [.typeError] (shiftMonths t months) :=
  .ite (instantOfNumber_faultsIn _) (.error (List.mem_singleton_self _))

theorem shift_faultsIn (t : Instant) (amount : Float) (unit : Text) :
    FaultsIn [.typeError] (shift t amount unit) := by
  have shifted (unitLength : Float) : FaultsIn [.typeError] (shiftBy t amount unitLength) :=
    instantOfNumber_faultsIn _
  exact .ite (shifted _) (.ite (shifted _) (.ite (shifted _) (.ite (shifted _)
    (.ite (shiftMonths_faultsIn t _) (.ite (shiftMonths_faultsIn t _) (.ok t))))))

theorem dateAdd_typeErrorsOnly : Builtin.TypeErrorsOnly dateAdd := fun _ _ =>
  (Value.toInstant_faultsIn _).bind fun _ => (Value.toNumber_faultsIn _).bind fun _ =>
    (shift_faultsIn _ _ _).bind fun _ => .ok _

theorem formatDate_typeErrorsOnly : Builtin.TypeErrorsOnly formatDate := fun _ _ =>
  (Value.toInstant_faultsIn _).bind fun _ => .ok _

theorem dayOfWeek_typeErrorsOnly : Builtin.TypeErrorsOnly dayOfWeek := fun _ _ =>
  (Value.toInstant_faultsIn _).bind fun _ => .ok _

end Dates

namespace Travel

theorem distance_typeErrorsOnly : Builtin.TypeErrorsOnly distance := by
  intro arguments context
  rw [distance]
  split <;> exact .ok _

theorem weather_typeErrorsOnly : Builtin.TypeErrorsOnly weather := fun _ _ =>
  .ite ((Value.toInstant_faultsIn _).bind fun _ => .ok _) ((FaultsIn.ok _).bind fun _ => .ok _)

end Travel

/-- No function of the catalog raises anything but type errors. -/
theorem typeErrorsOnly_of_catalog {d : Definition} (h : d ∈ catalog.definitions) :
    d.TypeErrorsOnly := by
  revert d
  simp only [catalog, Math.definitions, Strings.definitions, Dates.definitions, Logic.definitions,
    Aggregate.definitions, Travel.definitions, Reference.definitions, List.forall_mem_append,
    List.forall_mem_cons, List.not_mem_nil, false_imp_iff, implies_true, and_true]
  and_intros
  -- most functions have a value for all arguments
  any_goals exact ⟨_, rfl, .of_pure _⟩
  · exact ⟨_, rfl, Math.ofNumbers_typeErrorsOnly _⟩
  · exact ⟨_, rfl, Math.ofNumbers_typeErrorsOnly _⟩
  · exact ⟨_, rfl, Math.ofNumbers_typeErrorsOnly _⟩
  · exact ⟨_, rfl, Math.ofNumbers_typeErrorsOnly _⟩
  · exact ⟨_, rfl, Math.round_typeErrorsOnly⟩
  · exact ⟨_, rfl, Math.absolute_typeErrorsOnly⟩
  · exact ⟨_, rfl, Strings.length_typeErrorsOnly⟩
  · exact ⟨_, rfl, Dates.duration_typeErrorsOnly⟩
  · exact ⟨_, rfl, Dates.dateAdd_typeErrorsOnly⟩
  · exact ⟨_, rfl, Dates.formatDate_typeErrorsOnly⟩
  · exact ⟨_, rfl, Dates.dayOfWeek_typeErrorsOnly⟩
  · exact ⟨_, rfl, Travel.weather_typeErrorsOnly⟩
  · exact ⟨_, rfl, Travel.distance_typeErrorsOnly⟩

/-- A function of the catalog returns a value or raises a type error, which has no place yet. -/
theorem implementation_cases {d : Definition} (h : d ∈ catalog.definitions)
    (arguments : List Value) (context : Context) :
    (∃ v, d.implementation arguments context = .ok v) ∨
      ∃ fault, d.implementation arguments context = .error (.failure ⟨fault, none⟩) ∧
        fault.code = .typeError := by
  obtain ⟨f, implemented, typeErrorsOnly⟩ := typeErrorsOnly_of_catalog h
  rw [implemented, Builtin.implementation]
  cases result : f arguments context with
  | ok v => exact .inl ⟨v, rfl⟩
  | error fault =>
    exact .inr ⟨fault, rfl, List.mem_singleton.mp (typeErrorsOnly arguments context fault result)⟩

/-- A call of a function of the catalog fails with its arguments or with their number. -/
theorem code_of_apply {d : Definition} (h : d ∈ catalog.definitions) {arguments : List Value}
    {context : Context} {failure : Failure} (failed : d.apply arguments context = .error failure) :
    failure.fault.code = .typeError ∨
      d.accepts arguments.length = false ∧
        failure.fault = .argumentCount d.name d.least d.most arguments.length := by
  rw [Definition.apply] at failed
  split at failed
  · rcases implementation_cases h arguments context with ⟨v, value⟩ | ⟨fault, raised, code⟩
    · rw [value] at failed
      cases failed
    · rw [raised] at failed
      cases failed
      exact .inl code
  · next other =>
    cases failed
    exact .inr ⟨Bool.eq_false_iff.mpr other, rfl⟩

/-- An argument is looked up among those that there are, and is null otherwise. -/
theorem argument_eq (arguments : List Value) (i : Nat) :
    argument arguments i = if h : i < arguments.length then arguments[i] else .null := by
  rw [argument]
  split
  · next inside => rw [List.getElem?_eq_getElem inside, Option.getD_some]
  · next outside => rw [List.getElem?_eq_none (Nat.le_of_not_lt outside), Option.getD_none]

namespace Dates

variable {names : List String}

theorem named_of_lt {i : Int} (nonneg : 0 ≤ i) (h : i < names.length) :
    ∃ k : Fin names.length, i = (k.val : Int) ∧ named names i = utf8 names[k] := by
  lift i to Nat using nonneg
  have inside : i < names.length := Int.ofNat_lt.mp h
  refine ⟨⟨i, inside⟩, rfl, ?_⟩
  rw [named, Int.toNat_natCast, List.getElem?_eq_getElem inside, Option.getD_some]
  rfl

/-- The month of a civil time has a name. -/
theorem monthName_ofInstant (t : Instant) :
    ∃ k : Fin monthNames.length, (Civil.ofInstant t).month - 1 = (k.val : Int) ∧
      monthName (Civil.ofInstant t).month = utf8 monthNames[k] := by
  obtain ⟨first, last⟩ := (Civil.ofInstant_spec t).1.month
  have length : (monthNames.length : Int) = 12 := rfl
  exact named_of_lt (by omega) (by omega)

/-- The weekday of an instant has a name. -/
theorem named_weekday (t : Instant) :
    ∃ k : Fin weekdayNames.length, Calendar.weekday t = (k.val : Int) ∧
      named weekdayNames (Calendar.weekday t) = utf8 weekdayNames[k] :=
  named_of_lt (Int.emod_nonneg _ (by decide)) (Int.emod_lt_of_pos _ (by decide))

end Dates

end Function

/-! ## Formulas -/

/-- The ways in which a source fails that is evaluated with the catalog and without a resolver. -/
inductive Fault.Plain (strict : Bool) (context : Context) : Fault → Prop
  | misread (cause : Misreading) : Plain strict context (.misread cause)
  | unknownFunction {name : Text} (h : Function.catalog.find? name = none) :
    Plain strict context (.unknownFunction name)
  | argumentCount {d : Function.Definition} {n : Nat} (known : d ∈ Function.catalog.definitions)
    (h : d.accepts n = false) : Plain strict context (.argumentCount d.name d.least d.most n)
  | unknownReference {name : Text} (on : strict = true)
    (h : Table.find? name context.fields = none) : Plain strict context (.unknownReference name)
  | operands {fault : Fault} (h : fault.code ∈ [.typeError, .divisionByZero]) :
    Plain strict context fault

/-- A name fails in strict mode, when it is no field. -/
theorem Environment.field_eq_error {env : Environment} {name : Text} {fault : Fault}
    (h : env.field name = .error fault) :
    fault = .unknownReference name ∧ env.strict = true ∧
      Table.find? name env.context.fields = none := by
  rw [field] at h
  split at h
  · cases h
  · next missing =>
    split at h
    · next strict =>
      cases h
      exact ⟨rfl, strict, missing⟩
    · cases h

namespace Evaluator

variable {options : Options} {context : Context}

/-- A node fails in one of these ways. -/
theorem plain_of_breaks {node : Expr} {failure : Failure}
    (breaks : node.Breaks (environment { options } context none) failure) :
    failure.fault.Plain options.strict context := by
  cases breaks with
  | field failed =>
    obtain ⟨rfl, strict, missing⟩ := Environment.field_eq_error failed
    exact .unknownReference strict missing
  | mention failed => cases failed
  | unknownFunction missing => exact .unknownFunction missing
  | call found values failed =>
    have known := (Function.Registry.mem_of_find? found).1
    rcases Function.code_of_apply known failed with code | ⟨rejected, fault⟩
    · exact .operands (List.mem_cons.mpr (.inl code))
    · simp only [Failure.orAt, fault]
      exact .argumentCount known rejected
  | negate value failed =>
    exact .operands ((Value.negate_faultsIn _).mono (by simp) _ failed)
  | binary leftValue rightValue failed =>
    exact .operands (Operator.apply_faultsIn _ _ _ _ failed)

/-- A source fails in one of these ways. -/
theorem plain_of_evaluate {source : Text} {failure : Failure}
    (failed : (evaluate (m := Id) { options } none source context).run.result = .error failure) :
    failure.fault.Plain options.strict context := by
  rw [evaluate] at failed
  split at failed
  · next e _ =>
    have failed : e.eval (environment { options } context none) = .error failure := failed
    obtain ⟨node, -, breaks⟩ := Expr.eval_eq_error_iff.mp failed
    exact plain_of_breaks breaks
  · cases failed
    exact .misread _

/-- The functions of the catalog fail with type errors only. Whatever its arguments are, a function
of the catalog returns a value or raises a type error; a date has a month and a weekday with a name
in the tables, and an argument that is not there is null. So the failure of a source that is
evaluated with the catalog and without a resolver is one of six classes: the number of arguments is
wrong only where a function does not accept it, and a name is unknown only in strict mode, when it
is no field. -/
theorem evaluate_code_of_catalog :
    (∀ d ∈ Function.catalog.definitions, ∀ arguments context,
      (∃ v, d.implementation arguments context = .ok v) ∨
        ∃ fault, d.implementation arguments context = .error (.failure ⟨fault, none⟩) ∧
          fault.code = .typeError) ∧
    (∀ t : Instant,
      (∃ k : Fin Function.Dates.monthNames.length,
        (Civil.ofInstant t).month - 1 = (k.val : Int) ∧
        Function.Dates.monthName (Civil.ofInstant t).month =
          utf8 Function.Dates.monthNames[k]) ∧
      ∃ k : Fin Function.Dates.weekdayNames.length, Calendar.weekday t = (k.val : Int) ∧
        Function.Dates.named Function.Dates.weekdayNames (Calendar.weekday t) =
          utf8 Function.Dates.weekdayNames[k]) ∧
    (∀ (arguments : List Value) (i : Nat), Function.argument arguments i =
      if h : i < arguments.length then arguments[i] else .null) ∧
    ∀ (options : Options) (source : Text) (context : Context) (failure : Failure),
      (evaluate (m := Id) { options } none source context).run.result = .error failure →
        failure.fault.code ∈ [.parseError, .unknownFunction, .invalidArguments, .unknownReference,
          .divisionByZero, .typeError] ∧
        (failure.fault.code = .invalidArguments →
          ∃ d ∈ Function.catalog.definitions, ∃ n, d.accepts n = false ∧
            failure.fault = .argumentCount d.name d.least d.most n) ∧
        (failure.fault.code = .unknownReference → options.strict = true ∧
          ∃ name, failure.fault = .unknownReference name ∧
            Table.find? name context.fields = none) := by
  refine ⟨fun d => Function.implementation_cases,
    fun t => ⟨Function.Dates.monthName_ofInstant t, Function.Dates.named_weekday t⟩,
    Function.argument_eq, ?_⟩
  intro options source context failure failed
  have plain := plain_of_evaluate failed
  generalize failure.fault = fault at plain
  cases plain with
  | misread | unknownFunction =>
    refine ⟨by simp [Fault.code], ?_, ?_⟩
    · rintro ⟨⟩
    · rintro ⟨⟩
  | argumentCount known rejected =>
    refine ⟨by simp [Fault.code], fun _ => ⟨_, known, _, rejected, rfl⟩, ?_⟩
    rintro ⟨⟩
  | unknownReference strict missing =>
    refine ⟨by simp [Fault.code], ?_, fun _ => ⟨strict, _, rfl, missing⟩⟩
    rintro ⟨⟩
  | operands code =>
    simp only [List.mem_cons, List.not_mem_nil, or_false] at code ⊢
    rcases code with code | code <;> simp [code]

/-- `Abs` with two arguments, a name that is no field in strict mode, and the date of an array. -/
theorem evaluate_code_of_catalog_abs :
    let run (strict : Bool) (source : String) : Except Failure Value :=
      (evaluate (m := Id) { options := { strict } } none (utf8 source) {}).run.result
    (∃ failure, run false "Abs(1, 2)" = .error failure ∧ ∃ d ∈ Function.catalog.definitions,
      ∃ n, d.accepts n = false ∧ failure.fault = .argumentCount d.name d.least d.most n) ∧
    (∃ failure, run true "x" = .error failure ∧ ∃ name, failure.fault = .unknownReference name ∧
      Table.find? name [] = (none : Option Value)) ∧
    ∃ failure, run false "DayOfWeek([])" = .error failure ∧
      failure.fault.code ∈ [.parseError, .unknownFunction, .invalidArguments, .unknownReference,
        .divisionByZero, .typeError] := by
  intro run
  obtain ⟨-, -, -, sources⟩ := evaluate_code_of_catalog
  refine ⟨⟨.placed (.argumentCount (utf8 "Abs") 1 (some 1) 2) 0, by rfl, ?_⟩,
    ⟨.placed (.unknownReference (utf8 "x")) 0, by rfl, ?_⟩,
    ⟨.placed (.kindNotDate .array) 0, by rfl, ?_⟩⟩
  · exact (sources { strict := false } (utf8 "Abs(1, 2)") {} _ (by rfl)).2.1 rfl
  · exact ((sources { strict := true } (utf8 "x") {} _ (by rfl)).2.2 rfl).2
  · exact (sources { strict := false } (utf8 "DayOfWeek([])") {} _ (by rfl)).1

end Evaluator

end ComputedFields
