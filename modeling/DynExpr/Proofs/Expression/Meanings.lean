import DynExpr.Proofs.Expression.Realizes

/-!
# What symbols are resolved to

A symbol is resolved to a `Meaning`, and a meaning becomes an evaluator when a tree is built.
`Meaning.Computes` says that the evaluator computes a function on values in every table that is
reached afterwards. So does every built-in meaning (`builtIn?_computes`), and, with deterministic
functions of the host, whatever a symbol is resolved to computes its `symbolFunction`: be it
resolved as impure (`impureMeaning?_computes`) or as pure (`pureMeaning_computes`), with or without
folding.

The two ways look at what the host defines in different orders. That they arrive at the same
function comes from the shape of `HostLookup.ofTables`: constants hide variables and arrays in both,
and the pure definition of any other symbol is the entry of the table.
-/

namespace DynExpr

variable {σ ω : Type} [Host ω]

open MachineEvaluator

/-- In all tables from the one on that it leaves behind, the meaning is an evaluator that computes
the function. -/
def Meaning.Computes (symbol : Symbol) (meaning : Meaning σ ω) (f : ValueFunction ω) : Prop :=
  ∀ machine, Realizes symbol (meaning machine).2.table (meaning machine).1 f

/-! ### Built-in meanings -/

section BuiltIn

variable {symbol : Symbol} {f : ValueFunction ω}

omit [Host ω] in
/-- A meaning that is an evaluator computes what this does in every table. -/
theorem computes_plain {evaluator : MachineEvaluator σ ω}
    (h : ∀ base, Realizes symbol base evaluator f) : (Meaning.plain evaluator).Computes symbol f :=
  fun machine => h machine.table

omit [Host ω] in
/-- A value that is stored when it is resolved is computed by the constant. -/
theorem computes_stored (v : Value ω) :
    (Meaning.stored v : Meaning σ ω).Computes symbol fun _ => .ok v :=
  fun _ => realizes_constant fun hsize hv => ValueTable.carries_store hsize hv

/-- Two choices by one condition are related if their branches are. -/
theorem rel_ite {α β : Type} {r : α → β → Prop} {c : Prop} [Decidable c] {a a' : Option α}
    {b b' : Option β} (h : Option.Rel r a b) (h' : Option.Rel r a' b') :
    Option.Rel r (if c then a else a') (if c then b else b') := by
  split
  · exact h
  · exact h'

/-- Two functions of what is found are related if their values are. -/
theorem rel_map {α β γ : Type} {r : α → β → Prop} {f : γ → α} {g : γ → β}
    (h : ∀ c, r (f c) (g c)) (o : Option γ) : Option.Rel r (o.map f) (o.map g) := by
  cases o with
  | none => exact .none
  | some c => exact .some (h c)

/-- Ranges, subscripts, array literals and string literals. -/
theorem structuralSymbol?_computes (symbol : Symbol) :
    Option.Rel (Meaning.Computes symbol) (structuralSymbol? symbol : Option (Meaning σ ω))
      (structuralOnValues? symbol) := by
  cases symbol with
  -- the cases stand in the same order on both sides
  | infixOp name =>
    refine rel_ite (.some (computes_plain fun _ => realizes_binaryValue _)) ?_
    exact rel_ite (.some (computes_plain fun _ => realizes_binaryValue _)) .none
  | prefixOp name => exact rel_ite (.some (computes_plain fun _ => realizes_unaryValue _)) .none
  | postfixOp name => exact rel_ite (.some (computes_plain fun _ => realizes_unaryValue _)) .none
  | function name arity => exact rel_ite (.some (computes_plain fun _ => realizes_ofValues _)) .none
  | var name => exact rel_map (fun contents => computes_stored (.string contents)) _
  | array name => exact rel_map (fun contents => computes_plain fun _ => realizes_ofValues _) _

/-- Arithmetic. -/
theorem arithmeticSymbol?_computes (symbol : Symbol) :
    Option.Rel (fun evaluator f => ∀ base, Realizes symbol base evaluator f)
      (arithmeticSymbol? symbol : Option (MachineEvaluator σ ω)) (arithmeticOnValues? symbol) := by
  refine rel_map (fun f base => ?_) _
  split
  · exact realizes_binaryValue _
  · exact realizes_numeric f

/-- Logic. -/
theorem logicalSymbol?_computes (symbol : Symbol) :
    Option.Rel (fun evaluator f => ∀ base, Realizes symbol base evaluator f)
      (logicalSymbol? symbol : Option (MachineEvaluator σ ω)) (logicalOnValues? symbol) := by
  refine rel_map (fun f base => ?_) _
  split
  · exact realizes_equality false
  split
  · exact realizes_equality true
  split
  · exact realizes_conditional
  · exact realizes_logical f

omit [Host ω] in
/-- A name for a single value stands for the double that carries it in every table. -/
theorem namedConstant?_carries (name : Text) :
    Option.Rel (fun d v => ∀ table : ValueTable ω, table.Carries d v) (namedConstant? name)
      (namedValue? name) := by
  unfold namedConstant? namedValue?
  refine rel_ite (.some fun _ => .bool true) ?_
  refine rel_ite (.some fun _ => .bool false) ?_
  exact rel_ite (.some fun _ => .nil) .none

/-- **A built-in meaning computes the built-in function of its symbol**, and a symbol without the
one lacks the other. -/
theorem builtIn?_computes (logic : Bool) (symbol : Symbol) :
    Option.Rel (Meaning.Computes symbol) (builtIn? logic symbol : Option (Meaning σ ω))
      (builtInOnValues? logic symbol) := by
  unfold builtIn? builtInOnValues?
  extract_lets named namedOnValues
  -- names of single values come first, and only variables have them
  have hnamed : Option.Rel (fun d v => ∀ table : ValueTable ω, table.Carries d v) named
      namedOnValues := by
    cases symbol with
    | var name => exact namedConstant?_carries name
    | _ => exact .none
  clear_value named namedOnValues
  cases hnamed with
  | some h =>
    refine .some (computes_plain fun base => realizes_constant fun _ _ => ?_)
    rw [(h base).norm_eq]
    exact h base
  | none =>
    refine rel_ite (.some (computes_plain fun _ => realizes_coalescing)) ?_
    -- then `??`, then arithmetic
    have harithmetic : Option.Rel _ (arithmeticSymbol? symbol : Option (MachineEvaluator σ ω)) _ :=
      arithmeticSymbol?_computes symbol
    generalize (arithmeticSymbol? symbol : Option (MachineEvaluator σ ω)) = arithmetic,
      (arithmeticOnValues? symbol : Option (ValueFunction ω)) = arithmeticOnValues at harithmetic ⊢
    cases harithmetic with
    | some h => exact .some (computes_plain h)
    | none =>
      -- then logic, if there is any
      have hlogical : Option.Rel _
          (if logic then logicalSymbol? symbol else none : Option (MachineEvaluator σ ω)) _ :=
        rel_ite (logicalSymbol?_computes symbol) .none
      generalize (if logic then logicalSymbol? symbol else none : Option (MachineEvaluator σ ω)) =
        logical, (if logic then logicalOnValues? symbol else none : Option (ValueFunction ω)) =
        logicalOnValues at hlogical ⊢
      cases hlogical with
      | some h => exact .some (computes_plain h)
      | none => exact structuralSymbol?_computes symbol

/-- A symbol with a built-in meaning has a built-in function, which this computes. -/
theorem builtInOnValues?_of_some {logic : Bool} {meaning : Meaning σ ω}
    (h : builtIn? logic symbol = some meaning) :
    ∃ f, builtInOnValues? logic symbol = some f ∧ meaning.Computes symbol f := by
  have hrel : Option.Rel _ (builtIn? logic symbol : Option (Meaning σ ω)) _ :=
    builtIn?_computes logic symbol
  -- the two sides are related, so the other one is there as well
  rw [h] at hrel
  cases hf : (builtInOnValues? logic symbol : Option (ValueFunction ω)) with
  | none =>
    rw [hf] at hrel
    exact nomatch hrel
  | some f =>
    rw [hf] at hrel
    cases hrel with
    | some hcomputes => exact ⟨f, rfl, hcomputes⟩

/-- A symbol without a built-in meaning has no built-in function. -/
theorem builtInOnValues?_of_none {logic : Bool}
    (h : (builtIn? logic symbol : Option (Meaning σ ω)) = none) :
    (builtInOnValues? logic symbol : Option (ValueFunction ω)) = none := by
  have hrel : Option.Rel _ (builtIn? logic symbol : Option (Meaning σ ω)) _ :=
    builtIn?_computes logic symbol
  rw [h] at hrel
  cases hf : (builtInOnValues? logic symbol : Option (ValueFunction ω)) with
  | none => rfl
  | some f =>
    rw [hf] at hrel
    exact nomatch hrel

end BuiltIn

/-! ### Meanings of the host -/

section OfHost

variable {symbol : Symbol} {function : HostFunction σ ω}

omit [Host ω] in
/-- A function of the host computes its answers in any one state. -/
theorem computes_ofHost (h : function.Deterministic) (host : σ) :
    (Meaning.plain (ofHost function)).Computes symbol (function.answer host) :=
  computes_plain fun _ => realizes_ofHost h host

omit [Host ω] in
/-- A variable, or a function without arguments, may be computed when it is resolved. -/
theorem computes_computed (h : function.Deterministic) (hsymbol : symbol.isConstantLike)
    (host : σ) : (Meaning.computed function).Computes symbol (function.answer host) := by
  intro machine
  -- what was computed is a constant, or a failure that is remembered
  have hremembered : Realizes symbol (Meaning.computed function machine).2.table
      (Meaning.computed function machine).1 fun _ => (function [] machine.host).1 := by
    unfold Meaning.computed Machine.callHost
    dsimp only
    cases (function [] machine.host).1 with
    | ok v => exact realizes_constant fun hsize hv => ValueTable.carries_store hsize hv
    | error failure => exact realizes_failing failure
  intro arguments values current hvalues hbase hcarries hbefore hsize
  -- there are no arguments, and the state does not count
  have hanswer : (function [] machine.host).1 = function.answer host values := by
    rw [hvalues hsymbol]
    exact h [] machine.host host
  rw [← hanswer]
  exact hremembered arguments values current hvalues hbase hcarries hbefore hsize

omit [Host ω] in
/-- A pure function of the host, computed at once where it can be, is its answers. -/
theorem computes_pure (h : function.Deterministic) (host : σ) :
    (if symbol.isConstantLike then Meaning.computed function
      else .plain (ofHost function)).Computes symbol (function.answer host) := by
  split
  · next hsymbol => exact computes_computed h hsymbol host
  · exact computes_ofHost h host

/-- A container that is asked for when it is resolved is subscripted as in any one state. -/
theorem computes_ofContainer (h : function.Deterministic) (host : σ) :
    (Meaning.ofContainer symbol function).Computes symbol
      (subscriptingAnswer symbol (function.answer host)) := by
  intro machine
  have hanswer : (function [] machine.host).1 = function.answer host [] := h [] machine.host host
  unfold Meaning.ofContainer subscriptingAnswer
  rw [← hanswer]
  dsimp only
  cases (function [] machine.host).1 with
  | error failure => exact realizes_failing failure
  | ok container =>
    dsimp only [Except.bind]
    -- the container is looked at now, the indices at each evaluation
    cases subscriptReader symbol container with
    | error failure => exact realizes_failing failure
    | ok read => exact realizes_ofValues read

end OfHost

/-! ### Constants and tables -/

/-- All functions of a table are deterministic. -/
def SymbolTable.Deterministic (table : SymbolTable σ ω) : Prop :=
  ∀ symbol function, table symbol = some function → function.Deterministic

section OfTables

variable {options : Options} {constants : Constants ω} {table : SymbolTable σ ω} {symbol : Symbol}
  {function : HostFunction σ ω} {v : Value ω}

/-- A constant is the same in every state. -/
theorem constantFunction_deterministic (symbol : Symbol) (v : Value ω) :
    (constantFunction symbol v : HostFunction σ ω).Deterministic := by
  intro arguments host host'
  unfold constantFunction
  cases symbol with
  | _ => rfl

omit [Host ω] in
/-- What is found in a table is deterministic, for a number of arguments or for any. -/
theorem SymbolTable.find?_deterministic (htable : table.Deterministic)
    (h : table.find? symbol = some function) : function.Deterministic := by
  unfold SymbolTable.find? at h
  split at h
  · next _ entry hentry => exact Option.some.inj h ▸ htable _ entry hentry
  · next name count _ => exact htable (.function name .any) function h
  · exact absurd h (Option.some_ne_none _).symm

omit [Host ω] in
/-- Constants are variables, or arrays of them. -/
theorem isVariableLike_of_constant (h : constants.of? symbol = some v) :
    symbol.isVariableLike := by
  cases symbol with
  | var name => rfl
  | array name => rfl
  | _ => exact absurd h (Option.some_ne_none v).symm

omit [Host ω] in
/-- So is what is read through a variable. -/
theorem isVariableLike_of_containerOf? {container : Symbol}
    (h : symbol.containerOf? = some container) : symbol.isVariableLike := by
  cases symbol with
  | array name => rfl
  | _ => exact absurd h.symm (Option.some_ne_none container)

/-! A constant hides what the table defines for its name. -/

/-- Constants are not impure. -/
theorem impure?_of_constant (h : constants.of? symbol = some v) :
    (HostLookup.ofTables options constants table).impure? symbol = none := by
  unfold HostLookup.ofTables
  dsimp only
  rw [if_pos (isVariableLike_of_constant h), h]
  rfl

/-- Nor is the variable through which they are read. -/
theorem container_impure?_of_constant (h : constants.of? symbol = some v) :
    symbol.containerOf?.bind (HostLookup.ofTables options constants table).impure? = none := by
  cases symbol with
  | array name =>
    have hvar : constants.of? (.var name) = some v := h
    exact impure?_of_constant hvar
  | _ => rfl

/-- Constants are pure. -/
theorem pure?_of_constant (h : constants.of? symbol = some v) :
    (HostLookup.ofTables options constants table).pure? symbol =
      some (constantFunction symbol v) := by
  simp only [HostLookup.ofTables, h]

/-! All else is an entry of the table. -/

/-- What is impure is in the table, and is no constant. -/
theorem impure?_eq_some
    (h : (HostLookup.ofTables options constants table).impure? symbol = some function) :
    constants.of? symbol = none ∧ table.find? symbol = some function := by
  -- a constant would not be impure
  have hconstant : constants.of? symbol = none := by
    cases hof : constants.of? symbol with
    | none => rfl
    | some v =>
      rw [impure?_of_constant hof] at h
      exact absurd h.symm (Option.some_ne_none function)
  refine ⟨hconstant, ?_⟩
  unfold HostLookup.ofTables at h
  dsimp only at h
  rw [hconstant] at h
  split at h
  · exact h
  split at h
  · exact absurd h.symm (Option.some_ne_none function)
  · exact h

/-- A variable of the table is impure, if it is no constant. -/
theorem impure?_of_variable (hvariable : symbol.isVariableLike)
    (h : constants.of? symbol = none) :
    (HostLookup.ofTables options constants table).impure? symbol = table.find? symbol := by
  unfold HostLookup.ofTables
  dsimp only
  rw [if_pos hvariable, h]
  rfl

/-- So is the variable through which an array is read. -/
theorem container_impure? (h : constants.of? symbol = none) :
    symbol.containerOf?.bind (HostLookup.ofTables options constants table).impure? =
      symbol.containerOf?.bind table.find? := by
  cases symbol with
  | array name =>
    have hvar : constants.of? (.var name) = none := h
    exact impure?_of_variable rfl hvar
  | _ => rfl

/-- What is in the table is found as pure, if it is no constant. -/
theorem pure?_of_not_constant (h : constants.of? symbol = none) :
    (HostLookup.ofTables options constants table).pure? symbol = table.find? symbol := by
  simp only [HostLookup.ofTables, h]

/-- So is the variable through which an array is read. -/
theorem container_pure? (h : constants.of? symbol = none) :
    symbol.containerOf?.bind (HostLookup.ofTables options constants table).pure? =
      symbol.containerOf?.bind table.find? := by
  cases symbol with
  | array name =>
    have hvar : constants.of? (.var name) = none := h
    exact pure?_of_not_constant hvar
  | _ => rfl

/-! ### What a symbol is resolved to -/

/-- A constant stands for its value. -/
theorem symbolFunction_of_constant (h : constants.of? symbol = some v) (host : σ) :
    symbolFunction options constants table host symbol =
      (constantFunction symbol v).answer host := by
  simp only [symbolFunction, h]

/-- An entry of the table comes next. -/
theorem symbolFunction_of_find? (h : constants.of? symbol = none)
    (hfind : table.find? symbol = some function) (host : σ) :
    symbolFunction options constants table host symbol = function.answer host := by
  simp only [symbolFunction, h, hfind]

/-- Then comes the variable of the array's name. -/
theorem symbolFunction_of_container (h : constants.of? symbol = none)
    (hfind : table.find? symbol = none)
    (hcontainer : symbol.containerOf?.bind table.find? = some function) (host : σ) :
    symbolFunction options constants table host symbol =
      subscriptingAnswer symbol (function.answer host) := by
  simp only [symbolFunction, h, hfind, hcontainer]

/-- Then come built-in functions. -/
theorem symbolFunction_of_builtIn (h : constants.of? symbol = none)
    (hfind : table.find? symbol = none)
    (hcontainer : symbol.containerOf?.bind table.find? = none) {f : ValueFunction ω}
    (hf : builtInOnValues? options.logic symbol = some f) (host : σ) :
    symbolFunction options constants table host symbol = f := by
  simp only [symbolFunction, h, hfind, hcontainer, hf]

/-- What has no meaning fails. -/
theorem symbolFunction_of_nothing (h : constants.of? symbol = none)
    (hfind : table.find? symbol = none)
    (hcontainer : symbol.containerOf?.bind table.find? = none)
    (hf : (builtInOnValues? options.logic symbol : Option (ValueFunction ω)) = none) (host : σ) :
    symbolFunction options constants table host symbol = fun _ =>
      .error (unresolvedFailure options (.ofTables options constants table) symbol) := by
  simp only [symbolFunction, h, hfind, hcontainer, hf]

/-- The built-in meaning counts where the host defines nothing. -/
theorem builtIn?_computes_symbolFunction (h : constants.of? symbol = none)
    (hfind : table.find? symbol = none)
    (hcontainer : symbol.containerOf?.bind table.find? = none) {meaning : Meaning σ ω}
    (hmeaning : builtIn? options.logic symbol = some meaning) (host : σ) :
    meaning.Computes symbol (symbolFunction options constants table host symbol) := by
  obtain ⟨f, hf, hcomputes⟩ := builtInOnValues?_of_some hmeaning
  rw [symbolFunction_of_builtIn h hfind hcontainer hf]
  exact hcomputes

/-- **An impure symbol** is resolved to its function. -/
theorem impureMeaning?_computes (htable : table.Deterministic) {meaning : Meaning σ ω}
    (h : impureMeaning? options (.ofTables options constants table) symbol = some meaning)
    (host : σ) : meaning.Computes symbol (symbolFunction options constants table host symbol) := by
  unfold impureMeaning? at h
  cases hof : constants.of? symbol with
  | some v =>
    -- without folding, a constant is asked for at every evaluation
    rw [impure?_of_constant hof, container_impure?_of_constant hof, pure?_of_constant hof] at h
    dsimp only at h
    split at h
    · obtain rfl := Option.some.inj h
      rw [symbolFunction_of_constant hof]
      exact computes_ofHost (constantFunction_deterministic symbol v) host
    · exact absurd h.symm (Option.some_ne_none meaning)
  | none =>
    rw [container_impure? hof, pure?_of_not_constant hof] at h
    cases himpure : (HostLookup.ofTables options constants table).impure? symbol with
    | some function =>
      -- the host's own function is called at every evaluation
      rw [himpure] at h
      obtain rfl := Option.some.inj h
      have hfind := (impure?_eq_some himpure).2
      rw [symbolFunction_of_find? hof hfind]
      exact computes_ofHost (SymbolTable.find?_deterministic htable hfind) host
    | none =>
      rw [himpure] at h
      cases hcontainer : symbol.containerOf?.bind table.find? with
      | some function =>
        rw [hcontainer] at h
        obtain rfl := Option.some.inj h
        obtain ⟨container, hcontainerOf, hfunction⟩ := Option.bind_eq_some_iff.mp hcontainer
        -- an array is like a variable: the table has it, or it is not impure
        have hfind : table.find? symbol = none := by
          rw [← impure?_of_variable (isVariableLike_of_containerOf? hcontainerOf) hof, himpure]
        rw [symbolFunction_of_container hof hfind hcontainer]
        have hdeterministic := SymbolTable.find?_deterministic htable hfunction
        exact computes_plain fun _ => realizes_readingVariable hdeterministic host
      | none =>
        rw [hcontainer] at h
        dsimp only at h
        split at h
        · -- without folding, what is pure is called at every evaluation as well
          cases hfind : table.find? symbol with
          | some function =>
            rw [hfind] at h
            obtain rfl := Option.some.inj h
            rw [symbolFunction_of_find? hof hfind]
            exact computes_ofHost (SymbolTable.find?_deterministic htable hfind) host
          | none =>
            rw [hfind] at h
            exact builtIn?_computes_symbolFunction hof hfind hcontainer h host
        · exact absurd h.symm (Option.some_ne_none meaning)

/-- **A pure symbol** is resolved to its function. -/
theorem pureMeaning_computes (htable : table.Deterministic) (symbol : Symbol) (host : σ) :
    (pureMeaning options (.ofTables options constants table) symbol).Computes symbol
      (symbolFunction options constants table host symbol) := by
  unfold pureMeaning
  cases hof : constants.of? symbol with
  | some v =>
    rw [pure?_of_constant hof, symbolFunction_of_constant hof]
    exact computes_pure (constantFunction_deterministic symbol v) host
  | none =>
    rw [pure?_of_not_constant hof, container_pure? hof]
    cases hfind : table.find? symbol with
    | some function =>
      rw [symbolFunction_of_find? hof hfind]
      exact computes_pure (SymbolTable.find?_deterministic htable hfind) host
    | none =>
      cases hcontainer : symbol.containerOf?.bind table.find? with
      | some function =>
        obtain ⟨container, -, hfunction⟩ := Option.bind_eq_some_iff.mp hcontainer
        rw [symbolFunction_of_container hof hfind hcontainer]
        exact computes_ofContainer (SymbolTable.find?_deterministic htable hfunction) host
      | none =>
        -- the host defines nothing
        cases hbuiltIn : (builtIn? options.logic symbol : Option (Meaning σ ω)) with
        | some meaning =>
          exact builtIn?_computes_symbolFunction hof hfind hcontainer hbuiltIn host
        | none =>
          have hf := builtInOnValues?_of_none hbuiltIn
          rw [symbolFunction_of_nothing hof hfind hcontainer hf]
          exact computes_plain fun _ => realizes_failing _

end OfTables

end DynExpr
