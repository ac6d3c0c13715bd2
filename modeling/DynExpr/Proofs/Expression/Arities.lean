import DynExpr.Proofs.Expression.Operands
import DynExpr.Proofs.Expression.Remembered

/-!
# Numbers of arguments

A function is resolved with the number of arguments that it has in the tree. The host is asked, and
then the built-in functions: `HostLookup.Resolves` says that one of them has the function, and
`HostLookup.Provides` which evaluator it has there. With constants and a table, the table may have
it for this number of arguments or for any (`ofTables_resolves_iff`), and the built-in functions are
listed in `IsBuiltInFunction`.

A function that is not resolved fails where it is called. `HostLookup.Reports` is the error: the
name is tried with other numbers of arguments, by the same rules, and the least number with which it
is resolved is the one expected. This is the failure with which the call is compiled
(`unresolvedFailure_function`).

An application is compiled with or without folding, and may be computed in advance. Whatever
becomes of it, once its operands are numbers it ends as its evaluator does
(`Folding.evaluate_built_of_impure`, `Folding.evaluate_built_of_pure`). `compile_reports` states it
for every call of a function in a line that was read, with the place of the call in the compiled
tree and what becomes of the runs.
-/

namespace DynExpr

variable {σ ω ε : Type}

/-! ### Built-in functions -/

/-- The built-in functions: array literals and the extremes, with any number of arguments, and the
functions of one and of two arguments. -/
inductive IsBuiltInFunction : Text → Nat → Prop
  | arrayLiteral (count : Nat) : IsBuiltInFunction Symbol.brackets count
  | extreme {name : Text} (count : Nat) (h : name ∈ [utf8 "max", utf8 "min"]) :
      IsBuiltInFunction name count
  | unary {name : Text} (h : name ∈ unaryFunctions.map Prod.fst) : IsBuiltInFunction name 1
  | binary {name : Text} (h : name ∈ binaryFunctions.map Prod.fst) : IsBuiltInFunction name 2

section BuiltIn

variable {name : Text} {arity : Arity} {count : Nat} {logic : Bool}

/-- A list of pairs has an entry for the names in front. -/
theorem isSome_lookup_iff {α : Type} {entries : List (Text × α)} :
    (entries.lookup name).isSome ↔ name ∈ entries.map Prod.fst := by
  induction entries with
  | nil => simp
  | cons entry rest ih =>
    rw [List.map_cons, List.mem_cons, ← ih]
    by_cases hname : name = entry.1
    · simp [hname]
    · simp [hname]

/-- The arithmetic on functions: by the exact number of arguments, or else by any. -/
theorem isSome_mathSymbol?_function :
    (mathSymbol? (.function name (.exactly count)) : Option (NumericFunction ω)).isSome ↔
      name ∈ [utf8 "max", utf8 "min"] ∨
        (count = 1 ∧ name ∈ unaryFunctions.map Prod.fst) ∨
        (count = 2 ∧ name ∈ binaryFunctions.map Prod.fst) := by
  have hvariadic : ((variadicFunctions : List (Text × NumericFunction ω)).lookup name).isSome ↔
      name ∈ [utf8 "max", utf8 "min"] := isSome_lookup_iff
  rw [← hvariadic, ← isSome_lookup_iff, ← isSome_lookup_iff]
  -- only functions of one and of two arguments have lists of their own
  match count with
  | 1 => rw [mathSymbol?]; cases unaryFunctions.lookup name <;> simp
  | 2 => rw [mathSymbol?]; cases binaryFunctions.lookup name <;> simp
  | 0 => simp [mathSymbol?]
  | n + 3 => simp [mathSymbol?]

variable [Host ω]

/-- The built-in meaning of a function is one of arithmetic, or an array literal; there is no logic
in it. -/
theorem builtIn?_function :
    (builtIn? logic (.function name arity) : Option (Meaning σ ω)) =
      match (arithmeticSymbol? (.function name arity) : Option (MachineEvaluator σ ω)) with
      | some evaluator => some (.plain evaluator)
      | none => structuralSymbol? (.function name arity) := by
  cases logic <;> rfl

/-- The built-in meaning of a function is an evaluator, which is not computed when it is resolved.
-/
theorem exists_plain_of_builtIn?_function {meaning : Meaning σ ω}
    (h : builtIn? logic (.function name arity) = some meaning) :
    ∃ evaluator, meaning = .plain evaluator := by
  rw [builtIn?_function] at h
  split at h
  · exact ⟨_, (Option.some.inj h).symm⟩
  · obtain ⟨-, h⟩ := Option.ite_none_right_eq_some.mp h
    exact ⟨_, (Option.some.inj h).symm⟩

/-- The functions with a built-in meaning. -/
theorem isSome_builtIn?_function :
    (builtIn? logic (.function name (.exactly count)) : Option (Meaning σ ω)).isSome ↔
      IsBuiltInFunction name count := by
  have harithmetic : (arithmeticSymbol? (.function name (.exactly count)) :
      Option (MachineEvaluator σ ω)).isSome ↔ _ :=
    (iff_of_eq (congrArg (· = true) Option.isSome_map)).trans isSome_mathSymbol?_function
  have hstructural : (structuralSymbol? (.function name (.exactly count)) :
      Option (Meaning σ ω)).isSome ↔ name = Symbol.brackets := by
    rw [structuralSymbol?]
    split <;> simp [*]
  rw [builtIn?_function]
  cases h : (arithmeticSymbol? (.function name (.exactly count)) :
    Option (MachineEvaluator σ ω)) with
  | some evaluator =>
    rw [h] at harithmetic
    refine ⟨fun _ => ?_, fun _ => rfl⟩
    -- arithmetic comes first, and array literals are what it lacks
    rcases harithmetic.mp rfl with hname | ⟨rfl, hname⟩ | ⟨rfl, hname⟩
    · exact .extreme count hname
    · exact .unary hname
    · exact .binary hname
  | none =>
    rw [h] at harithmetic
    dsimp only
    rw [hstructural]
    constructor
    · rintro rfl
      exact .arrayLiteral count
    · intro hbuiltIn
      cases hbuiltIn with
      | arrayLiteral => rfl
      | extreme _ hname => cases harithmetic.mpr (.inl hname)
      | unary hname => cases harithmetic.mpr (.inr (.inl ⟨rfl, hname⟩))
      | binary hname => cases harithmetic.mpr (.inr (.inr ⟨rfl, hname⟩))

end BuiltIn

/-! ### Resolving functions -/

namespace HostLookup

variable [Host ω]

/-- The symbol has an evaluator: the host defines it, or it is built in. -/
def Resolves (options : Options) (lookup : HostLookup σ ω) (symbol : Symbol) : Prop :=
  (lookup.impure? symbol).isSome ∨ (lookup.pure? symbol).isSome ∨
    (builtIn? options.logic symbol : Option (Meaning σ ω)).isSome

/-- Whether a symbol has an evaluator is found out by looking. -/
instance (options : Options) (lookup : HostLookup σ ω) (symbol : Symbol) :
    Decidable (lookup.Resolves options symbol) :=
  inferInstanceAs (Decidable (_ ∨ _ ∨ _))

/-- The evaluator that a function has: the host's impure one, its pure one, or the built-in one, in
this order. -/
inductive Provides (options : Options) (lookup : HostLookup σ ω) (symbol : Symbol) :
    MachineEvaluator σ ω → Prop
  | impure {function : HostFunction σ ω} (h : lookup.impure? symbol = some function) :
      Provides options lookup symbol (.ofHost function)
  | pure {function : HostFunction σ ω} (himpure : lookup.impure? symbol = none)
      (h : lookup.pure? symbol = some function) : Provides options lookup symbol (.ofHost function)
  | builtIn {evaluator : MachineEvaluator σ ω} (himpure : lookup.impure? symbol = none)
      (hpure : lookup.pure? symbol = none)
      (h : builtIn? options.logic symbol = some (.plain evaluator)) :
      Provides options lookup symbol evaluator

/-- The error of a function without an evaluator. If the name has one with other numbers of
arguments that are tried, the least of these is the one expected; otherwise the function itself is
undefined. -/
inductive Reports (options : Options) (lookup : HostLookup σ ω) (name : Text) (count : Nat) :
    Error ω → Prop
  | arity {least : Nat} (hprobed : least ≤ greatestProbedArity)
      (hresolves : lookup.Resolves options (.function name (.exactly least)))
      (hleast : ∀ other < least, ¬ lookup.Resolves options (.function name (.exactly other))) :
      Reports options lookup name count (.arityMismatch (.function name (.exactly least)))
  | undefined (hnone : ∀ other ≤ greatestProbedArity,
        ¬ lookup.Resolves options (.function name (.exactly other))) :
      Reports options lookup name count (.undefinedSymbol (.function name (.exactly count)))

variable {options : Options} {lookup : HostLookup σ ω} {name : Text} {count : Nat}

/-- There is one error at most. -/
theorem Reports.unique {error error' : Error ω} (h : lookup.Reports options name count error)
    (h' : lookup.Reports options name count error') : error = error' := by
  cases h with
  | @arity least hprobed hresolves hleast =>
    cases h' with
    | @arity least' hprobed' hresolves' hleast' =>
      -- neither of the two numbers is below the other
      have hge : ¬ least < least' := fun hlt => hleast' least hlt hresolves
      have hle : ¬ least' < least := fun hlt => hleast least' hlt hresolves'
      rw [Nat.le_antisymm (Nat.not_lt.mp hle) (Nat.not_lt.mp hge)]
    | undefined hnone => exact absurd hresolves (hnone least hprobed)
  | undefined hnone =>
    cases h' with
    | @arity least hprobed hresolves => exact absurd hresolves (hnone least hprobed)
    | undefined => rfl

/-- **Compiling finds the error** of a function without an evaluator. -/
theorem unresolvedFailure_function : ∃ error, lookup.Reports options name count error ∧
    unresolvedFailure options lookup (.function name (.exactly count)) = .error error := by
  unfold unresolvedFailure
  extract_lets resolves probes
  have hresolves (probe : Symbol) : resolves probe = true ↔ lookup.Resolves options probe := by
    simp only [resolves, Resolves, Bool.or_eq_true, or_assoc]
  have hskipped {probe : Symbol} (h : (!resolves probe) = true) :
      ¬ lookup.Resolves options probe := by
    rwa [← hresolves, Bool.not_eq_true, ← Bool.not_eq_true']
  have hprobes : probes.find? resolves = ((List.range (greatestProbedArity + 1)).find?
      fun count => resolves (.function name (.exactly count))).map
        fun count => .function name (.exactly count) := List.find?_map
  rw [hprobes]
  cases hfind : (List.range (greatestProbedArity + 1)).find?
      fun count => resolves (.function name (.exactly count)) with
  | some least =>
    obtain ⟨hleast, hprobed, hbelow⟩ := List.find?_range_eq_some.mp hfind
    have hbound : least ≤ greatestProbedArity := Nat.le_of_lt_succ (List.mem_range.mp hprobed)
    exact ⟨_, .arity hbound ((hresolves _).mp hleast) fun other hother =>
      hskipped (hbelow other hother), rfl⟩
  | none =>
    have hnone := List.find?_range_eq_none.mp hfind
    exact ⟨_, .undefined fun other hother => hskipped (hnone other (Nat.lt_succ_of_le hother)), rfl⟩

/-- **What constants and a table resolve**: functions that the table has for this number of
arguments or for any, and the built-in ones. -/
theorem ofTables_resolves_iff {constants : Constants ω} {table : SymbolTable σ ω} :
    (ofTables options constants table).Resolves options (.function name (.exactly count)) ↔
      (table (.function name (.exactly count))).isSome ∨ (table (.function name .any)).isSome ∨
        IsBuiltInFunction name count := by
  have hfind : (table.find? (.function name (.exactly count))).isSome ↔
      (table (.function name (.exactly count))).isSome ∨ (table (.function name .any)).isSome := by
    unfold SymbolTable.find?
    cases table (.function name (.exactly count)) <;> simp
  have hpure : (ofTables options constants table).pure? (.function name (.exactly count)) =
      table.find? (.function name (.exactly count)) := rfl
  have himpure : ((ofTables options constants table).impure?
      (.function name (.exactly count))).isSome →
        (table.find? (.function name (.exactly count))).isSome := by
    intro h
    obtain ⟨function, hfunction⟩ := Option.isSome_iff_exists.mp h
    exact Option.isSome_of_eq_some (impure?_eq_some hfunction).2
  -- what is impure is in the table, and so it is found as pure, too
  rw [Resolves, isSome_builtIn?_function, hpure, ← or_assoc, ← or_assoc, ← hfind]
  exact or_congr_left (or_iff_right_of_imp himpure)

end HostLookup

/-! ### Steps of compiling -/

section Steps

variable {resolution : Resolution σ ε} {folding : Folding σ ε} {evaluator : Evaluator σ ε}
  {numbers : List Double} {s t after : σ}

/-- What is remembered is the result. -/
theorem Evaluator.remembering_fst (result : Except ε Double) (arguments : List Double) (s : σ) :
    (Evaluator.remembering result arguments s).1 = result := by
  cases result <;> rfl

/-- An impure application ends as its evaluator does with the numbers of its operands. -/
theorem Folding.evaluate_built_of_impure
    (himpure : resolution.impure? folding.symbol folding.state = (some evaluator, t))
    (hoperands : EvalNode.evaluateAll folding.operands s = (.ok numbers, after)) :
    (folding.built resolution).1.evaluate s = evaluator numbers after := by
  unfold Folding.built foldCall
  rw [himpure]
  exact EvalNode.evaluate_call_of_ok hoperands

/-- A pure application ends as its evaluator does with the numbers of its operands: when it is
evaluated, or already when it is compiled. -/
theorem Folding.evaluate_built_of_pure
    (himpure : resolution.impure? folding.symbol folding.state = (none, folding.state))
    (hkept : resolution.replacement? folding.symbol folding.operands = none)
    (hpure : resolution.pure folding.symbol folding.state = (evaluator, t))
    (hoperands : EvalNode.evaluateAll folding.operands s = (.ok numbers, after)) :
    ((folding.built resolution).1.evaluate s).1 = (evaluator numbers after).1 ∨
      ((folding.built resolution).1.evaluate s).1 = (evaluator numbers t).1 := by
  cases hliterals : EvalNode.literals? folding.operands with
  | none =>
    unfold Folding.built foldCall
    simp only [himpure, hkept, hpure, hliterals]
    exact .inl (congrArg Prod.fst (EvalNode.evaluate_call_of_ok hoperands))
  | some known =>
    -- the numbers that are known in advance are those of the operands
    have hknown := EvalNode.evaluateAll_of_literals? hliterals s
    obtain rfl : known = numbers := by
      rw [hoperands] at hknown
      exact (Except.ok.inj (Prod.mk.inj hknown).1).symm
    refine .inr ?_
    rcases hend : evaluator known t with ⟨failure | value, u⟩
    · rw [built_of_error himpure hkept hpure hliterals hend,
        EvalNode.evaluate_call_of_ok hoperands]
      rfl
    · rw [built_of_ok himpure hkept hpure hliterals hend]
      rfl

end Steps

section Functions

variable [Host ω] {options : Options} {lookup : HostLookup σ ω} {name : Text} {count : Nat}
  {folding : Folding (Machine σ ω) (Failure ω)}

/-- **A function without an evaluator** is compiled to a call that fails with the error. -/
theorem built_of_not_resolves
    (hsymbol : folding.symbol = .function name (.exactly count))
    (hnot : ¬ lookup.Resolves options folding.symbol) :
    ∃ error, lookup.Reports options name count error ∧
      folding.built (resolution options lookup) =
        (.call folding.symbol (.failing (.error error)) folding.operands, folding.state) := by
  obtain ⟨error, hreports, hfailure⟩ :
      ∃ error, lookup.Reports options name count error ∧
        unresolvedFailure options lookup folding.symbol = .error error :=
    hsymbol ▸ HostLookup.unresolvedFailure_function
  obtain ⟨himpure, hpure, hbuiltIn⟩ :
      lookup.impure? folding.symbol = none ∧ lookup.pure? folding.symbol = none ∧
        (builtIn? options.logic folding.symbol : Option (Meaning σ ω)) = none := by
    simpa [HostLookup.Resolves] using hnot
  have hcontainer : folding.symbol.containerOf? = none := by rw [hsymbol]; rfl
  have hmeaning : impureMeaning? options lookup folding.symbol = none := by
    simp [impureMeaning?, himpure, hpure, hbuiltIn, hcontainer]
  -- a function is not `??`, so the call is not replaced
  have hkept : coalescingReplacement? lookup folding.symbol folding.operands = none :=
    coalescingReplacement?_of_ne lookup folding.operands (by rw [hsymbol]; nofun)
  refine ⟨error, hreports,
    built_of_failing (resolution_impure?_of_none hmeaning folding.state) hkept ?_⟩
  show pureMeaning options lookup folding.symbol folding.state = _
  unfold pureMeaning
  rw [hpure, hcontainer, hbuiltIn, ← hfailure]
  rfl

/-- A function with an evaluator is resolved to it, as impure or as pure; but what a pure function
of the host without arguments yields is computed at once. -/
theorem exists_provides (hsymbol : folding.symbol = .function name (.exactly count))
    (hresolves : lookup.Resolves options folding.symbol) :
    ∃ evaluator, lookup.Provides options folding.symbol evaluator ∧
      (impureMeaning? options lookup folding.symbol = some (.plain evaluator) ∨
        impureMeaning? options lookup folding.symbol = none ∧
          (pureMeaning options lookup folding.symbol = .plain evaluator ∨
            ∃ function, evaluator = .ofHost function ∧ count = 0 ∧
              pureMeaning options lookup folding.symbol = .computed function)) := by
  have hcontainer : folding.symbol.containerOf? = none := by rw [hsymbol]; rfl
  cases himpure : lookup.impure? folding.symbol with
  | some function =>
    refine ⟨_, .impure himpure, .inl ?_⟩
    simp [impureMeaning?, himpure]
  | none =>
    cases hpure : lookup.pure? folding.symbol with
    | some function =>
      refine ⟨_, .pure himpure hpure, ?_⟩
      by_cases hunfolded : options.unfolded
      · refine .inl ?_
        simp [impureMeaning?, himpure, hpure, hcontainer, hunfolded]
      · refine .inr ⟨by simp [impureMeaning?, himpure, hcontainer, hunfolded], ?_⟩
        -- without arguments it is computed now, and only then
        by_cases hconstant : folding.symbol.isConstantLike
        · refine .inr ⟨function, rfl, ?_, by simp [pureMeaning, hpure, hconstant]⟩
          rw [hsymbol] at hconstant
          simpa [Symbol.isConstantLike] using hconstant
        · exact .inl (by simp [pureMeaning, hpure, hconstant])
    | none =>
      obtain ⟨meaning, hmeaning⟩ : ∃ meaning : Meaning σ ω,
          builtIn? options.logic folding.symbol = some meaning := by
        simpa [HostLookup.Resolves, himpure, hpure, Option.isSome_iff_exists] using hresolves
      obtain ⟨evaluator, rfl⟩ := exists_plain_of_builtIn?_function (hsymbol ▸ hmeaning)
      refine ⟨evaluator, .builtIn himpure hpure hmeaning, ?_⟩
      by_cases hunfolded : options.unfolded
      · refine .inl ?_
        simp [impureMeaning?, himpure, hpure, hcontainer, hunfolded, hmeaning]
      · refine .inr ⟨by simp [impureMeaning?, himpure, hcontainer, hunfolded], .inl ?_⟩
        simp [pureMeaning, hpure, hcontainer, hmeaning]

/-- **A function with an evaluator** ends as this does with the numbers of the operands: in the
state of the evaluation, or in the one in which it was compiled. -/
theorem evaluate_of_resolves (hsymbol : folding.symbol = .function name (.exactly count))
    (hcount : folding.operands.length = count)
    (hresolves : lookup.Resolves options folding.symbol) :
    ∃ evaluator, lookup.Provides options folding.symbol evaluator ∧
      ∀ s numbers after, EvalNode.evaluateAll folding.operands s = (.ok numbers, after) →
        ((folding.built (resolution options lookup)).1.evaluate s).1 =
            (evaluator numbers after).1 ∨
          ((folding.built (resolution options lookup)).1.evaluate s).1 =
            (evaluator numbers folding.state).1 := by
  have hkept : coalescingReplacement? lookup folding.symbol folding.operands = none :=
    coalescingReplacement?_of_ne lookup folding.operands (by rw [hsymbol]; nofun)
  obtain ⟨evaluator, hprovides, hresolved⟩ := exists_provides hsymbol hresolves
  refine ⟨evaluator, hprovides, fun s numbers after hoperands => ?_⟩
  rcases hresolved with hmeaning | ⟨hmeaning, hpure | ⟨function, rfl, rfl, hpure⟩⟩
  · -- an impure evaluator is called in the state of the evaluation
    have himpure := resolution_impure?_of_some hmeaning folding.state
    exact .inl (congrArg Prod.fst (folding.evaluate_built_of_impure himpure hoperands))
  · have himpure := resolution_impure?_of_none hmeaning folding.state
    exact folding.evaluate_built_of_pure himpure hkept (congrFun hpure folding.state) hoperands
  · -- it was called without arguments, and these are the numbers of its operands
    have himpure := resolution_impure?_of_none hmeaning folding.state
    obtain rfl : numbers = [] :=
      List.eq_nil_of_length_eq_zero ((EvalNode.length_of_evaluateAll hoperands).trans hcount)
    have hend := folding.evaluate_built_of_pure himpure hkept (congrFun hpure folding.state)
      hoperands
    rw [Evaluator.remembering_fst, Evaluator.remembering_fst, or_self] at hend
    exact .inr hend

/-- A function is compiled to a call, or to a literal. -/
theorem literal_or_call_of_function (hsymbol : folding.symbol = .function name (.exactly count)) :
    (∃ value, (folding.built (resolution options lookup)).1 = .literal value) ∨
      folding.call? options lookup = some (folding.built (resolution options lookup)).1 := by
  have hkept : placedOperand? options lookup folding.symbol folding.operands = none := by
    -- only `??` makes place for an operand
    by_contra hplaced
    obtain ⟨place, hplace⟩ := Option.ne_none_iff_exists'.mp hplaced
    obtain ⟨-, value, right, -, -, hreplaced⟩ := placedOperand?_eq_some hplace
    cases hsymbol.symm.trans (coalescingReplacement?_eq_some hreplaced).1
  rcases built_of_placedOperand?_none hkept with ⟨evaluator, hbuilt⟩ | ⟨value, -, -, hbuilt⟩
  · refine .inr ?_
    rw [Folding.call?, hbuilt]
    rfl
  · exact .inl ⟨value, hbuilt⟩

end Functions

/-! ### Whole lines -/

/-- **Missing functions are reported, and no others.** Let a line be read, whatever the host
defines, and with or without folding. There is a step of compiling for each application in it, and
the calls in the compiled tree are those that the steps have built, except for the steps that `??`
drops; where there is no `??`, all of them are kept. For the call of a function:

* If the function has no evaluator, the call fails with the error that is reported for it, once its
  operands have ended in numbers. A step that is kept has a place in the tree for the call, and
  wherever it stands, every run evaluates what is in front of it and its operands, and ends with
  this error, or with an earlier failure.
* If it has one, the call ends as this evaluator does with the numbers of its operands, in the state
  of the evaluation or in the one in which the call was compiled. So it fails with an error of these
  only if the evaluator does. A step that is kept leaves a literal, or a place in the tree for the
  call, and wherever it stands, a run that comes to it fails as it does.

With constants and a table, functions are resolved by an entry of the table for the number of
arguments, by an entry for any number, or as built-in ones. -/
theorem compile_reports [Host ω] {line : Text} {node : Node} (h : parse line = .ok node)
    (options : Options) :
    (∀ (constants : Constants ω) (table : SymbolTable σ ω) name count,
      (HostLookup.ofTables options constants table).Resolves options
          (.function name (.exactly count)) ↔
        (table (.function name (.exactly count))).isSome ∨ (table (.function name .any)).isSome ∨
          IsBuiltInFunction name count) ∧
    ∀ (lookup : HostLookup σ ω) (host : σ), ∃ expression machine,
      compile options lookup node host = (expression, machine) ∧
      (node.foldings (resolution options lookup) ⟨host, .empty⟩).map
          (fun folding => (folding.symbol, folding.operands.length)) =
        (node.applications.map fun application =>
          (application.symbol, application.children.length)) ∧
      expression.root.calls =
        (node.keptFoldings options lookup ⟨host, .empty⟩).filterMap
          (Folding.call? options lookup) ∧
      ((∀ application ∈ node.applications, application.symbol ≠ .coalesce) →
        node.keptFoldings options lookup ⟨host, .empty⟩ =
          node.foldings (resolution options lookup) ⟨host, .empty⟩) ∧
      ∀ folding ∈ node.foldings (resolution options lookup) ⟨host, .empty⟩, ∀ name count,
        folding.symbol = .function name (.exactly count) →
        folding.operands.length = count ∧
        (¬ lookup.Resolves options (.function name (.exactly count)) →
          ∃ error, lookup.Reports options name count error ∧
            (∀ s numbers after, EvalNode.evaluateAll folding.operands s = (.ok numbers, after) →
              ((folding.built (resolution options lookup)).1.evaluate s).1 =
                .error (.error error)) ∧
            (folding ∈ node.keptFoldings options lookup ⟨host, .empty⟩ →
              ∃ earlier, (folding.built (resolution options lookup)).1.StandsAfter earlier
                expression.root) ∧
            ∀ earlier, (folding.built (resolution options lookup)).1.StandsAfter earlier
                expression.root →
              expression.FailsAfter (earlier ++ folding.operands) (.error error)) ∧
        (lookup.Resolves options (.function name (.exactly count)) →
          (∃ evaluator, lookup.Provides options (.function name (.exactly count)) evaluator ∧
            ∀ s numbers after, EvalNode.evaluateAll folding.operands s = (.ok numbers, after) →
              ((folding.built (resolution options lookup)).1.evaluate s).1 =
                  (evaluator numbers after).1 ∨
                ((folding.built (resolution options lookup)).1.evaluate s).1 =
                  (evaluator numbers folding.state).1) ∧
          (folding ∈ node.keptFoldings options lookup ⟨host, .empty⟩ →
            (∃ value, (folding.built (resolution options lookup)).1 = .literal value) ∨
            ∃ earlier, (folding.built (resolution options lookup)).1.StandsAfter earlier
              expression.root) ∧
          ∀ earlier, (folding.built (resolution options lookup)).1.StandsAfter earlier
              expression.root →
            ∀ current values s failure,
              EvalNode.evaluateAll earlier current = (.ok values, s) →
              ((folding.built (resolution options lookup)).1.evaluate s).1 = .error failure →
              (expression.run current).1 = .error failure) := by
  refine ⟨fun _ _ _ _ => HostLookup.ofTables_resolves_iff, fun lookup host => ?_⟩
  refine ⟨_, _, rfl, counts_foldings node _, calls_fold node _,
    fun hcoalesce => keptFoldings_eq_foldings hcoalesce _, ?_⟩
  intro folding hfolding name count hsymbol
  -- in a line that was read, a function has as many operands as its arity says
  have hcount : folding.operands.length = count := by
    have htakes := takes_of_mem_foldings (parse_grammatical h).applications_take hfolding
    rw [hsymbol] at htakes
    exact (Arity.exactly.inj htakes).symm
  rw [← hsymbol]
  refine ⟨hcount, fun hnot => ?missing, fun hresolves => ?found⟩
  case missing =>
    obtain ⟨error, hreports, hbuilt⟩ := built_of_not_resolves hsymbol hnot
    refine ⟨error, hreports, ?_⟩
    rw [hbuilt]
    have hcall : folding.call? options lookup =
        some (.call folding.symbol (.failing (.error error)) folding.operands) := by
      rw [Folding.call?, hbuilt]
      rfl
    exact ⟨fun s numbers after hoperands =>
        congrArg Prod.fst (EvalNode.evaluate_call_of_ok hoperands),
      fun hmem => exists_standsAfter_of_mem_kept hmem hcall,
      fun earlier hstands => hstands.failsAfter⟩
  case found =>
    refine ⟨evaluate_of_resolves hsymbol hcount hresolves, fun hmem => ?_, ?_⟩
    · exact (literal_or_call_of_function hsymbol).imp_right (exists_standsAfter_of_mem_kept hmem)
    · exact fun earlier hstands current values s failure => hstands.run_eq

/-- A table with a function `f` of two arguments. -/
def twoArguments : SymbolTable Unit Empty := fun symbol =>
  if symbol = .function (utf8 "f") (.exactly 2) then some fun _ host => (.ok .nil, host) else none

/-- The sum of two calls of `f` without arguments. -/
def doubledCall : Node :=
  .apply (.infixOp (utf8 "+"))
    [.apply (.function (utf8 "f") (.exactly 0)) [], .apply (.function (utf8 "f") (.exactly 0)) []]

/-- The step at the call on the left of the sum. -/
def missingStep : Folding (Machine Unit Empty) (Failure Empty) :=
  ⟨.function (utf8 "f") (.exactly 0), [], ⟨(), .empty⟩⟩

/-- In `f() + f()` two arguments are expected. -/
theorem compile_reports_summand :
    ∃ expression machine,
      compile .standard (.ofTables .standard (fun _ => none) twoArguments) doubledCall () =
        (expression, machine) ∧
      ∀ current, (expression.run current).1 =
        .error (.error (.arityMismatch (.function (utf8 "f") (.exactly 2)))) := by
  have hname : IsVerbatimName (utf8 "f") := .inl ⟨by decide, by decide⟩
  have hread := Parser.spellsOperand_function hname .nil
  have hline : parse (utf8 "f() + f()") = .ok doubledCall := hread.parse_sum hread
  have hreports : (HostLookup.ofTables .standard (fun _ => none) twoArguments).Reports .standard
      (utf8 "f") 0 (.arityMismatch (.function (utf8 "f") (.exactly 2))) :=
    .arity (by decide) (by decide +kernel) (by decide +kernel)
  obtain ⟨expression, machine, hcompile, -, -, -, hcalls⟩ :=
    (compile_reports hline .standard).2 (.ofTables .standard (fun _ => none) twoArguments) ()
  obtain ⟨-, hmissing, -⟩ := hcalls missingStep List.mem_cons_self _ _ rfl
  obtain ⟨error, herror, -, -, hfails⟩ := hmissing (by decide +kernel)
  obtain rfl := herror.unique hreports
  -- the call is the left operand of the sum, so nothing stands in front of it
  have hstands : (missingStep.built (resolution .standard
      (.ofTables .standard (fun _ => none) twoArguments))).1.StandsAfter []
        (compile .standard (.ofTables .standard (fun _ => none) twoArguments)
          doubledCall ()).1.root :=
    EvalNode.StandsAfter.root.first
  rw [hcompile] at hstands
  exact ⟨expression, machine, hcompile, fun current => (hfails [] hstands current).1⟩

end DynExpr
