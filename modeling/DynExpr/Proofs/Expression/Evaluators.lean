import DynExpr.Expression
import DynExpr.Proofs.Channel.Carries
import DynExpr.Proofs.Evaluation.Everywhere

/-!
# The evaluators of an expression

Whatever a host defines, the evaluators in a compiled tree are of six kinds: they compute a double
from the table, or a value from values; they are constant, or fail; they call the host, or read a
variable of the host and subscript it. `EvaluatorKinds` collects what has to be shown of each kind,
and `resolution_everywhere` concludes that every evaluator of every compiled tree has it.

Two properties are needed throughout. No evaluator removes an entry of the table
(`evaluatorKinds_grows`, `resolution_pure_grows`), and if the host's functions are deterministic, an
evaluator depends on the table alone (`evaluatorKinds_dependsOn`).
-/

namespace DynExpr

variable {σ ω : Type}

open MachineEvaluator

/-! ### Sending results -/

namespace Machine

/-- Sending a result removes no entry. -/
theorem storeResult_grows (machine : Machine σ ω) (result : Except (Failure ω) (Value ω)) :
    machine.table ≤ (machine.storeResult result).2.table := by
  cases result with
  | ok value => exact ValueTable.le_store machine.table value
  | error failure => exact le_refl machine.table

/-- What is sent depends on the table and on the result. -/
theorem storeResult_agree {machine machine' : Machine σ ω} (h : machine.table = machine'.table)
    (result : Except (Failure ω) (Value ω)) :
    Agree Machine.table (machine.storeResult result) (machine'.storeResult result) := by
  cases result with
  | ok value =>
    simp only [storeResult, store, h]
    exact ⟨rfl, rfl⟩
  | error failure => exact ⟨rfl, h⟩

/-- Calling the host removes no entry. -/
theorem callHost_grows (function : HostFunction σ ω) (arguments : List (Value ω))
    (machine : Machine σ ω) : machine.table ≤ (callHost function arguments machine).2.table :=
  storeResult_grows { machine with host := (function arguments machine.host).2 } _

end Machine

/-! ### Determinism -/

/-- The result of the function depends on its arguments alone, whatever it does to the state of
the host. -/
def HostFunction.Deterministic (function : HostFunction σ ω) : Prop :=
  ∀ arguments host host', (function arguments host).1 = (function arguments host').1

/-- All functions that the host defines are deterministic. -/
def HostLookup.Deterministic (lookup : HostLookup σ ω) : Prop :=
  ∀ symbol function, lookup.impure? symbol = some function ∨ lookup.pure? symbol = some function →
    function.Deterministic

/-! ### The kinds of evaluators -/

/-- A property of evaluators that each of the six kinds has. -/
structure EvaluatorKinds [Host ω] (lookup : HostLookup σ ω) (P : MachineEvaluator σ ω → Prop) :
    Prop where
  ofTable : ∀ f, P (ofTable f)
  ofValues : ∀ f, P (ofValues f)
  constant : ∀ d, P (.constant d)
  failing : ∀ failure, P (.failing failure)
  ofHost : ∀ symbol function,
    lookup.impure? symbol = some function ∨ lookup.pure? symbol = some function →
      P (ofHost function)
  readingVariable : ∀ symbol container function, lookup.impure? container = some function →
    P (readingVariable symbol function)

/-- A built-in meaning is established as it is, or by storing a constant. -/
inductive Meaning.BuiltIn : Meaning σ ω → Prop
  | ofTable (f : ValueTable ω → List Double → Except (Failure ω) Double) :
      BuiltIn (.plain (.ofTable f))
  | ofValues (f : List (Value ω) → Except (Failure ω) (Value ω)) : BuiltIn (.plain (.ofValues f))
  | constant (d : Double) : BuiltIn (.plain (.constant d))
  | stored (value : Value ω) : BuiltIn (.stored value)

section BuiltIn

variable [Host ω] {logic : Bool} {symbol : Symbol}

/-- Ranges, subscripts, array literals and string literals are of a kind. -/
theorem structuralSymbol?_builtIn {meaning : Meaning σ ω}
    (h : structuralSymbol? symbol = some meaning) : meaning.BuiltIn := by
  cases symbol with
  | infixOp name =>
    simp only [structuralSymbol?] at h
    split at h
    · exact Option.some.inj h ▸ .ofValues _
    · obtain ⟨-, h⟩ := Option.ite_none_right_eq_some.mp h
      exact Option.some.inj h ▸ .ofValues _
  | prefixOp name =>
    obtain ⟨-, h⟩ := Option.ite_none_right_eq_some.mp h
    exact Option.some.inj h ▸ .ofValues _
  | postfixOp name =>
    obtain ⟨-, h⟩ := Option.ite_none_right_eq_some.mp h
    exact Option.some.inj h ▸ .ofValues _
  | function name arity =>
    obtain ⟨-, h⟩ := Option.ite_none_right_eq_some.mp h
    exact Option.some.inj h ▸ .ofValues _
  -- a string literal is a variable whose name is quoted
  | var name =>
    obtain ⟨contents, -, rfl⟩ := Option.map_eq_some_iff.mp h
    exact .stored _
  | array name =>
    obtain ⟨contents, -, rfl⟩ := Option.map_eq_some_iff.mp h
    exact .ofValues _

/-- Arithmetic is of a kind. -/
theorem arithmeticSymbol?_builtIn {evaluator : MachineEvaluator σ ω}
    (h : arithmeticSymbol? symbol = some evaluator) : (Meaning.plain evaluator).BuiltIn := by
  obtain ⟨f, -, rfl⟩ := Option.map_eq_some_iff.mp h
  split
  · exact .ofValues _
  · exact .ofTable _

/-- Logic is of a kind. -/
theorem logicalSymbol?_builtIn {evaluator : MachineEvaluator σ ω}
    (h : logicalSymbol? symbol = some evaluator) : (Meaning.plain evaluator).BuiltIn := by
  obtain ⟨f, -, rfl⟩ := Option.map_eq_some_iff.mp h
  split
  · exact .ofTable _
  split
  · exact .ofTable _
  split
  · exact .ofTable _
  · exact .ofTable _

/-- **Every built-in meaning is of a kind.** -/
theorem builtIn?_builtIn {meaning : Meaning σ ω} (h : builtIn? logic symbol = some meaning) :
    meaning.BuiltIn := by
  unfold builtIn? at h
  -- the cases are tried in the order in which they are defined
  extract_lets named at h
  clear_value named
  split at h
  · exact Option.some.inj h ▸ .constant _
  split at h
  · exact Option.some.inj h ▸ .ofTable _
  split at h
  · next evaluator harithmetic =>
    exact Option.some.inj h ▸ arithmeticSymbol?_builtIn harithmetic
  split at h
  · next evaluator hlogical =>
    obtain ⟨-, hlogical⟩ := Option.ite_none_right_eq_some.mp hlogical
    exact Option.some.inj h ▸ logicalSymbol?_builtIn hlogical
  · exact structuralSymbol?_builtIn h

end BuiltIn

/-! ### Resolving -/

/-- Establishing a built-in meaning removes no entry. -/
theorem Meaning.BuiltIn.grows {meaning : Meaning σ ω} (h : meaning.BuiltIn)
    (machine : Machine σ ω) : machine.table ≤ (meaning machine).2.table := by
  cases h with
  | stored value => exact ValueTable.le_store machine.table value
  | _ => exact le_refl machine.table

/-- What is replaced is a call of the coalescing operator with a literal on its left, and the
operator is not the host's. -/
theorem coalescingReplacement?_eq_some {lookup : HostLookup σ ω} {symbol : Symbol}
    {children : List (EvalNode (Machine σ ω) (Failure ω))}
    {node : EvalNode (Machine σ ω) (Failure ω)}
    (h : coalescingReplacement? lookup symbol children = some node) :
    symbol = .coalesce ∧ lookup.pure? symbol = none ∧ ∃ d right,
      children = [.literal d, right] ∧ node = if d = Channel.nil then right else .literal d := by
  unfold coalescingReplacement? at h
  split at h
  · next left right =>
    split at h
    · next hsymbol =>
      obtain ⟨d, hliteral, rfl⟩ := Option.map_eq_some_iff.mp h
      cases left with
      | call symbol evaluator operands => exact nomatch hliteral
      | literal value =>
        obtain rfl := Option.some.inj hliteral
        exact ⟨hsymbol.1, Option.isNone_iff_eq_none.mp hsymbol.2, value, right, rfl, rfl⟩
    · exact absurd h (Option.some_ne_none _).symm
  · exact absurd h (Option.some_ne_none _).symm

/-- A call is replaced by one of its operands. -/
theorem coalescingReplacement?_mem {lookup : HostLookup σ ω} {symbol : Symbol}
    {children : List (EvalNode (Machine σ ω) (Failure ω))}
    {node : EvalNode (Machine σ ω) (Failure ω)}
    (h : coalescingReplacement? lookup symbol children = some node) : node ∈ children := by
  obtain ⟨-, -, d, right, rfl, rfl⟩ := coalescingReplacement?_eq_some h
  split
  · exact List.mem_cons_of_mem _ (List.mem_singleton_self _)
  · exact List.mem_cons_self

section Resolving

variable [Host ω] {options : Options} {lookup : HostLookup σ ω} {P : MachineEvaluator σ ω → Prop}

/-- The evaluator of a built-in meaning has what every kind has. -/
theorem Meaning.BuiltIn.has {meaning : Meaning σ ω} (h : meaning.BuiltIn)
    (hP : EvaluatorKinds lookup P) (machine : Machine σ ω) : P (meaning machine).1 := by
  cases h with
  | ofTable f => exact hP.ofTable f
  | ofValues f => exact hP.ofValues f
  | constant d => exact hP.constant d
  | stored value => exact hP.constant _

/-- An impure symbol is resolved to its meaning. -/
theorem resolution_impure?_of_some {symbol : Symbol} {meaning : Meaning σ ω}
    (h : impureMeaning? options lookup symbol = some meaning) (machine : Machine σ ω) :
    (resolution options lookup).impure? symbol machine =
      (some (meaning machine).1, (meaning machine).2) := by
  simp only [resolution, h]

/-- A symbol without an impure meaning leaves the machine as it is. -/
theorem resolution_impure?_of_none {symbol : Symbol}
    (h : impureMeaning? options lookup symbol = none) (machine : Machine σ ω) :
    (resolution options lookup).impure? symbol machine = (none, machine) := by
  simp only [resolution, h]

/-- The impure evaluator of a symbol is of a kind, and establishing it removes no entry. -/
theorem impureMeaning?_spec (hP : EvaluatorKinds lookup P) {symbol : Symbol}
    {meaning : Meaning σ ω} (h : impureMeaning? options lookup symbol = some meaning)
    (machine : Machine σ ω) :
    P (meaning machine).1 ∧ machine.table ≤ (meaning machine).2.table := by
  unfold impureMeaning? at h
  split at h
  · next function himpure =>
    obtain rfl := Option.some.inj h
    exact ⟨hP.ofHost symbol function (.inl himpure), le_refl _⟩
  split at h
  · -- an array is read through the variable of its name
    next function hvariable =>
    obtain rfl := Option.some.inj h
    obtain ⟨container, -, hcontainer⟩ := Option.bind_eq_some_iff.mp hvariable
    exact ⟨hP.readingVariable symbol container function hcontainer, le_refl _⟩
  split at h
  · split at h
    · next function hpure =>
      obtain rfl := Option.some.inj h
      exact ⟨hP.ofHost symbol function (.inr hpure), le_refl _⟩
    · -- without folding, built-in meanings are impure as well
      exact ⟨(builtIn?_builtIn h).has hP machine, (builtIn?_builtIn h).grows machine⟩
  · exact absurd h (Option.some_ne_none _).symm

/-- The pure evaluator of a symbol is of a kind, and establishing it removes no entry. -/
theorem pureMeaning_spec (hP : EvaluatorKinds lookup P) (symbol : Symbol)
    (machine : Machine σ ω) :
    P (pureMeaning options lookup symbol machine).1 ∧
      machine.table ≤ (pureMeaning options lookup symbol machine).2.table := by
  unfold pureMeaning
  cases hpure : lookup.pure? symbol with
  | some function =>
    dsimp only
    split
    · -- the value is computed now, and the evaluator is what remembers it
      refine ⟨?_, Machine.callHost_grows function [] machine⟩
      unfold Meaning.computed
      dsimp only
      cases (Machine.callHost function [] machine).1 with
      | ok d => exact hP.constant d
      | error failure => exact hP.failing failure
    · exact ⟨hP.ofHost symbol function (.inr hpure), le_refl _⟩
  | none =>
    cases symbol.containerOf?.bind lookup.pure? with
    | some function =>
      -- what fails now, in the host or as no container, fails at every evaluation
      dsimp only [Meaning.ofContainer]
      cases (function [] machine.host).1.bind (subscriptReader symbol) with
      | ok read => exact ⟨hP.ofValues read, le_refl _⟩
      | error failure => exact ⟨hP.failing failure, le_refl _⟩
    | none =>
      cases hbuiltIn : (builtIn? options.logic symbol : Option (Meaning σ ω)) with
      | some meaning =>
        have h := builtIn?_builtIn hbuiltIn
        exact ⟨h.has hP machine, h.grows machine⟩
      | none => exact ⟨hP.failing _, le_refl _⟩

/-- **What each kind has, every evaluator of every compiled tree has.** -/
theorem resolution_everywhere (hP : EvaluatorKinds lookup P) :
    (resolution options lookup).Everywhere P where
  impure symbol machine evaluator machine' h := by
    cases hmeaning : impureMeaning? options lookup symbol with
    | some meaning =>
      rw [resolution_impure?_of_some hmeaning] at h
      obtain rfl := Option.some.inj (Prod.mk.inj h).1
      exact (impureMeaning?_spec hP hmeaning machine).1
    | none =>
      rw [resolution_impure?_of_none hmeaning] at h
      exact absurd (Prod.mk.inj h).1.symm (Option.some_ne_none _)
  pure symbol machine := (pureMeaning_spec hP symbol machine).1
  failing := hP.failing
  replacement _ _ _ h := coalescingReplacement?_mem h

end Resolving

/-! ### Growth -/

section Growth

variable [Host ω]

/-- **No evaluator removes an entry.** -/
theorem evaluatorKinds_grows (lookup : HostLookup σ ω) :
    EvaluatorKinds lookup (Evaluator.Grows Machine.table) where
  ofTable _ _ _ := le_refl _
  ofValues _ _ machine := machine.storeResult_grows _
  constant _ _ _ := le_refl _
  failing _ _ _ := le_refl _
  ofHost _ function _ arguments machine := Machine.callHost_grows function _ machine
  readingVariable symbol _ function _ arguments machine := by
    unfold readingVariable
    -- the host is asked for the container, which is not stored
    rcases function [] machine.host with ⟨failure | container, host⟩
    · exact le_refl _
    · dsimp only
      cases subscriptReader symbol container with
      | error failure => exact le_refl _
      | ok read => exact Machine.storeResult_grows { machine with host } _

/-- Resolving an impure symbol removes no entry. -/
theorem resolution_impure?_grows (options : Options) (lookup : HostLookup σ ω) (symbol : Symbol)
    (machine : Machine σ ω) :
    machine.table ≤ ((resolution options lookup).impure? symbol machine).2.table := by
  cases hmeaning : impureMeaning? options lookup symbol with
  | some meaning =>
    rw [resolution_impure?_of_some hmeaning]
    exact (impureMeaning?_spec (evaluatorKinds_grows lookup) hmeaning machine).2
  | none => rw [resolution_impure?_of_none hmeaning]

/-- Resolving a pure symbol removes no entry. -/
theorem resolution_pure_grows (options : Options) (lookup : HostLookup σ ω) (symbol : Symbol)
    (machine : Machine σ ω) :
    machine.table ≤ ((resolution options lookup).pure symbol machine).2.table :=
  (pureMeaning_spec (evaluatorKinds_grows lookup) symbol machine).2

end Growth

/-! ### Dependence -/

/-- **Evaluators depend on the table alone**, if the functions of the host are deterministic. -/
theorem evaluatorKinds_dependsOn [Host ω] {lookup : HostLookup σ ω} (h : lookup.Deterministic) :
    EvaluatorKinds lookup (Evaluator.DependsOn Machine.table) where
  ofTable f arguments machine machine' htable := by
    unfold ofTable
    rw [htable]
    exact ⟨rfl, htable⟩
  ofValues f arguments machine machine' htable := by
    unfold ofValues
    rw [htable]
    exact Machine.storeResult_agree htable _
  constant _ _ _ _ htable := ⟨rfl, htable⟩
  failing _ _ _ _ htable := ⟨rfl, htable⟩
  ofHost symbol function hfunction arguments machine machine' htable := by
    unfold ofHost Machine.callHost
    dsimp only
    -- the hosts may differ in their states, but not in their answers
    rw [htable, h symbol function hfunction _ machine.host machine'.host]
    refine Machine.storeResult_agree ?_ _
    rfl
  readingVariable symbol container function hfunction arguments machine machine' htable := by
    have hresult := h container function (.inl hfunction) [] machine.host machine'.host
    unfold readingVariable
    rcases hcall : function [] machine.host with ⟨result, host⟩
    rcases hcall' : function [] machine'.host with ⟨result', host'⟩
    rw [hcall, hcall'] at hresult
    obtain rfl : result = result' := hresult
    cases result with
    | error failure => exact ⟨rfl, htable⟩
    | ok container =>
      dsimp only
      -- the container is the same, so reading it fails alike
      cases subscriptReader symbol container with
      | error failure => exact ⟨rfl, htable⟩
      | ok read =>
        dsimp only
        rw [htable]
        refine Machine.storeResult_agree ?_ _
        rfl

end DynExpr
