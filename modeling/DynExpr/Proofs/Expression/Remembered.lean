import DynExpr.Proofs.Expression.Kept
import DynExpr.Proofs.Expression.Unfolded
import DynExpr.Proofs.Node.Shape
import DynExpr.Proofs.Node.Spells

/-!
# Failures that are remembered

Building an expression calls pure functions in advance, and these may fail. Such a failure does not
end the building: the step that met it builds a call with the failure in the place of its evaluator.

`FailsInAdvance` lists how a step can fail in advance, with the calls of the host that it makes.
Whichever it is, the step builds a call that fails (`FailsInAdvance.built_eq`), and the list is
complete: a pure step that knows its operands builds a literal otherwise (`literal_or_fails`).

`compile_remembers` is the result for a whole line. The call is left in the compiled tree unless
`??` drops it, and wherever it stands, every run ends with the failure that is remembered, or with
an earlier one.
-/

namespace DynExpr

variable {σ ω ε : Type}

/-- A step of building an expression, for a host whose calls are put on record. -/
abbrev HostFolding (σ ω : Type) := Folding (Machine (HostLedger σ ω) ω) (Failure ω)

/-- The step fails in advance, after these calls of the host.

* A pure variable, or a pure function without arguments, is called when its symbol is resolved.
* So is the pure variable through which an array is read; it also fails if its value is no
  container.
* A pure function, a container, and a built-in meaning are applied if all operands are literals.
* A symbol without any meaning fails at once. -/
inductive FailsInAdvance [Host ω] (options : Options) (lookup : HostLookup σ ω)
    (folding : HostFolding σ ω) : List (HostCall ω) → Failure ω → Prop
  | computed {function : HostFunction σ ω} {failure : Failure ω}
      (hfunction : lookup.pure? folding.symbol = some function)
      (hsymbol : folding.symbol.isConstantLike)
      (hfailure : (function [] folding.state.host.host).1 = .error failure) :
      FailsInAdvance options lookup folding [⟨folding.symbol, []⟩] failure
  | container {container : Symbol} {function : HostFunction σ ω} {failure : Failure ω}
      (hnone : lookup.pure? folding.symbol = none)
      (hcontainer : folding.symbol.containerOf? = some container)
      (hfunction : lookup.pure? container = some function)
      (hfailure : (function [] folding.state.host.host).1.bind (subscriptReader folding.symbol) =
        .error failure) :
      FailsInAdvance options lookup folding [⟨container, []⟩] failure
  | subscripted {container : Symbol} {function : HostFunction σ ω}
      {read : List (Value ω) → Except (Failure ω) (Value ω)} {numbers : List Double}
      {failure : Failure ω} (hnone : lookup.pure? folding.symbol = none)
      (hcontainer : folding.symbol.containerOf? = some container)
      (hfunction : lookup.pure? container = some function)
      (hread : (function [] folding.state.host.host).1.bind (subscriptReader folding.symbol) =
        .ok read)
      (hoperands : EvalNode.literals? folding.operands = some numbers)
      (hfailure : read (folding.state.table.loadAll numbers) = .error failure) :
      FailsInAdvance options lookup folding [⟨container, []⟩] failure
  | called {function : HostFunction σ ω} {numbers : List Double} {failure : Failure ω}
      (hfunction : lookup.pure? folding.symbol = some function)
      (hsymbol : folding.symbol.isConstantLike = false)
      (hoperands : EvalNode.literals? folding.operands = some numbers)
      (hfailure : (function (folding.state.table.loadAll numbers) folding.state.host.host).1 =
        .error failure) :
      FailsInAdvance options lookup folding
        [⟨folding.symbol, folding.state.table.loadAll numbers⟩] failure
  | builtIn {meaning : Meaning (HostLedger σ ω) ω} {numbers : List Double} {failure : Failure ω}
      (hnone : lookup.pure? folding.symbol = none)
      (hcontainer : folding.symbol.containerOf?.bind lookup.pure? = none)
      (hmeaning : builtIn? options.logic folding.symbol = some meaning)
      (hreplacement : coalescingReplacement? lookup.recorded folding.symbol folding.operands = none)
      (hoperands : EvalNode.literals? folding.operands = some numbers)
      (hfailure : ((meaning folding.state).1 numbers (meaning folding.state).2).1 =
        .error failure) :
      FailsInAdvance options lookup folding [] failure
  | unresolved (hnone : lookup.pure? folding.symbol = none)
      (hcontainer : folding.symbol.containerOf?.bind lookup.pure? = none)
      (hmeaning : (builtIn? options.logic folding.symbol :
        Option (Meaning (HostLedger σ ω) ω)) = none) :
      FailsInAdvance options lookup folding []
        (unresolvedFailure options lookup.recorded folding.symbol)

/-! ### Steps that fail -/

section Calls

variable {resolution : Resolution σ ε} {folding : Folding σ ε} {failure : ε}

/-- A pure symbol that is resolved to the failing evaluator is a call that fails, whether its
operands are known or not. -/
theorem built_of_failing {s : σ}
    (himpure : resolution.impure? folding.symbol folding.state = (none, folding.state))
    (hreplacement : resolution.replacement? folding.symbol folding.operands = none)
    (hpure : resolution.pure folding.symbol folding.state = (.failing failure, s)) :
    folding.built resolution = (.call folding.symbol (.failing failure) folding.operands, s) := by
  unfold Folding.built foldCall
  simp only [himpure, hreplacement, hpure]
  -- with literals for operands it is called now, and fails
  cases EvalNode.literals? folding.operands <;> rfl

/-- A pure symbol whose evaluator fails for literal operands is a call that fails, too. -/
theorem built_of_error {evaluator : Evaluator σ ε} {numbers : List Double} {s t : σ}
    (himpure : resolution.impure? folding.symbol folding.state = (none, folding.state))
    (hreplacement : resolution.replacement? folding.symbol folding.operands = none)
    (hpure : resolution.pure folding.symbol folding.state = (evaluator, s))
    (hoperands : EvalNode.literals? folding.operands = some numbers)
    (hfailure : evaluator numbers s = (.error failure, t)) :
    folding.built resolution = (.call folding.symbol (.failing failure) folding.operands, t) := by
  unfold Folding.built foldCall
  simp only [himpure, hreplacement, hpure, hoperands, hfailure]

/-- If it yields a number, this is a literal. -/
theorem built_of_ok {evaluator : Evaluator σ ε} {numbers : List Double} {value : Double} {s t : σ}
    (himpure : resolution.impure? folding.symbol folding.state = (none, folding.state))
    (hreplacement : resolution.replacement? folding.symbol folding.operands = none)
    (hpure : resolution.pure folding.symbol folding.state = (evaluator, s))
    (hoperands : EvalNode.literals? folding.operands = some numbers)
    (hvalue : evaluator numbers s = (.ok value, t)) :
    folding.built resolution = (.literal value, t) := by
  unfold Folding.built foldCall
  simp only [himpure, hreplacement, hpure, hoperands, hvalue]

end Calls

section Building

variable {lookup : HostLookup σ ω} {symbol : Symbol} {function : HostFunction σ ω}
  {failure : Failure ω} {machine : Machine (HostLedger σ ω) ω}

/-- What is pure is pure on record. -/
theorem recorded_pure? (h : lookup.pure? symbol = some function) :
    lookup.recorded.pure? symbol = some (function.recorded symbol) := by
  show (lookup.pure? symbol).map (HostFunction.recorded symbol) = _
  rw [h]
  rfl

/-- Nothing else is. -/
theorem recorded_pure?_of_none (h : lookup.pure? symbol = none) :
    lookup.recorded.pure? symbol = none := by
  show (lookup.pure? symbol).map (HostFunction.recorded symbol) = _
  rw [h]
  rfl

/-- So it is with the variables through which arrays are read. -/
theorem recorded_container_pure?_of_none (h : symbol.containerOf?.bind lookup.pure? = none) :
    symbol.containerOf?.bind lookup.recorded.pure? = none := by
  cases hcontainer : symbol.containerOf? with
  | none => rfl
  | some container =>
    rw [hcontainer] at h
    exact recorded_pure?_of_none h

/-- Only the coalescing operator is replaced. -/
theorem coalescingReplacement?_of_ne (lookup : HostLookup σ ω)
    (operands : List (EvalNode (Machine σ ω) (Failure ω))) (h : symbol ≠ .coalesce) :
    coalescingReplacement? lookup symbol operands = none := by
  by_contra hsome
  obtain ⟨tree, htree⟩ := Option.ne_none_iff_exists'.mp hsome
  exact h (coalescingReplacement?_eq_some htree).1

/-- What the host defines is not replaced. -/
theorem coalescingReplacement?_of_pure? (operands : List (EvalNode (Machine σ ω) (Failure ω)))
    (h : lookup.pure? symbol = some function) :
    coalescingReplacement? lookup symbol operands = none := by
  by_contra hsome
  obtain ⟨tree, htree⟩ := Option.ne_none_iff_exists'.mp hsome
  cases h.symm.trans (coalescingReplacement?_eq_some htree).2.1

/-- An array is no operator. -/
theorem ne_coalesce_of_containerOf? {container : Symbol}
    (h : symbol.containerOf? = some container) : symbol ≠ .coalesce := by
  rintro rfl
  cases h

/-- A call that fails is on record. -/
theorem callHost_recorded_of_error {arguments : List (Value ω)}
    (h : (function arguments machine.host.host).1 = .error failure) :
    ∃ after, Machine.callHost (function.recorded symbol) arguments machine =
        (.error failure, after) ∧
      after.host.calls = machine.host.calls ++ [⟨symbol, arguments⟩] := by
  unfold Machine.callHost HostFunction.recorded
  -- the answer is the same, and the call is put on record besides
  rcases hresult : function arguments machine.host.host with ⟨result, host⟩
  rw [hresult] at h
  subst h
  exact ⟨_, rfl, rfl⟩

/-- A call that succeeds yields a number. -/
theorem callHost_recorded_of_ok {arguments : List (Value ω)} {value : Value ω}
    (h : (function arguments machine.host.host).1 = .ok value) :
    ∃ number after, Machine.callHost (function.recorded symbol) arguments machine =
      (.ok number, after) := by
  unfold Machine.callHost HostFunction.recorded
  rcases hresult : function arguments machine.host.host with ⟨result, host⟩
  rw [hresult] at h
  subst h
  exact ⟨_, _, rfl⟩

variable [Host ω] {options : Options}

variable (options) in
/-- What the host defines without operands is computed when it is resolved. -/
theorem pureMeaning_of_constantLike (hfunction : lookup.pure? symbol = some function)
    (hsymbol : symbol.isConstantLike) :
    pureMeaning options lookup.recorded symbol = .computed (function.recorded symbol) := by
  unfold pureMeaning
  rw [recorded_pure? hfunction]
  exact if_pos hsymbol

variable (options) in
/-- What has operands is called. -/
theorem pureMeaning_of_not_constantLike (hfunction : lookup.pure? symbol = some function)
    (hsymbol : symbol.isConstantLike = false) :
    pureMeaning options lookup.recorded symbol = .plain (.ofHost (function.recorded symbol)) := by
  unfold pureMeaning
  rw [recorded_pure? hfunction]
  dsimp only
  rw [hsymbol]
  rfl

variable (options) in
/-- An array is read through the variable of its name. -/
theorem pureMeaning_of_container {container : Symbol} (hnone : lookup.pure? symbol = none)
    (hcontainer : symbol.containerOf? = some container)
    (hfunction : lookup.pure? container = some function) :
    pureMeaning options lookup.recorded symbol =
      .ofContainer symbol (function.recorded container) := by
  have hvariable : symbol.containerOf?.bind lookup.recorded.pure? =
      some (function.recorded container) := by
    rw [hcontainer]
    exact recorded_pure? hfunction
  unfold pureMeaning
  rw [recorded_pure?_of_none hnone, hvariable]

/-- A container that cannot be had, or is none, fails, and asking for it is on record. -/
theorem ofContainer_recorded_of_error {container : Symbol}
    (h : (function [] machine.host.host).1.bind (subscriptReader symbol) = .error failure) :
    ∃ after, Meaning.ofContainer symbol (function.recorded container) machine =
        (.failing failure, after) ∧
      after.host.calls = machine.host.calls ++ [⟨container, []⟩] := by
  unfold Meaning.ofContainer HostFunction.recorded
  dsimp only
  rw [h]
  exact ⟨_, rfl, rfl⟩

/-- A container is read with its reader, and asking for it is on record. -/
theorem ofContainer_recorded_of_ok {container : Symbol}
    {read : List (Value ω) → Except (Failure ω) (Value ω)}
    (h : (function [] machine.host.host).1.bind (subscriptReader symbol) = .ok read) :
    ∃ after, Meaning.ofContainer symbol (function.recorded container) machine =
        (.ofValues read, after) ∧
      after.table = machine.table ∧
      after.host.calls = machine.host.calls ++ [⟨container, []⟩] := by
  unfold Meaning.ofContainer HostFunction.recorded
  dsimp only
  rw [h]
  exact ⟨_, rfl, rfl, rfl⟩

variable (options) in
/-- A symbol that the host does not define as pure has its built-in meaning, or none. -/
theorem pureMeaning_of_none (hnone : lookup.pure? symbol = none)
    (hcontainer : symbol.containerOf?.bind lookup.pure? = none) :
    pureMeaning options lookup.recorded symbol =
      (builtIn? options.logic symbol).getD
        (.plain (.failing (unresolvedFailure options lookup.recorded symbol))) := by
  unfold pureMeaning
  rw [recorded_pure?_of_none hnone, recorded_container_pure?_of_none hcontainer]
  dsimp only
  cases (builtIn? options.logic symbol : Option (Meaning (HostLedger σ ω) ω)) <;> rfl

variable {folding : HostFolding σ ω} {calls : List (HostCall ω)}

/-- **A step that fails in advance builds a call that fails**, and makes its calls of the host
once. -/
theorem FailsInAdvance.built_eq (h : FailsInAdvance options lookup folding calls failure)
    (himpure : impureMeaning? options lookup.recorded folding.symbol = none) :
    ∃ after, folding.built (resolution options lookup.recorded) =
        (.call folding.symbol (.failing failure) folding.operands, after) ∧
      after.host.calls = folding.state.host.calls ++ calls := by
  have himpure' := resolution_impure?_of_none himpure folding.state
  -- each way fixes what the symbol is resolved to, and that the call is not replaced
  cases h with
  | computed hfunction hsymbol hfailure =>
    have hkept := coalescingReplacement?_of_pure? folding.operands (recorded_pure? hfunction)
    obtain ⟨after, hcall, hcalls⟩ := callHost_recorded_of_error hfailure
    refine ⟨after, built_of_failing himpure' hkept ?_, hcalls⟩
    show pureMeaning options lookup.recorded folding.symbol folding.state = _
    rw [pureMeaning_of_constantLike options hfunction hsymbol, Meaning.computed, hcall]
    rfl
  | container hnone hcontainer hfunction hfailure =>
    have hkept := coalescingReplacement?_of_ne lookup.recorded folding.operands
      (ne_coalesce_of_containerOf? hcontainer)
    obtain ⟨after, hpure, hcalls⟩ := ofContainer_recorded_of_error hfailure
    rw [← pureMeaning_of_container options hnone hcontainer hfunction] at hpure
    exact ⟨after, built_of_failing himpure' hkept hpure, hcalls⟩
  | subscripted hnone hcontainer hfunction hread hoperands hfailure =>
    have hkept := coalescingReplacement?_of_ne lookup.recorded folding.operands
      (ne_coalesce_of_containerOf? hcontainer)
    obtain ⟨after, hpure, htable, hcalls⟩ := ofContainer_recorded_of_ok hread
    rw [← pureMeaning_of_container options hnone hcontainer hfunction] at hpure
    refine ⟨after, built_of_error himpure' hkept hpure hoperands ?_, hcalls⟩
    rw [MachineEvaluator.ofValues, htable, hfailure]
    rfl
  | called hfunction hsymbol hoperands hfailure =>
    have hkept := coalescingReplacement?_of_pure? folding.operands (recorded_pure? hfunction)
    obtain ⟨after, hcall, hcalls⟩ := callHost_recorded_of_error hfailure
    have hpure := congrFun (pureMeaning_of_not_constantLike options hfunction hsymbol) folding.state
    exact ⟨after, built_of_error himpure' hkept hpure hoperands hcall, hcalls⟩
  | builtIn hnone hcontainer hmeaning hkept hoperands hfailure =>
    have hpure := congrFun (pureMeaning_of_none options hnone hcontainer) folding.state
    rw [hmeaning] at hpure
    -- a built-in meaning leaves the host alone, when it is established and when it is called
    obtain ⟨hresolved, hcalled⟩ := (builtIn?_builtIn hmeaning).host_eq folding.state
    refine ⟨_, built_of_error himpure' hkept hpure hoperands (Prod.ext hfailure rfl), ?_⟩
    rw [hcalled, hresolved, List.append_nil]
  | unresolved hnone hcontainer hmeaning =>
    have hsymbol : folding.symbol ≠ .coalesce := by
      intro hsymbol
      rw [hsymbol] at hmeaning
      cases hmeaning
    have hpure := congrFun (pureMeaning_of_none options hnone hcontainer) folding.state
    rw [hmeaning] at hpure
    have hkept := coalescingReplacement?_of_ne lookup.recorded folding.operands hsymbol
    exact ⟨_, built_of_failing himpure' hkept hpure, (List.append_nil _).symm⟩

end Building

/-! ### No other failures -/

section Exhaustive

variable [Host ω] {options : Options} {lookup : HostLookup σ ω} {function : HostFunction σ ω}
  {folding : HostFolding σ ω} {numbers : List Double}
  (himpure : impureMeaning? options lookup.recorded folding.symbol = none)
  (hkept : coalescingReplacement? lookup.recorded folding.symbol folding.operands = none)
  (hoperands : EvalNode.literals? folding.operands = some numbers)

include himpure hkept hoperands

/-- A pure step whose evaluator yields a number builds a literal. -/
theorem literal_of_ok {evaluator : MachineEvaluator (HostLedger σ ω) ω} {value : Double}
    {s t : Machine (HostLedger σ ω) ω}
    (hpure : pureMeaning options lookup.recorded folding.symbol folding.state = (evaluator, s))
    (hvalue : evaluator numbers s = (.ok value, t)) :
    ∃ value, (folding.built (resolution options lookup.recorded)).1 = .literal value := by
  have himpure' := resolution_impure?_of_none himpure folding.state
  exact ⟨value, congrArg Prod.fst (built_of_ok himpure' hkept hpure hoperands hvalue)⟩

/-- What the host defines yields a literal, or fails in the one way or the other. -/
theorem literal_or_fails_of_function (hfunction : lookup.pure? folding.symbol = some function) :
    (∃ value, (folding.built (resolution options lookup.recorded)).1 = .literal value) ∨
    ∃ calls failure, FailsInAdvance options lookup folding calls failure := by
  cases hsymbol : folding.symbol.isConstantLike with
  -- without operands, it was called when it was resolved
  | true =>
    cases hresult : (function [] folding.state.host.host).1 with
    | error failure => exact .inr ⟨_, failure, .computed hfunction hsymbol hresult⟩
    | ok value =>
      obtain ⟨number, after, hcall⟩ : ∃ number after,
          Machine.callHost (function.recorded folding.symbol) [] folding.state =
            (.ok number, after) := callHost_recorded_of_ok hresult
      have hpure : pureMeaning options lookup.recorded folding.symbol folding.state =
          (.constant number, after) := by
        rw [pureMeaning_of_constantLike options hfunction hsymbol, Meaning.computed, hcall]
        rfl
      exact .inl (literal_of_ok himpure hkept hoperands hpure rfl)
  -- with operands, it is called with them
  | false =>
    cases hresult :
      (function (folding.state.table.loadAll numbers) folding.state.host.host).1 with
    | error failure => exact .inr ⟨_, failure, .called hfunction hsymbol hoperands hresult⟩
    | ok value =>
      obtain ⟨number, after, hcall⟩ := callHost_recorded_of_ok hresult
      have hpure := congrFun (pureMeaning_of_not_constantLike options hfunction hsymbol)
        folding.state
      exact .inl (literal_of_ok himpure hkept hoperands hpure hcall)

/-- A container is read, or reading it fails before or after its index is looked at. -/
theorem literal_or_fails_of_container {container : Symbol}
    (hnone : lookup.pure? folding.symbol = none)
    (hcontainer : folding.symbol.containerOf? = some container)
    (hfunction : lookup.pure? container = some function) :
    (∃ value, (folding.built (resolution options lookup.recorded)).1 = .literal value) ∨
    ∃ calls failure, FailsInAdvance options lookup folding calls failure := by
  cases hread :
    (function [] folding.state.host.host).1.bind (subscriptReader folding.symbol) with
  | error failure => exact .inr ⟨_, failure, .container hnone hcontainer hfunction hread⟩
  -- the container is there, so that the index decides
  | ok read =>
    cases hresult : read (folding.state.table.loadAll numbers) with
    | error failure =>
      exact .inr ⟨_, failure, .subscripted hnone hcontainer hfunction hread hoperands hresult⟩
    | ok value =>
      obtain ⟨after, hpure, htable, -⟩ := ofContainer_recorded_of_ok hread
      rw [← pureMeaning_of_container options hnone hcontainer hfunction] at hpure
      have hvalue : MachineEvaluator.ofValues read numbers after =
          (.ok (after.store value).1, (after.store value).2) := by
        rw [MachineEvaluator.ofValues, htable, hresult]
        rfl
      exact .inl (literal_of_ok himpure hkept hoperands hpure hvalue)

/-- **A pure step that knows its operands fails in advance, if it does not build a literal.** -/
theorem literal_or_fails :
    (∃ value, (folding.built (resolution options lookup.recorded)).1 = .literal value) ∨
    ∃ calls failure, FailsInAdvance options lookup folding calls failure := by
  cases hfunction : lookup.pure? folding.symbol with
  | some function => exact literal_or_fails_of_function himpure hkept hoperands hfunction
  | none =>
    cases hcontainer : folding.symbol.containerOf?.bind lookup.pure? with
    | some function =>
      obtain ⟨container, hcontainer, hfunction'⟩ := Option.bind_eq_some_iff.mp hcontainer
      exact literal_or_fails_of_container himpure hkept hoperands hfunction hcontainer hfunction'
    | none =>
      -- a built-in meaning is left, or none
      cases hmeaning : (builtIn? options.logic folding.symbol :
        Option (Meaning (HostLedger σ ω) ω)) with
      | none => exact .inr ⟨_, _, .unresolved hfunction hcontainer hmeaning⟩
      | some meaning =>
        cases hresult : ((meaning folding.state).1 numbers (meaning folding.state).2).1 with
        | error failure =>
          exact .inr ⟨_, failure, .builtIn hfunction hcontainer hmeaning hkept hoperands hresult⟩
        | ok value =>
          have hpure := congrFun (pureMeaning_of_none options hfunction hcontainer) folding.state
          rw [hmeaning] at hpure
          exact .inl (literal_of_ok himpure hkept hoperands hpure (Prod.ext hresult rfl))

end Exhaustive

/-! ### Whole lines -/

/-- **Building never fails, and failures are remembered.** A tree that was read is built and
written, whatever the host defines, and however its functions fail. The calls in the compiled tree
are those that the steps have built, except for the steps that `??` drops; where there is no `??`,
all of them are kept. A step that is kept has a place in the tree for its call.

A pure step that knows its operands, and is not replaced by one of them, builds a literal or fails
in advance. If it fails in advance, it makes its calls of the host once, and builds a call that
fails. Wherever this call stands in the compiled tree, every run evaluates what is in front of it
and its operands, and ends with the failure, or with an earlier one. The host is not called
after the operands. -/
theorem compile_remembers [Host ω] {line : Text} {node : Node} (h : parse line = .ok node)
    (options : Options) (lookup : HostLookup σ ω) (host : HostLedger σ ω) :
    ∃ expression machine,
      compile options lookup.recorded node host = (expression, machine) ∧
      node.describe? = some expression.description ∧
      expression.root.calls =
        (node.keptFoldings options lookup.recorded ⟨host, .empty⟩).filterMap
          (Folding.call? options lookup.recorded) ∧
      (node.keptFoldings options lookup.recorded ⟨host, .empty⟩).Sublist
        (node.foldings (resolution options lookup.recorded) ⟨host, .empty⟩) ∧
      ((∀ application ∈ node.applications, application.symbol ≠ .coalesce) →
        node.keptFoldings options lookup.recorded ⟨host, .empty⟩ =
          node.foldings (resolution options lookup.recorded) ⟨host, .empty⟩) ∧
      ∀ folding ∈ node.foldings (resolution options lookup.recorded) ⟨host, .empty⟩,
        impureMeaning? options lookup.recorded folding.symbol = none →
        (∀ numbers, EvalNode.literals? folding.operands = some numbers →
          coalescingReplacement? lookup.recorded folding.symbol folding.operands = none →
          (∃ value, (folding.built (resolution options lookup.recorded)).1 = .literal value) ∨
          ∃ calls failure, FailsInAdvance options lookup folding calls failure) ∧
        ∀ calls failure, FailsInAdvance options lookup folding calls failure →
          (∃ after, folding.built (resolution options lookup.recorded) =
              (.call folding.symbol (.failing failure) folding.operands, after) ∧
            after.host.calls = folding.state.host.calls ++ calls) ∧
          (folding ∈ node.keptFoldings options lookup.recorded ⟨host, .empty⟩ →
            ∃ earlier, (EvalNode.call folding.symbol (.failing failure)
              folding.operands).StandsAfter earlier expression.root) ∧
          ∀ earlier, (EvalNode.call folding.symbol (.failing failure)
              folding.operands).StandsAfter earlier expression.root →
            expression.FailsAfter (earlier ++ folding.operands) failure := by
  have hdescribe := Node.describe?_of_takes (parse_grammatical h).applications_take
  refine ⟨_, _, rfl, hdescribe, calls_fold node _, keptFoldings_sublist node _,
    fun hcoalesce => keptFoldings_eq_foldings hcoalesce _, fun folding _ himpure => ⟨?_, ?_⟩⟩
  · exact fun _ hoperands hkept => literal_or_fails himpure hkept hoperands
  · intro calls failure hfails
    -- the call that is built is known, so its place is found among the calls in the tree
    obtain ⟨after, hbuilt, hcalls⟩ := hfails.built_eq himpure
    have hcall : folding.call? options lookup.recorded =
        some (.call folding.symbol (.failing failure) folding.operands) := by
      rw [Folding.call?, hbuilt]
      rfl
    exact ⟨⟨after, hbuilt, hcalls⟩, fun hmem => exists_standsAfter_of_mem_kept hmem hcall,
      fun earlier hstands => hstands.failsAfter⟩

/-- A host whose only variable `x` is pure, and fails. -/
def failingLookup : HostLookup Unit Empty where
  impure? _ := none
  pure? symbol :=
    if symbol = .var (utf8 "x") then
      some fun _ host => (.error (.exception .runtime (utf8 "stop")), host)
    else none

/-- The sum of `x` and `x`. -/
def doubledVariable : Node :=
  .apply (.infixOp (utf8 "+")) [.apply (.var (utf8 "x")) [], .apply (.var (utf8 "x")) []]

/-- The step at the `x` on the left of the sum. -/
def failingStep : HostFolding Unit Empty := ⟨.var (utf8 "x"), [], ⟨⟨(), []⟩, .empty⟩⟩

/-- In `x + x` the variable is called once for each of its places, while the expression is built.
The sum is not computed in advance, and each evaluation of it fails like the call on the left,
without another call. -/
theorem compile_remembers_summand :
    ∃ expression machine,
      compile .standard failingLookup.recorded doubledVariable ⟨(), []⟩ = (expression, machine) ∧
      machine.host.calls = [⟨.var (utf8 "x"), []⟩, ⟨.var (utf8 "x"), []⟩] ∧
      ∀ current, (expression.run current).1 = .error (.exception .runtime (utf8 "stop")) ∧
        (expression.run current).2.host = current.host := by
  have hname : IsPlainName (utf8 "x") := ⟨by decide, by decide⟩
  have hread := Parser.spellsOperand_var (.inl hname)
  have hline : parse (utf8 "x + x") = .ok doubledVariable := hread.parse_sum hread
  obtain ⟨expression, machine, hcompile, -, -, -, -, hremembers⟩ :=
    compile_remembers hline .standard failingLookup ⟨(), []⟩
  have hpure : failingLookup.pure? (.var (utf8 "x")) =
      some fun _ host => (.error (.exception .runtime (utf8 "stop")), host) := rfl
  -- the variable is pure and has no operands, so it is computed when it is resolved
  have hfails : FailsInAdvance .standard failingLookup failingStep
      [⟨.var (utf8 "x"), []⟩] (.exception .runtime (utf8 "stop")) := .computed hpure rfl rfl
  obtain ⟨-, -, hruns⟩ := (hremembers failingStep List.mem_cons_self rfl).2 _ _ hfails
  -- the call is the left operand of the sum, so nothing stands in front of it
  have hstands : (EvalNode.call (.var (utf8 "x"))
      (.failing (.exception .runtime (utf8 "stop"))) []).StandsAfter []
      (compile .standard failingLookup.recorded doubledVariable ⟨(), []⟩).1.root :=
    EvalNode.StandsAfter.root.first
  have hcalls : (compile .standard failingLookup.recorded doubledVariable ⟨(), []⟩).2.host.calls =
      [⟨.var (utf8 "x"), []⟩, ⟨.var (utf8 "x"), []⟩] := rfl
  rw [hcompile] at hstands hcalls
  exact ⟨expression, machine, hcompile, hcalls, hruns [] hstands⟩

end DynExpr
