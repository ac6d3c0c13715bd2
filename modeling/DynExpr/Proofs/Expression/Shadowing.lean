import DynExpr.CommandLine
import DynExpr.Proofs.Expression.Meanings
import DynExpr.Proofs.Expression.Restored
import DynExpr.Proofs.Expression.Unfolded

/-!
# Constants hide symbols of a table

A constant has the place of the variables and arrays of its name, so what a table has under these
symbols does not matter: a table without them defines the same (`HostLookup.ofTables_congr`).

That the functions that are hidden are not called is more than that. It is a statement on what
becomes of the state of a host in the course of compiling and evaluating. What no function of the
host makes smaller is never made smaller (`compile_host_grows`, `run_host_grows`). Here it is the
list of calls on record, which grows by calls of functions that are not hidden alone
(`HostFunction.recorded_grows`, `ofTables_recorded_grows`).

`compile_shadowed` has both.
-/

namespace DynExpr

variable {σ ω τ : Type}

/-! ### The state of the host -/

section Host

variable [Preorder τ] {view : σ → τ}

/-- The function never makes the view of the host smaller. -/
def HostFunction.Grows (view : σ → τ) (function : HostFunction σ ω) : Prop :=
  ∀ arguments host, view host ≤ view (function arguments host).2

/-- No function that the host defines makes the view smaller. -/
def HostLookup.Grows (view : σ → τ) (lookup : HostLookup σ ω) : Prop :=
  ∀ symbol function, lookup.impure? symbol = some function ∨ lookup.pure? symbol = some function →
    function.Grows view

/-- A call of the host makes the view no smaller. -/
theorem callHost_host_grows {function : HostFunction σ ω} (h : function.Grows view)
    (arguments : List (Value ω)) (machine : Machine σ ω) :
    view machine.host ≤ view (Machine.callHost function arguments machine).2.host := by
  unfold Machine.callHost
  rw [Machine.storeResult_host]
  exact h arguments machine.host

variable [Host ω] {options : Options} {lookup : HostLookup σ ω} {symbol : Symbol}

/-- Only evaluators that call the host change its state. -/
theorem evaluatorKinds_host_grows (h : lookup.Grows view) :
    EvaluatorKinds lookup (Evaluator.Grows fun machine => view machine.host) where
  ofTable _ _ _ := le_refl _
  ofValues _ _ machine := le_of_eq (congrArg view (machine.storeResult_host _).symm)
  constant _ _ _ := le_refl _
  failing _ _ _ := le_refl _
  ofHost symbol function hfunction arguments machine :=
    callHost_host_grows (h symbol function hfunction) _ machine
  readingVariable symbol container function hfunction arguments machine := by
    have hgrows := h container function (.inl hfunction) [] machine.host
    unfold readingVariable
    rcases hresult : function [] machine.host with ⟨failure | value, host⟩
    · rwa [hresult] at hgrows
    · rw [hresult] at hgrows
      dsimp only
      -- reading the container leaves the host alone
      cases subscriptReader symbol value with
      | error failure => exact hgrows
      | ok read =>
        dsimp only
        rw [Machine.storeResult_host]
        exact hgrows

/-- To resolve an impure symbol does not call the host. -/
theorem impureMeaning?_host {meaning : Meaning σ ω}
    (h : impureMeaning? options lookup symbol = some meaning) (machine : Machine σ ω) :
    (meaning machine).2.host = machine.host := by
  unfold impureMeaning? at h
  split at h
  · exact Option.some.inj h ▸ rfl
  split at h
  · exact Option.some.inj h ▸ rfl
  obtain ⟨-, h⟩ := Option.ite_none_right_eq_some.mp h
  split at h
  · exact Option.some.inj h ▸ rfl
  · exact ((builtIn?_builtIn h).host_eq machine).1

/-- Nor does resolving an impure symbol, whatever it is resolved to. -/
theorem resolution_impure?_host (machine : Machine σ ω) :
    ((resolution options lookup).impure? symbol machine).2.host = machine.host := by
  cases hmeaning : impureMeaning? options lookup symbol with
  | some meaning =>
    rw [resolution_impure?_of_some hmeaning]
    exact impureMeaning?_host hmeaning machine
  | none => rw [resolution_impure?_of_none hmeaning]

/-- To resolve a pure symbol may call the host: for a value that is computed, or for a container. -/
theorem pureMeaning_host_grows (h : lookup.Grows view) (machine : Machine σ ω) :
    view machine.host ≤ view (pureMeaning options lookup symbol machine).2.host := by
  unfold pureMeaning
  cases hpure : lookup.pure? symbol with
  | some function =>
    dsimp only
    split
    · -- a variable, or a function without arguments, is called now
      exact callHost_host_grows (h symbol function (.inr hpure)) [] machine
    · exact le_refl _
  | none =>
    cases hcontainer : symbol.containerOf?.bind lookup.pure? with
    | some function =>
      -- a container is asked for now
      obtain ⟨container, -, hfunction⟩ := Option.bind_eq_some_iff.mp hcontainer
      have hgrows := h container function (.inr hfunction) [] machine.host
      dsimp only [Meaning.ofContainer]
      cases (function [] machine.host).1.bind (subscriptReader symbol) <;> exact hgrows
    | none =>
      cases hbuiltIn : (builtIn? options.logic symbol : Option (Meaning σ ω)) with
      | some meaning =>
        have hhost := ((builtIn?_builtIn hbuiltIn).host_eq machine).1
        exact le_of_eq (congrArg view hhost.symm)
      | none => exact le_refl _

/-- **Compiling** does not make the view smaller if no function of the host does. -/
theorem compile_host_grows (h : lookup.Grows view) (node : Node) (host : σ) :
    view host ≤ view (compile options lookup node host).2.host :=
  fold_grows (fun machine : Machine σ ω => view machine.host)
    (fun _ machine => le_of_eq (congrArg view (resolution_impure?_host machine).symm))
    (fun _ machine => pureMeaning_host_grows h machine)
    (fun symbol machine => (pureMeaning_spec (evaluatorKinds_host_grows h) symbol machine).1)
    node ⟨host, .empty⟩

/-- **Evaluating** does not make it smaller, either. -/
theorem run_host_grows (h : lookup.Grows view) {node : Node} {host : σ}
    {expression : Expression σ ω} {machine : Machine σ ω}
    (hcompile : compile options lookup node host = (expression, machine))
    (current : Machine σ ω) :
    view current.host ≤ view (expression.run current).2.host :=
  EvalNode.evaluate_grows (compile_everywhere (evaluatorKinds_host_grows h) hcompile) current

end Host

/-! ### Calls of a table on record -/

/-- A table whose functions put their calls on record. -/
def SymbolTable.recorded (table : SymbolTable σ ω) : SymbolTable (HostLedger σ ω) ω :=
  fun symbol => (table symbol).map (HostFunction.recorded symbol)

/-- The calls that were made, to be compared by what was added: one list of calls is below another
if the latter goes on with permitted calls alone. -/
structure CallLog (permitted : HostCall ω → Prop) where
  calls : List (HostCall ω)

namespace CallLog

variable {permitted : HostCall ω → Prop}

/-- Logs are ordered by what was added to them. -/
instance : Preorder (CallLog permitted) where
  le earlier later := ∃ made, later.calls = earlier.calls ++ made ∧ ∀ call ∈ made, permitted call
  le_refl log := ⟨[], (List.append_nil _).symm, fun _ h => absurd h List.not_mem_nil⟩
  le_trans := by
    rintro first second third ⟨made, hmade, hpermitted⟩ ⟨others, hothers, hpermitted'⟩
    refine ⟨made ++ others, ?_, List.forall_mem_append.mpr ⟨hpermitted, hpermitted'⟩⟩
    rw [hothers, hmade, List.append_assoc]

/-- A later log goes on with permitted calls. -/
theorem le_iff {earlier later : CallLog permitted} : earlier ≤ later ↔
    ∃ made, later.calls = earlier.calls ++ made ∧ ∀ call ∈ made, permitted call := Iff.rfl

end CallLog

/-- The calls on record. -/
def HostLedger.log (permitted : HostCall ω → Prop) (ledger : HostLedger σ ω) : CallLog permitted :=
  ⟨ledger.calls⟩

/-- A function on record adds its own call. -/
theorem HostFunction.recorded_grows {permitted : HostCall ω → Prop} {symbol : Symbol}
    (h : ∀ arguments, permitted ⟨symbol, arguments⟩) (function : HostFunction σ ω) :
    (function.recorded symbol).Grows (HostLedger.log permitted) := fun arguments _ =>
  CallLog.le_iff.mpr ⟨[⟨symbol, arguments⟩], rfl, List.forall_mem_singleton.mpr (h arguments)⟩

section Tables

variable [Host ω] {options : Options} {constants : Constants ω} {table table' : SymbolTable σ ω}

/-- The tables agree on all symbols that no constant hides. -/
def SymbolTable.AgreesBeyond (constants : Constants ω) (table table' : SymbolTable σ ω) : Prop :=
  ∀ symbol, constants.of? symbol = none → table symbol = table' symbol

/-- The call is one of a function that no constant hides. -/
def Constants.Spare (constants : Constants ω) (call : HostCall ω) : Prop :=
  constants.of? call.symbol = none

omit [Host ω] in
/-- What is found in a table on record is a function of the table, and not hidden if the symbol that
is sought is not. -/
theorem SymbolTable.recorded_find?_eq_some {symbol : Symbol}
    {function : HostFunction (HostLedger σ ω) ω} (hof : constants.of? symbol = none)
    (h : table.recorded.find? symbol = some function) :
    ∃ (entry : Symbol) (original : HostFunction σ ω),
      constants.of? entry = none ∧ function = original.recorded entry := by
  have hentry {entry : Symbol} (hof : constants.of? entry = none)
      (h : table.recorded entry = some function) :
      ∃ (entry : Symbol) (original : HostFunction σ ω),
        constants.of? entry = none ∧ function = original.recorded entry := by
    obtain ⟨original, -, rfl⟩ := Option.map_eq_some_iff.mp h
    exact ⟨entry, original, hof, rfl⟩
  -- it is found under the symbol itself, or under the function of any number of arguments
  unfold SymbolTable.find? at h
  split at h
  · next hfound => exact hentry hof (hfound.trans h)
  · exact hentry rfl h
  · cases h

/-- **Constants and a table on record** make spare calls alone. -/
theorem ofTables_recorded_grows :
    (HostLookup.ofTables options constants table.recorded).Grows
      (HostLedger.log (σ := σ) constants.Spare) := by
  have hfind {symbol : Symbol} {function : HostFunction (HostLedger σ ω) ω}
      (hof : constants.of? symbol = none) (h : table.recorded.find? symbol = some function) :
      function.Grows (HostLedger.log (σ := σ) constants.Spare) := by
    obtain ⟨entry, original, hentry, rfl⟩ := SymbolTable.recorded_find?_eq_some hof h
    exact original.recorded_grows fun _ => hentry
  rintro symbol function (h | h)
  · obtain ⟨hof, h⟩ := impure?_eq_some h
    exact hfind hof h
  · cases hof : constants.of? symbol with
    | none =>
      rw [pure?_of_not_constant hof] at h
      exact hfind hof h
    | some value =>
      -- a constant is computed without a call
      rw [pure?_of_constant hof] at h
      obtain rfl := Option.some.inj h
      intro arguments ledger
      unfold constantFunction
      split <;> exact le_refl _

omit [Host ω] in
/-- What is found for a symbol that is not hidden is not hidden either. -/
theorem SymbolTable.AgreesBeyond.find?_eq (hsame : table.AgreesBeyond constants table')
    {symbol : Symbol} (hof : constants.of? symbol = none) :
    table.find? symbol = table'.find? symbol := by
  unfold SymbolTable.find?
  rw [hsame symbol hof]
  cases table' symbol with
  | some function => rfl
  | none =>
    cases symbol with
    | function name arity =>
      cases arity with
      | exactly count =>
        -- no constant hides the function for any number of arguments
        exact hsame (.function name .any) rfl
      | any => rfl
    | _ => rfl

/-- **Hidden symbols do not matter.** -/
theorem HostLookup.ofTables_congr (hsame : table.AgreesBeyond constants table') :
    HostLookup.ofTables options constants table = .ofTables options constants table' := by
  unfold HostLookup.ofTables
  congr 1 <;> funext symbol
  · -- first the impure functions
    cases hof : constants.of? symbol with
    | none => rw [hsame.find?_eq hof]
    | some value =>
      have hvariable := isVariableLike_of_constant hof
      rw [if_pos hvariable, if_pos hvariable]
      rfl
  · -- then the pure ones
    cases hof : constants.of? symbol with
    | none => exact hsame.find?_eq hof
    | some value => rfl

omit [Host ω] in
/-- Tables agree with their calls on record, too. -/
theorem SymbolTable.AgreesBeyond.recorded (hsame : table.AgreesBeyond constants table') :
    table.recorded.AgreesBeyond constants table'.recorded := fun symbol hof =>
  congrArg (Option.map (HostFunction.recorded symbol)) (hsame symbol hof)

/-- **Constants hide symbols of a table.** Whatever two tables have under the names of constants, a
tree is compiled to the same expression with both, in the same state: with the same symbols, the
same entries of the table of values, and the same outcome of every evaluation. The calls of both are
the same, too, and neither while compiling nor in an evaluation is there a call of a function that
is hidden. -/
theorem compile_shadowed (hsame : table.AgreesBeyond constants table') (node : Node) :
    (∀ host, compile options (.ofTables options constants table) node host =
      compile options (.ofTables options constants table') node host) ∧
    ∀ ledger : HostLedger σ ω, ∃ expression machine,
      compile options (.ofTables options constants table.recorded) node ledger =
        (expression, machine) ∧
      compile options (.ofTables options constants table'.recorded) node ledger =
        (expression, machine) ∧
      (∃ calls, machine.host.calls = ledger.calls ++ calls ∧
        ∀ call ∈ calls, constants.of? call.symbol = none) ∧
      ∀ current, ∃ calls, (expression.run current).2.host.calls = current.host.calls ++ calls ∧
        ∀ call ∈ calls, constants.of? call.symbol = none := by
  refine ⟨fun host => by rw [HostLookup.ofTables_congr hsame], fun ledger => ?_⟩
  have hgrows : (HostLookup.ofTables options constants table.recorded).Grows
      (HostLedger.log constants.Spare) := ofTables_recorded_grows
  -- with the same look-up functions, both expressions are the same
  refine ⟨_, _, rfl, by rw [HostLookup.ofTables_congr hsame.recorded]; rfl, ?_, fun current => ?_⟩
  · exact compile_host_grows hgrows node ledger
  · exact run_host_grows hgrows rfl current

end Tables

/-! ### An array that is hidden -/

/-- The only constant is the array `a`. -/
def arrayConstant : Constants Empty := fun name =>
  if name = utf8 "a" then some sampleArray else none

/-- A table in which the variable `a` and the array of this name fail, and which is another one
otherwise. -/
def failingArray (table : SymbolTable Unit Empty) : SymbolTable Unit Empty := fun symbol =>
  if symbol = .var (utf8 "a") ∨ symbol = .array (utf8 "a") then
    some fun _ host => (.error (.error (.message (utf8 "hidden"))), host)
  else table symbol

/-- In `a[f()]` the constant `a` is subscripted, and `f` is called alone, whatever the table has for
`a`. -/
theorem compile_shadowed_array :
    (failingArray sampleTable).AgreesBeyond arrayConstant sampleTable ∧
    ∃ expression machine,
      compile .standard (.ofTables .standard arrayConstant (failingArray sampleTable).recorded)
        sampleSubscript ⟨(), []⟩ = (expression, machine) ∧
      compile .standard (.ofTables .standard arrayConstant sampleTable.recorded)
        sampleSubscript ⟨(), []⟩ = (expression, machine) ∧
      ∃ calls, (expression.run machine).2.host.calls = machine.host.calls ++ calls ∧
        ∀ call ∈ calls, arrayConstant.of? call.symbol = none := by
  have hsame : (failingArray sampleTable).AgreesBeyond arrayConstant sampleTable := by
    intro symbol hof
    -- the two symbols that differ are those of the constant
    refine if_neg ?_
    rintro (rfl | rfl) <;> exact absurd hof (by decide +kernel)
  obtain ⟨expression, machine, h, h', -, hcalls⟩ :=
    (compile_shadowed hsame sampleSubscript).2 ⟨(), []⟩
  exact ⟨hsame, expression, machine, h, h', hcalls machine⟩

end DynExpr
