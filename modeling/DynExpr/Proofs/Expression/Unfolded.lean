import DynExpr.CommandLine
import DynExpr.Proofs.Evaluation.Ledger
import DynExpr.Proofs.Expression.Meanings

/-!
# Expressions without folding

Without folding nothing is computed in advance. The compiled tree is the tree that was read, with an
evaluator for each symbol; the host is not called while it is built; and each evaluation calls the
host for each call that it reaches, if the symbol of the call is one of the host's.

To count the calls, the functions of the host are put on record (`HostLookup.recorded`), and
`HostLookup.callOf?` says which of them a symbol stands for. `CompilesUnfolded` is the property of
the compiled expression; it rests on what a single symbol is resolved to
(`impureMeaning?_records`, `pureMeaning_of_unresolved`) and is carried along the tree by
`fold_unfolded`.

There is one exception. An array may be read through a variable of the host with its name, and if
the variable is pure, it is read when the symbol is resolved, whether there is folding or not
(`HostLookup.ReadsPureVariable`). With constants and a table of symbols this cannot happen
(`ofTables_not_readsPureVariable`); with look-up functions it can
(`compile_unfolded_pureContainer`).
-/

namespace DynExpr

variable {σ ω : Type}

/-! ### Calls of the host on record -/

/-- A call of a function of the host: the symbol for which the function was found, and the
arguments. -/
structure HostCall (ω : Type) where
  symbol : Symbol
  arguments : List (Value ω)

/-- The state of a host whose calls are put on record. -/
abbrev HostLedger (σ ω : Type) := Ledger σ (HostCall ω)

/-- A function of the host that puts its calls on record. -/
def HostFunction.recorded (symbol : Symbol) (function : HostFunction σ ω) :
    HostFunction (HostLedger σ ω) ω :=
  fun arguments ledger =>
    let (result, host) := function arguments ledger.host
    (result, ⟨host, ledger.calls ++ [⟨symbol, arguments⟩]⟩)

namespace HostLookup

/-- What the host defines, with all calls on record. -/
def recorded (lookup : HostLookup σ ω) : HostLookup (HostLedger σ ω) ω where
  impure? symbol := (lookup.impure? symbol).map (HostFunction.recorded symbol)
  pure? symbol := (lookup.pure? symbol).map (HostFunction.recorded symbol)

/-- The call of the host that a symbol stands for, given the arguments: of its own function, or
else, for an array, of the variable with its name. Impure functions come first, and an array literal
is not read through a pure variable. -/
def callOf? (lookup : HostLookup σ ω) (symbol : Symbol) (arguments : List (Value ω)) :
    Option (HostCall ω) :=
  let direct := some ⟨symbol, arguments⟩
  let indirect := symbol.containerOf?.map fun container => ⟨container, []⟩
  if (lookup.impure? symbol).isSome then direct
  else if (symbol.containerOf?.bind lookup.impure?).isSome then indirect
  else if (lookup.pure? symbol).isSome then direct
  else if symbol.unquoted?.isNone && (symbol.containerOf?.bind lookup.pure?).isSome then indirect
  else none

/-- The symbol is an array that is read through the host's pure variable of its name, for want of
anything else. -/
structure ReadsPureVariable (lookup : HostLookup σ ω) (symbol : Symbol) : Prop where
  impure : lookup.impure? symbol = none
  container_impure : symbol.containerOf?.bind lookup.impure? = none
  pure : lookup.pure? symbol = none
  unquoted : symbol.unquoted? = none
  container_pure : (symbol.containerOf?.bind lookup.pure?).isSome

end HostLookup

/-- Without folding, the tree compiles to itself, and does so without a call of the host. Each
evaluation then makes a call of the host for each call that it reaches whose symbol stands for
one. -/
def CompilesUnfolded [Host ω] (options : Options) (lookup : HostLookup σ ω) (node : Node) : Prop :=
  ∀ (host : HostLedger σ ω) expression machine,
    compile options lookup.recorded node host = (expression, machine) →
      machine.host = host ∧ expression.root.skeleton = node ∧ expression.symbols = node.symbols ∧
      ∀ current, (expression.run current).2.host.calls = current.host.calls ++
        (expression.root.reached current).filterMap fun reached =>
          lookup.callOf? reached.symbol (reached.state.table.loadAll reached.arguments)

/-! ### Resolving without folding -/

/-- Sending a result leaves the host alone. -/
@[simp] theorem Machine.storeResult_host (machine : Machine σ ω)
    (result : Except (Failure ω) (Value ω)) :
    (machine.storeResult result).2.host = machine.host := by
  cases result <;> rfl

/-- A built-in meaning leaves the host alone. -/
theorem Meaning.BuiltIn.host_eq {meaning : Meaning σ ω} (h : meaning.BuiltIn)
    (machine : Machine σ ω) : (meaning machine).2.host = machine.host ∧
      ∀ arguments current, ((meaning machine).1 arguments current).2.host = current.host := by
  cases h with
  | ofValues f => exact ⟨rfl, fun _ current => current.storeResult_host _⟩
  | _ => exact ⟨rfl, fun _ _ => rfl⟩

/-- An evaluator puts on record the call of the host that the symbol stands for. -/
def Records (lookup : HostLookup σ ω) (symbol : Symbol)
    (evaluator : MachineEvaluator (HostLedger σ ω) ω) : Prop :=
  ∀ arguments machine, (evaluator arguments machine).2.host.calls =
    machine.host.calls ++ (lookup.callOf? symbol (machine.table.loadAll arguments)).toList

section Records

variable {lookup : HostLookup σ ω} {symbol : Symbol}

/-- A function of the host is called under its own symbol. -/
theorem records_ofHost {function : HostFunction σ ω}
    (h : ∀ arguments, lookup.callOf? symbol arguments = some ⟨symbol, arguments⟩) :
    Records lookup symbol (.ofHost (function.recorded symbol)) := by
  intro arguments machine
  rw [h]
  unfold MachineEvaluator.ofHost Machine.callHost
  rw [Machine.storeResult_host]
  rfl

/-- An array that is read through a variable calls the variable. -/
theorem records_readingVariable [Host ω] {container : Symbol} {function : HostFunction σ ω}
    (h : ∀ arguments, lookup.callOf? symbol arguments = some ⟨container, []⟩) :
    Records lookup symbol (readingVariable symbol (function.recorded container)) := by
  intro arguments machine
  rw [h]
  unfold readingVariable HostFunction.recorded
  -- the call is on record before its answer is looked at
  rcases function [] machine.host.host with ⟨failure | value, host⟩
  · rfl
  · dsimp only
    cases subscriptReader symbol value with
    | error failure => rfl
    | ok read =>
      dsimp only
      rw [Machine.storeResult_host]
      rfl

/-- A built-in meaning makes no call of the host. -/
theorem records_builtIn {meaning : Meaning (HostLedger σ ω) ω} (hmeaning : meaning.BuiltIn)
    (h : ∀ arguments, lookup.callOf? symbol arguments = none)
    (machine : Machine (HostLedger σ ω) ω) : Records lookup symbol (meaning machine).1 := by
  intro arguments current
  rw [h, (hmeaning.host_eq machine).2]
  exact (List.append_nil _).symm

/-- Nor does the failing evaluator. -/
theorem records_failing (failure : Failure ω)
    (h : ∀ arguments, lookup.callOf? symbol arguments = none) :
    Records lookup symbol (.failing failure) := by
  intro arguments current
  rw [h]
  exact (List.append_nil _).symm

/-- A variable that is not impure on record is not impure. -/
theorem bind_recorded_impure?_eq_none
    (h : symbol.containerOf?.bind lookup.recorded.impure? = none) :
    symbol.containerOf?.bind lookup.impure? = none := by
  cases hcontainer : symbol.containerOf? with
  | none => rfl
  | some container =>
    rw [hcontainer] at h
    exact Option.map_eq_none_iff.mp h

/-- A symbol that the host does not define stands for no call of the host. -/
theorem callOf?_eq_none (hreads : ¬ lookup.ReadsPureVariable symbol)
    (himpure : lookup.impure? symbol = none)
    (hvariable : symbol.containerOf?.bind lookup.impure? = none)
    (hpure : lookup.pure? symbol = none) (arguments : List (Value ω)) :
    lookup.callOf? symbol arguments = none := by
  -- it is not read through a pure variable either
  have hlast : (symbol.unquoted?.isNone && (symbol.containerOf?.bind lookup.pure?).isSome) =
      false := by
    rw [Bool.eq_false_iff, ne_eq, Bool.and_eq_true, Option.isNone_iff_eq_none]
    exact fun ⟨hunquoted, h⟩ => hreads ⟨himpure, hvariable, hpure, hunquoted, h⟩
  simp [HostLookup.callOf?, himpure, hvariable, hpure, hlast]

end Records

section Resolving

variable [Host ω] {options : Options} {lookup : HostLookup σ ω} {symbol : Symbol}

/-- An array without a built-in meaning is no string literal. -/
theorem unquoted?_of_builtIn? {logic : Bool} {container : Symbol}
    (hcontainer : symbol.containerOf? = some container)
    (h : (builtIn? logic symbol : Option (Meaning σ ω)) = none) : symbol.unquoted? = none := by
  cases symbol with
  | array name =>
    -- arithmetic and logic have no arrays
    -- neither is an array a name for a single value
    have hstructural : (builtIn? logic (.array name) : Option (Meaning σ ω)) =
        structuralSymbol? (.array name) := by
      cases logic <;> rfl
    rw [hstructural] at h
    exact Option.map_eq_none_iff.mp h
  | _ => exact nomatch hcontainer

/-- **Without folding a symbol with a meaning is called.** To resolve it does not call the host. -/
theorem impureMeaning?_records {meaning : Meaning (HostLedger σ ω) ω}
    (hreads : ¬ lookup.ReadsPureVariable symbol)
    (h : impureMeaning? options lookup.recorded symbol = some meaning)
    (machine : Machine (HostLedger σ ω) ω) :
    (meaning machine).2.host = machine.host ∧ Records lookup symbol (meaning machine).1 := by
  unfold impureMeaning? at h
  split at h
  · next f hrecorded =>
    obtain rfl := Option.some.inj h
    obtain ⟨function, himpure, rfl⟩ := Option.map_eq_some_iff.mp hrecorded
    refine ⟨rfl, records_ofHost fun arguments => ?_⟩
    -- it is the host's own impure function, which comes first
    simp [HostLookup.callOf?, himpure]
  next himpure =>
  have himpure := Option.map_eq_none_iff.mp himpure
  split at h
  · next f hrecorded =>
    obtain rfl := Option.some.inj h
    obtain ⟨container, hcontainer, hrecorded⟩ := Option.bind_eq_some_iff.mp hrecorded
    obtain ⟨function, hvariable, rfl⟩ := Option.map_eq_some_iff.mp hrecorded
    refine ⟨rfl, records_readingVariable fun arguments => ?_⟩
    simp [HostLookup.callOf?, himpure, hcontainer, hvariable]
  next hvariable =>
  have hvariable := bind_recorded_impure?_eq_none hvariable
  obtain ⟨-, h⟩ := Option.ite_none_right_eq_some.mp h
  split at h
  · next f hrecorded =>
    obtain rfl := Option.some.inj h
    obtain ⟨function, hpure, rfl⟩ := Option.map_eq_some_iff.mp hrecorded
    refine ⟨rfl, records_ofHost fun arguments => ?_⟩
    simp [HostLookup.callOf?, himpure, hvariable, hpure]
  · next hpure =>
    have hpure := Option.map_eq_none_iff.mp hpure
    have hmeaning := builtIn?_builtIn h
    exact ⟨(hmeaning.host_eq machine).1,
      records_builtIn hmeaning (callOf?_eq_none hreads himpure hvariable hpure) machine⟩

/-- A symbol without any meaning fails, and stands for no call of the host. -/
theorem pureMeaning_of_unresolved (hunfolded : options.unfolded)
    (hreads : ¬ lookup.ReadsPureVariable symbol)
    (h : impureMeaning? options lookup.recorded symbol = none) :
    (∃ failure, pureMeaning options lookup.recorded symbol = .plain (.failing failure)) ∧
      (∀ arguments, lookup.callOf? symbol arguments = none) ∧ symbol ≠ .coalesce := by
  unfold impureMeaning? at h
  split at h
  · exact nomatch h
  next himpure =>
  split at h
  · exact nomatch h
  next hvariable =>
  rw [if_pos hunfolded] at h
  split at h
  · exact nomatch h
  next hpure =>
  have hcall := callOf?_eq_none hreads (Option.map_eq_none_iff.mp himpure)
    (bind_recorded_impure?_eq_none hvariable) (Option.map_eq_none_iff.mp hpure)
  refine ⟨?_, hcall, ?_⟩
  · -- the variable of an array has no pure function either, or it would be read
    have hcontainer : symbol.containerOf?.bind lookup.recorded.pure? = none := by
      cases hcontainer : symbol.containerOf? with
      | none => rfl
      | some container =>
        refine Option.map_eq_none_iff.mpr ?_
        cases hvariablePure : lookup.pure? container with
        | none => rfl
        | some function =>
          refine absurd ⟨Option.map_eq_none_iff.mp himpure, bind_recorded_impure?_eq_none hvariable,
            Option.map_eq_none_iff.mp hpure, unquoted?_of_builtIn? hcontainer h, ?_⟩ hreads
          simp [hcontainer, hvariablePure]
    refine ⟨unresolvedFailure options lookup.recorded symbol, ?_⟩
    unfold pureMeaning
    rw [hpure, hcontainer, h]
  · rintro rfl
    exact nomatch h

/-- **Without folding a call stays a call.** -/
theorem foldCall_unfolded (hunfolded : options.unfolded)
    (hreads : ¬ lookup.ReadsPureVariable symbol)
    (trees : List (EvalNode (Machine (HostLedger σ ω) ω) (Failure ω)))
    (machine : Machine (HostLedger σ ω) ω) :
    ∃ evaluator after, foldCall (resolution options lookup.recorded) symbol trees machine =
      (.call symbol evaluator trees, after) ∧
        Records lookup symbol evaluator ∧ after.host = machine.host := by
  unfold foldCall
  cases hmeaning : impureMeaning? options lookup.recorded symbol with
  | some meaning =>
    obtain ⟨hhost, hrecords⟩ := impureMeaning?_records hreads hmeaning machine
    rw [resolution_impure?_of_some hmeaning]
    exact ⟨_, _, rfl, hrecords, hhost⟩
  | none =>
    obtain ⟨⟨failure, hpure⟩, hcall, hsymbol⟩ :=
      pureMeaning_of_unresolved hunfolded hreads hmeaning
    have hfailing : (resolution options lookup.recorded).pure symbol machine =
        (.failing failure, machine) := by
      change pureMeaning options lookup.recorded symbol machine = _
      rw [hpure]
      rfl
    have hreplacement : (resolution options lookup.recorded).replacement? symbol trees = none := by
      cases h : (resolution options lookup.recorded).replacement? symbol trees with
      | none => rfl
      | some tree => exact absurd (coalescingReplacement?_eq_some h).1 hsymbol
    rw [resolution_impure?_of_none hmeaning]
    simp only [hreplacement, hfailing]
    -- with literals as operands it fails already now, and the failure is remembered
    cases EvalNode.literals? trees with
    | none => exact ⟨_, _, rfl, records_failing failure hcall, rfl⟩
    | some arguments => exact ⟨_, _, rfl, records_failing failure hcall, rfl⟩

end Resolving

/-! ### Trees -/

section Trees

variable [Host ω] {options : Options} {lookup : HostLookup σ ω}

/-- What a tree is compiled to without folding. -/
structure StaysUnfolded (lookup : HostLookup σ ω) (host : HostLedger σ ω) (node : Node)
    (built : EvalNode (Machine (HostLedger σ ω) ω) (Failure ω) × Machine (HostLedger σ ω) ω) :
    Prop where
  host_eq : built.2.host = host
  skeleton_eq : built.1.skeleton = node
  records : ∀ symbol evaluator operands, built.1.HasCall symbol evaluator operands →
    Records lookup symbol evaluator

/-- Without folding operands stay as they are. -/
theorem foldAll_unfolded {nodes : List Node}
    (h : ∀ node ∈ nodes, ∀ machine, StaysUnfolded lookup machine.host node
      (fold (resolution options lookup.recorded) node machine))
    (machine : Machine (HostLedger σ ω) ω) :
    (foldAll (resolution options lookup.recorded) nodes machine).2.host = machine.host ∧
    EvalNode.skeletons (foldAll (resolution options lookup.recorded) nodes machine).1 = nodes ∧
    ∀ tree ∈ (foldAll (resolution options lookup.recorded) nodes machine).1,
      ∀ symbol evaluator operands, tree.HasCall symbol evaluator operands →
        Records lookup symbol evaluator := by
  induction nodes generalizing machine with
  | nil => exact ⟨rfl, rfl, fun _ hmem => absurd hmem List.not_mem_nil⟩
  | cons node rest ih =>
    rw [List.forall_mem_cons] at h
    obtain ⟨hhost, hskeleton, hrecords⟩ := h.1 machine
    obtain ⟨hhosts, hskeletons, hall⟩ :=
      ih h.2 (fold (resolution options lookup.recorded) node machine).2
    rw [foldAll]
    refine ⟨hhosts.trans hhost, ?_, List.forall_mem_cons.mpr ⟨hrecords, hall⟩⟩
    rw [EvalNode.skeletons, hskeleton, hskeletons]

/-- **Without folding a tree stays as it is.** -/
theorem fold_unfolded (hunfolded : options.unfolded) {node : Node}
    (hreads : ∀ symbol, node.Calls symbol → ¬ lookup.ReadsPureVariable symbol)
    (machine : Machine (HostLedger σ ω) ω) :
    StaysUnfolded lookup machine.host node
      (fold (resolution options lookup.recorded) node machine) := by
  induction node using Node.induction generalizing machine with
  | number value => exact ⟨rfl, rfl, fun _ _ _ hcall => (nomatch hcall)⟩
  | apply symbol children ih =>
    obtain ⟨hhost, hskeletons, hall⟩ := foldAll_unfolded
      (fun child hmem => ih child hmem fun other hcalls => hreads other (.inside hmem hcalls))
      machine
    obtain ⟨evaluator, after, hcall, hrecords, hafter⟩ := foldCall_unfolded hunfolded
      (hreads symbol (.here children))
      (foldAll (resolution options lookup.recorded) children machine).1
      (foldAll (resolution options lookup.recorded) children machine).2
    unfold fold
    dsimp only
    rw [hcall]
    refine ⟨hafter.trans hhost, ?_, fun other f operands hoccurs => ?_⟩
    · rw [EvalNode.skeleton, hskeletons]
    · -- a call is that at the root, or in an operand
      cases hoccurs with
      | here => exact hrecords
      | inside hmem hoccurs => exact hall _ hmem other f operands hoccurs

/-- Without folding nothing is computed in advance, if no array is read through a pure variable. -/
theorem compilesUnfolded (hunfolded : options.unfolded) {node : Node}
    (hreads : ∀ symbol, node.Calls symbol → ¬ lookup.ReadsPureVariable symbol) :
    CompilesUnfolded options lookup node := by
  intro host expression machine hcompile
  obtain ⟨rfl, rfl⟩ := Prod.mk.inj hcompile
  obtain ⟨hhost, hskeleton, hrecords⟩ := fold_unfolded hunfolded hreads ⟨host, .empty⟩
  refine ⟨hhost, hskeleton, ?_, fun current => ?_⟩
  · rw [← congrArg Node.symbols hskeleton]
    exact (EvalNode.symbols_skeleton _).symm
  · -- each call that is reached puts itself on record
    exact EvalNode.evaluate_records (fun machine => machine.host.calls)
      (fun reached => lookup.callOf? reached.symbol (reached.state.table.loadAll reached.arguments))
      hrecords current

/-- With constants and a table of symbols every array with a meaning has one of its own, or has an
impure variable. -/
theorem ofTables_not_readsPureVariable (constants : Constants ω) (table : SymbolTable σ ω)
    (symbol : Symbol) :
    ¬ (HostLookup.ofTables options constants table).ReadsPureVariable symbol := by
  rintro ⟨himpure, hvariable, hpure, -, h⟩
  cases symbol with
  | array name =>
    have hconstant : constants.of? (.array name) = none := by
      by_contra hsome
      obtain ⟨v, hv⟩ := Option.ne_none_iff_exists'.mp hsome
      exact nomatch (pure?_of_constant hv).symm.trans hpure
    -- the impure functions of a table and its pure ones are the same
    rw [container_pure? hconstant, ← container_impure? hconstant, hvariable] at h
    exact nomatch h
  | _ => exact nomatch h

/-- **Without folding nothing is computed in advance**: with constants and a table of symbols for
every tree, and with look-up functions for every tree that has no array read through a pure variable
of the host. -/
theorem compile_unfolded (hunfolded : options.unfolded) :
    (∀ (lookup : HostLookup σ ω) node,
      (∀ symbol, node.Calls symbol → ¬ lookup.ReadsPureVariable symbol) →
        CompilesUnfolded options lookup node) ∧
    ∀ (constants : Constants ω) (table : SymbolTable σ ω) node,
      CompilesUnfolded options (.ofTables options constants table) node := by
  refine ⟨fun lookup node => compilesUnfolded hunfolded, fun constants table node => ?_⟩
  exact compilesUnfolded hunfolded fun symbol _ =>
    ofTables_not_readsPureVariable constants table symbol

end Trees

/-! ### Arrays of pure variables -/

/-- An array with the single element `x`. -/
def sampleArray : Value Empty := .array [.string (utf8 "x")]

/-- The tree of `a[f()]`. -/
def sampleSubscript : Node :=
  .apply (.array (utf8 "a")) [.apply (.function (utf8 "f") (.exactly 0)) []]

/-- A table in which `a` is an array and `f` a function that yields its first index. -/
def sampleTable : SymbolTable Unit Empty := fun symbol =>
  if symbol = .var (utf8 "a") then some fun _ host => (.ok sampleArray, host)
  else if symbol = .function (utf8 "f") .any then some fun _ host => (.ok (.double .zero), host)
  else none

/-- In `a[f()]` the function is called first, and then the variable, even if they are pure. -/
theorem compile_unfolded_subscriptedVariable :
    ∃ expression machine,
      compile ⟨true, true, true⟩ (HostLookup.ofTables ⟨true, true, true⟩ (fun _ => none)
        sampleTable).recorded sampleSubscript ⟨(), []⟩ = (expression, machine) ∧
      machine.host.calls = [] ∧ expression.symbols = sampleSubscript.symbols ∧
      (expression.run machine).2.host.calls =
        [⟨.function (utf8 "f") (.exactly 0), []⟩, ⟨.var (utf8 "a"), []⟩] := by
  have hunfolded : (⟨true, true, true⟩ : Options).unfolded := rfl
  -- with a table no array is read through a pure variable
  obtain ⟨hhost, -, hsymbols, hcalls⟩ :=
    (compile_unfolded hunfolded).2 (fun _ => none) sampleTable sampleSubscript ⟨(), []⟩ _ _ rfl
  exact ⟨_, _, rfl, congrArg Ledger.calls hhost, hsymbols, hcalls _⟩

/-- A host whose only variable `a` is an array, and pure. -/
def pureArrayLookup : HostLookup Unit Empty where
  impure? _ := none
  pure? symbol :=
    if symbol = .var (utf8 "a") then some fun _ host => (.ok sampleArray, host) else none

/-- The host is called while `a[0]` is compiled without folding, the element is computed then, and
the expression has no symbols left. -/
theorem compile_unfolded_pureContainer :
    ∃ expression machine,
      compile ⟨true, false, true⟩ pureArrayLookup.recorded
        (.apply (.array (utf8 "a")) [.number .zero]) ⟨(), []⟩ = (expression, machine) ∧
      machine.host.calls.map HostCall.symbol = [.var (utf8 "a")] ∧ expression.symbols = [] :=
  ⟨_, _, rfl, by decide +kernel, by decide +kernel⟩

end DynExpr
