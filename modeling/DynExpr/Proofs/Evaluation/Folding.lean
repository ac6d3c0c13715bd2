import DynExpr.Proofs.Evaluation.Ledger
import DynExpr.Proofs.Pointwise

/-!
# Folding over plain numbers

Folding moves calls from evaluation to building. To say which calls are made when, every call is put
on record: a `Ledger` is the state of the host together with the calls made so far. An
`Interpretation` gives every symbol its meaning, an impure evaluator that may read and change the
host, or else a pure function, which may fail; `Interpretation.resolution` resolves symbols to
evaluators that keep the ledger.

What is compared with it knows nothing of folding. `Node.perform` interprets a tree from left to
right and from the leaves up, and lists the applications that it visits with their arguments.
`Node.known?` is the number of a tree in which only pure functions take part, and
`Interpretation.folds` says of an application that it is pure and all its operands are known.

* `fold_spec`: the applications that fold are called once each while the tree is built. Evaluating
  the tree yields what the interpretation yields and makes the calls that it makes, in the same
  order, except those of applications that fold.

The proof goes along the tree. `FoldsTo` relates a tree to what it is folded to; one call keeps it
(`foldCall_foldsTo`), and so does the whole tree (`fold_foldsTo`).
-/

namespace DynExpr

variable {σ ε α : Type}

/-! ### Calls on record -/

/-- A call that was made. -/
structure Call where
  symbol : Symbol
  arguments : List Double
  isPure : Bool

/-- The calls of impure evaluators among some calls. -/
def impureCalls (calls : List Call) : List Call := calls.filter fun call => !call.isPure

theorem impureCalls_append (calls others : List Call) :
    impureCalls (calls ++ others) = impureCalls calls ++ impureCalls others := by
  simp [impureCalls]

/-- What symbols mean: an impure evaluator, which is asked for first, or a pure function. -/
structure Interpretation (σ ε : Type) where
  impure? : Symbol → Option (Evaluator σ ε)
  pure : Symbol → List Double → Except ε Double

namespace Interpretation

/-- Calls an impure evaluator on the state of the host. -/
def recordImpure (symbol : Symbol) (evaluator : Evaluator σ ε) : Evaluator (Ledger σ Call) ε :=
  fun arguments ledger =>
    let (result, host) := evaluator arguments ledger.host
    (result, ⟨host, ledger.calls ++ [⟨symbol, arguments, false⟩]⟩)

/-- Calls the pure function of a symbol. -/
def recordPure (meaning : Interpretation σ ε) (symbol : Symbol) : Evaluator (Ledger σ Call) ε :=
  fun arguments ledger => (meaning.pure symbol arguments, ledger.add [⟨symbol, arguments, true⟩])

/-- Symbols are resolved to evaluators that put their calls on record. No call is replaced. -/
def resolution (meaning : Interpretation σ ε) : Resolution (Ledger σ Call) ε where
  impure? symbol ledger := ((meaning.impure? symbol).map (recordImpure symbol), ledger)
  pure symbol ledger := (meaning.recordPure symbol, ledger)
  replacement? _ _ := none

end Interpretation

/-- Asks for the impure evaluator of a symbol, and for its pure function otherwise. -/
def Interpretation.call (meaning : Interpretation σ ε) (symbol : Symbol) : Evaluator σ ε :=
  fun arguments host =>
    match meaning.impure? symbol with
    | some evaluator => evaluator arguments host
    | none => (meaning.pure symbol arguments, host)

/-! ### The plain interpretation -/

/-- An application of a symbol to operands, as it stands in a tree. -/
structure Application where
  symbol : Symbol
  children : List Node

/-- A visit to an application, with the numbers of its operands. -/
structure Visit where
  application : Application
  arguments : List Double

/-- How an interpretation ends: its result, the state of the host, and the applications that were
visited, in order. -/
structure Run (σ ε α : Type) where
  result : Except ε α
  host : σ
  visits : List Visit

namespace Node

mutual
/-- Interprets a tree: all operands in order, and then the symbol. -/
def perform (meaning : Interpretation σ ε) : Node → σ → Run σ ε Double
  | number value => fun host => ⟨.ok value, host, []⟩
  | apply symbol children => fun host =>
    match performAll meaning children host with
    | ⟨.error failure, host, visits⟩ => ⟨.error failure, host, visits⟩
    | ⟨.ok arguments, host, visits⟩ =>
      let (result, host) := meaning.call symbol arguments host
      ⟨result, host, visits ++ [⟨⟨symbol, children⟩, arguments⟩]⟩

/-- Interprets trees in order, up to the first failure. -/
def performAll (meaning : Interpretation σ ε) : List Node → σ → Run σ ε (List Double)
  | [] => fun host => ⟨.ok [], host, []⟩
  | node :: rest => fun host =>
    match perform meaning node host with
    | ⟨.error failure, host, visits⟩ => ⟨.error failure, host, visits⟩
    | ⟨.ok value, host, visits⟩ =>
      match performAll meaning rest host with
      | ⟨.error failure, host, others⟩ => ⟨.error failure, host, visits ++ others⟩
      | ⟨.ok values, host, others⟩ => ⟨.ok (value :: values), host, visits ++ others⟩
end

mutual
/-- All applications in a tree, operands before what is applied to them. -/
def applications : Node → List Application
  | number _ => []
  | apply symbol children => applicationsOfAll children ++ [⟨symbol, children⟩]

/-- All applications in the trees of a list. -/
def applicationsOfAll : List Node → List Application
  | [] => []
  | node :: rest => applications node ++ applicationsOfAll rest
end

mutual
/-- The number of a tree, if no impure evaluator takes part in it and no pure function fails. -/
def known? (meaning : Interpretation σ ε) : Node → Option Double
  | number value => some value
  | apply symbol children =>
    if (meaning.impure? symbol).isSome then none
    else
      match knownAll? meaning children with
      | some arguments => (meaning.pure symbol arguments).toOption
      | none => none

/-- The numbers of trees, if all of them are known. -/
def knownAll? (meaning : Interpretation σ ε) : List Node → Option (List Double)
  | [] => some []
  | node :: rest =>
    match known? meaning node, knownAll? meaning rest with
    | some value, some values => some (value :: values)
    | _, _ => none
end

end Node

namespace Interpretation

/-- The call of a pure application whose operands are all known. -/
def foldedCall? (meaning : Interpretation σ ε) (application : Application) : Option Call :=
  if (meaning.impure? application.symbol).isSome then none
  else
    (Node.knownAll? meaning application.children).map fun arguments =>
      ⟨application.symbol, arguments, true⟩

/-- The application is pure, and all its operands are known. -/
def folds (meaning : Interpretation σ ε) (application : Application) : Bool :=
  (meaning.foldedCall? application).isSome

/-- The call that the interpretation makes at a visit. -/
def callOf (meaning : Interpretation σ ε) (visit : Visit) : Call :=
  ⟨visit.application.symbol, visit.arguments, (meaning.impure? visit.application.symbol).isNone⟩

/-- The calls at those of the visited applications that do not fold. -/
def unfoldedCalls (meaning : Interpretation σ ε) (visits : List Visit) : List Call :=
  (visits.filter fun visit => !meaning.folds visit.application).map meaning.callOf

@[simp] theorem unfoldedCalls_nil (meaning : Interpretation σ ε) :
    meaning.unfoldedCalls [] = [] := rfl

@[simp] theorem unfoldedCalls_append (meaning : Interpretation σ ε) (visits others : List Visit) :
    meaning.unfoldedCalls (visits ++ others) =
      meaning.unfoldedCalls visits ++ meaning.unfoldedCalls others := by
  simp [unfoldedCalls]

theorem unfoldedCalls_singleton {meaning : Interpretation σ ε} {visit : Visit}
    (h : meaning.folds visit.application = false) :
    meaning.unfoldedCalls [visit] = [meaning.callOf visit] := by
  simp [unfoldedCalls, h]

/-- At a visit to what folds there is no call. -/
theorem unfoldedCalls_singleton_of_folds {meaning : Interpretation σ ε} {visit : Visit}
    (h : meaning.folds visit.application = true) : meaning.unfoldedCalls [visit] = [] := by
  simp [unfoldedCalls, h]

section Folds

variable {meaning : Interpretation σ ε} {symbol : Symbol}

/-- An impure application is not called while the tree is built. -/
theorem foldedCall?_of_impure {evaluator : Evaluator σ ε}
    (h : meaning.impure? symbol = some evaluator) (children : List Node) :
    meaning.foldedCall? ⟨symbol, children⟩ = none := by
  simp [foldedCall?, h]

/-- A pure application is called if all its operands are known. -/
theorem foldedCall?_of_pure (h : meaning.impure? symbol = none) (children : List Node) :
    meaning.foldedCall? ⟨symbol, children⟩ =
      (Node.knownAll? meaning children).map fun arguments => ⟨symbol, arguments, true⟩ := by
  simp [foldedCall?, h]

/-- What folds is pure. -/
theorem isPure_callOf_of_folds {visit : Visit} (h : meaning.folds visit.application = true) :
    (meaning.callOf visit).isPure = true := by
  unfold folds foldedCall? at h
  unfold callOf
  cases himpure : meaning.impure? visit.application.symbol with
  | some evaluator => simp [himpure] at h
  | none => rfl

/-- The impure calls at visits are all among those that do not fold. -/
theorem impureCalls_unfoldedCalls (visits : List Visit) :
    impureCalls (meaning.unfoldedCalls visits) = impureCalls (visits.map meaning.callOf) := by
  unfold impureCalls unfoldedCalls
  rw [List.filter_map, List.filter_map, List.filter_filter]
  congr 1
  refine List.filter_congr fun visit _ => ?_
  cases hfolds : meaning.folds visit.application with
  | false => simp
  -- what folds is pure, so both filters drop it
  | true => simp [isPure_callOf_of_folds hfolds]

end Folds

/-- What may be left of a call after folding: an impure call, a pure one with an operand that is no
literal, or a pure one that failed when it was folded, with its failure in the place of the
evaluator. -/
inductive Remains (meaning : Interpretation σ ε) (symbol : Symbol) :
    Evaluator (Ledger σ Call) ε → List (EvalNode (Ledger σ Call) ε) → Prop
  | impure {evaluator : Evaluator σ ε} {operands : List (EvalNode (Ledger σ Call) ε)}
      (himpure : meaning.impure? symbol = some evaluator) :
      Remains meaning symbol (recordImpure symbol evaluator) operands
  | unknown {operands : List (EvalNode (Ledger σ Call) ε)}
      (himpure : meaning.impure? symbol = none) (hoperands : EvalNode.literals? operands = none) :
      Remains meaning symbol (meaning.recordPure symbol) operands
  | failed {operands : List (EvalNode (Ledger σ Call) ε)} {arguments : List Double} {failure : ε}
      (himpure : meaning.impure? symbol = none)
      (hoperands : EvalNode.literals? operands = some arguments)
      (hfailure : meaning.pure symbol arguments = .error failure) :
      Remains meaning symbol (.failing failure) operands

end Interpretation

/-- How evaluating a folded tree ends, if the interpretation of the tree ends with a run. -/
def Run.onLedger (run : Run σ ε α) (meaning : Interpretation σ ε) (ledger : Ledger σ Call) :
    Except ε α × Ledger σ Call :=
  (run.result, ⟨run.host, ledger.calls ++ meaning.unfoldedCalls run.visits⟩)

/-! ### What a tree is folded to -/

/-- A tree is folded to another one. The other one is a literal exactly if the number of the tree is
known. It is evaluated as the tree is interpreted, without the calls that fold, and its own calls
are such as remain. -/
structure FoldsTo (meaning : Interpretation σ ε) (tree : EvalNode (Ledger σ Call) ε)
    (node : Node) : Prop where
  literal?_eq : tree.literal? = node.known? meaning
  evaluate_eq : ∀ ledger, tree.evaluate ledger =
    (node.perform meaning ledger.host).onLedger meaning ledger
  remains : ∀ symbol evaluator operands, tree.HasCall symbol evaluator operands →
    meaning.Remains symbol evaluator operands

section Operands

variable {meaning : Interpretation σ ε} {trees : List (EvalNode (Ledger σ Call) ε)}
  {nodes : List Node}

/-- The literals among folded operands are the known numbers. -/
theorem literals?_eq_knownAll? (h : List.Forall₂ (FoldsTo meaning) trees nodes) :
    EvalNode.literals? trees = Node.knownAll? meaning nodes := by
  induction h with
  | nil => rfl
  | cons hnode _ ih =>
    rewrite [EvalNode.literals?, Node.knownAll?, hnode.literal?_eq, ih]
    rfl

/-- Folded operands are evaluated as they are interpreted. -/
theorem evaluateAll_onLedger (h : List.Forall₂ (FoldsTo meaning) trees nodes)
    (ledger : Ledger σ Call) : EvalNode.evaluateAll trees ledger =
      (Node.performAll meaning nodes ledger.host).onLedger meaning ledger := by
  induction h generalizing ledger with
  | nil => simp [EvalNode.evaluateAll, Node.performAll, Run.onLedger]
  | @cons tree node trees nodes hnode _ ih =>
    have hfirst := hnode.evaluate_eq ledger
    unfold Node.performAll
    rcases hrun : node.perform meaning ledger.host with ⟨failure | value, host, visits⟩
    · -- the first tree fails, and the others are not evaluated
      rw [hrun] at hfirst
      rw [EvalNode.evaluateAll_cons_of_error hfirst]
      rfl
    · rw [hrun] at hfirst
      -- the others start with the calls of the first tree on record
      have hrest := ih ⟨host, ledger.calls ++ meaning.unfoldedCalls visits⟩
      dsimp only at hrest ⊢
      rcases hruns : Node.performAll meaning nodes host with ⟨failure | values, host', others⟩
      · rw [hruns] at hrest
        rw [EvalNode.evaluateAll_cons_of_ok_error hfirst hrest]
        simp [Run.onLedger]
      · rw [hruns] at hrest
        rw [EvalNode.evaluateAll_cons_of_ok hfirst hrest]
        simp [Run.onLedger]

/-- The interpretation of known operands visits only applications that fold. -/
theorem performAll_of_knownAll? (h : List.Forall₂ (FoldsTo meaning) trees nodes)
    {arguments : List Double} (hknown : Node.knownAll? meaning nodes = some arguments) (host : σ) :
    ∃ visits, Node.performAll meaning nodes host = ⟨.ok arguments, host, visits⟩ ∧
      meaning.unfoldedCalls visits = [] := by
  have hliterals := (literals?_eq_knownAll? h).trans hknown
  -- literals make no calls, so the ledger stays as it is
  have hnothing := EvalNode.evaluateAll_of_literals? hliterals ⟨host, []⟩
  have hrun := hnothing.symm.trans (evaluateAll_onLedger h ⟨host, []⟩)
  rcases hperform : Node.performAll meaning nodes host with ⟨result, host', visits⟩
  rw [hperform] at hrun
  obtain ⟨rfl, hledger⟩ := Prod.mk.inj hrun
  obtain ⟨rfl, hcalls⟩ := Ledger.mk.inj hledger
  exact ⟨visits, rfl, hcalls.symm⟩

end Operands

/-! ### Folding a call -/

section Calls

variable {meaning : Interpretation σ ε} {symbol : Symbol}
  {trees : List (EvalNode (Ledger σ Call) ε)} {children : List Node}

/-- An impure call stays. -/
theorem foldCall_of_impure {evaluator : Evaluator σ ε}
    (h : meaning.impure? symbol = some evaluator) (ledger : Ledger σ Call) :
    foldCall meaning.resolution symbol trees ledger =
      (.call symbol (Interpretation.recordImpure symbol evaluator) trees, ledger) := by
  simp [foldCall, Interpretation.resolution, h]

/-- A pure call stays if an operand is no literal. -/
theorem foldCall_of_unknown (h : meaning.impure? symbol = none)
    (hliterals : EvalNode.literals? trees = none) (ledger : Ledger σ Call) :
    foldCall meaning.resolution symbol trees ledger =
      (.call symbol (meaning.recordPure symbol) trees, ledger) := by
  simp [foldCall, Interpretation.resolution, h, hliterals]

/-- A pure call of literals is made, and replaced by its value. -/
theorem foldCall_of_ok {arguments : List Double} {value : Double}
    (h : meaning.impure? symbol = none) (hliterals : EvalNode.literals? trees = some arguments)
    (hvalue : meaning.pure symbol arguments = .ok value) (ledger : Ledger σ Call) :
    foldCall meaning.resolution symbol trees ledger =
      (.literal value, ledger.add [⟨symbol, arguments, true⟩]) := by
  simp [foldCall, Interpretation.resolution, Interpretation.recordPure, h, hliterals, hvalue]

/-- A pure call of literals that fails keeps its failure. -/
theorem foldCall_of_error {arguments : List Double} {failure : ε}
    (h : meaning.impure? symbol = none) (hliterals : EvalNode.literals? trees = some arguments)
    (hfailure : meaning.pure symbol arguments = .error failure) (ledger : Ledger σ Call) :
    foldCall meaning.resolution symbol trees ledger =
      (.call symbol (.failing failure) trees, ledger.add [⟨symbol, arguments, true⟩]) := by
  simp [foldCall, Interpretation.resolution, Interpretation.recordPure, h, hliterals, hfailure]

/-- What remains of a call and in its operands are all calls in it. -/
theorem remains_call (htrees : List.Forall₂ (FoldsTo meaning) trees children)
    {evaluator : Evaluator (Ledger σ Call) ε} (hcall : meaning.Remains symbol evaluator trees)
    {other : Symbol} {f : Evaluator (Ledger σ Call) ε}
    {operands : List (EvalNode (Ledger σ Call) ε)}
    (h : (EvalNode.call symbol evaluator trees).HasCall other f operands) :
    meaning.Remains other f operands := by
  cases h with
  | here => exact hcall
  | @inside _ _ _ child hmem h =>
    -- every operand is folded from one of the children
    obtain ⟨node, -, hchild⟩ := forall₂_exists_right htrees hmem
    exact hchild.remains other f operands h

/-- A call that is not made while the tree is built. Where the operands have numbers, the evaluator
does what the interpretation does at a visit, and puts it on record. -/
theorem evaluate_call_onLedger (htrees : List.Forall₂ (FoldsTo meaning) trees children)
    {evaluator : Evaluator (Ledger σ Call) ε} (hfolds : meaning.folds ⟨symbol, children⟩ = false)
    (hcall : ∀ arguments host calls, evaluator arguments ⟨host, calls⟩ =
      ((meaning.call symbol arguments host).1, ⟨(meaning.call symbol arguments host).2,
        calls ++ [meaning.callOf ⟨⟨symbol, children⟩, arguments⟩]⟩))
    (ledger : Ledger σ Call) :
    (EvalNode.call symbol evaluator trees).evaluate ledger =
      ((Node.apply symbol children).perform meaning ledger.host).onLedger meaning ledger := by
  have hoperands := evaluateAll_onLedger htrees ledger
  unfold Node.perform
  rcases hrun : Node.performAll meaning children ledger.host with
    ⟨failure | arguments, host, visits⟩
  · rw [hrun] at hoperands
    rw [EvalNode.evaluate_call_of_error hoperands]
    rfl
  · rw [hrun] at hoperands
    -- the visit to the application itself comes last
    rw [EvalNode.evaluate_call_of_ok hoperands, hcall]
    simp [Run.onLedger, Interpretation.unfoldedCalls_singleton, hfolds]

/-- A call that was made while the tree was built, and is not made again. -/
theorem perform_of_folded (htrees : List.Forall₂ (FoldsTo meaning) trees children)
    {arguments : List Double} (himpure : meaning.impure? symbol = none)
    (hknown : Node.knownAll? meaning children = some arguments) (ledger : Ledger σ Call) :
    ((Node.apply symbol children).perform meaning ledger.host).onLedger meaning ledger =
      (meaning.pure symbol arguments, ledger) := by
  obtain ⟨visits, hrun, hvisits⟩ := performAll_of_knownAll? htrees hknown ledger.host
  have hfolds : meaning.folds ⟨symbol, children⟩ = true := by
    simp [Interpretation.folds, Interpretation.foldedCall?_of_pure himpure, hknown]
  unfold Node.perform
  rw [hrun]
  -- the visits are those of the operands, which fold, and of the application itself
  simp [Run.onLedger, Interpretation.call, himpure, hvisits,
    Interpretation.unfoldedCalls_singleton_of_folds, hfolds]

variable (symbol) in
/-- **A call is folded.** It stays impure, or stays for an operand that is not known; else it is
made now, and then its value is a literal, or its failure is remembered. -/
theorem foldCall_foldsTo (htrees : List.Forall₂ (FoldsTo meaning) trees children)
    (ledger : Ledger σ Call) :
    FoldsTo meaning (foldCall meaning.resolution symbol trees ledger).1 (.apply symbol children) ∧
    (foldCall meaning.resolution symbol trees ledger).2 =
      ledger.add (meaning.foldedCall? ⟨symbol, children⟩).toList := by
  have hliterals := literals?_eq_knownAll? htrees
  cases himpure : meaning.impure? symbol with
  | some evaluator =>
    -- an impure call is made by the evaluation
    have hnone := Interpretation.foldedCall?_of_impure himpure children
    rw [foldCall_of_impure himpure, hnone]
    refine ⟨⟨?_, ?_, fun _ _ _ => remains_call htrees (.impure himpure)⟩, by simp⟩
    · simp [EvalNode.literal?, Node.known?, himpure]
    · refine evaluate_call_onLedger htrees ?_ fun arguments host calls => ?_
      · simp [Interpretation.folds, hnone]
      · simp [Interpretation.recordImpure, Interpretation.call, Interpretation.callOf, himpure]
  | none =>
    have hfolded := Interpretation.foldedCall?_of_pure himpure children
    cases hknown : Node.knownAll? meaning children with
    | none =>
      -- so is a pure one that lacks a number
      have hunknown := hliterals.trans hknown
      rw [foldCall_of_unknown himpure hunknown, hfolded, hknown]
      refine ⟨⟨?_, ?_, fun _ _ _ => remains_call htrees (.unknown himpure hunknown)⟩, by simp⟩
      · simp [EvalNode.literal?, Node.known?, himpure, hknown]
      · refine evaluate_call_onLedger htrees ?_ fun arguments host calls => ?_
        · simp [Interpretation.folds, hfolded, hknown]
        · simp [Interpretation.recordPure, Interpretation.call, Interpretation.callOf, himpure,
            Ledger.add]
    | some arguments =>
      -- all operands are known, and the call is made now
      have harguments := hliterals.trans hknown
      have hperform := perform_of_folded htrees himpure hknown
      rw [hfolded, hknown]
      cases hresult : meaning.pure symbol arguments with
      | ok value =>
        rw [hresult] at hperform
        rw [foldCall_of_ok himpure harguments hresult]
        refine ⟨⟨?_, fun current => (hperform current).symm, by rintro _ _ _ ⟨⟩⟩, rfl⟩
        simp [EvalNode.literal?, Node.known?, himpure, hknown, hresult, Except.toOption]
      | error failure =>
        rw [hresult] at hperform
        rw [foldCall_of_error himpure harguments hresult]
        have hremains := Interpretation.Remains.failed himpure harguments hresult
        refine ⟨⟨?_, fun current => ?_, fun _ _ _ => remains_call htrees hremains⟩, rfl⟩
        · simp [EvalNode.literal?, Node.known?, himpure, hknown, hresult, Except.toOption]
        · -- the operands are literals, and the failure is met again
          have hoperands := EvalNode.evaluateAll_of_literals? harguments current
          rw [EvalNode.evaluate_call_of_ok hoperands, hperform]
          rfl

end Calls

/-! ### Folding a tree -/

section Trees

variable {meaning : Interpretation σ ε}

/-- Operands are folded in order, as each of them is. -/
theorem foldAll_foldsTo {nodes : List Node}
    (h : ∀ node ∈ nodes, ∀ ledger,
      FoldsTo meaning (fold meaning.resolution node ledger).1 node ∧
      (fold meaning.resolution node ledger).2 =
        ledger.add (node.applications.filterMap meaning.foldedCall?))
    (ledger : Ledger σ Call) :
    List.Forall₂ (FoldsTo meaning) (foldAll meaning.resolution nodes ledger).1 nodes ∧
    (foldAll meaning.resolution nodes ledger).2 =
      ledger.add ((Node.applicationsOfAll nodes).filterMap meaning.foldedCall?) := by
  induction nodes generalizing ledger with
  | nil => exact ⟨.nil, by simp [foldAll, Node.applicationsOfAll]⟩
  | cons node rest ih =>
    rw [List.forall_mem_cons] at h
    obtain ⟨hnode, hledger⟩ := h.1 ledger
    obtain ⟨hrest, hledgers⟩ := ih h.2 (fold meaning.resolution node ledger).2
    rw [foldAll, Node.applicationsOfAll, List.filterMap_append, ← Ledger.add_add, ← hledger]
    exact ⟨.cons hnode hrest, hledgers⟩

/-- **A tree is folded.** The calls of the applications that fold are made, and no others. -/
theorem fold_foldsTo (node : Node) (ledger : Ledger σ Call) :
    FoldsTo meaning (fold meaning.resolution node ledger).1 node ∧
    (fold meaning.resolution node ledger).2 =
      ledger.add (node.applications.filterMap meaning.foldedCall?) := by
  induction node using Node.induction generalizing ledger with
  | number value =>
    refine ⟨⟨rfl, fun current => ?_, fun _ _ _ h => (nomatch h)⟩, ?_⟩
    · simp [fold, EvalNode.evaluate, Node.perform, Run.onLedger]
    · simp [fold, Node.applications]
  | apply symbol children ih =>
    obtain ⟨hchildren, hledger⟩ := foldAll_foldsTo ih ledger
    obtain ⟨hcall, hcalls⟩ := foldCall_foldsTo symbol hchildren
      (foldAll meaning.resolution children ledger).2
    -- the application at the root is folded after those in its operands
    have hlast : [⟨symbol, children⟩].filterMap meaning.foldedCall? =
        (meaning.foldedCall? ⟨symbol, children⟩).toList := by
      cases hfolded : meaning.foldedCall? ⟨symbol, children⟩ <;> simp [hfolded]
    rw [fold, Node.applications, List.filterMap_append, ← Ledger.add_add, ← hledger, hlast]
    exact ⟨hcall, hcalls⟩

/-- **Folding is correct.** Whatever has happened before, and whatever state the host is in:

* Evaluating a folded tree ends as the interpretation of the tree ends, in the same result and with
  the same state of the host. The calls that are made are those at the visits of the
  interpretation, in order, except those of applications that fold; so the impure calls are the
  same.
* Building the tree makes the calls of the applications that fold, each once, and no others.
* Every call in the tree is impure, or has an operand that is no literal, or is pure and failed when
  it was folded, and the symbols of the tree are those of its calls. -/
theorem fold_spec (meaning : Interpretation σ ε) (node : Node) (start : Ledger σ Call) :
    (∀ ledger : Ledger σ Call,
      ((fold meaning.resolution node start).1.evaluate ledger).1 =
        (node.perform meaning ledger.host).result ∧
      ((fold meaning.resolution node start).1.evaluate ledger).2.host =
        (node.perform meaning ledger.host).host ∧
      ((fold meaning.resolution node start).1.evaluate ledger).2.calls =
        ledger.calls ++ meaning.unfoldedCalls (node.perform meaning ledger.host).visits ∧
      impureCalls ((fold meaning.resolution node start).1.evaluate ledger).2.calls =
        impureCalls ledger.calls ++
          impureCalls ((node.perform meaning ledger.host).visits.map meaning.callOf)) ∧
    (fold meaning.resolution node start).2 =
      ⟨start.host, start.calls ++ node.applications.filterMap meaning.foldedCall?⟩ ∧
    (∀ symbol evaluator operands,
      (fold meaning.resolution node start).1.HasCall symbol evaluator operands →
        meaning.Remains symbol evaluator operands) ∧
    ∀ symbol, symbol ∈ (fold meaning.resolution node start).1.symbols ↔
      ∃ evaluator operands,
        (fold meaning.resolution node start).1.HasCall symbol evaluator operands := by
  obtain ⟨hfolds, hledger⟩ := fold_foldsTo node start
  refine ⟨fun ledger => ?_, hledger, hfolds.remains, fun symbol => EvalNode.mem_symbols⟩
  rw [hfolds.evaluate_eq ledger]
  refine ⟨rfl, rfl, rfl, ?_⟩
  -- calls that fold are pure, so no impure one is missing
  rw [Run.onLedger, impureCalls_append, Interpretation.impureCalls_unfoldedCalls]

end Trees

end DynExpr
