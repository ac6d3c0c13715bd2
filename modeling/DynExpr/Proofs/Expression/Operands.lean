import DynExpr.Proofs.Evaluation.Foldings
import DynExpr.Proofs.Expression.Supplied
import DynExpr.Proofs.Node.Spells

/-!
# Operands are never missing

A tree that was read has the operands that its symbols stand for. Each step of building an
expression has as many operands as the application it works on (`takes_of_mem_foldings`), and each
call that it leaves in the tree has them, too (`takes_of_hasCall`): what is put in the place of a
call is an operand, which was built by a step of its own.

So no operand is missing, neither while an expression is built nor when it is evaluated
(`compile_supplied`).
-/

namespace DynExpr

variable {σ ω : Type}

/-! ### Trees -/

section Trees

variable {node : EvalNode (Machine σ ω) (Failure ω)}

/-- If no tree of a list lacks an operand, neither does the list. -/
theorem supplied_evaluateAll {nodes : List (EvalNode (Machine σ ω) (Failure ω))}
    (h : ∀ node ∈ nodes, ∀ s, Supplied (node.evaluate s).1) (s : Machine σ ω) :
    Supplied (EvalNode.evaluateAll nodes s).1 := by
  induction nodes generalizing s with
  | nil => exact supplied_ok []
  | cons node rest ih =>
    rw [List.forall_mem_cons] at h
    have hnode := h.1 s
    rcases hresult : node.evaluate s with ⟨failure | value, t⟩
    · rw [hresult] at hnode
      rw [EvalNode.evaluateAll_cons_of_error hresult]
      exact hnode.error
    · have hrest := ih h.2 t
      rcases hresults : EvalNode.evaluateAll rest t with ⟨failure | values, u⟩
      · rw [hresults] at hrest
        rw [EvalNode.evaluateAll_cons_of_ok_error hresult hresults]
        exact hrest
      · rw [EvalNode.evaluateAll_cons_of_ok hresult hresults]
        exact supplied_ok _

/-- **If every call of a tree is supplied, so is its evaluation.** -/
theorem supplied_evaluate
    (h : ∀ symbol evaluator operands, node.HasCall symbol evaluator operands →
      symbol.Takes operands.length ∧ symbol.Supplies evaluator) (s : Machine σ ω) :
    Supplied (node.evaluate s).1 := by
  induction node using EvalNode.induction generalizing s with
  | literal value => exact supplied_ok value
  | call symbol evaluator children ih =>
    obtain ⟨hcount, hevaluator⟩ := h symbol evaluator children .here
    have hoperands := supplied_evaluateAll (fun child hmem s => ih child hmem
      (fun other f operands hcall => h other f operands (.inside hmem hcall)) s) s
    rcases hresults : EvalNode.evaluateAll children s with ⟨failure | arguments, t⟩
    · rw [hresults] at hoperands
      rw [EvalNode.evaluate_call_of_error hresults]
      exact hoperands.error
    · rw [EvalNode.evaluate_call_of_ok hresults]
      -- there is a number for each operand, so the evaluator finds all it looks for
      rw [← EvalNode.length_of_evaluateAll hresults] at hcount
      exact hevaluator arguments hcount t

variable [Host ω] {options : Options} {lookup : HostLookup σ ω}

/-- A step that has the operands its symbol stands for leaves a call that is supplied. -/
theorem Folding.LeavesCall.supplies (hlookup : lookup.Supplied)
    {folding : Folding (Machine σ ω) (Failure ω)}
    (hcount : folding.symbol.Takes folding.operands.length) {evaluator : MachineEvaluator σ ω}
    (h : folding.LeavesCall (resolution options lookup) evaluator) :
    folding.symbol.Supplies evaluator := by
  cases h with
  | impure himpure =>
    cases hmeaning : impureMeaning? options lookup folding.symbol with
    | none =>
      rw [resolution_impure?_of_none hmeaning] at himpure
      cases himpure
    | some meaning =>
      rw [resolution_impure?_of_some hmeaning] at himpure
      -- the impure evaluator is that of the meaning
      obtain ⟨hevaluator, -⟩ := Prod.mk.inj himpure
      obtain rfl := Option.some.inj hevaluator
      exact impureMeaning?_supplies hlookup hmeaning folding.state
  | @pure t himpure => exact pureMeaning_supplies hlookup options folding.symbol t
  | @failing t numbers failure himpure hoperands hfailure =>
    -- the pure evaluator was called with as many numbers as there are operands
    have hlength := EvalNode.length_of_evaluateAll
      (EvalNode.evaluateAll_of_literals? hoperands folding.state)
    rw [← hlength] at hcount
    have hnumbers := pureMeaning_supplies hlookup options folding.symbol t numbers hcount
      (pureMeaning options lookup folding.symbol t).2
    have hend : ((pureMeaning options lookup folding.symbol t).1 numbers
        (pureMeaning options lookup folding.symbol t).2).1 = .error failure := hfailure
    rw [hend] at hnumbers
    exact supplies_failing (supplied_error_iff.mp hnumbers)

end Trees

/-! ### Whole lines -/

section Lines

variable {node : Node}

/-- In a line that was read, a step has the operands that its symbol stands for. -/
theorem takes_of_mem_foldings
    (htake : ∀ application ∈ node.applications,
      application.symbol.Takes application.children.length)
    {resolution : Resolution (Machine σ ω) (Failure ω)} {machine : Machine σ ω}
    {folding : Folding (Machine σ ω) (Failure ω)}
    (hmem : folding ∈ node.foldings resolution machine) :
    folding.symbol.Takes folding.operands.length := by
  obtain ⟨children, happlication, hlength⟩ := exists_application_of_mem_foldings hmem
  rw [hlength]
  exact htake _ happlication

variable [Host ω] {options : Options} {lookup : HostLookup σ ω}

/-- Every call in the tree that is built comes from a step, so it has its operands. -/
theorem takes_of_hasCall
    (htake : ∀ application ∈ node.applications,
      application.symbol.Takes application.children.length)
    {symbol : Symbol} {evaluator : MachineEvaluator σ ω}
    {operands : List (EvalNode (Machine σ ω) (Failure ω))} {machine : Machine σ ω}
    (hcall : (fold (resolution options lookup) node machine).1.HasCall symbol evaluator operands) :
    symbol.Takes operands.length ∧ (lookup.Supplied → symbol.Supplies evaluator) := by
  obtain ⟨folding, hfolding, rfl, rfl, hleaves, -⟩ :=
    exists_folding_of_hasCall (fun _ _ _ => coalescingReplacement?_mem) hcall
  have hcount := takes_of_mem_foldings htake hfolding
  exact ⟨hcount, fun hlookup => hleaves.supplies hlookup hcount⟩

end Lines

/-- **No operand is ever missing.** In a tree that was read every symbol has the operands it stands
for, and so the tree is written. While an expression is built of it, and whenever this is
evaluated, a symbol has the operands it stands for, and its built-in meaning looks for no others. So
no evaluation ends because an operand is missing. -/
theorem compile_supplied [Host ω] {line : Text} {node : Node} (h : parse line = .ok node) :
    (∀ application ∈ node.applications,
      application.symbol.Takes application.children.length) ∧
    node.WellShaped = true ∧
    ∀ (options : Options) (lookup : HostLookup σ ω) (host : σ), ∃ expression machine,
      compile options lookup node host = (expression, machine) ∧
      node.describe? = some expression.description ∧
      (∀ folding ∈ node.foldings (resolution options lookup) ⟨host, .empty⟩,
        folding.symbol.Takes folding.operands.length ∧
        ∀ meaning, builtIn? options.logic folding.symbol = some meaning →
          ∀ numbers, EvalNode.literals? folding.operands = some numbers →
            ∀ before after : Machine σ ω, Supplied ((meaning before).1 numbers after).1) ∧
      (∀ current, ∀ reached ∈ expression.root.reached current,
        reached.symbol.Takes reached.arguments.length ∧
        ∀ meaning, builtIn? options.logic reached.symbol = some meaning →
          ∀ before after : Machine σ ω,
            Supplied ((meaning before).1 reached.arguments after).1) ∧
      (lookup.Supplied → ∀ current, Supplied (expression.run current).1) := by
  have htake := (parse_grammatical h).applications_take
  refine ⟨htake, Node.wellShaped_of_takes htake, fun options lookup host => ?_⟩
  refine ⟨_, _, rfl, Node.describe?_of_takes htake, ?folding, ?evaluation, ?outcome⟩
  case folding =>
    intro folding hfolding
    have hcount := takes_of_mem_foldings htake hfolding
    refine ⟨hcount, fun meaning hmeaning numbers hnumbers before after => ?_⟩
    rw [← EvalNode.length_of_evaluateAll (EvalNode.evaluateAll_of_literals? hnumbers before)]
      at hcount
    exact builtIn?_supplies hmeaning before numbers hcount after
  case evaluation =>
    intro current reached hreached
    obtain ⟨evaluator, operands, hcall, hlength⟩ :=
      EvalNode.exists_hasCall_of_mem_reached hreached
    have hcount := (takes_of_hasCall htake hcall).1
    rw [← hlength] at hcount
    exact ⟨hcount, fun meaning hmeaning before after =>
      builtIn?_supplies hmeaning before reached.arguments hcount after⟩
  case outcome =>
    intro hlookup current
    have hevaluate :
        Supplied ((fold (resolution options lookup) node ⟨host, .empty⟩).1.evaluate current).1 :=
      supplied_evaluate (fun _ _ _ hcall =>
        (takes_of_hasCall htake hcall).imp_right fun hsupplies => hsupplies hlookup) current
    exact hevaluate.map _

/-- A host without definitions. -/
def emptyLookup : HostLookup Unit Empty := ⟨fun _ => none, fun _ => none⟩

/-- The sum `x + x` is written, and evaluated, with both of its operands. -/
theorem compile_supplied_sum :
    ∃ expression machine,
      compile .standard emptyLookup (.apply (.infixOp (utf8 "+"))
        [.apply (.var (utf8 "x")) [], .apply (.var (utf8 "x")) []]) () = (expression, machine) ∧
      expression.description = utf8 "x + x" ∧
      ∀ current, Supplied (expression.run current).1 := by
  have hname : IsPlainName (utf8 "x") := ⟨by decide, by decide⟩
  have hread := Parser.spellsOperand_var (.inl hname)
  have hline : parse (utf8 "x + x") = .ok (.apply (.infixOp (utf8 "+"))
      [.apply (.var (utf8 "x")) [], .apply (.var (utf8 "x")) []]) := hread.parse_sum hread
  obtain ⟨-, -, hcompile⟩ := @compile_supplied Unit Empty _ _ _ hline
  obtain ⟨expression, machine, hbuilt, hdescription, -, -, hruns⟩ :=
    hcompile .standard emptyLookup ()
  refine ⟨expression, machine, hbuilt, ?_, hruns fun _ _ h => h.elim nofun nofun⟩
  exact Option.some.inj (hdescription.symm.trans (by decide +kernel))

-- a sum of one operand, which no line spells, misses the other
example : ((compile .standard emptyLookup (.apply (.infixOp (utf8 "+")) [.number .zero]) ()).1.run
    ⟨(), .empty⟩).1 = .error .missingOperand := by rfl

end DynExpr
