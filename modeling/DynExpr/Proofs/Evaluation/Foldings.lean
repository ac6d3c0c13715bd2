import DynExpr.Proofs.Evaluation.Folding

/-!
# The steps of folding

Building a tree takes one step for each application: its operands are built, its symbol is resolved,
and the call is folded, or not. `Node.foldings` lists these steps, each as a `Folding`: the symbol,
its operands as they are built, and the state in which the symbol is resolved.

* What a step works on is an application in the tree, with as many operands
  (`exists_application_of_mem_foldings`), and there is one for each (`counts_foldings`).
* What a step builds is a call, a literal, or one of its operands (`built_cases`), and
  `Folding.LeavesCall` says with which evaluator it may leave a call.
* Every call that is left in the tree was built by one of the steps (`exists_folding_of_hasCall`).

`EvalNode.calls` lists the calls in a tree. Each of them stands somewhere in the tree
(`EvalNode.exists_standsAfter_of_mem_calls`), behind trees that are evaluated first, and a failure
there is the failure of the whole evaluation (`EvalNode.StandsAfter.evaluate_eq`). The calls that
are reached are calls in the tree, with an argument for each operand
(`EvalNode.exists_hasCall_of_mem_reached`).
-/

namespace DynExpr

variable {σ ε : Type}

/-! ### Steps -/

/-- A step of building a tree: a symbol whose operands are built, and the state in which it is
resolved. -/
structure Folding (σ ε : Type) where
  symbol : Symbol
  operands : List (EvalNode σ ε)
  state : σ

/-- What the step builds. -/
def Folding.built (folding : Folding σ ε) (resolution : Resolution σ ε) : EvalNode σ ε × σ :=
  foldCall resolution folding.symbol folding.operands folding.state

/-- The evaluators with which the step may leave a call in the tree: the impure one; or the pure
one, if there is no impure one; or the failure with which the pure one ends for literal operands. -/
inductive Folding.LeavesCall (resolution : Resolution σ ε) (folding : Folding σ ε) :
    Evaluator σ ε → Prop
  | impure {evaluator : Evaluator σ ε} {t : σ}
      (himpure : resolution.impure? folding.symbol folding.state = (some evaluator, t)) :
      LeavesCall resolution folding evaluator
  | pure {t : σ} (himpure : resolution.impure? folding.symbol folding.state = (none, t)) :
      LeavesCall resolution folding (resolution.pure folding.symbol t).1
  | failing {t : σ} {numbers : List Double} {failure : ε}
      (himpure : resolution.impure? folding.symbol folding.state = (none, t))
      (hoperands : EvalNode.literals? folding.operands = some numbers)
      (hfailure : ((resolution.pure folding.symbol t).1 numbers
        (resolution.pure folding.symbol t).2).1 = .error failure) :
      LeavesCall resolution folding (.failing failure)

namespace Node

mutual
/-- The steps of building a tree, in order. -/
def foldings (resolution : Resolution σ ε) : Node → σ → List (Folding σ ε)
  | number _ => fun _ => []
  | apply symbol children => fun state =>
    let (operands, after) := foldAll resolution children state
    foldingsOfAll resolution children state ++ [⟨symbol, operands, after⟩]

/-- The steps of building the trees of a list, in order. -/
def foldingsOfAll (resolution : Resolution σ ε) : List Node → σ → List (Folding σ ε)
  | [] => fun _ => []
  | node :: rest => fun state =>
    foldings resolution node state ++
      foldingsOfAll resolution rest (fold resolution node state).2
end

end Node

section Steps

variable {resolution : Resolution σ ε} {folding : Folding σ ε}

/-- As many operands are built as there are. -/
theorem length_foldAll (nodes : List Node) (s : σ) :
    (foldAll resolution nodes s).1.length = nodes.length := by
  induction nodes generalizing s with
  | nil => rfl
  | cons node rest ih =>
    rw [foldAll]
    exact congrArg Nat.succ (ih _)

/-- Each step in a list of trees is one at an application there. -/
theorem exists_application_of_mem_foldingsOfAll {nodes : List Node}
    (h : ∀ node ∈ nodes, ∀ s, folding ∈ node.foldings resolution s →
      ∃ children, ⟨folding.symbol, children⟩ ∈ node.applications ∧
        folding.operands.length = children.length)
    {s : σ} (hmem : folding ∈ Node.foldingsOfAll resolution nodes s) :
    ∃ children, ⟨folding.symbol, children⟩ ∈ Node.applicationsOfAll nodes ∧
      folding.operands.length = children.length := by
  induction nodes generalizing s with
  | nil => exact absurd hmem List.not_mem_nil
  | cons node rest ih =>
    rw [List.forall_mem_cons] at h
    rw [Node.foldingsOfAll] at hmem
    rw [Node.applicationsOfAll]
    rcases List.mem_append.mp hmem with hmem | hmem
    · obtain ⟨children, hchildren, hlength⟩ := h.1 s hmem
      exact ⟨children, List.mem_append_left _ hchildren, hlength⟩
    · obtain ⟨children, hchildren, hlength⟩ := ih h.2 hmem
      exact ⟨children, List.mem_append_right _ hchildren, hlength⟩

/-- Each step is one at an application in the tree, which has as many operands. -/
theorem exists_application_of_mem_foldings {node : Node} {s : σ}
    (hmem : folding ∈ node.foldings resolution s) :
    ∃ children, ⟨folding.symbol, children⟩ ∈ node.applications ∧
      folding.operands.length = children.length := by
  induction node using Node.induction generalizing s with
  | number value => exact absurd hmem List.not_mem_nil
  | apply symbol children ih =>
    rw [Node.foldings] at hmem
    rw [Node.applications]
    rcases List.mem_append.mp hmem with hmem | hmem
    · obtain ⟨operands, hoperands, hlength⟩ :=
        exists_application_of_mem_foldingsOfAll (fun child hchild _ h => ih child hchild h) hmem
      exact ⟨operands, List.mem_append_left _ hoperands, hlength⟩
    · -- the step at the root has one operand for each child
      obtain rfl := List.mem_singleton.mp hmem
      exact ⟨children, List.mem_append_right _ List.mem_cons_self, length_foldAll children s⟩

/-- There is one step for each application in a list of trees. -/
theorem counts_foldingsOfAll {nodes : List Node}
    (h : ∀ node ∈ nodes, ∀ s,
      (node.foldings resolution s).map (fun folding => (folding.symbol, folding.operands.length)) =
        node.applications.map fun application => (application.symbol, application.children.length))
    (s : σ) :
    (Node.foldingsOfAll resolution nodes s).map
        (fun folding => (folding.symbol, folding.operands.length)) =
      (Node.applicationsOfAll nodes).map fun application =>
        (application.symbol, application.children.length) := by
  induction nodes generalizing s with
  | nil => rfl
  | cons node rest ih =>
    rw [List.forall_mem_cons] at h
    rw [Node.foldingsOfAll, Node.applicationsOfAll, List.map_append, List.map_append, h.1, ih h.2]

/-- There is one step for each application, with as many operands, in the same order. -/
theorem counts_foldings (node : Node) (s : σ) :
    (node.foldings resolution s).map (fun folding => (folding.symbol, folding.operands.length)) =
      node.applications.map fun application =>
        (application.symbol, application.children.length) := by
  induction node using Node.induction generalizing s with
  | number value => rfl
  | apply symbol children ih =>
    rw [Node.foldings, Node.applications, List.map_append, List.map_append]
    -- the steps of the operands, and then the one at the root
    congr 1
    · exact counts_foldingsOfAll ih s
    · rw [List.map_singleton, List.map_singleton, length_foldAll]

/-- **What a step builds**: a call with its operands, or a literal if these are literals, or what
replaces a pure call. -/
theorem built_cases (resolution : Resolution σ ε) (folding : Folding σ ε) :
    (∃ evaluator, folding.LeavesCall resolution evaluator ∧
      (folding.built resolution).1 = .call folding.symbol evaluator folding.operands) ∨
    (∃ value numbers, EvalNode.literals? folding.operands = some numbers ∧
      (folding.built resolution).1 = .literal value) ∨
    ((resolution.impure? folding.symbol folding.state).1 = none ∧
      resolution.replacement? folding.symbol folding.operands =
        some (folding.built resolution).1) := by
  unfold Folding.built foldCall
  rcases himpure : resolution.impure? folding.symbol folding.state with ⟨_ | evaluator, t⟩
  · simp only
    cases hreplacement : resolution.replacement? folding.symbol folding.operands with
    | some node => exact .inr (.inr ⟨trivial, rfl⟩)
    | none =>
      simp only
      cases hoperands : EvalNode.literals? folding.operands with
      -- an operand is left to the evaluation, and with it the call
      | none => exact .inl ⟨_, .pure himpure, rfl⟩
      | some numbers =>
        simp only
        -- now the pure evaluator is called, and its failure or its value stays
        rcases hend : (resolution.pure folding.symbol t).1 numbers
            (resolution.pure folding.symbol t).2 with ⟨failure | value, u⟩
        · exact .inl ⟨_, .failing himpure hoperands (congrArg Prod.fst hend), rfl⟩
        · exact .inr (.inl ⟨value, numbers, rfl, rfl⟩)
  · exact .inl ⟨evaluator, .impure himpure, rfl⟩

/-- Every call in operands was built by one of their steps. -/
theorem exists_folding_of_hasCall_foldAll {symbol : Symbol} {evaluator : Evaluator σ ε}
    {operands : List (EvalNode σ ε)} {nodes : List Node}
    (h : ∀ node ∈ nodes, ∀ s, (fold resolution node s).1.HasCall symbol evaluator operands →
      ∃ folding ∈ node.foldings resolution s, folding.symbol = symbol ∧
        folding.operands = operands ∧ folding.LeavesCall resolution evaluator ∧
        (folding.built resolution).1 = .call symbol evaluator operands)
    {s : σ} {tree : EvalNode σ ε} (hmem : tree ∈ (foldAll resolution nodes s).1)
    (hcall : tree.HasCall symbol evaluator operands) :
    ∃ folding ∈ Node.foldingsOfAll resolution nodes s, folding.symbol = symbol ∧
      folding.operands = operands ∧ folding.LeavesCall resolution evaluator ∧
      (folding.built resolution).1 = .call symbol evaluator operands := by
  induction nodes generalizing s with
  | nil => exact absurd hmem List.not_mem_nil
  | cons node rest ih =>
    rw [List.forall_mem_cons] at h
    rw [foldAll] at hmem
    rw [Node.foldingsOfAll]
    rcases List.mem_cons.mp hmem with rfl | hmem
    · obtain ⟨folding, hfolding, hbuilt⟩ := h.1 s hcall
      exact ⟨folding, List.mem_append_left _ hfolding, hbuilt⟩
    · obtain ⟨folding, hfolding, hbuilt⟩ := ih h.2 hmem
      exact ⟨folding, List.mem_append_right _ hfolding, hbuilt⟩

/-- **Every call in a tree was built by one of the steps.** -/
theorem exists_folding_of_hasCall (h : ∀ symbol children node,
      resolution.replacement? symbol children = some node → node ∈ children)
    {symbol : Symbol} {evaluator : Evaluator σ ε} {operands : List (EvalNode σ ε)} {node : Node}
    {s : σ} (hcall : (fold resolution node s).1.HasCall symbol evaluator operands) :
    ∃ folding ∈ node.foldings resolution s, folding.symbol = symbol ∧
      folding.operands = operands ∧ folding.LeavesCall resolution evaluator ∧
      (folding.built resolution).1 = .call symbol evaluator operands := by
  induction node using Node.induction generalizing s with
  | number value => cases hcall
  | apply other children ih =>
    -- the step at the root comes after those in the operands
    obtain ⟨last, hlast⟩ : ∃ last : Folding σ ε,
        last = ⟨other, (foldAll resolution children s).1, (foldAll resolution children s).2⟩ :=
      ⟨_, rfl⟩
    have hroot : (fold resolution (.apply other children) s).1 = (last.built resolution).1 := by
      rw [hlast]
      rfl
    have hfoldings : (Node.apply other children).foldings resolution s =
        Node.foldingsOfAll resolution children s ++ [last] := by
      rw [hlast]
      rfl
    rw [hfoldings]
    rw [hroot] at hcall
    -- a call in an operand was built with the operand
    have hinside : ∀ tree ∈ last.operands, tree.HasCall symbol evaluator operands →
        ∃ folding ∈ Node.foldingsOfAll resolution children s ++ [last],
          folding.symbol = symbol ∧ folding.operands = operands ∧
          folding.LeavesCall resolution evaluator ∧
          (folding.built resolution).1 = .call symbol evaluator operands := by
      intro tree hmem hcall
      rw [hlast] at hmem
      obtain ⟨folding, hfolding, hbuilt⟩ :=
        exists_folding_of_hasCall_foldAll (fun child hchild _ h => ih child hchild h) hmem hcall
      exact ⟨folding, List.mem_append_left _ hfolding, hbuilt⟩
    rcases built_cases resolution last with
      ⟨f, hleaves, hbuilt⟩ | ⟨value, numbers, -, hbuilt⟩ | ⟨-, hbuilt⟩
    · rw [hbuilt] at hcall
      cases hcall with
      | here =>
        exact ⟨last, List.mem_append_right _ List.mem_cons_self, rfl, rfl, hleaves, hbuilt⟩
      | inside hmem hcall => exact hinside _ hmem hcall
    · rw [hbuilt] at hcall
      cases hcall
    · exact hinside _ (h _ _ _ hbuilt) hcall

end Steps

/-! ### Calls in a tree, and where they stand -/

namespace EvalNode

/-- The node itself, if it is a call. -/
def call? : EvalNode σ ε → Option (EvalNode σ ε)
  | literal _ => none
  | call symbol evaluator children => some (call symbol evaluator children)

mutual
/-- The calls in a tree. Those in the operands come first, from left to right. -/
def calls : EvalNode σ ε → List (EvalNode σ ε)
  | literal _ => []
  | call symbol evaluator children => callsOfAll children ++ [call symbol evaluator children]

/-- The calls in the trees of a list. -/
def callsOfAll : List (EvalNode σ ε) → List (EvalNode σ ε)
  | [] => []
  | node :: rest => node.calls ++ callsOfAll rest
end

/-- The calls in a list are those in its trees, one tree after the other. -/
theorem callsOfAll_eq_flatten (nodes : List (EvalNode σ ε)) :
    callsOfAll nodes = (nodes.map calls).flatten := by
  induction nodes with
  | nil => rfl
  | cons node rest ih => rw [callsOfAll, ih, List.map_cons, List.flatten_cons]

/-- There is no call in a list of literals. -/
theorem callsOfAll_of_literals? {nodes : List (EvalNode σ ε)} {numbers : List Double}
    (h : literals? nodes = some numbers) : callsOfAll nodes = [] := by
  induction nodes generalizing numbers with
  | nil => rfl
  | cons node rest ih =>
    unfold literals? at h
    cases node with
    | call symbol evaluator children => cases h
    | literal value =>
      cases hrest : literals? rest with
      | none =>
        rw [hrest] at h
        cases h
      | some values => exact ih hrest

/-- A node stands in a tree, and an evaluation of the tree evaluates these trees in front of it. -/
inductive StandsAfter (node : EvalNode σ ε) : List (EvalNode σ ε) → EvalNode σ ε → Prop
  | root : StandsAfter node [] node
  | operand {symbol : Symbol} {evaluator : Evaluator σ ε}
      {earlier before after : List (EvalNode σ ε)} {child : EvalNode σ ε}
      (h : StandsAfter node earlier child) :
      StandsAfter node (before ++ earlier) (.call symbol evaluator (before ++ child :: after))

/-- Nothing is evaluated in front of the first operand. -/
theorem StandsAfter.first {node child : EvalNode σ ε} {symbol : Symbol}
    {evaluator : Evaluator σ ε} {earlier after : List (EvalNode σ ε)}
    (h : node.StandsAfter earlier child) :
    node.StandsAfter earlier (.call symbol evaluator (child :: after)) := by
  have hplace : node.StandsAfter ([] ++ earlier) (.call symbol evaluator ([] ++ child :: after)) :=
    .operand h
  exact hplace

/-- **Every call in a tree stands somewhere in it.** -/
theorem exists_standsAfter_of_mem_calls {node root : EvalNode σ ε} (h : node ∈ root.calls) :
    ∃ earlier, node.StandsAfter earlier root := by
  induction root using EvalNode.induction with
  | literal value => cases h
  | call symbol evaluator children ih =>
    rw [calls, callsOfAll_eq_flatten] at h
    rcases List.mem_append.mp h with h | h
    · obtain ⟨_, hcalls, hnode⟩ := List.mem_flatten.mp h
      obtain ⟨child, hchild, rfl⟩ := List.mem_map.mp hcalls
      -- the operands in front of this one are evaluated before the node is come to
      obtain ⟨earlier, hstands⟩ := ih child hchild hnode
      obtain ⟨before, after, rfl⟩ := List.append_of_mem hchild
      exact ⟨before ++ earlier, .operand hstands⟩
    · obtain rfl := List.mem_singleton.mp h
      exact ⟨[], .root⟩

/-- Behind a failure nothing is evaluated. -/
theorem evaluateAll_append_of_error {nodes : List (EvalNode σ ε)} {s t : σ} {failure : ε}
    (h : evaluateAll nodes s = (.error failure, t)) (others : List (EvalNode σ ε)) :
    evaluateAll (nodes ++ others) s = (.error failure, t) := by
  induction nodes generalizing s with
  | nil => cases h
  | cons node rest ih =>
    rw [List.cons_append]
    rcases hnode : node.evaluate s with ⟨other | value, s'⟩
    · rw [evaluateAll_cons_of_error hnode] at h
      rw [evaluateAll_cons_of_error hnode, h]
    · rcases hrest : evaluateAll rest s' with ⟨other | values, s''⟩
      · rw [evaluateAll_cons_of_ok_error hnode hrest] at h
        cases h
        exact evaluateAll_cons_of_ok_error hnode (ih hrest)
      · rw [evaluateAll_cons_of_ok hnode hrest] at h
        cases h

/-- Behind trees that end in numbers, the others are evaluated as they are alone. -/
theorem evaluateAll_append_of_ok {nodes : List (EvalNode σ ε)} {s t : σ} {values : List Double}
    (h : evaluateAll nodes s = (.ok values, t)) (others : List (EvalNode σ ε)) :
    evaluateAll (nodes ++ others) s =
      ((evaluateAll others t).1.map (values ++ ·), (evaluateAll others t).2) := by
  -- none of the trees in front fails, so the induction passes them one by one
  induction nodes generalizing s values with
  | nil =>
    cases h
    rw [List.nil_append]
    rcases evaluateAll others t with ⟨failure | more, u⟩ <;> rfl
  | cons node rest ih =>
    rw [List.cons_append]
    rcases hnode : node.evaluate s with ⟨other | value, s'⟩
    · rw [evaluateAll_cons_of_error hnode] at h
      cases h
    · rcases hrest : evaluateAll rest s' with ⟨other | more, s''⟩
      · rw [evaluateAll_cons_of_ok_error hnode hrest] at h
        cases h
      · rw [evaluateAll_cons_of_ok hnode hrest] at h
        cases h
        have hall := ih hrest
        rcases hothers : evaluateAll others t with ⟨failure | last, u⟩
        · rw [hothers] at hall
          exact evaluateAll_cons_of_ok_error hnode hall
        · rw [hothers] at hall
          exact evaluateAll_cons_of_ok hnode hall

/-- **What fails in a tree ends its evaluation**: if one of the trees in front of a node fails, or
the node behind them, so does the whole tree. -/
theorem StandsAfter.evaluate_eq {node root : EvalNode σ ε} {earlier : List (EvalNode σ ε)} {s t : σ}
    {failure : ε} (h : node.StandsAfter earlier root)
    (hfails : evaluateAll (earlier ++ [node]) s = (.error failure, t)) :
    root.evaluate s = (.error failure, t) := by
  induction h generalizing s with
  | root =>
    rcases hnode : node.evaluate s with ⟨other | value, u⟩
    · rw [List.nil_append, evaluateAll_cons_of_error hnode] at hfails
      cases hfails
      rfl
    · rw [List.nil_append, evaluateAll_cons_of_ok hnode rfl] at hfails
      cases hfails
  | @operand symbol evaluator earlier before after child h ih =>
    refine evaluate_call_of_error ?_
    rw [List.append_assoc] at hfails
    rcases hbefore : evaluateAll before s with ⟨other | values, u⟩
    · -- an operand in front of the child fails, here and there
      rw [evaluateAll_append_of_error hbefore] at hfails
      cases hfails
      exact evaluateAll_append_of_error hbefore _
    · -- the child is come to, and so it is the child that fails
      rw [evaluateAll_append_of_ok hbefore] at hfails
      rcases hrest : evaluateAll (earlier ++ [node]) u with ⟨other | more, w⟩
      · rw [hrest] at hfails
        cases hfails
        rw [evaluateAll_append_of_ok hbefore, evaluateAll_cons_of_error (ih hrest)]
        rfl
      · rw [hrest] at hfails
        cases hfails

/-! ### Numbers of operands -/

/-- There is a number for each tree of a list. -/
theorem length_of_evaluateAll {nodes : List (EvalNode σ ε)} {s t : σ} {values : List Double}
    (h : evaluateAll nodes s = (.ok values, t)) : values.length = nodes.length := by
  induction nodes generalizing s values with
  | nil =>
    cases h
    rfl
  | cons node rest ih =>
    rcases hnode : node.evaluate s with ⟨failure | value, s'⟩
    · rw [evaluateAll_cons_of_error hnode] at h
      cases h
    · rcases hrest : evaluateAll rest s' with ⟨failure | others, s''⟩
      · rw [evaluateAll_cons_of_ok_error hnode hrest] at h
        cases h
      · rw [evaluateAll_cons_of_ok hnode hrest] at h
        cases h
        exact congrArg Nat.succ (ih hrest)

/-- What is reached in a list of trees is a call in one of them. -/
theorem exists_hasCall_of_mem_reachedInAll {nodes : List (EvalNode σ ε)} {reached : Reached σ}
    (h : ∀ node ∈ nodes, ∀ s, reached ∈ node.reached s → ∃ evaluator operands,
      node.HasCall reached.symbol evaluator operands ∧ reached.arguments.length = operands.length)
    {s : σ} (hmem : reached ∈ reachedInAll nodes s) :
    ∃ node ∈ nodes, ∃ evaluator operands, node.HasCall reached.symbol evaluator operands ∧
      reached.arguments.length = operands.length := by
  induction nodes generalizing s with
  | nil => exact absurd hmem List.not_mem_nil
  | cons node rest ih =>
    rw [List.forall_mem_cons] at h
    rw [List.exists_mem_cons_iff]
    unfold reachedInAll at hmem
    -- the others are come to only if the first tree ends in a number
    rcases hnode : node.evaluate s with ⟨failure | value, t⟩
    · rw [hnode] at hmem
      exact .inl (h.1 s hmem)
    · rw [hnode] at hmem
      rcases List.mem_append.mp hmem with hmem | hmem
      · exact .inl (h.1 s hmem)
      · exact .inr (ih h.2 hmem)

/-- **What is reached is a call in the tree**, with an argument for each of its operands. -/
theorem exists_hasCall_of_mem_reached {node : EvalNode σ ε} {s : σ} {reached : Reached σ}
    (hmem : reached ∈ node.reached s) : ∃ evaluator operands,
      node.HasCall reached.symbol evaluator operands ∧
      reached.arguments.length = operands.length := by
  induction node using EvalNode.induction generalizing s with
  | literal value => exact absurd hmem List.not_mem_nil
  | call symbol evaluator children ih =>
    -- what is reached in an operand is a call in the operand
    have hinside (hmem : reached ∈ reachedInAll children s) : ∃ f operands,
        (call symbol evaluator children).HasCall reached.symbol f operands ∧
        reached.arguments.length = operands.length := by
      obtain ⟨child, hchild, f, operands, hcall, hlength⟩ :=
        exists_hasCall_of_mem_reachedInAll (fun child hchild _ h => ih child hchild h) hmem
      exact ⟨f, operands, .inside hchild hcall, hlength⟩
    unfold EvalNode.reached at hmem
    rcases hoperands : evaluateAll children s with ⟨failure | arguments, t⟩
    · rw [hoperands] at hmem
      exact hinside hmem
    · rw [hoperands] at hmem
      rcases List.mem_append.mp hmem with hmem | hmem
      · exact hinside hmem
      · -- the call at the root is reached last, if its operands are numbers
        obtain rfl := List.mem_singleton.mp hmem
        exact ⟨evaluator, children, .here, length_of_evaluateAll hoperands⟩

end EvalNode

end DynExpr
