import DynExpr.Proofs.Evaluation.Foldings
import DynExpr.Proofs.Expression.Evaluators
import DynExpr.Proofs.Node.Shape

/-!
# The steps that are kept

Each step of building an expression builds a node of its own, but not all of these nodes are left
in the end. `??` with a literal on its left is replaced by one of its operands, and the steps of the
other operand are lost. Nothing else is: `Node.keptFoldings` lists the steps without those that `??`
drops (`keptFoldings_sublist`), which are all of them where there is no `??`
(`keptFoldings_eq_foldings`). The calls in the tree are those that the kept steps have built, each
as often and in the order in which they were built (`calls_fold`). The reason is that an application
is computed in advance only if all of its operands are literals, and then there was no call in them.

So a call that a kept step builds stands in the compiled tree (`exists_standsAfter_of_mem_kept`).
`Expression.FailsAfter` says that every run evaluates some trees and ends with a failure then. It
holds as soon as a call that fails stands in the tree, with the trees in front of the call and its
operands (`EvalNode.StandsAfter.failsAfter`).
-/

namespace DynExpr

variable {σ ω ε : Type}

/-! ### Steps that `??` does not drop -/

section Kept

variable [Host ω]

/-- The operand that takes the place of `??`: the left one if it is a literal other than nil, and
the right one if it is the literal nil. The operator stays if it is called at every evaluation, and
if the host defines it. -/
def placedOperand? (options : Options) (lookup : HostLookup σ ω) (symbol : Symbol)
    (operands : List (EvalNode (Machine σ ω) (Failure ω))) : Option Nat :=
  match operands with
  | [left, _] =>
    if symbol = .coalesce ∧ (impureMeaning? options lookup symbol).isNone ∧
        (lookup.pure? symbol).isNone then
      left.literal?.map fun value => if value = Channel.nil then 1 else 0
    else none
  | _ => none

namespace Node

mutual
/-- The steps of building a tree without those that `??` drops. An operand that takes the place of
`??` comes with its own steps, and with no others. -/
def keptFoldings (options : Options) (lookup : HostLookup σ ω) :
    Node → Machine σ ω → List (Folding (Machine σ ω) (Failure ω))
  | number _ => fun _ => []
  | apply symbol children => fun machine =>
    let (operands, after) := foldAll (resolution options lookup) children machine
    let steps := keptFoldingsOfEach options lookup children machine
    match placedOperand? options lookup symbol operands with
    | some place => steps.getD place []
    | none => steps.flatten ++ [⟨symbol, operands, after⟩]

/-- The kept steps of each tree of a list. -/
def keptFoldingsOfEach (options : Options) (lookup : HostLookup σ ω) :
    List Node → Machine σ ω → List (List (Folding (Machine σ ω) (Failure ω)))
  | [] => fun _ => []
  | node :: rest => fun machine =>
    keptFoldings options lookup node machine ::
      keptFoldingsOfEach options lookup rest (fold (resolution options lookup) node machine).2
end

end Node

variable {options : Options} {lookup : HostLookup σ ω} {symbol : Symbol}
  {operands : List (EvalNode (Machine σ ω) (Failure ω))}
  {folding : Folding (Machine σ ω) (Failure ω)} {node : Node} {machine : Machine σ ω}

/-- An operand takes the place of `??` if this is resolved as pure, and replaced. -/
theorem placedOperand?_eq_some {place : Nat}
    (h : placedOperand? options lookup symbol operands = some place) :
    impureMeaning? options lookup symbol = none ∧ ∃ value right,
      operands = [.literal value, right] ∧ place = (if value = Channel.nil then 1 else 0) ∧
      coalescingReplacement? lookup symbol operands =
        some (if value = Channel.nil then right else .literal value) := by
  unfold placedOperand? at h
  split at h
  · next left right =>
    obtain ⟨⟨hsymbol, himpure, hpure⟩, h⟩ := Option.ite_none_right_eq_some.mp h
    obtain ⟨value, hleft, hplace⟩ := Option.map_eq_some_iff.mp h
    cases left with
    -- the left operand is a literal, as its number is asked for
    | call symbol evaluator children => cases hleft
    | literal value =>
      cases hleft
      refine ⟨Option.isNone_iff_eq_none.mp himpure, _, right, rfl, hplace.symm, ?_⟩
      rw [coalescingReplacement?, if_pos ⟨hsymbol, hpure⟩]
      rfl
  · cases h

/-- Where a pure call is replaced, an operand takes its place. -/
theorem placedOperand?_ne_none {tree : EvalNode (Machine σ ω) (Failure ω)}
    (himpure : impureMeaning? options lookup symbol = none)
    (h : coalescingReplacement? lookup symbol operands = some tree) :
    placedOperand? options lookup symbol operands ≠ none := by
  obtain ⟨hsymbol, hpure, value, right, rfl, -⟩ := coalescingReplacement?_eq_some h
  rw [placedOperand?, if_pos ⟨hsymbol, Option.isNone_iff_eq_none.mpr himpure,
    Option.isNone_iff_eq_none.mpr hpure⟩]
  exact Option.some_ne_none _

/-- A symbol that is resolved as pure has no impure meaning. -/
theorem resolution_impure?_fst (symbol : Symbol) (machine : Machine σ ω)
    (h : ((resolution options lookup).impure? symbol machine).1 = none) :
    impureMeaning? options lookup symbol = none := by
  cases hmeaning : impureMeaning? options lookup symbol with
  | none => rfl
  | some meaning =>
    rw [resolution_impure?_of_some hmeaning] at h
    cases h

/-- Where no operand takes its place, a step builds a call with its operands, or a literal of
literals. -/
theorem built_of_placedOperand?_none
    (h : placedOperand? options lookup folding.symbol folding.operands = none) :
    (∃ evaluator, (folding.built (resolution options lookup)).1 =
        .call folding.symbol evaluator folding.operands) ∨
    ∃ value numbers, EvalNode.literals? folding.operands = some numbers ∧
      (folding.built (resolution options lookup)).1 = .literal value := by
  rcases built_cases (resolution options lookup) folding with
    ⟨evaluator, -, hbuilt⟩ | hliteral | ⟨himpure, hreplaced⟩
  · exact .inl ⟨evaluator, hbuilt⟩
  · exact .inr hliteral
  · -- a replacement would have been an operand in this place
    exact absurd h (placedOperand?_ne_none (resolution_impure?_fst _ _ himpure) hreplaced)

/-- Where an operand takes its place, the step builds nothing else. -/
theorem built_of_placedOperand? {place : Nat}
    (h : placedOperand? options lookup folding.symbol folding.operands = some place) :
    folding.operands[place]? = some (folding.built (resolution options lookup)).1 := by
  obtain ⟨himpure, value, right, hoperands, rfl, hreplaced⟩ := placedOperand?_eq_some h
  have hbuilt : (folding.built (resolution options lookup)).1 =
      if value = Channel.nil then right else .literal value := by
    unfold Folding.built foldCall
    have hreplaced' :
        (resolution options lookup).replacement? folding.symbol folding.operands = _ := hreplaced
    simp only [resolution_impure?_of_none himpure folding.state, hreplaced']
  rw [hbuilt, hoperands]
  -- nil counts for one place, and so does the right operand
  split <;> rfl

/-- The kept steps of operands are among all their steps. -/
theorem keptFoldingsOfEach_sublist {nodes : List Node}
    (h : ∀ node ∈ nodes, ∀ machine, (node.keptFoldings options lookup machine).Sublist
      (node.foldings (resolution options lookup) machine)) (machine : Machine σ ω) :
    (Node.keptFoldingsOfEach options lookup nodes machine).flatten.Sublist
      (Node.foldingsOfAll (resolution options lookup) nodes machine) := by
  induction nodes generalizing machine with
  | nil => exact List.Sublist.slnil
  | cons node rest ih =>
    rw [List.forall_mem_cons] at h
    rw [Node.keptFoldingsOfEach, Node.foldingsOfAll, List.flatten_cons]
    exact (h.1 machine).append (ih h.2 _)

/-- The kept steps are steps of building the tree, in the same order. -/
theorem keptFoldings_sublist (node : Node) (machine : Machine σ ω) :
    (node.keptFoldings options lookup machine).Sublist
      (node.foldings (resolution options lookup) machine) := by
  induction node using Node.induction generalizing machine with
  | number value => exact List.Sublist.slnil
  | apply symbol children ih =>
    have hsteps := keptFoldingsOfEach_sublist ih machine
    rw [Node.keptFoldings, Node.foldings]
    dsimp only
    split
    · -- of all the operands' steps one operand's are kept, and the step at the root is dropped
      next place hplace =>
      refine List.Sublist.trans ?_ (hsteps.trans (List.sublist_append_left _ _))
      rw [List.getD_eq_getElem?_getD]
      cases hstep : (Node.keptFoldingsOfEach options lookup children machine)[place]? with
      | none => exact List.nil_sublist _
      | some step => exact List.sublist_flatten_of_mem (List.mem_of_getElem? hstep)
    · exact hsteps.append (List.Sublist.refl _)

/-- Nothing takes the place of any other operator. -/
theorem placedOperand?_eq_none (h : symbol ≠ .coalesce) :
    placedOperand? options lookup symbol operands = none := by
  cases hplace : placedOperand? options lookup symbol operands with
  | none => rfl
  | some place =>
    obtain ⟨-, value, right, -, -, hreplaced⟩ := placedOperand?_eq_some hplace
    exact absurd (coalescingReplacement?_eq_some hreplaced).1 h

/-- Operands that keep all their steps keep them in order. -/
theorem flatten_keptFoldingsOfEach {nodes : List Node}
    (h : ∀ node ∈ nodes, ∀ machine, node.keptFoldings options lookup machine =
      node.foldings (resolution options lookup) machine) (machine : Machine σ ω) :
    (Node.keptFoldingsOfEach options lookup nodes machine).flatten =
      Node.foldingsOfAll (resolution options lookup) nodes machine := by
  induction nodes generalizing machine with
  | nil => rfl
  | cons node rest ih =>
    rw [List.forall_mem_cons] at h
    rw [Node.keptFoldingsOfEach, Node.foldingsOfAll, List.flatten_cons, h.1, ih h.2]

/-- **Nothing but `??` drops steps.** -/
theorem keptFoldings_eq_foldings
    (h : ∀ application ∈ node.applications, application.symbol ≠ .coalesce)
    (machine : Machine σ ω) :
    node.keptFoldings options lookup machine =
      node.foldings (resolution options lookup) machine := by
  induction node using Node.induction generalizing machine with
  | number value => rfl
  | apply symbol children ih =>
    obtain ⟨hsymbol, hchildren⟩ := Node.forall_applications_apply.mp h
    have hsteps := flatten_keptFoldingsOfEach
      (fun child hchild => ih child hchild (hchildren child hchild)) machine
    rw [Node.keptFoldings, Node.foldings]
    dsimp only
    rw [placedOperand?_eq_none hsymbol, hsteps]

/-- The call that a step builds, if it builds one. -/
def Folding.call? (options : Options) (lookup : HostLookup σ ω)
    (folding : Folding (Machine σ ω) (Failure ω)) : Option (EvalNode (Machine σ ω) (Failure ω)) :=
  (folding.built (resolution options lookup)).1.call?

/-- The calls in the built operands are those of their kept steps. -/
theorem map_calls_foldAll {nodes : List Node}
    (h : ∀ node ∈ nodes, ∀ machine, (fold (resolution options lookup) node machine).1.calls =
      (node.keptFoldings options lookup machine).filterMap (Folding.call? options lookup))
    (machine : Machine σ ω) :
    (foldAll (resolution options lookup) nodes machine).1.map EvalNode.calls =
      (Node.keptFoldingsOfEach options lookup nodes machine).map
        (List.filterMap (Folding.call? options lookup)) := by
  induction nodes generalizing machine with
  | nil => rfl
  | cons node rest ih =>
    rw [List.forall_mem_cons] at h
    rw [foldAll, Node.keptFoldingsOfEach, List.map_cons, List.map_cons, ← h.1, ← ih h.2]

/-- What a step builds has the calls of its operands, or of the one that takes its place, and
behind them its own. -/
theorem calls_built {steps : List (List (Folding (Machine σ ω) (Failure ω)))}
    (hoperands : folding.operands.map EvalNode.calls =
      steps.map (List.filterMap (Folding.call? options lookup))) :
    (folding.built (resolution options lookup)).1.calls =
      (match placedOperand? options lookup folding.symbol folding.operands with
        | some place => steps.getD place []
        | none => steps.flatten ++ [folding]).filterMap (Folding.call? options lookup) := by
  cases hplace : placedOperand? options lookup folding.symbol folding.operands with
  | some place =>
    -- what is built is the operand at this place, and the kept steps are those at this place
    have hcalls := congrArg (·[place]?) hoperands
    simp only [List.getElem?_map, built_of_placedOperand? hplace, Option.map_some] at hcalls
    obtain ⟨step, hstep, hcalls⟩ := Option.map_eq_some_iff.mp hcalls.symm
    have hkept : steps.getD place [] = step := by
      rw [List.getD_eq_getElem?_getD, hstep, Option.getD_some]
    dsimp only
    rw [hkept, hcalls]
  | none =>
    -- the calls of all operands come from all their steps
    have hinside : EvalNode.callsOfAll folding.operands =
        steps.flatten.filterMap (Folding.call? options lookup) := by
      rw [EvalNode.callsOfAll_eq_flatten, hoperands, List.filterMap_flatten]
    dsimp only
    rw [List.filterMap_append, ← hinside]
    rcases built_of_placedOperand?_none hplace with
      ⟨evaluator, hbuilt⟩ | ⟨value, numbers, hliterals, hbuilt⟩
    · have hlast : [folding].filterMap (Folding.call? options lookup) =
          [.call folding.symbol evaluator folding.operands] := by
        rw [List.filterMap_cons, Folding.call?, hbuilt]
        rfl
      rw [hbuilt, hlast, EvalNode.calls]
    · -- literals have no calls in them, and no call is left
      have hlast : [folding].filterMap (Folding.call? options lookup) = [] := by
        rw [List.filterMap_cons, Folding.call?, hbuilt]
        rfl
      rw [hbuilt, hlast, EvalNode.callsOfAll_of_literals? hliterals]
      rfl

/-- **The calls in a tree are those that the kept steps have built**, in the same order. -/
theorem calls_fold (node : Node) (machine : Machine σ ω) :
    (fold (resolution options lookup) node machine).1.calls =
      (node.keptFoldings options lookup machine).filterMap (Folding.call? options lookup) := by
  induction node using Node.induction generalizing machine with
  | number value => rfl
  | apply symbol children ih =>
    have hoperands := map_calls_foldAll ih machine
    rw [Node.keptFoldings]
    exact @calls_built _ _ _ options lookup ⟨symbol, _, _⟩ _ hoperands

-- `0 ?? x` is compiled to `0`, and the step at `x` is dropped with its operand
example : (Node.apply .coalesce [.number .zero, .apply (.var (utf8 "x")) []]).keptFoldings .standard
    (⟨fun _ => none, fun _ => none⟩ : HostLookup Unit ω) ⟨(), .empty⟩ = [] := by rfl

/-- A call that a kept step builds stands in the tree. -/
theorem exists_standsAfter_of_mem_kept {call : EvalNode (Machine σ ω) (Failure ω)}
    (hmem : folding ∈ node.keptFoldings options lookup machine)
    (hcall : folding.call? options lookup = some call) :
    ∃ earlier, call.StandsAfter earlier (fold (resolution options lookup) node machine).1 := by
  refine EvalNode.exists_standsAfter_of_mem_calls ?_
  rw [calls_fold]
  exact List.mem_filterMap.mpr ⟨folding, hmem, hcall⟩

end Kept

/-! ### Runs that fail -/

/-- The failure of the operands, or else the one that is remembered. -/
def firstFailure (failure : ε) : Except ε (List Double) → ε
  | .ok _ => failure
  | .error other => other

/-- Every run evaluates these trees, in order, and ends with the failure then, or with the first one
of the trees. The host is left as it is after the trees. -/
def Expression.FailsAfter (expression : Expression σ ω)
    (trees : List (EvalNode (Machine σ ω) (Failure ω))) (failure : Failure ω) : Prop :=
  ∀ current,
    (expression.run current).1 =
      .error (firstFailure failure (EvalNode.evaluateAll trees current).1) ∧
    (expression.run current).2.host = (EvalNode.evaluateAll trees current).2.host

namespace EvalNode

/-- A call of the failing evaluator fails with its operands or, behind them, with its own failure.
-/
theorem evaluate_failing (symbol : Symbol) (failure : ε) (operands : List (EvalNode σ ε))
    (s : σ) : (EvalNode.call symbol (.failing failure) operands).evaluate s =
      (.error (firstFailure failure (evaluateAll operands s).1), (evaluateAll operands s).2) := by
  rcases hoperands : evaluateAll operands s with ⟨other | numbers, after⟩
  · exact evaluate_call_of_error hoperands
  · exact evaluate_call_of_ok hoperands

/-- A call that fails, behind other trees, fails when these and its operands are evaluated. -/
theorem evaluateAll_append_failing (symbol : Symbol) (failure : ε)
    (earlier operands : List (EvalNode σ ε)) (s : σ) :
    evaluateAll (earlier ++ [.call symbol (.failing failure) operands]) s =
      (.error (firstFailure failure (evaluateAll (earlier ++ operands) s).1),
        (evaluateAll (earlier ++ operands) s).2) := by
  rcases hearlier : evaluateAll earlier s with ⟨other | values, t⟩
  · rw [evaluateAll_append_of_error hearlier, evaluateAll_append_of_error hearlier]
    rfl
  · -- the call is come to, so its own operands are next
    have hcall : evaluateAll [.call symbol (.failing failure) operands] t = _ :=
      evaluateAll_cons_of_error (evaluate_failing symbol failure operands t)
    rw [evaluateAll_append_of_ok hearlier, evaluateAll_append_of_ok hearlier, hcall]
    rcases evaluateAll operands t with ⟨other | numbers, u⟩ <;> rfl

/-- **Where a call that fails stands in an expression, every run fails.** -/
theorem StandsAfter.failsAfter {expression : Expression σ ω} {symbol : Symbol}
    {failure : Failure ω} {earlier operands : List (EvalNode (Machine σ ω) (Failure ω))}
    (h : (EvalNode.call symbol (.failing failure) operands).StandsAfter earlier expression.root) :
    expression.FailsAfter (earlier ++ operands) failure := by
  intro current
  unfold Expression.run
  rw [h.evaluate_eq (evaluateAll_append_failing symbol failure earlier operands current)]
  exact ⟨rfl, rfl⟩

/-- A run that comes to a node fails as the node does. -/
theorem StandsAfter.run_eq {expression : Expression σ ω}
    {node : EvalNode (Machine σ ω) (Failure ω)} {failure : Failure ω}
    {earlier : List (EvalNode (Machine σ ω) (Failure ω))} {current s : Machine σ ω}
    {values : List Double} (h : node.StandsAfter earlier expression.root)
    (hearlier : evaluateAll earlier current = (.ok values, s))
    (hnode : (node.evaluate s).1 = .error failure) :
    (expression.run current).1 = .error failure := by
  -- the trees in front end in numbers, so the failure is that of the node
  have hfails : evaluateAll (earlier ++ [node]) current =
      (.error failure, (node.evaluate s).2) := by
    rw [evaluateAll_append_of_ok hearlier, evaluateAll_cons_of_error (Prod.ext hnode rfl)]
    rfl
  unfold Expression.run
  rw [h.evaluate_eq hfails]
  rfl

end EvalNode

end DynExpr
