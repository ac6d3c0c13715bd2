import DynExpr.Evaluation
import Mathlib.Order.Basic

/-!
# From evaluators to trees

What all evaluators of a tree do to the state, its evaluation does. A *view* of the state is what
is looked at, and an evaluator may relate to it in two ways.

* `Evaluator.Grows`: the view never becomes smaller. Then no evaluation makes it smaller
  (`EvalNode.evaluate_grows`), be it successful or not.
* `Evaluator.DependsOn`: the result, and the view afterwards, depend on the view alone. Then so
  do those of an evaluation (`EvalNode.evaluate_dependsOn`).

`EvalNode.Everywhere P` says that all evaluators of a tree have the property `P`. The tree that
`fold` builds has it as soon as every resolution has it (`fold_everywhere`), and building a tree
does not make the view smaller either (`fold_grows`).

Both kinds of trees have operands in lists, so `Node.induction` and `EvalNode.induction` provide
the hypothesis for each member of the list.
-/

namespace DynExpr

variable {σ ε τ : Type}

/-! ### Induction -/

/-- Induction over expression trees, with the hypothesis for every operand. -/
theorem Node.induction {motive : Node → Prop} (number : ∀ value, motive (.number value))
    (apply : ∀ symbol children, (∀ child ∈ children, motive child) →
      motive (.apply symbol children)) (node : Node) : motive node :=
  @Node.rec motive (fun children => ∀ child ∈ children, motive child) number apply
    (fun _ h => absurd h List.not_mem_nil)
    (fun _ _ hhead htail => List.forall_mem_cons.mpr ⟨hhead, htail⟩) node

namespace EvalNode

/-- Induction over evaluation trees, with the hypothesis for every operand. -/
theorem induction {motive : EvalNode σ ε → Prop} (literal : ∀ value, motive (.literal value))
    (call : ∀ symbol evaluator children, (∀ child ∈ children, motive child) →
      motive (.call symbol evaluator children)) (node : EvalNode σ ε) : motive node :=
  @EvalNode.rec σ ε motive (fun children => ∀ child ∈ children, motive child) literal call
    (fun _ h => absurd h List.not_mem_nil)
    (fun _ _ hhead htail => List.forall_mem_cons.mpr ⟨hhead, htail⟩) node

/-! ### Equations of evaluation -/

section Equations

variable {symbol : Symbol} {evaluator : Evaluator σ ε} {node : EvalNode σ ε}
  {nodes : List (EvalNode σ ε)} {s t u : σ} {failure : ε} {value : Double} {values : List Double}

/-- A call whose operands end in numbers hands them to its evaluator. -/
theorem evaluate_call_of_ok (h : evaluateAll nodes s = (.ok values, t)) :
    (call symbol evaluator nodes).evaluate s = evaluator values t := by
  simp only [evaluate, h]

/-- A call fails with its operands. -/
theorem evaluate_call_of_error (h : evaluateAll nodes s = (.error failure, t)) :
    (call symbol evaluator nodes).evaluate s = (.error failure, t) := by
  simp only [evaluate, h]

/-- A first tree that fails ends the list. -/
theorem evaluateAll_cons_of_error (h : node.evaluate s = (.error failure, t)) :
    evaluateAll (node :: nodes) s = (.error failure, t) := by
  simp only [evaluateAll, h]

/-- What fails behind a first tree ends the list as well. -/
theorem evaluateAll_cons_of_ok_error (h : node.evaluate s = (.ok value, t))
    (hnodes : evaluateAll nodes t = (.error failure, u)) :
    evaluateAll (node :: nodes) s = (.error failure, u) := by
  simp only [evaluateAll, h, hnodes]

/-- The numbers of a list are those of its trees in order. -/
theorem evaluateAll_cons_of_ok (h : node.evaluate s = (.ok value, t))
    (hnodes : evaluateAll nodes t = (.ok values, u)) :
    evaluateAll (node :: nodes) s = (.ok (value :: values), u) := by
  simp only [evaluateAll, h, hnodes]

/-- After a first tree that succeeds, the state is that of the others. -/
theorem evaluateAll_cons_snd_of_ok (h : node.evaluate s = (.ok value, t)) :
    (evaluateAll (node :: nodes) s).2 = (evaluateAll nodes t).2 := by
  rcases hnodes : evaluateAll nodes t with ⟨failure | values, u⟩
  · rw [evaluateAll_cons_of_ok_error h hnodes]
  · rw [evaluateAll_cons_of_ok h hnodes]

end Equations

/-- Evaluating literals does nothing. -/
theorem evaluateAll_of_literals? {trees : List (EvalNode σ ε)} {arguments : List Double}
    (h : literals? trees = some arguments) (s : σ) :
    evaluateAll trees s = (.ok arguments, s) := by
  induction trees generalizing arguments with
  | nil =>
    obtain rfl := Option.some.inj h
    rfl
  | cons tree trees ih =>
    unfold literals? at h
    cases tree with
    -- a call among them would have been refused
    | call symbol evaluator children => exact nomatch h
    | literal value =>
      cases hrest : literals? trees with
      | none =>
        rw [hrest] at h
        exact nomatch h
      | some values =>
        rw [hrest] at h
        obtain rfl := Option.some.inj h
        exact evaluateAll_cons_of_ok rfl (ih hrest)

/-- All evaluators of a tree have a property. -/
inductive Everywhere (P : Evaluator σ ε → Prop) : EvalNode σ ε → Prop
  | literal (value : Double) : Everywhere P (.literal value)
  | call {symbol : Symbol} {evaluator : Evaluator σ ε} {children : List (EvalNode σ ε)}
      (hevaluator : P evaluator) (hchildren : ∀ child ∈ children, Everywhere P child) :
      Everywhere P (.call symbol evaluator children)

/-- A call has a property everywhere if its evaluator and its operands do. -/
theorem everywhere_call {P : Evaluator σ ε → Prop} {symbol : Symbol} {evaluator : Evaluator σ ε}
    {children : List (EvalNode σ ε)} :
    (call symbol evaluator children).Everywhere P ↔
      P evaluator ∧ ∀ child ∈ children, child.Everywhere P :=
  ⟨fun h => by cases h with | call hevaluator hchildren => exact ⟨hevaluator, hchildren⟩,
    fun h => .call h.1 h.2⟩

end EvalNode

/-! ### Views that grow -/

section Growth

variable [Preorder τ] {view : σ → τ}

/-- The evaluator never makes the view of the state smaller. -/
def Evaluator.Grows (view : σ → τ) (evaluator : Evaluator σ ε) : Prop :=
  ∀ arguments s, view s ≤ view (evaluator arguments s).2

namespace EvalNode

/-- If no tree of a list makes the view smaller, neither does the list. -/
theorem evaluateAll_grows {nodes : List (EvalNode σ ε)}
    (h : ∀ node ∈ nodes, ∀ s, view s ≤ view (node.evaluate s).2) (s : σ) :
    view s ≤ view (evaluateAll nodes s).2 := by
  induction nodes generalizing s with
  | nil => exact le_refl _
  | cons node rest ih =>
    rw [List.forall_mem_cons] at h
    have hnode := h.1 s
    -- a failure ends the list where the first tree left it
    rcases hresult : node.evaluate s with ⟨failure | value, t⟩
    · rw [evaluateAll_cons_of_error hresult]
      rwa [hresult] at hnode
    · rw [evaluateAll_cons_snd_of_ok hresult]
      rw [hresult] at hnode
      exact le_trans hnode (ih h.2 t)

/-- The first tree of a list has done its part when the list ends. -/
theorem evaluate_le_evaluateAll_cons {node : EvalNode σ ε} {nodes : List (EvalNode σ ε)}
    (h : ∀ node ∈ nodes, ∀ s, view s ≤ view (node.evaluate s).2) (s : σ) :
    view (node.evaluate s).2 ≤ view (evaluateAll (node :: nodes) s).2 := by
  rcases hresult : node.evaluate s with ⟨failure | value, t⟩
  · rw [evaluateAll_cons_of_error hresult]
  · rw [evaluateAll_cons_snd_of_ok hresult]
    exact evaluateAll_grows h t

/-- **Growth.** If no evaluator of a tree makes the view smaller, no evaluation does. -/
theorem evaluate_grows {node : EvalNode σ ε} (h : node.Everywhere (Evaluator.Grows view)) (s : σ) :
    view s ≤ view (node.evaluate s).2 := by
  induction node using EvalNode.induction generalizing s with
  | literal value => exact le_refl _
  | call symbol evaluator children ih =>
    obtain ⟨hevaluator, hchildren⟩ := everywhere_call.mp h
    -- the operands come first, and the evaluator, if it is called, starts where they end
    have hall := evaluateAll_grows (fun child hmem s => ih child hmem (hchildren child hmem) s) s
    rcases hresults : evaluateAll children s with ⟨failure | values, t⟩
    · rw [evaluate_call_of_error hresults]
      rwa [hresults] at hall
    · rw [evaluate_call_of_ok hresults]
      rw [hresults] at hall
      exact le_trans hall (hevaluator values t)

end EvalNode

end Growth

/-! ### Views that decide -/

section Dependence

variable {view : σ → τ}

/-- Two computations end alike, and in states of the same view. -/
def Agree {α : Type} (view : σ → τ) (a b : Except ε α × σ) : Prop :=
  a.1 = b.1 ∧ view a.2 = view b.2

/-- The result of the evaluator, and the view afterwards, depend on the view of the state alone. -/
def Evaluator.DependsOn (view : σ → τ) (evaluator : Evaluator σ ε) : Prop :=
  ∀ arguments s s', view s = view s' → Agree view (evaluator arguments s) (evaluator arguments s')

namespace EvalNode

/-- What is true of the trees of a list is true of the list: it depends on the view alone. -/
theorem evaluateAll_dependsOn {nodes : List (EvalNode σ ε)}
    (h : ∀ node ∈ nodes, ∀ s s', view s = view s' →
      Agree view (node.evaluate s) (node.evaluate s'))
    {s s' : σ} (hs : view s = view s') :
    Agree view (evaluateAll nodes s) (evaluateAll nodes s') := by
  induction nodes generalizing s s' with
  | nil => exact ⟨rfl, hs⟩
  | cons node rest ih =>
    rw [List.forall_mem_cons] at h
    have hnode := h.1 s s' hs
    -- the first tree yields the same twice, and the others start from the same view
    rcases hresult : node.evaluate s with ⟨result, t⟩
    rcases hresult' : node.evaluate s' with ⟨result', t'⟩
    rw [hresult, hresult'] at hnode
    obtain ⟨rfl, ht⟩ : result = result' ∧ view t = view t' := hnode
    cases result with
    | error failure =>
      rw [evaluateAll_cons_of_error hresult, evaluateAll_cons_of_error hresult']
      exact ⟨rfl, ht⟩
    | ok value =>
      have hrest := ih h.2 ht
      rcases hresults : evaluateAll rest t with ⟨results, u⟩
      rcases hresults' : evaluateAll rest t' with ⟨results', u'⟩
      rw [hresults, hresults'] at hrest
      obtain ⟨rfl, hu⟩ : results = results' ∧ view u = view u' := hrest
      cases results with
      | error failure =>
        rw [evaluateAll_cons_of_ok_error hresult hresults,
          evaluateAll_cons_of_ok_error hresult' hresults']
        exact ⟨rfl, hu⟩
      | ok values =>
        rw [evaluateAll_cons_of_ok hresult hresults, evaluateAll_cons_of_ok hresult' hresults']
        exact ⟨rfl, hu⟩

/-- **Dependence.** If all evaluators of a tree depend on a view alone, its evaluation does. -/
theorem evaluate_dependsOn {node : EvalNode σ ε}
    (h : node.Everywhere (Evaluator.DependsOn view)) {s s' : σ} (hs : view s = view s') :
    Agree view (node.evaluate s) (node.evaluate s') := by
  induction node using EvalNode.induction generalizing s s' with
  | literal value => exact ⟨rfl, hs⟩
  | call symbol evaluator children ih =>
    obtain ⟨hevaluator, hchildren⟩ := everywhere_call.mp h
    have hall := evaluateAll_dependsOn
      (fun child hmem s s' hs => ih child hmem (hchildren child hmem) hs) hs
    rcases hresults : evaluateAll children s with ⟨results, t⟩
    rcases hresults' : evaluateAll children s' with ⟨results', t'⟩
    rw [hresults, hresults'] at hall
    obtain ⟨rfl, ht⟩ : results = results' ∧ view t = view t' := hall
    -- both fail in the operands, or both get to the evaluator with the same arguments
    cases results with
    | error failure =>
      rw [evaluate_call_of_error hresults, evaluate_call_of_error hresults']
      exact ⟨rfl, ht⟩
    | ok values =>
      rw [evaluate_call_of_ok hresults, evaluate_call_of_ok hresults']
      exact hevaluator values t t' ht

end EvalNode

end Dependence

/-! ### Folding -/

/-- Every evaluator that a symbol is resolved to has a property, so has the failing one, and what
replaces a call is one of its operands. -/
structure Resolution.Everywhere (resolution : Resolution σ ε) (P : Evaluator σ ε → Prop) :
    Prop where
  impure : ∀ symbol s evaluator t, resolution.impure? symbol s = (some evaluator, t) → P evaluator
  pure : ∀ symbol s, P (resolution.pure symbol s).1
  failing : ∀ failure, P (.failing failure)
  replacement : ∀ symbol children node,
    resolution.replacement? symbol children = some node → node ∈ children

section Folding

variable {resolution : Resolution σ ε} {P : Evaluator σ ε → Prop}

/-- Folding a call keeps a property that the resolution has. -/
theorem foldCall_everywhere (h : resolution.Everywhere P) (symbol : Symbol)
    {children : List (EvalNode σ ε)} (hchildren : ∀ child ∈ children, child.Everywhere P) (s : σ) :
    (foldCall resolution symbol children s).1.Everywhere P := by
  unfold foldCall
  -- the call is replaced, or stays for its operands, or is computed now, or stays as impure
  rcases himpure : resolution.impure? symbol s with ⟨_ | evaluator, t⟩
  · simp only
    cases hreplacement : resolution.replacement? symbol children with
    | some node => exact hchildren node (h.replacement _ _ _ hreplacement)
    | none =>
      have hpure := h.pure symbol t
      simp only
      cases EvalNode.literals? children with
      | none => exact .call hpure hchildren
      | some arguments =>
        simp only
        rcases (resolution.pure symbol t).1 arguments (resolution.pure symbol t).2 with
          ⟨failure | value, u⟩
        · exact .call (h.failing failure) hchildren
        · exact .literal value
  · exact .call (h.impure _ _ _ _ himpure) hchildren

/-- So does folding operands in order. -/
theorem foldAll_everywhere {nodes : List Node}
    (hnodes : ∀ node ∈ nodes, ∀ s, (fold resolution node s).1.Everywhere P) (s : σ) :
    ∀ child ∈ (foldAll resolution nodes s).1, child.Everywhere P := by
  induction nodes generalizing s with
  | nil => exact fun _ h => absurd h List.not_mem_nil
  | cons node rest ih =>
    rw [List.forall_mem_cons] at hnodes
    rw [foldAll]
    exact List.forall_mem_cons.mpr ⟨hnodes.1 s, ih hnodes.2 _⟩

/-- **What every resolution has, the whole tree has.** -/
theorem fold_everywhere (h : resolution.Everywhere P) (node : Node) (s : σ) :
    (fold resolution node s).1.Everywhere P := by
  induction node using Node.induction generalizing s with
  | number value => exact .literal value
  | apply symbol children ih =>
    rw [fold]
    exact foldCall_everywhere h symbol (foldAll_everywhere ih s) _

variable [Preorder τ] {view : σ → τ}

/-- Folding a call makes the view no smaller. -/
theorem foldCall_grows (himpure : ∀ symbol s, view s ≤ view (resolution.impure? symbol s).2)
    (hpure : ∀ symbol s, view s ≤ view (resolution.pure symbol s).2)
    (hcall : ∀ symbol s, Evaluator.Grows view (resolution.pure symbol s).1)
    (symbol : Symbol) (children : List (EvalNode σ ε)) (s : σ) :
    view s ≤ view (foldCall resolution symbol children s).2 := by
  have hs := himpure symbol s
  unfold foldCall
  rcases hresult : resolution.impure? symbol s with ⟨_ | evaluator, t⟩
  · rw [hresult] at hs
    simp only
    cases resolution.replacement? symbol children with
    -- a replaced call is not resolved any further
    | some node => exact hs
    | none =>
      have ht := le_trans hs (hpure symbol t)
      simp only
      cases EvalNode.literals? children with
      | none => exact ht
      | some arguments =>
        -- here the evaluator is called, so its own growth counts
        have hu := hcall symbol t arguments (resolution.pure symbol t).2
        simp only
        rcases hend : (resolution.pure symbol t).1 arguments (resolution.pure symbol t).2 with
          ⟨failure | value, u⟩
        · rw [hend] at hu
          exact le_trans ht hu
        · rw [hend] at hu
          exact le_trans ht hu
  · rw [hresult] at hs
    exact hs

/-- Folding operands in order makes the view no smaller. -/
theorem foldAll_grows {nodes : List Node}
    (hnodes : ∀ node ∈ nodes, ∀ s, view s ≤ view (fold resolution node s).2) (s : σ) :
    view s ≤ view (foldAll resolution nodes s).2 := by
  induction nodes generalizing s with
  | nil => exact le_refl _
  | cons node rest ih =>
    rw [List.forall_mem_cons] at hnodes
    rw [foldAll]
    exact le_trans (hnodes.1 s) (ih hnodes.2 _)

variable (view) in
/-- Building a tree makes the view no smaller, if neither resolving a symbol nor calling what it
is resolved to does. -/
theorem fold_grows (himpure : ∀ symbol s, view s ≤ view (resolution.impure? symbol s).2)
    (hpure : ∀ symbol s, view s ≤ view (resolution.pure symbol s).2)
    (hcall : ∀ symbol s, Evaluator.Grows view (resolution.pure symbol s).1)
    (node : Node) (s : σ) : view s ≤ view (fold resolution node s).2 := by
  induction node using Node.induction generalizing s with
  | number value => exact le_refl _
  | apply symbol children ih =>
    -- first the operands, then the call itself
    rw [fold]
    exact le_trans (foldAll_grows ih s) (foldCall_grows himpure hpure hcall symbol _ _)

end Folding

end DynExpr
