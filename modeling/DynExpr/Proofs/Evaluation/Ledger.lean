import DynExpr.Proofs.Evaluation.Symbols

/-!
# Calls on record

Who asks how often something is called has to count. A `Ledger` is a state together with the calls
that were made so far.

Which calls an evaluation gets to depends on the state. `EvalNode.reached` lists them: the calls
whose operands were all evaluated, in order, each with its arguments and with the state in which it
is made. What every evaluator puts on record for itself, an evaluation puts on record for the calls
that it reaches, and nothing else (`EvalNode.evaluate_records`).
-/

namespace DynExpr

variable {σ ε κ : Type}

/-! ### Ledgers -/

/-- A state, and the calls made so far. -/
structure Ledger (σ κ : Type) where
  host : σ
  calls : List κ

namespace Ledger

/-- A ledger with further calls on record. -/
def add (ledger : Ledger σ κ) (calls : List κ) : Ledger σ κ :=
  { ledger with calls := ledger.calls ++ calls }

/-- Nothing is added by no calls. -/
@[simp] theorem add_nil (ledger : Ledger σ κ) : ledger.add [] = ledger := by
  simp [add]

/-- Calls are put on record one after the other. -/
theorem add_add (ledger : Ledger σ κ) (calls others : List κ) :
    (ledger.add calls).add others = ledger.add (calls ++ others) := by
  simp [add]

end Ledger

/-! ### Calls that are reached -/

/-- A call that an evaluation reaches: its symbol, its arguments, and the state in which it is
made. -/
structure Reached (σ : Type) where
  symbol : Symbol
  arguments : List Double
  state : σ

namespace EvalNode

mutual
/-- The calls that an evaluation reaches, in order. -/
def reached : EvalNode σ ε → σ → List (Reached σ)
  | literal _ => fun _ => []
  | call symbol _ children => fun state =>
    match evaluateAll children state with
    | (.ok arguments, after) => reachedInAll children state ++ [⟨symbol, arguments, after⟩]
    | (.error _, _) => reachedInAll children state

/-- The calls that the evaluation of trees in order reaches. -/
def reachedInAll : List (EvalNode σ ε) → σ → List (Reached σ)
  | [] => fun _ => []
  | node :: rest => fun state =>
    match evaluate node state with
    | (.ok _, after) => reached node state ++ reachedInAll rest after
    | (.error _, _) => reached node state
end

variable {view : σ → List κ} {record : Reached σ → Option κ}

theorem evaluateAll_records {nodes : List (EvalNode σ ε)}
    (h : ∀ node ∈ nodes, ∀ s,
      view (node.evaluate s).2 = view s ++ (node.reached s).filterMap record) (s : σ) :
    view (evaluateAll nodes s).2 = view s ++ (reachedInAll nodes s).filterMap record := by
  induction nodes generalizing s with
  | nil => simp [evaluateAll, reachedInAll]
  | cons node rest ih =>
    rw [List.forall_mem_cons] at h
    have hnode := h.1 s
    unfold reachedInAll
    rcases hresult : node.evaluate s with ⟨failure | value, t⟩
    · rw [hresult] at hnode
      rw [evaluateAll_cons_of_error hresult]
      exact hnode
    · rw [hresult] at hnode
      rw [evaluateAll_cons_snd_of_ok hresult, ih h.2 t, hnode, List.filterMap_append,
        List.append_assoc]

/-- **An evaluation records the calls that it reaches**, if every evaluator records its own. -/
theorem evaluate_records (view : σ → List κ) (record : Reached σ → Option κ)
    {node : EvalNode σ ε}
    (h : ∀ symbol evaluator operands, node.HasCall symbol evaluator operands → ∀ arguments s,
      view (evaluator arguments s).2 = view s ++ (record ⟨symbol, arguments, s⟩).toList) (s : σ) :
    view (node.evaluate s).2 = view s ++ (node.reached s).filterMap record := by
  induction node using EvalNode.induction generalizing s with
  | literal value => simp [evaluate, reached]
  | call symbol evaluator children ih =>
    have hoperands := evaluateAll_records (fun child hmem s => ih child hmem
      (fun other f operands hcall => h other f operands (.inside hmem hcall)) s) s
    unfold reached
    rcases hresults : evaluateAll children s with ⟨failure | arguments, t⟩
    · rw [hresults] at hoperands
      rw [evaluate_call_of_error hresults]
      exact hoperands
    · rw [hresults] at hoperands
      rw [evaluate_call_of_ok hresults, h symbol evaluator children .here arguments t, hoperands,
        List.filterMap_append, List.append_assoc]
      cases hrecord : record ⟨symbol, arguments, t⟩ <;> simp [hrecord]

end EvalNode

end DynExpr
