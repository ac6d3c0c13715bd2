import DynExpr.Proofs.Evaluation.Everywhere

/-!
# The symbols of a tree

`EvalNode.symbols` collects the symbols of a tree in a sorted list. What is in it is said by the
calls that occur in the tree:

* `EvalNode.HasCall` says that a call occurs, with its evaluator and its operands.
* `EvalNode.mem_symbols`: a symbol is in the set exactly if a call of it occurs.

A tree may also be looked at without its evaluators. `EvalNode.skeleton` is the expression tree
that is left then; it has the same symbols (`EvalNode.symbols_skeleton`).

Inserting a symbol into a set compares it with the members, so all this rests on the fact that only
equal symbols compare as equal (`Symbol.compare_eq_eq`).
-/

namespace DynExpr

/-! ### Comparing symbols -/

/-- Only equal texts compare as equal. -/
theorem Text.compare_eq_eq {s t : Text} : Text.compare s t = .eq ↔ s = t := by
  induction s generalizing t with
  | nil => cases t <;> simp [Text.compare]
  | cons a s ih =>
    cases t with
    | nil => simp [Text.compare]
    | cons b t =>
      unfold Text.compare
      -- the first bytes decide, unless they are equal
      by_cases hlt : a < b
      · have hne : a ≠ b := fun h => UInt8.lt_irrefl b (h ▸ hlt)
        simp [hlt, hne]
      · by_cases hgt : b < a
        · have hne : a ≠ b := fun h => UInt8.lt_irrefl b (h ▸ hgt)
          simp [hlt, hgt, hne]
        · have heq : a = b := UInt8.le_antisymm (UInt8.not_lt.mp hgt) (UInt8.not_lt.mp hlt)
          subst heq
          simp [ih]

/-- Only equal arities compare as equal. -/
theorem Arity.eq_of_compare {a b : Arity} (h : a.compare b = .eq) : a = b := by
  cases a with
  | exactly m =>
    cases b with
    | exactly n => rw [Nat.compare_eq_eq.mp h]
    | any => exact nomatch h
  | any =>
    cases b with
    | exactly n => exact nomatch h
    | any => rfl

namespace Symbol

/-- A symbol compares as equal to itself. -/
@[simp] theorem compare_self (symbol : Symbol) : symbol.compare symbol = .eq := by
  have harity : symbol.arity.compare symbol.arity = .eq := by
    cases symbol.arity with
    | exactly n => exact Nat.compare_eq_eq.mpr rfl
    | any => rfl
  unfold Symbol.compare
  rw [Nat.compare_eq_eq.mpr rfl, Text.compare_eq_eq.mpr rfl, harity]
  rfl

/-- Rank, name and arity determine a symbol. -/
theorem compare_eq_eq {a b : Symbol} : a.compare b = .eq ↔ a = b := by
  refine ⟨fun h => ?_, fun h => h ▸ compare_self a⟩
  unfold Symbol.compare at h
  obtain ⟨hrank, h⟩ := Ordering.then_eq_eq.mp h
  obtain ⟨hname, harity⟩ := Ordering.then_eq_eq.mp h
  have hrank := Nat.compare_eq_eq.mp hrank
  have hname := Text.compare_eq_eq.mp hname
  have harity := Arity.eq_of_compare harity
  -- the ranks tell the kinds apart
  cases a <;> cases b <;> simp_all [rank, name, arity]

end Symbol

/-- Inserting adds one member, and loses none. -/
theorem SymbolSet.mem_insert {a symbol : Symbol} {set : SymbolSet} :
    a ∈ SymbolSet.insert symbol set ↔ a = symbol ∨ a ∈ set := by
  induction set with
  | nil => simp [SymbolSet.insert]
  | cons s rest ih =>
    unfold SymbolSet.insert
    cases hcompare : symbol.compare s with
    | lt => simp
    | eq =>
      -- the symbol is in the set already, which stays as it is
      obtain rfl := Symbol.compare_eq_eq.mp hcompare
      simp
    | gt =>
      rw [List.mem_cons, ih, List.mem_cons, or_left_comm]

namespace EvalNode

variable {σ ε : Type}

/-! ### Calls -/

/-- A call occurs in the tree, with its evaluator and its operands. -/
inductive HasCall (symbol : Symbol) (evaluator : Evaluator σ ε) (operands : List (EvalNode σ ε)) :
    EvalNode σ ε → Prop
  | here : HasCall symbol evaluator operands (.call symbol evaluator operands)
  | inside {other : Symbol} {f : Evaluator σ ε} {children : List (EvalNode σ ε)}
      {child : EvalNode σ ε} (hmem : child ∈ children)
      (h : HasCall symbol evaluator operands child) :
      HasCall symbol evaluator operands (.call other f children)

/-- A call of the symbol occurs in the tree. -/
def Calls (node : EvalNode σ ε) (symbol : Symbol) : Prop :=
  ∃ evaluator operands, node.HasCall symbol evaluator operands

/-- The symbols called in a call are its own and those of its operands. -/
theorem calls_call {other symbol : Symbol} {f : Evaluator σ ε} {children : List (EvalNode σ ε)} :
    (call other f children).Calls symbol ↔
      symbol = other ∨ ∃ child ∈ children, child.Calls symbol := by
  constructor
  · rintro ⟨evaluator, operands, h⟩
    cases h with
    | here => exact .inl rfl
    | inside hmem h => exact .inr ⟨_, hmem, _, _, h⟩
  · rintro (rfl | ⟨child, hmem, evaluator, operands, h⟩)
    · exact ⟨f, children, .here⟩
    · exact ⟨evaluator, operands, .inside hmem h⟩

/-! ### The set of symbols -/

/-- What is true of the trees of a list is true of the list. -/
theorem mem_addSymbolsOfAll {nodes : List (EvalNode σ ε)} {symbol : Symbol}
    (h : ∀ node ∈ nodes, ∀ set, symbol ∈ node.addSymbols set ↔ symbol ∈ set ∨ node.Calls symbol)
    (set : SymbolSet) :
    symbol ∈ addSymbolsOfAll set nodes ↔ symbol ∈ set ∨ ∃ node ∈ nodes, node.Calls symbol := by
  induction nodes generalizing set with
  | nil => simp [addSymbolsOfAll]
  | cons node rest ih =>
    rw [List.forall_mem_cons] at h
    rw [addSymbolsOfAll, ih h.2, h.1 set, or_assoc]
    simp only [List.mem_cons, exists_eq_or_imp]

/-- The symbols of a tree join a set. -/
theorem mem_addSymbols {node : EvalNode σ ε} {symbol : Symbol} (set : SymbolSet) :
    symbol ∈ node.addSymbols set ↔ symbol ∈ set ∨ node.Calls symbol := by
  induction node using EvalNode.induction generalizing set with
  | literal value =>
    -- nothing is called in a literal
    have hnone : ¬ (literal value : EvalNode σ ε).Calls symbol := fun ⟨_, _, h⟩ => nomatch h
    simp [addSymbols, hnone]
  | call other f children ih =>
    rw [addSymbols, mem_addSymbolsOfAll ih, SymbolSet.mem_insert, calls_call, or_assoc,
      or_left_comm]

/-- **The symbols of a tree** are those of the calls that occur in it. -/
theorem mem_symbols {node : EvalNode σ ε} {symbol : Symbol} :
    symbol ∈ node.symbols ↔ node.Calls symbol := by
  unfold symbols
  rw [mem_addSymbols]
  simp

/-! ### Trees without evaluators -/

mutual
/-- The expression tree that is left without the evaluators. -/
def skeleton : EvalNode σ ε → Node
  | literal value => .number value
  | call symbol _ children => .apply symbol (skeletons children)

/-- The expression trees that are left of all trees of a list. -/
def skeletons : List (EvalNode σ ε) → List Node
  | [] => []
  | node :: rest => node.skeleton :: skeletons rest
end

/-- The symbols of trees are found without their evaluators. -/
theorem addSymbolsOfAll_skeletons {nodes : List (EvalNode σ ε)}
    (h : ∀ node ∈ nodes, ∀ set, node.skeleton.addSymbols set = node.addSymbols set)
    (set : SymbolSet) :
    Node.addSymbolsOfAll set (skeletons nodes) = addSymbolsOfAll set nodes := by
  induction nodes generalizing set with
  | nil => rfl
  | cons node rest ih =>
    rw [List.forall_mem_cons] at h
    rw [skeletons, Node.addSymbolsOfAll, addSymbolsOfAll, h.1, ih h.2]

/-- The symbols of a tree are found without its evaluators. -/
theorem addSymbols_skeleton (node : EvalNode σ ε) (set : SymbolSet) :
    node.skeleton.addSymbols set = node.addSymbols set := by
  induction node using EvalNode.induction generalizing set with
  | literal value => rfl
  | call symbol evaluator children ih =>
    rw [skeleton, Node.addSymbols, addSymbols, addSymbolsOfAll_skeletons ih]

/-- A tree and its skeleton have the same symbols. -/
theorem symbols_skeleton (node : EvalNode σ ε) : node.skeleton.symbols = node.symbols :=
  addSymbols_skeleton node []

end EvalNode

end DynExpr
