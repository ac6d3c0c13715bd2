import DynExpr.Proofs.Expression.Meanings

/-!
# Reading a constant

An expression that is the name of a constant yields the constant, in the form in which values
travel (`compile_constant`): whatever the options are, and whatever the host defines besides.

With folding the constant is stored once, while the expression is compiled, and the tree is the
double that carries it. Without folding it is stored at every evaluation, in the table that is empty
after compiling. In both cases the double is loaded from the table in which it was stored.
-/

namespace DynExpr

variable {σ ω : Type} [Host ω]

section Constant

variable {constants : Constants ω} {name : Text} {v : Value ω}
  (hconstant : constants name = some v) (htag : v.TagFree)

include hconstant htag

/-- The tree of a constant yields a double that carries it. -/
theorem foldCall_constant (options : Options) (table : SymbolTable σ ω) (host : σ) :
    ∃ root machine, foldCall (resolution options (.ofTables options constants table)) (.var name) []
        ⟨host, .empty⟩ = (root, machine) ∧
      ∀ current : Machine σ ω, current.table = machine.table →
        ∃ d after, root.evaluate current = (.ok d, after) ∧ after.table.load d = v.norm := by
  have hof : constants.of? (.var name) = some v := hconstant
  have himpure : (HostLookup.ofTables options constants table).impure? (.var name) = none :=
    impure?_of_constant hof
  have hpure : (HostLookup.ofTables options constants table).pure? (.var name) =
      some (constantFunction (.var name) v) := pure?_of_constant hof
  have hsize : (ValueTable.empty : ValueTable ω).size < Channel.capacity :=
    show 0 < Channel.capacity by decide
  have hload : (ValueTable.empty.store v).2.load (ValueTable.empty.store v).1 = v.norm :=
    ValueTable.roundTrip_eq_norm hsize htag
  unfold foldCall
  cases hunfolded : options.unfolded with
  | true =>
    -- the constant is stored at each evaluation
    have hmeaning : impureMeaning? options (HostLookup.ofTables options constants table)
        (.var name) = some (.plain (.ofHost (constantFunction (.var name) v))) := by
      rw [impureMeaning?, himpure, hpure, hunfolded]
      rfl
    rw [resolution_impure?_of_some hmeaning]
    refine ⟨_, _, rfl, ?_⟩
    rintro ⟨current, entries⟩ rfl
    exact ⟨_, _, rfl, hload⟩
  | false =>
    have hmeaning : impureMeaning? options (HostLookup.ofTables options constants table)
        (.var name) = none := by
      rw [impureMeaning?, himpure, hunfolded]
      rfl
    -- with folding, the constant is stored now, and the number is a literal
    have hresolved : (resolution options (HostLookup.ofTables options constants table)).pure
        (.var name) ⟨host, .empty⟩ =
        (.constant (ValueTable.empty.store v).1, ⟨host, (ValueTable.empty.store v).2⟩) := by
      show pureMeaning options (HostLookup.ofTables options constants table) (.var name)
        ⟨host, .empty⟩ = _
      rw [pureMeaning, hpure]
      rfl
    have hkept : (resolution options (HostLookup.ofTables options constants table)).replacement?
        (.var name) [] = none := rfl
    rw [resolution_impure?_of_none hmeaning]
    simp only [hkept, hresolved]
    refine ⟨_, _, rfl, ?_⟩
    rintro ⟨current, entries⟩ rfl
    exact ⟨_, _, rfl, hload⟩

/-- **A constant is read in its form**, by every evaluation on the table that compiling left
behind. -/
theorem compile_constant (options : Options) (table : SymbolTable σ ω) (host : σ) :
    ∃ expression machine, compile options (.ofTables options constants table)
        (.apply (.var name) []) host = (expression, machine) ∧
      ∀ current : Machine σ ω, current.table = machine.table →
        (expression.run current).1 = .ok v.norm := by
  obtain ⟨root, machine, hroot, hyields⟩ := foldCall_constant hconstant htag options table host
  have hfold : fold (resolution options (.ofTables options constants table)) (.apply (.var name) [])
      ⟨host, .empty⟩ = (root, machine) := hroot
  refine ⟨_, machine, by rw [compile, hfold], fun current htable => ?_⟩
  obtain ⟨d, after, hevaluate, hload⟩ := hyields current htable
  -- the number is read in the table that the evaluation leaves behind
  unfold Expression.run
  rw [hevaluate, ← hload]
  rfl

end Constant

end DynExpr
