import DynExpr.Proofs.Expression.Evaluators
import DynExpr.Proofs.Expression.Reference

/-!
# Evaluators that compute functions on values

An evaluator gets doubles and yields a double; what they stand for is a matter of the table.
`Delivers` compares the result of an evaluator with that of a function on values: both fail in the
same way, or the double carries the value in its form. `Realizes` says that an evaluator does so
whenever its operands carry the values of the function, in every table that extends a given one.

The kinds of evaluators are treated one after the other, and then the operators: for each evaluator
that a symbol can be resolved to, there is a function of `ValueFunction` that it realizes.
-/

namespace DynExpr

variable {σ ω : Type}

open MachineEvaluator

/-! ### Results -/

/-- The results agree: the same failure, or a double that carries the value in its form, unless
the value is a reserved double. -/
inductive Delivers (table : ValueTable ω) :
    Except (Failure ω) Double → Except (Failure ω) (Value ω) → Prop
  | ok {d : Double} {v : Value ω} (h : v.TagFree → table.Carries d v.norm) :
      Delivers table (.ok d) (.ok v)
  | error (failure : Failure ω) : Delivers table (.error failure) (.error failure)

/-- A double that carries a value delivers it. -/
theorem Delivers.of_carries {table : ValueTable ω} {d : Double} {v : Value ω}
    (h : table.Carries d v) : Delivers table (.ok d) (.ok v) :=
  .ok fun _ => h.norm_eq.symm ▸ h

/-- A number delivers itself, if it is no tag. -/
theorem Delivers.number {table : ValueTable ω} (x : Double) :
    Delivers table (.ok x) (.ok (.double x)) :=
  .ok fun h => .number (h x rfl)

/-- The tags of true and false deliver them. -/
theorem Delivers.bool {table : ValueTable ω} (flag : Bool) :
    Delivers table (.ok (Channel.ofBool flag)) (.ok (.bool flag)) :=
  .ok fun _ => .bool flag

/-- A result that is sent is delivered, if the table has room. -/
theorem Machine.storeResult_delivers (machine : Machine σ ω)
    (result : Except (Failure ω) (Value ω))
    (hsize : (machine.storeResult result).2.table.size ≤ Channel.capacity) :
    Delivers (machine.storeResult result).2.table (machine.storeResult result).1 result := by
  cases result with
  -- what is stored is loaded in its form
  | ok value => exact .ok fun h => ValueTable.carries_store hsize h
  | error failure => exact .error failure

/-! ### Evaluators -/

/-- In every table that extends the given one, the evaluator of the symbol computes the function.
A symbol that is computed when it is resolved has no operands. -/
def Realizes (symbol : Symbol) (base : ValueTable ω) (evaluator : MachineEvaluator σ ω)
    (f : ValueFunction ω) : Prop :=
  ∀ arguments values machine, (symbol.isConstantLike → values = []) → base ≤ machine.table →
    List.Forall₂ machine.table.Carries arguments values →
    machine.table.size ≤ Channel.capacity →
    (evaluator arguments machine).2.table.size ≤ Channel.capacity →
    Delivers (evaluator arguments machine).2.table (evaluator arguments machine).1 (f values)

section Kinds

variable {symbol : Symbol} {base : ValueTable ω}

/-- A constant computes what it carries. -/
theorem realizes_constant {d : Double} {v : Value ω}
    (h : base.size ≤ Channel.capacity → v.TagFree → base.Carries d v.norm) :
    Realizes symbol base (.constant d : MachineEvaluator σ ω) fun _ => .ok v := by
  intro _ _ machine _ hbase _ hbefore _
  -- entries are only added, so the constant is still there
  have hsize := Nat.le_trans (ValueTable.size_le_size hbase) hbefore
  exact .ok fun hv => (h hsize hv).mono hbase

/-- The failing evaluator computes its failure. -/
theorem realizes_failing (failure : Failure ω) :
    Realizes symbol base (.failing failure : MachineEvaluator σ ω) fun _ => .error failure :=
  fun _ _ _ _ _ _ _ _ => .error failure

/-- A function of values computes itself. -/
theorem realizes_ofValues (f : ValueFunction ω) :
    Realizes symbol base (ofValues f : MachineEvaluator σ ω) f := by
  intro arguments values machine _ _ hvalues hbefore hsize
  have hload := ValueTable.loadAll_of_carries hbefore hvalues
  unfold ofValues at hsize ⊢
  rw [hload] at hsize ⊢
  exact machine.storeResult_delivers _ hsize

/-- A function of numbers computes a function of values, if it delivers what this yields. -/
theorem realizes_ofTable {f : ValueTable ω → List Double → Except (Failure ω) Double}
    {g : ValueFunction ω}
    (h : ∀ (table : ValueTable ω) arguments values, table.size ≤ Channel.capacity →
      List.Forall₂ table.Carries arguments values → Delivers table (f table arguments) (g values)) :
    Realizes symbol base (ofTable f : MachineEvaluator σ ω) g :=
  fun _ _ _ _ _ hvalues hbefore _ => h _ _ _ hbefore hvalues

/-- A deterministic function of the host is its answers in any state. -/
theorem realizes_ofHost {function : HostFunction σ ω} (h : function.Deterministic) (host : σ) :
    Realizes symbol base (ofHost function) (function.answer host) := by
  intro arguments values machine _ _ hvalues hbefore hsize
  have hload := ValueTable.loadAll_of_carries hbefore hvalues
  unfold ofHost at hsize ⊢
  rw [hload] at hsize ⊢
  -- in the state of the host at the call the answer is the same
  have hresult : (function values machine.host).1 = function.answer host values :=
    h values machine.host host
  rw [← hresult]
  exact Machine.storeResult_delivers _ _ hsize

/-- Reading through a variable of the host computes a subscript of its value. -/
theorem realizes_readingVariable [Host ω] {function : HostFunction σ ω}
    (h : function.Deterministic) (host : σ) :
    Realizes symbol base (readingVariable symbol function)
      (subscriptingAnswer symbol (function.answer host)) := by
  intro arguments values machine _ _ hvalues hbefore hsize
  have hanswer : (function [] machine.host).1 = function.answer host [] := h [] machine.host host
  unfold subscriptingAnswer
  rw [← hanswer]
  unfold readingVariable at hsize ⊢
  rcases hcall : function [] machine.host with ⟨failure | container, host'⟩
  · exact .error failure
  · -- the container is used as the host yields it, without being sent
    rw [hcall] at hsize
    dsimp only at hsize ⊢
    cases hread : subscriptReader symbol container with
    | error failure =>
      dsimp only
      exact .error failure
    | ok read =>
      rw [hread] at hsize
      dsimp only at hsize ⊢
      rw [ValueTable.loadAll_of_carries hbefore hvalues] at hsize ⊢
      exact Machine.storeResult_delivers _ _ hsize

end Kinds

/-! ### Operators -/

section Operators

variable {symbol : Symbol} {base : ValueTable ω}

/-- Arithmetic on numbers and on the values that they carry agree. -/
theorem onNumbers_eq {table : ValueTable ω} {arguments : List Double} {values : List (Value ω)}
    (hsize : table.size ≤ Channel.capacity)
    (hvalues : List.Forall₂ table.Carries arguments values) (f : NumericFunction ω) :
    MachineEvaluator.onNumbers symbol f table arguments =
      ValueFunction.onNumbers symbol f values := by
  -- the numbers are those of the values, and so are the operands that an error names
  have hnumbers := ValueTable.mapM_number?_of_carries hsize hvalues
  have hload := ValueTable.loadAll_of_carries hsize hvalues
  unfold MachineEvaluator.onNumbers ValueFunction.onNumbers
  cases hmap : values.mapM Value.numeric? with
  | some numbers => simp only [hnumbers, hmap]
  | none => simp only [hnumbers, hmap, hload]

/-- A numeric operator computes itself on values. -/
theorem realizes_numeric (f : NumericFunction ω) :
    Realizes symbol base (numeric symbol f : MachineEvaluator σ ω)
      (ValueFunction.numeric symbol f) := by
  refine realizes_ofTable fun table arguments values hsize hvalues => ?_
  rw [onNumbers_eq hsize hvalues, ValueFunction.numeric]
  cases ValueFunction.onNumbers symbol f values with
  | error failure => exact .error failure
  | ok x => exact .number x

/-- So does a logical one. -/
theorem realizes_logical (f : NumericFunction ω) :
    Realizes symbol base (logical symbol f : MachineEvaluator σ ω)
      (ValueFunction.logical symbol f) := by
  refine realizes_ofTable fun table arguments values hsize hvalues => ?_
  rw [onNumbers_eq hsize hvalues, ValueFunction.logical]
  cases ValueFunction.onNumbers symbol f values with
  | error failure => exact .error failure
  | ok x => exact .bool x.isTrue

/-- An operator on one value computes itself. -/
theorem realizes_unaryValue (f : Value ω → Except (Error ω) (Value ω)) :
    Realizes symbol base (unaryValue f : MachineEvaluator σ ω) (ValueFunction.unary f) :=
  realizes_ofValues (ValueFunction.unary f)

/-- An operator on two values computes itself. -/
theorem realizes_binaryValue (f : Value ω → Value ω → Except (Failure ω) (Value ω)) :
    Realizes symbol base (binaryValue f : MachineEvaluator σ ω) (ValueFunction.binary f) :=
  realizes_ofValues (ValueFunction.binary f)

/-- Equality of numbers computes the equality of the values. -/
theorem realizes_equality [Host ω] (negated : Bool) :
    Realizes symbol base (equality symbol negated : MachineEvaluator σ ω)
      (ValueFunction.equality symbol negated) := by
  refine realizes_ofTable fun table arguments values hsize hvalues => ?_
  rcases hvalues with _ | @⟨a, va, _, _, ha, hrest⟩
  · exact .error _
  rcases hrest with _ | @⟨b, vb, _, _, hb, -⟩
  · exact .error _
  dsimp only [ValueFunction.equality]
  -- two operands at least, which are loaded
  rw [ha.load hsize, hb.load hsize]
  cases (equalValues symbol va vb).mapError Failure.error with
  | error failure => exact .error failure
  | ok equal => exact .bool (equal != negated)

/-- A condition chooses as it does on values. -/
theorem realizes_conditional :
    Realizes symbol base (conditional : MachineEvaluator σ ω) ValueFunction.conditional := by
  refine realizes_ofTable fun table arguments values hsize hvalues => ?_
  have hload := ValueTable.loadAll_of_carries hsize hvalues
  rcases hvalues with _ | @⟨a, va, _, _, ha, hrest⟩
  · exact .error _
  rcases hrest with _ | @⟨b, vb, _, _, hb, hrest⟩
  · exact .error _
  rcases hrest with _ | @⟨c, vc, _, _, hc, hrest⟩
  · exact .error _
  rcases hrest with _ | ⟨_, _⟩
  · dsimp only [ValueFunction.conditional]
    -- three operands exactly, of which the first is read as a number
    rw [ha.number? hsize, hload]
    cases va.numeric? with
    | none => exact .error _
    | some condition =>
      dsimp only
      split
      · exact .of_carries hb
      · exact .of_carries hc
  · exact .error _

/-- So does `??`. -/
theorem realizes_coalescing :
    Realizes symbol base (coalescing : MachineEvaluator σ ω) ValueFunction.coalescing := by
  refine realizes_ofTable fun table arguments values hsize hvalues => ?_
  rcases hvalues with _ | @⟨a, va, _, _, ha, hrest⟩
  · exact .error _
  rcases hrest with _ | @⟨b, vb, _, _, hb, -⟩
  · exact .error _
  dsimp only [ValueFunction.coalescing]
  -- nil is told by its bits, so both sides choose alike
  by_cases hnil : a = Channel.nil
  · rw [if_pos hnil, if_pos (ha.eq_nil_iff.mp hnil)]
    exact .of_carries hb
  · rw [if_neg hnil, if_neg (mt ha.eq_nil_iff.mpr hnil)]
    exact .of_carries ha

end Operators

end DynExpr
