import DynExpr.CommandLine
import DynExpr.Projection
import DynExpr.Proofs.Expression.Evaluators

/-!
# Evaluation leaves nothing behind

An expression and all its copies share one table. A `Client` holds them and takes steps: it makes
another copy, evaluates a copy for some type, or does something else that changes the state of the
host. An evaluation may end in a value, in an error, in an exception of the host, or in a value
that is not of the wanted type; at any of these points there may be entries in the table that were
not there before.

The invariant of a run is `Client.Faithful`: every copy is the expression itself, and the table is
the one that compiling left behind. It is kept by each step since an evaluation only adds entries
(`EvalNode.evaluate_grows`) and then cuts the table to the length that it had after compiling.

`Client.after_restored` concludes that a client never finds the table changed, and, as far as the
functions of the host are deterministic, that it gets the same answer whenever it asks.
-/

namespace DynExpr

variable {σ ω : Type} [Host ω]

/-! ### Clients -/

/-- Evaluates an expression for a type. -/
def Expression.evaluate (expression : Expression σ ω) (target : Target ω) :
    Action (Machine σ ω) (Failure ω) (Projected ω) :=
  fun machine =>
    let (result, machine) := expression.run machine
    (result.bind target.project, machine)

/-- Copies of an expression, and the machine that they share. -/
structure Client (σ ω : Type) where
  copies : List (Expression σ ω)
  machine : Machine σ ω

/-- What a client does: it copies the `n`-th of its copies, evaluates it, or lets the host
proceed. -/
inductive ClientStep (σ ω : Type)
  | copy (n : Nat)
  | evaluate (n : Nat) (target : Target ω)
  | proceed (change : σ → σ)

namespace Client

/-- What the evaluation of a copy yields, if there is such a copy. -/
def outcome? (client : Client σ ω) (n : Nat) (target : Target ω) :
    Option (Except (Failure ω) (Projected ω)) :=
  client.copies[n]?.map fun copy => (copy.evaluate target client.machine).1

/-- A step of a client. A copy that does not exist is neither copied nor evaluated. -/
def step (client : Client σ ω) : ClientStep σ ω → Client σ ω
  | .copy n => { client with copies := client.copies ++ client.copies[n]?.toList }
  | .evaluate n target =>
    match client.copies[n]? with
    | some copy => { client with machine := (copy.evaluate target client.machine).2 }
    | none => client
  | .proceed change =>
    { client with machine := { client.machine with host := change client.machine.host } }

/-- A client after some steps. -/
def after (client : Client σ ω) (steps : List (ClientStep σ ω)) : Client σ ω :=
  steps.foldl step client

/-- Every copy is the expression, and the table is the given one. -/
structure Faithful (expression : Expression σ ω) (table : ValueTable ω) (client : Client σ ω) :
    Prop where
  copies : ∀ copy ∈ client.copies, copy = expression
  table : client.machine.table = table

end Client

/-! ### One evaluation -/

section Evaluation

variable {options : Options} {lookup : HostLookup σ ω} {node : Node} {host : σ}
  {expression : Expression σ ω} {machine : Machine σ ω}

/-- An expression remembers how many entries compiling left behind. -/
theorem compile_baseline (h : compile options lookup node host = (expression, machine)) :
    expression.baseline = machine.table.size := by
  obtain ⟨rfl, rfl⟩ := Prod.mk.inj h
  rfl

/-- Every evaluator of a compiled expression has what each kind of evaluators has. -/
theorem compile_everywhere {P : MachineEvaluator σ ω → Prop} (hP : EvaluatorKinds lookup P)
    (h : compile options lookup node host = (expression, machine)) :
    expression.root.Everywhere P := by
  obtain ⟨rfl, -⟩ := Prod.mk.inj h
  exact fold_everywhere (resolution_everywhere hP) node _

/-- On the table that compiling left behind, an evaluation restores the table. -/
theorem run_table (h : compile options lookup node host = (expression, machine))
    {current : Machine σ ω} (htable : current.table = machine.table) :
    (expression.run current).2.table = machine.table := by
  -- no entry was removed, so those of compiling are the first ones
  have hgrows : current.table ≤ (expression.root.evaluate current).2.table :=
    EvalNode.evaluate_grows (compile_everywhere (evaluatorKinds_grows lookup) h) current
  rw [htable] at hgrows
  calc (expression.run current).2.table
      = (expression.root.evaluate current).2.table.truncate expression.baseline := rfl
    _ = (expression.root.evaluate current).2.table.truncate machine.table.size := by
        rw [compile_baseline h]
    _ = machine.table := ValueTable.truncate_of_le hgrows

/-- With deterministic functions, an evaluation depends on the table alone. -/
theorem run_result (hlookup : lookup.Deterministic)
    (h : compile options lookup node host = (expression, machine))
    {current : Machine σ ω} (htable : current.table = machine.table) :
    (expression.run current).1 = (expression.run machine).1 := by
  -- the hosts may be in different states, but the tables that evaluation starts with are the same
  have heverywhere := compile_everywhere (evaluatorKinds_dependsOn hlookup) h
  obtain ⟨hresult, hafter⟩ := EvalNode.evaluate_dependsOn heverywhere htable
  unfold Expression.run
  dsimp only
  rw [hresult, hafter]

/-! ### A run -/

/-- **A step keeps the invariant.** -/
theorem Client.Faithful.step (h : compile options lookup node host = (expression, machine))
    {client : Client σ ω} (hclient : client.Faithful expression machine.table)
    (step : ClientStep σ ω) : (client.step step).Faithful expression machine.table := by
  obtain ⟨hcopies, htable⟩ := hclient
  cases step with
  | copy n =>
    refine ⟨?_, htable⟩
    intro copy hmem
    rcases List.mem_append.mp hmem with hold | hnew
    · exact hcopies copy hold
    · -- a new copy is made of an old one
      exact hcopies copy (List.mem_of_getElem? (Option.mem_toList.mp hnew))
  | evaluate n target =>
    unfold Client.step
    dsimp only
    cases hcopy : client.copies[n]? with
    | none => exact ⟨hcopies, htable⟩
    | some copy =>
      -- the projection comes after the table is restored, so its failure changes nothing
      obtain rfl := hcopies copy (List.mem_of_getElem? hcopy)
      exact ⟨hcopies, run_table h htable⟩
  | proceed change => exact ⟨hcopies, htable⟩

/-- **Any number of steps keeps the invariant.** -/
theorem Client.Faithful.after (h : compile options lookup node host = (expression, machine))
    {client : Client σ ω} (hclient : client.Faithful expression machine.table)
    (steps : List (ClientStep σ ω)) : (client.after steps).Faithful expression machine.table := by
  induction steps generalizing client with
  | nil => exact hclient
  | cons step rest ih => exact ih (hclient.step h step)

/-- **The table is restored, and evaluation has no memory.** Whatever steps a client takes from
a compiled expression on, and however its evaluations end, the table has the entries that it had
after compiling and no others. If the functions of the host are deterministic, every evaluation of
every copy then yields what the first one would have yielded. -/
theorem Client.after_restored (h : compile options lookup node host = (expression, machine))
    (steps : List (ClientStep σ ω)) :
    ((⟨[expression], machine⟩ : Client σ ω).after steps).machine.table = machine.table ∧
    ((⟨[expression], machine⟩ : Client σ ω).after steps).machine.table.size =
      expression.baseline ∧
    (lookup.Deterministic → ∀ n target,
      n < ((⟨[expression], machine⟩ : Client σ ω).after steps).copies.length →
      ((⟨[expression], machine⟩ : Client σ ω).after steps).outcome? n target =
        some (expression.evaluate target machine).1) := by
  -- in the beginning the expression is its only copy
  have hstart : (⟨[expression], machine⟩ : Client σ ω).Faithful expression machine.table :=
    ⟨fun copy hmem => List.mem_singleton.mp hmem, rfl⟩
  obtain ⟨hcopies, htable⟩ := hstart.after h steps
  refine ⟨htable, ?_, ?_⟩
  · rw [htable, compile_baseline h]
  · intro hlookup n target hn
    have hcopy := List.getElem?_eq_getElem hn
    have hresult := run_result hlookup h htable
    unfold Client.outcome?
    rw [hcopy, hcopies _ (List.getElem_mem hn), Option.map_some]
    unfold Expression.evaluate
    dsimp only
    rw [hresult]

/-- A host that counts its calls, and whose only variable is a text. -/
def countingLookup : HostLookup Nat Empty where
  impure? symbol :=
    if symbol = .var (utf8 "x") then some fun _ calls => (.ok (.string (utf8 "a")), calls + 1)
    else none
  pure? _ := none

/-- The number of calls does not show in the answers. -/
theorem countingLookup_deterministic : countingLookup.Deterministic := by
  rintro symbol function (h | h) arguments host host'
  · unfold countingLookup at h
    dsimp only at h
    split at h
    · exact Option.some.inj h ▸ rfl
    · exact absurd h (Option.some_ne_none _).symm
  · exact absurd h (Option.some_ne_none _).symm

/-- After an evaluation for an integer, which fails when the text is there, a copy yields the
text. -/
theorem Client.after_restored_text :
    ∃ expression machine,
      compile .standard countingLookup (.apply (.var (utf8 "x")) []) 0 = (expression, machine) ∧
      ((⟨[expression], machine⟩ : Client Nat Empty).after
        [.evaluate 0 (.integer ⟨true, 32⟩), .copy 0]).machine.table = machine.table ∧
      ((⟨[expression], machine⟩ : Client Nat Empty).after
        [.evaluate 0 (.integer ⟨true, 32⟩), .copy 0]).outcome? 1 .value =
          some (.ok (.value (.string (utf8 "a")))) := by
  have hcompiled : compile .standard countingLookup (.apply (.var (utf8 "x")) []) 0 = _ := rfl
  obtain ⟨htable, -, houtcome⟩ := Client.after_restored hcompiled
    [.evaluate 0 (.integer ⟨true, 32⟩), .copy 0]
  exact ⟨_, _, rfl, htable, houtcome countingLookup_deterministic 1 .value (by decide)⟩

end Evaluation

end DynExpr
