import DynExpr.CommandLine
import DynExpr.Proofs.Expression.Restored
import DynExpr.Proofs.Expression.Tracks
import Mathlib

/-!
# Evaluation is transparent

Between the nodes of a compiled tree only doubles travel, and what can be computed once is computed
when the tree is built. Neither is to be seen from outside.

* `Expression.run_eq_interpret`: without folding, an expression yields the value of its tree, or
  fails as its interpretation does. So the channel is transparent.
* `Expression.folding_transparent`: with folding, it yields the same value where it has one without.
  If the coalescing operator does not occur, it also fails in the same way. So folding is
  transparent.

Both need that the functions of the host are deterministic, that there are tags for all entries,
and that no reserved double arises. A line is what is compiled: a tree that was read applies every
symbol to operands that it can have, and its numbers are not reserved.
-/

namespace DynExpr

variable {σ ω : Type} [Host ω]

/-! ### The resolution of an expression -/

section Resolution

variable {options : Options} {constants : Constants ω} {table : SymbolTable σ ω}

/-- **Resolving is right.** Whatever the symbols of an expression are resolved to computes their
functions. -/
theorem resolution_implements (htable : table.Deterministic) (host : σ) :
    (resolution options (.ofTables options constants table)).Implements
      (symbolFunction options constants table host) where
  grows := resolution_everywhere (evaluatorKinds_grows _)
  impure_grows := resolution_impure?_grows options _
  pure_grows := resolution_pure_grows options _
  impure symbol machine evaluator machine' h := by
    cases hmeaning : impureMeaning? options (.ofTables options constants table) symbol with
    | some meaning =>
      rw [resolution_impure?_of_some hmeaning] at h
      obtain ⟨hevaluator, rfl⟩ := Prod.mk.inj h
      obtain rfl := Option.some.inj hevaluator
      exact impureMeaning?_computes htable hmeaning host machine
    | none =>
      rw [resolution_impure?_of_none hmeaning] at h
      exact absurd (Prod.mk.inj h).1.symm (Option.some_ne_none _)
  pure symbol machine := pureMeaning_computes htable symbol host machine
  replacement symbol machine children tree _ h := by
    -- the operator is not the host's, so that its built-in function counts
    obtain ⟨rfl, hpure, hform⟩ := coalescingReplacement?_eq_some h
    have hof : constants.of? .coalesce = none := rfl
    rw [pure?_of_not_constant hof] at hpure
    exact ⟨symbolFunction_of_builtIn hof hpure rfl rfl host, hform⟩

/-- Without folding the coalescing operator is called, and no call is replaced. -/
theorem not_inlines_of_unfolded (h : options.unfolded) (symbol : Symbol) :
    ¬ (resolution options (.ofTables options constants table)).Inlines symbol := by
  rintro ⟨machine, children, tree, himpure, hreplacement⟩
  obtain ⟨rfl, hpure, -⟩ := coalescingReplacement?_eq_some hreplacement
  cases hmeaning : impureMeaning? options (.ofTables options constants table) .coalesce with
  | some meaning =>
    rw [resolution_impure?_of_some hmeaning] at himpure
    exact absurd himpure (Option.some_ne_none _)
  | none =>
    have hbuiltIn : (builtIn? options.logic .coalesce : Option (Meaning σ ω)) =
        some (.plain .coalescing) := rfl
    unfold impureMeaning? at hmeaning
    rw [hpure, hbuiltIn, if_pos h] at hmeaning
    -- whoever defines the operator, it has an impure meaning
    split at hmeaning
    · exact nomatch hmeaning
    split at hmeaning
    · exact nomatch hmeaning
    · exact nomatch hmeaning

/-- No other call is replaced. -/
theorem not_inlines_of_ne {symbol : Symbol} (h : symbol ≠ .coalesce) :
    ¬ (resolution options (.ofTables options constants table)).Inlines symbol := by
  rintro ⟨machine, children, tree, -, hreplacement⟩
  exact h (coalescingReplacement?_eq_some hreplacement).1

end Resolution

/-! ### Expressions -/

namespace Expression

/-- The number of entries at the end of an evaluation, before they are forgotten. As no entry is
removed earlier, the table never has more. -/
def peak (expression : Expression σ ω) (machine : Machine σ ω) : Nat :=
  (expression.root.evaluate machine).2.table.size

section Runs

variable {options : Options} {constants : Constants ω} {table : SymbolTable σ ω} {line : Text}
  {node : Node} {host state : σ} {expression : Expression σ ω} {machine current : Machine σ ω}

/-- The tree of a compiled line tracks the interpretation of the tree that was read. -/
theorem root_tracks {strict : Prop} (htable : table.Deterministic) (hparse : parse line = .ok node)
    (hcompile : compile options (.ofTables options constants table) node host =
      (expression, machine))
    (hstrict : strict → options.unfolded ∨ ¬ node.Calls .coalesce)
    (hsize : machine.table.size ≤ Channel.capacity)
    (hfree : node.TagFree (symbolFunction options constants table state)) :
    Tracks strict machine.table expression.root
      (node.interpret (symbolFunction options constants table state)) := by
  obtain ⟨rfl, rfl⟩ := Prod.mk.inj hcompile
  -- the tree was read, so its numbers are no tags
  refine fold_tracks (resolution_implements htable state) (parse_grammatical hparse) ?_ _ hsize
    hfree
  -- only the coalescing operator is replaced, and that only with folding
  intro hs symbol hcalls
  rcases hstrict hs with hunfolded | hcoalesce
  · exact not_inlines_of_unfolded hunfolded symbol
  · refine not_inlines_of_ne ?_
    rintro rfl
    exact hcoalesce hcalls

/-- An evaluation on the table that compiling left behind has the value of the interpretation, and
fails with it if failures are the same. -/
theorem run_spec {strict : Prop} (htable : table.Deterministic) (hparse : parse line = .ok node)
    (hcompile : compile options (.ofTables options constants table) node host =
      (expression, machine))
    (hstrict : strict → options.unfolded ∨ ¬ node.Calls .coalesce)
    (hcurrent : current.table = machine.table)
    (hpeak : expression.peak current ≤ Channel.capacity)
    (hfree : node.TagFree (symbolFunction options constants table state)) :
    (∀ v, node.interpret (symbolFunction options constants table state) = .ok v →
      (expression.run current).1 = .ok v) ∧
    (strict →
      (expression.run current).1 =
        node.interpret (symbolFunction options constants table state)) := by
  -- the table was smaller when compiling ended, so there were tags for its entries
  have hgrows := EvalNode.evaluate_grows
    (compile_everywhere (evaluatorKinds_grows _) hcompile) current
  rw [hcurrent] at hgrows
  have hsize := Nat.le_trans (ValueTable.size_le_size hgrows) hpeak
  have hends := root_tracks htable hparse hcompile hstrict hsize hfree current
    (le_of_eq hcurrent.symm) hpeak
  unfold Expression.run
  dsimp only
  cases hvalue : node.interpret (symbolFunction options constants table state) with
  | ok v =>
    rw [hvalue] at hends
    obtain ⟨d, hd, hcarries⟩ := hends
    -- the value is received before the entries are forgotten
    have hrun : (expression.root.evaluate current).1.map
        (expression.root.evaluate current).2.table.load = .ok v := by
      rw [hd]
      exact congrArg Except.ok (hcarries.load hpeak)
    rw [hrun]
    exact ⟨fun v' h => h, fun _ => rfl⟩
  | error failure =>
    rw [hvalue] at hends
    refine ⟨fun v h => (nomatch h), fun hs => ?_⟩
    rw [hends hs]
    rfl

/-- A host with an array as its variable, and with a range as its function without arguments. -/
def sampleTable : SymbolTable Unit Empty := fun symbol =>
  if symbol = .var (utf8 "x") then some fun _ host => (.ok (.array [.string (utf8 "a")]), host)
  else if symbol = .function (utf8 "f") (.exactly 0) then
    some fun _ host => (.ok (.intRange ⟨.closed, 0, 0⟩), host)
  else none

/-- Both of its functions are constant. -/
theorem sampleTable_deterministic : sampleTable.Deterministic := by
  intro symbol function h arguments host host'
  unfold sampleTable at h
  split at h
  · exact Option.some.inj h ▸ rfl
  split at h
  · exact Option.some.inj h ▸ rfl
  · exact absurd h (Option.some_ne_none _).symm

/-- The part of the array that the function chooses. -/
def sampleNode : Node :=
  .apply (.array (utf8 "x")) [.apply (.function (utf8 "f") (.exactly 0)) []]

/-- The tree is read from `x[f()]`. -/
theorem parse_sampleNode : parse (utf8 "x[f()]") = .ok sampleNode := by cbv

/-- Neither of the functions yields a number. -/
theorem sampleNode_tagFree (options : Options) :
    sampleNode.TagFree (symbolFunction options (fun _ => none) sampleTable ()) := by
  refine ⟨⟨⟨trivial, ?_⟩, fun _ _ => trivial⟩, ?_⟩
  · intro values v _ hv x hx
    obtain rfl := Except.ok.inj hv
    exact nomatch hx
  · intro values v hvalues hv x hx
    obtain rfl := Except.ok.inj hvalues
    obtain rfl := Except.ok.inj hv
    exact nomatch hx

/-- **The channel is transparent.** Without folding, an expression that was read yields the value
of its tree, or fails as the interpretation of the tree does. -/
theorem run_eq_interpret (htable : table.Deterministic) (hunfolded : options.unfolded)
    (hparse : parse line = .ok node)
    (hcompile : compile options (.ofTables options constants table) node host =
      (expression, machine))
    (hcurrent : current.table = machine.table)
    (hpeak : expression.peak current ≤ Channel.capacity)
    (hfree : node.TagFree (symbolFunction options constants table host)) :
    (expression.run current).1 =
      node.interpret (symbolFunction options constants table host) := by
  have hstrict : True → options.unfolded ∨ ¬ node.Calls .coalesce := fun _ => .inl hunfolded
  exact (run_spec htable hparse hcompile hstrict hcurrent hpeak hfree).2 trivial

/-- The choice of the function from the array, called at every evaluation. -/
theorem run_eq_interpret_sample :
    ∃ expression machine,
      compile ⟨true, true, true⟩ (.ofTables ⟨true, true, true⟩ (fun _ => none) sampleTable)
        sampleNode () = (expression, machine) ∧
      (expression.run machine).1 = .ok (.slice [.string (utf8 "a")]) := by
  have hcompile : compile ⟨true, true, true⟩
      (.ofTables ⟨true, true, true⟩ (fun _ => none) sampleTable) sampleNode () = _ := rfl
  have hrun := run_eq_interpret sampleTable_deterministic rfl parse_sampleNode hcompile rfl
    (by decide) (sampleNode_tagFree _)
  exact ⟨_, _, rfl, hrun⟩

variable (options) in
/-- **Folding is transparent.** If an expression that was read has a value without folding, it has
the same value with folding. Unless the coalescing operator occurs in it, it also fails in the same
way: with the same error, or with the same exception of the host. -/
theorem folding_transparent {folded : Expression σ ω} {machine' current' : Machine σ ω}
    (htable : table.Deterministic) (hparse : parse line = .ok node)
    (hcompile : compile { options with unfolded := true }
      (.ofTables { options with unfolded := true } constants table) node host =
        (expression, machine))
    (hfolded : compile { options with unfolded := false }
      (.ofTables { options with unfolded := false } constants table) node host =
        (folded, machine'))
    (hcurrent : current.table = machine.table) (hcurrent' : current'.table = machine'.table)
    (hpeak : expression.peak current ≤ Channel.capacity)
    (hpeak' : folded.peak current' ≤ Channel.capacity)
    (hfree : node.TagFree (symbolFunction options constants table host)) :
    (∀ v, (expression.run current).1 = .ok v → (folded.run current').1 = .ok v) ∧
    (¬ node.Calls .coalesce → (folded.run current').1 = (expression.run current).1) := by
  -- the functions of the symbols are the same, whether there is folding or not
  have hmeaning (unfolded : Bool) : symbolFunction options constants table host =
      symbolFunction { options with unfolded } constants table host := rfl
  have hunfolded : True → ({ options with unfolded := true } : Options).unfolded ∨
      ¬ node.Calls .coalesce := fun _ => .inl rfl
  have hplain := (run_spec htable hparse hcompile hunfolded hcurrent hpeak
    (hmeaning true ▸ hfree)).2 trivial
  obtain ⟨hsame, hfails⟩ := run_spec htable hparse hfolded (fun h => .inr h) hcurrent' hpeak'
    (hmeaning false ▸ hfree)
  -- both runs are compared with the same interpretation
  rw [hplain, ← hmeaning true]
  rw [← hmeaning false] at hsame hfails
  exact ⟨hsame, hfails⟩

/-- The same choice, with the range computed when the tree is built. -/
theorem folding_transparent_sample :
    ∃ folded machine,
      compile ⟨true, true, false⟩ (.ofTables ⟨true, true, false⟩ (fun _ => none) sampleTable)
        sampleNode () = (folded, machine) ∧
      (folded.run machine).1 = .ok (.slice [.string (utf8 "a")]) := by
  have hcompile : compile ⟨true, true, true⟩
      (.ofTables ⟨true, true, true⟩ (fun _ => none) sampleTable) sampleNode () = _ := rfl
  have hfolded : compile ⟨true, true, false⟩
      (.ofTables ⟨true, true, false⟩ (fun _ => none) sampleTable) sampleNode () = _ := rfl
  obtain ⟨hvalue, -⟩ := folding_transparent ⟨true, true, true⟩ sampleTable_deterministic
    parse_sampleNode hcompile hfolded rfl rfl (by decide) (by decide) (sampleNode_tagFree _)
  exact ⟨_, _, rfl, hvalue _ rfl⟩

end Runs

end Expression

end DynExpr
