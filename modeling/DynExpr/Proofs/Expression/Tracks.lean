import DynExpr.Proofs.Expression.Meanings
import DynExpr.Proofs.Node.Shape

/-!
# From a tree to its value

A compiled tree and the interpretation of the tree that it comes from are compared by `Tracks`:
where there is a value, every evaluation ends in a double that carries it, and where there is a
failure, every evaluation fails with it. The second half only counts if the comparison is *strict*.
Folding makes the difference: the coalescing operator with a literal on its left is replaced by one
of its operands, and then the other one may no longer fail.

The trees of operands are treated first (`evaluateAll_ends`), then a call (`tracks_call`) and what
folding makes of it (`folded_foreseen`). `Resolution.Implements` collects what has to be known of
the symbols, and `fold_tracks` follows by induction over the tree: whatever is folded and whatever
is left to be called, the compiled tree tracks the interpretation. It is strict unless an operator
is replaced (`Resolution.Inlines`).

All this holds in tables that extend the one in which compiling ended, as long as there are tags
for all entries.
-/

namespace DynExpr

variable {σ ω : Type}

/-! ### Endings -/

/-- The outcome of an evaluation agrees with a result: what it yields is related to the value, or
it fails in the same way, which is asked for only if the comparison is strict. -/
def Ends {α β : Type} (strict : Prop) (related : ValueTable ω → α → β → Prop)
    (outcome : Except (Failure ω) α × Machine σ ω) : Except (Failure ω) β → Prop
  | .ok b => ∃ a, outcome.1 = .ok a ∧ related outcome.2.table a b
  | .error failure => strict → outcome.1 = .error failure

/-- What delivers a value that is no reserved double ends with the form of the value. -/
theorem Delivers.ends {strict : Prop} {outcome : Except (Failure ω) Double × Machine σ ω}
    {result : Except (Failure ω) (Value ω)} (h : Delivers outcome.2.table outcome.1 result)
    (hfree : ∀ v, result = .ok v → v.TagFree) :
    Ends strict ValueTable.Carries outcome (result.map Value.norm) := by
  rcases outcome with ⟨outcome, machine⟩
  cases h with
  | ok h => exact ⟨_, rfl, h (hfree _ rfl)⟩
  | error failure => exact fun _ => rfl

/-- Every evaluation of the tree ends with the result, in every table that extends the given
one. -/
def Tracks (strict : Prop) (base : ValueTable ω) (tree : EvalNode (Machine σ ω) (Failure ω))
    (result : Except (Failure ω) (Value ω)) : Prop :=
  ∀ machine, base ≤ machine.table → (tree.evaluate machine).2.table.size ≤ Channel.capacity →
    Ends strict ValueTable.Carries (tree.evaluate machine) result

/-- Every evaluation of the trees in order ends with the results. -/
def AllTrack (strict : Prop) (base : ValueTable ω)
    (trees : List (EvalNode (Machine σ ω) (Failure ω)))
    (results : Except (Failure ω) (List (Value ω))) : Prop :=
  ∀ machine, base ≤ machine.table →
    (EvalNode.evaluateAll trees machine).2.table.size ≤ Channel.capacity →
    Ends strict (fun table => List.Forall₂ table.Carries) (EvalNode.evaluateAll trees machine)
      results

variable {strict : Prop} {base base' : ValueTable ω}
  {tree : EvalNode (Machine σ ω) (Failure ω)} {trees : List (EvalNode (Machine σ ω) (Failure ω))}

/-- What is tracked from a table on is tracked from a later one on. -/
theorem Tracks.mono {result : Except (Failure ω) (Value ω)} (h : Tracks strict base tree result)
    (hle : base ≤ base') : Tracks strict base' tree result :=
  fun machine hbase => h machine (le_trans hle hbase)

/-! ### Operands -/

section Operands

variable {meaning : Symbol → ValueFunction ω} {nodes : List Node}

/-- **Operands in order.** If each tree tracks its own value, all of them do, up to the first
failure. What the first one yields stays underway while the others are evaluated. -/
theorem evaluateAll_ends
    (h : List.Forall₂
      (fun tree node => node.TagFree meaning → Tracks strict base tree (node.interpret meaning))
      trees nodes)
    (hgrows : ∀ tree ∈ trees, tree.Everywhere (Evaluator.Grows Machine.table))
    (hfree : Node.AllTagFree meaning nodes) :
    AllTrack (σ := σ) strict base trees (Node.interpretAll meaning nodes) := by
  induction h with
  | nil => exact fun machine _ _ => ⟨[], rfl, .nil⟩
  | @cons tree node trees nodes hnode _ ih =>
    intro machine hbase hsize
    obtain ⟨hnodeFree, hnodesFree⟩ := hfree
    -- the bound on the last table bounds the one after the first tree
    rw [List.forall_mem_cons] at hgrows
    obtain ⟨htreeGrows, htreesGrow⟩ := hgrows
    have hfirst : (tree.evaluate machine).2.table ≤
        (EvalNode.evaluateAll (tree :: trees) machine).2.table :=
      EvalNode.evaluate_le_evaluateAll_cons
        (fun tree hmem => EvalNode.evaluate_grows (htreesGrow tree hmem)) machine
    have hends := hnode hnodeFree machine hbase
      (Nat.le_trans (ValueTable.size_le_size hfirst) hsize)
    unfold Node.interpretAll
    cases hvalue : node.interpret meaning with
    | error failure =>
      -- the first failure ends both, so what the others do does not matter
      rw [hvalue] at hends
      intro hstrict
      rw [EvalNode.evaluateAll_cons_of_error (Prod.ext (hends hstrict) rfl)]
    | ok v =>
      rw [hvalue] at hends
      obtain ⟨d, hd, hcarries⟩ := hends
      have htree : tree.evaluate machine = (.ok d, (tree.evaluate machine).2) := Prod.ext hd rfl
      have hsnd : (EvalNode.evaluateAll (tree :: trees) machine).2 = _ :=
        EvalNode.evaluateAll_cons_snd_of_ok htree
      have hle := le_trans hbase (EvalNode.evaluate_grows htreeGrows machine)
      rw [hsnd] at hsize hfirst
      have hrest := ih htreesGrow (hnodesFree v hvalue) _ hle hsize
      cases hvalues : Node.interpretAll meaning nodes with
      | error failure =>
        rw [hvalues] at hrest
        intro hstrict
        rw [EvalNode.evaluateAll_cons_of_ok_error htree (Prod.ext (hrest hstrict) rfl)]
      | ok vs =>
        rw [hvalues] at hrest
        obtain ⟨ds, hds, hcarriesAll⟩ := hrest
        rw [EvalNode.evaluateAll_cons_of_ok htree (Prod.ext hds rfl)]
        -- the others may have added entries, and `d` still carries `v` in the table that they left
        exact ⟨d :: ds, rfl, .cons (hcarries.mono hfirst) hcarriesAll⟩

end Operands

/-! ### Calls -/

section Calls

variable {symbol : Symbol} {evaluator : MachineEvaluator σ ω} {f : ValueFunction ω}
  {results : Except (Failure ω) (List (Value ω))}

/-- The result of a call, given the results of its operands. -/
def callResult (f : ValueFunction ω) :
    Except (Failure ω) (List (Value ω)) → Except (Failure ω) (Value ω)
  | .ok values => (f values).map Value.norm
  | .error failure => .error failure

/-- The operands are some that the symbol can have, and the function yields no reserved double of
them. -/
structure Admissible (symbol : Symbol) (f : ValueFunction ω)
    (results : Except (Failure ω) (List (Value ω))) : Prop where
  fits : ∀ values, results = .ok values → symbol.isConstantLike → values = []
  tagFree : ∀ values v, results = .ok values → f values = .ok v → v.TagFree

/-- A call that is left to be evaluated. -/
theorem tracks_call (hevaluator : Realizes symbol base evaluator f)
    (hgrows : Evaluator.Grows Machine.table evaluator) (htrees : AllTrack strict base trees results)
    (htreesGrow : ∀ tree ∈ trees, tree.Everywhere (Evaluator.Grows Machine.table))
    (hresults : Admissible symbol f results) :
    Tracks strict base (.call symbol evaluator trees) (callResult f results) := by
  intro machine hbase hsize
  have hle : machine.table ≤ (EvalNode.evaluateAll trees machine).2.table :=
    EvalNode.evaluateAll_grows
      (fun tree hmem => EvalNode.evaluate_grows (htreesGrow tree hmem)) machine
  have hends := htrees machine hbase
  rcases hall : EvalNode.evaluateAll trees machine with ⟨failure | arguments, t⟩
  · -- an operand fails, and the evaluator is not called
    rw [EvalNode.evaluate_call_of_error hall] at hsize ⊢
    rw [hall] at hends
    have hends := hends hsize
    cases results with
    | ok values =>
      obtain ⟨_, h, -⟩ := hends
      exact nomatch h
    | error failure' => exact fun hstrict => Except.error.inj (hends hstrict) ▸ rfl
  · -- the evaluator is called in the table that the operands left
    rw [EvalNode.evaluate_call_of_ok hall] at hsize ⊢
    rw [hall] at hends hle
    have hbefore := Nat.le_trans (ValueTable.size_le_size (hgrows arguments t)) hsize
    have hends := hends hbefore
    cases results with
    | error failure => exact fun hstrict => nomatch hends hstrict
    | ok values =>
      obtain ⟨_, h, hcarries⟩ := hends
      obtain rfl := Except.ok.inj h
      have hdelivers := hevaluator arguments values t (hresults.fits values rfl)
        (le_trans hbase hle) hcarries hbefore hsize
      exact hdelivers.ends fun v => hresults.tagFree values v rfl

/-- What a call is computed to in advance: the result of its function, unless the interpretation
has failed already, in an operand that was replaced. -/
inductive Foreseen (strict : Prop) (table : ValueTable ω) (f : ValueFunction ω)
    (outcome : Except (Failure ω) Double) : Except (Failure ω) (List (Value ω)) → Prop
  | delivered {values : List (Value ω)} (h : Delivers table outcome (f values)) :
      Foreseen strict table f outcome (.ok values)
  | replaced (failure : Failure ω) (hstrict : ¬ strict) :
      Foreseen strict table f outcome (.error failure)

/-- **What folding computes.** A call with literal operands that is computed at once is foreseen. -/
theorem folded_foreseen {s t : Machine σ ω} {arguments : List Double}
    {outcome : Except (Failure ω) Double} (hevaluator : Realizes symbol s.table evaluator f)
    (hgrows : Evaluator.Grows Machine.table evaluator)
    (htrees : AllTrack strict s.table trees results) (hresults : Admissible symbol f results)
    (hliterals : EvalNode.literals? trees = some arguments)
    (houtcome : evaluator arguments s = (outcome, t)) (hsize : t.table.size ≤ Channel.capacity) :
    Foreseen strict t.table f outcome results := by
  have hle := hgrows arguments s
  rw [houtcome] at hle
  have hbefore := Nat.le_trans (ValueTable.size_le_size hle) hsize
  -- the operands are literals, which are evaluated without a change of the table
  have hends := htrees s (le_refl _)
  rw [EvalNode.evaluateAll_of_literals? hliterals] at hends
  have hends := hends hbefore
  cases results with
  | error failure =>
    -- the operands are literals, so they cannot have failed where failures are the same
    exact .replaced failure fun hstrict => nomatch hends hstrict
  | ok values =>
    obtain ⟨_, h, hcarries⟩ := hends
    obtain rfl := Except.ok.inj h
    have hdelivers := hevaluator arguments values s (hresults.fits values rfl) (le_refl _)
      hcarries hbefore
    rw [houtcome] at hdelivers
    exact .delivered (hdelivers hsize)

/-- A value that was computed at once. -/
theorem tracks_literal {d : Double} (hresults : Admissible symbol f results)
    (hforeseen : Foreseen strict base f (.ok d) results) :
    Tracks strict base (.literal d : EvalNode (Machine σ ω) (Failure ω))
      (callResult f results) := by
  intro machine hbase _
  cases hforeseen with
  | replaced failure hstrict => exact fun h => absurd h hstrict
  | @delivered values hdelivers =>
    unfold callResult
    cases hresult : f values with
    | error failure =>
      rw [hresult] at hdelivers
      exact nomatch hdelivers
    | ok v =>
      rw [hresult] at hdelivers
      cases hdelivers with
      | ok hcarries =>
        -- later tables have the entry still
        have hv := (hcarries (hresults.tagFree values v rfl hresult)).mono hbase
        simp only [hresult]
        exact ⟨d, rfl, hv⟩

/-- A failure that was met at once is met at every evaluation, after the operands, which are
literals. -/
theorem tracks_remembered {arguments : List Double} {failure : Failure ω}
    (hliterals : EvalNode.literals? trees = some arguments)
    (hforeseen : Foreseen strict base f (.error failure) results) :
    Tracks strict base (.call symbol (.failing failure) trees) (callResult f results) := by
  intro machine _ _
  have hall := EvalNode.evaluateAll_of_literals? hliterals machine
  cases hforeseen with
  | replaced failure' hstrict => exact fun h => absurd h hstrict
  | @delivered values hdelivers =>
    unfold callResult
    cases hresult : f values with
    | ok v =>
      -- what failed in advance is no value
      rw [hresult] at hdelivers
      exact nomatch hdelivers
    | error failure' =>
      rw [hresult] at hdelivers
      cases hdelivers with
      | error =>
        simp only [hresult, EvalNode.evaluate_call_of_ok hall]
        exact fun _ => rfl

end Calls

/-! ### Folding -/

/-- The symbol is one whose calls are replaced by one of their operands. -/
def Resolution.Inlines (resolution : Resolution (Machine σ ω) (Failure ω)) (symbol : Symbol) :
    Prop :=
  ∃ machine children tree, (resolution.impure? symbol machine).1 = none ∧
    resolution.replacement? symbol children = some tree

/-- Whatever symbols are resolved to computes their functions, and no entry is removed. Only a call
of the coalescing operator, with a literal on its left, is replaced. -/
structure Resolution.Implements (resolution : Resolution (Machine σ ω) (Failure ω))
    (meaning : Symbol → ValueFunction ω) : Prop where
  grows : resolution.Everywhere (Evaluator.Grows Machine.table)
  impure_grows : ∀ symbol machine, machine.table ≤ (resolution.impure? symbol machine).2.table
  pure_grows : ∀ symbol machine, machine.table ≤ (resolution.pure symbol machine).2.table
  impure : ∀ symbol machine evaluator machine',
    resolution.impure? symbol machine = (some evaluator, machine') →
      Realizes symbol machine'.table evaluator (meaning symbol)
  pure : ∀ symbol machine, Realizes symbol (resolution.pure symbol machine).2.table
    (resolution.pure symbol machine).1 (meaning symbol)
  replacement : ∀ symbol machine children tree, (resolution.impure? symbol machine).1 = none →
    resolution.replacement? symbol children = some tree →
      meaning symbol = ValueFunction.coalescing ∧ ∃ d right,
        children = [.literal d, right] ∧ tree = if d = Channel.nil then right else .literal d

section Folding

variable {resolution : Resolution (Machine σ ω) (Failure ω)} {meaning : Symbol → ValueFunction ω}

/-- The value of an application is the result of the call, given its operands. -/
theorem interpret_apply (symbol : Symbol) (children : List Node) :
    (Node.apply symbol children).interpret meaning =
      callResult (meaning symbol) (Node.interpretAll meaning children) := by
  unfold Node.interpret
  cases Node.interpretAll meaning children with
  | ok values => rfl
  | error failure => rfl

/-- **A replaced call.** If the interpretation has a value, both operands have one, and the one
that is left is the result. -/
theorem tracks_replacement {left right : Node} {d : Double}
    {tree : EvalNode (Machine σ ω) (Failure ω)}
    (hleft : left.TagFree meaning →
      Tracks strict base (.literal d : EvalNode (Machine σ ω) (Failure ω)) (left.interpret meaning))
    (hright : right.TagFree meaning → Tracks strict base tree (right.interpret meaning))
    (htreeGrows : tree.Everywhere (Evaluator.Grows Machine.table))
    (hfree : Node.AllTagFree meaning [left, right]) (hstrict : ¬ strict) :
    Tracks strict base (if d = Channel.nil then tree else .literal d)
      (callResult ValueFunction.coalescing (Node.interpretAll meaning [left, right])) := by
  obtain ⟨hleftFree, hrestFree⟩ := hfree
  intro machine hbase hsize
  unfold Node.interpretAll
  cases hvalue : left.interpret meaning with
  | error failure => exact fun h => absurd h hstrict
  | ok v =>
    obtain ⟨hrightFree, -⟩ := hrestFree v hvalue
    unfold Node.interpretAll
    cases hvalue' : right.interpret meaning with
    | error failure => exact fun h => absurd h hstrict
    | ok v' =>
      have hleft := hleft hleftFree machine hbase
      have hright := hright hrightFree machine hbase
      rw [hvalue] at hleft
      rw [hvalue'] at hright
      change Ends strict _ _ (.ok (if v.isNil then v' else v).norm)
      by_cases hnil : d = Channel.nil
      · -- the left operand is nil, and its place is taken by the right one
        rw [if_pos hnil] at hsize ⊢
        have hgrow := ValueTable.size_le_size (EvalNode.evaluate_grows htreeGrows machine)
        obtain ⟨_, h, hd⟩ := hleft (Nat.le_trans hgrow hsize)
        obtain rfl := Except.ok.inj h
        obtain ⟨b, hb, hcarries⟩ := hright hsize
        rw [if_pos (hd.eq_nil_iff.mp hnil), hcarries.norm_eq]
        exact ⟨b, hb, hcarries⟩
      · -- the left operand stays, and the right one is never evaluated
        rw [if_neg hnil] at hsize ⊢
        obtain ⟨_, h, hd⟩ := hleft hsize
        obtain rfl := Except.ok.inj h
        rw [if_neg (mt hd.eq_nil_iff.mpr hnil), hd.norm_eq]
        exact ⟨d, rfl, hd⟩

/-- **Folding a call.** It stays a call, or is replaced, or is computed at once; and then its value
is a literal, or its failure is remembered. -/
theorem foldCall_tracks (h : resolution.Implements meaning) {symbol : Symbol} {children : List Node}
    {s : Machine σ ω}
    (htrees : List.Forall₂
      (fun tree node => node.TagFree meaning → Tracks strict s.table tree (node.interpret meaning))
      trees children)
    (htreesGrow : ∀ tree ∈ trees, tree.Everywhere (Evaluator.Grows Machine.table))
    (hfits : symbol.isConstantLike → children = [])
    (hstrict : strict → ¬ resolution.Inlines symbol)
    (hfree : (Node.apply symbol children).TagFree meaning)
    (hsize : (foldCall resolution symbol trees s).2.table.size ≤ Channel.capacity) :
    Tracks strict (foldCall resolution symbol trees s).2.table
      (foldCall resolution symbol trees s).1
      ((Node.apply symbol children).interpret meaning) := by
  obtain ⟨hchildrenFree, hcallFree⟩ := hfree
  -- resolving the symbol adds entries, so the operands are needed in later tables too
  have hall (base : ValueTable ω) (hbase : s.table ≤ base) :
      AllTrack strict base trees (Node.interpretAll meaning children) :=
    evaluateAll_ends (htrees.imp fun _ _ htracks hnode => (htracks hnode).mono hbase) htreesGrow
      hchildrenFree
  have hadmissible : Admissible symbol (meaning symbol) (Node.interpretAll meaning children) := by
    refine ⟨?_, hcallFree⟩
    intro values hvalues hsymbol
    rw [hfits hsymbol] at hvalues
    exact (Except.ok.inj hvalues).symm
  rw [interpret_apply]
  unfold foldCall at hsize ⊢
  have hs := h.impure_grows symbol s
  rcases himpure : resolution.impure? symbol s with ⟨_ | evaluator, t⟩
  · -- the symbol is pure
    rw [himpure] at hsize hs
    dsimp only at hsize ⊢
    have hnone : (resolution.impure? symbol s).1 = none := by rw [himpure]
    cases hreplacement : resolution.replacement? symbol trees with
    | some tree =>
      have hinlines : resolution.Inlines symbol := ⟨s, trees, tree, hnone, hreplacement⟩
      obtain ⟨hmeaning, d, right, rfl, rfl⟩ := h.replacement symbol s trees tree hnone hreplacement
      -- there are two operands, the literal on the left and the one on the right
      rcases htrees with _ | ⟨hleft, _ | ⟨hright, _ | _⟩⟩
      rw [hmeaning]
      have hrightGrows := htreesGrow right (List.mem_cons_of_mem _ List.mem_cons_self)
      have hreplaced := tracks_replacement hleft hright hrightGrows hchildrenFree
        fun h => hstrict h hinlines
      exact hreplaced.mono hs
    | none =>
      have hevaluator := h.pure symbol t
      have hevaluatorGrows := h.grows.pure symbol t
      have ht := le_trans hs (h.pure_grows symbol t)
      rcases hpure : resolution.pure symbol t with ⟨evaluator, u⟩
      rw [hpure] at hevaluator hevaluatorGrows ht
      simp only [hreplacement, hpure] at hsize ⊢
      cases hliterals : EvalNode.literals? trees with
      | none =>
        exact tracks_call hevaluator hevaluatorGrows (hall u.table ht) htreesGrow hadmissible
      | some arguments =>
        -- all operands are literals, and so the evaluator is called now
        simp only [hliterals] at hsize ⊢
        rcases houtcome : evaluator arguments u with ⟨failure | value, w⟩
        · rw [houtcome] at hsize
          have hforeseen := folded_foreseen hevaluator hevaluatorGrows (hall u.table ht)
            hadmissible hliterals houtcome hsize
          exact tracks_remembered hliterals hforeseen
        · rw [houtcome] at hsize
          have hforeseen := folded_foreseen hevaluator hevaluatorGrows (hall u.table ht)
            hadmissible hliterals houtcome hsize
          exact tracks_literal hadmissible hforeseen
  · -- the symbol is impure and is called at every evaluation
    rw [himpure] at hsize hs
    exact tracks_call (h.impure symbol s evaluator t himpure)
      (h.grows.impure symbol s evaluator t himpure) (hall t.table hs) htreesGrow hadmissible

/-- Operands are built in order, and all of them are tracked from the last table on. -/
theorem foldAll_tracks (h : resolution.Implements meaning) {nodes : List Node}
    (hnodes : ∀ node ∈ nodes, ∀ s, (fold resolution node s).2.table.size ≤ Channel.capacity →
      node.TagFree meaning → Tracks strict (fold resolution node s).2.table
        (fold resolution node s).1 (node.interpret meaning))
    (s : Machine σ ω) (hsize : (foldAll resolution nodes s).2.table.size ≤ Channel.capacity) :
    List.Forall₂
      (fun tree node => node.TagFree meaning →
        Tracks strict (foldAll resolution nodes s).2.table tree (node.interpret meaning))
      (foldAll resolution nodes s).1 nodes := by
  induction nodes generalizing s with
  | nil => exact .nil
  | cons node rest ih =>
    rw [List.forall_mem_cons] at hnodes
    unfold foldAll at hsize ⊢
    dsimp only at hsize ⊢
    -- the first tree is built in a table that the others extend
    have hgrow : (fold resolution node s).2.table ≤
        (foldAll resolution rest (fold resolution node s).2).2.table :=
      foldAll_grows (fun node _ s => fold_grows Machine.table h.impure_grows h.pure_grows
        h.grows.pure node s) _
    have hbefore := Nat.le_trans (ValueTable.size_le_size hgrow) hsize
    exact .cons (fun hfree => (hnodes.1 s hbefore hfree).mono hgrow) (ih hnodes.2 _ hsize)

/-- **Compiling keeps the meaning.** Every evaluation of a compiled tree ends as the interpretation
of the tree does. Failures are the same if no symbol of the tree is replaced by an operand. -/
theorem fold_tracks (h : resolution.Implements meaning) {node : Node}
    (hnode : node.Grammatical)
    (hstrict : strict → ∀ symbol, node.Calls symbol → ¬ resolution.Inlines symbol)
    (s : Machine σ ω) (hsize : (fold resolution node s).2.table.size ≤ Channel.capacity)
    (hfree : node.TagFree meaning) :
    Tracks strict (fold resolution node s).2.table (fold resolution node s).1
      (node.interpret meaning) := by
  induction node using Node.induction generalizing s with
  | number value =>
    -- the double of a numeral stands for itself, since it is no tag
    intro machine _ _
    exact ⟨value, rfl, .number hnode.isMagnitude.not_reserved⟩
  | apply symbol children ih =>
    unfold fold at hsize ⊢
    dsimp only at hsize ⊢
    have hgrow := foldCall_grows h.impure_grows h.pure_grows h.grows.pure symbol
      (foldAll resolution children s).1 (foldAll resolution children s).2
    have hbefore := Nat.le_trans (ValueTable.size_le_size hgrow) hsize
    -- every operand is grammatical and calls only symbols of the tree
    have htrees := foldAll_tracks h
      (fun child hmem s hsize hfree => ih child hmem (hnode.children child hmem)
        (fun hs symbol hcalls => hstrict hs symbol (.inside hmem hcalls)) s hsize hfree)
      s hbefore
    have htreesGrow : ∀ tree ∈ (foldAll resolution children s).1,
        tree.Everywhere (Evaluator.Grows Machine.table) :=
      foldAll_everywhere (fun child _ s => fold_everywhere h.grows child s) s
    exact foldCall_tracks h htrees htreesGrow hnode.children_eq_nil
      (fun hs => hstrict hs symbol (.here children)) hfree hsize

end Folding

end DynExpr
