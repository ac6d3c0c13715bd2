import DynExpr.Proofs.Expression.Evaluators
import DynExpr.Proofs.Node.Shape
import DynExpr.Proofs.Subscript.Window

/-!
# Operands that evaluators look for

An evaluator takes a list of numbers and does not check its length first: the sum of two numbers
looks for the second one, and fails with `Failure.missingOperand` if there is none. `Supplied` says
of an outcome that it is not this failure, and `Symbol.Supplies` of an evaluator that it looks for
no more operands than its symbol stands for.

* Every built-in meaning is supplied by its symbol (`builtIn?_supplies`), since the function that
  each table has for a symbol is (`mathSymbol?_supplied`, `logicSymbol?_supplied`).
* So is whatever a symbol is resolved to, if the functions of the host do not answer with this
  failure themselves (`impureMeaning?_supplies`, `pureMeaning_supplies`).
-/

namespace DynExpr

variable {σ ω : Type}

/-- The outcome is not the failure of an operator that lacks an operand. -/
def Supplied {α : Type} (outcome : Except (Failure ω) α) : Prop :=
  outcome ≠ .error .missingOperand

section Supplied

variable {α β : Type} {outcome : Except (Failure ω) α}

/-- A value is no failure. -/
theorem supplied_ok (a : α) : Supplied (.ok a : Except (Failure ω) α) := nofun

/-- An error of an expression is another failure. -/
theorem supplied_error (error : Error ω) :
    Supplied (.error (.error error) : Except (Failure ω) α) := nofun

/-- An error of an expression is not the failure of a missing operand. -/
theorem supplied_mapError (outcome : Except (Error ω) α) :
    Supplied (outcome.mapError Failure.error) := by
  cases outcome with
  | error error => exact supplied_error error
  | ok a => exact supplied_ok a

/-- A failure is that of a missing operand, or any other one. -/
theorem supplied_error_iff {failure : Failure ω} :
    Supplied (.error failure : Except (Failure ω) α) ↔ failure ≠ .missingOperand :=
  not_congr (Except.error.injEq _ _).to_iff

/-- A failure is the same for outcomes of any type. -/
theorem Supplied.error {failure : Failure ω}
    (h : Supplied (.error failure : Except (Failure ω) α)) :
    Supplied (.error failure : Except (Failure ω) β) :=
  supplied_error_iff.mpr (supplied_error_iff.mp h)

/-- What is made of a value does not matter. -/
theorem Supplied.map (h : Supplied outcome) (f : α → β) : Supplied (outcome.map f) := by
  cases outcome with
  | error failure => exact h.error
  | ok a => exact supplied_ok (f a)

end Supplied

/-- A list of two members at least has a first and a second one. -/
theorem exists_of_two_le_length {α : Type} {list : List α} (h : 2 ≤ list.length) :
    ∃ a b rest, list = a :: b :: rest := by
  match list, h with
  | a :: b :: rest, _ => exact ⟨a, b, rest, rfl⟩

/-- An infix operator stands for two operands at least. -/
theorem Symbol.Takes.two_le {name : Text} {count : Nat} (h : (Symbol.infixOp name).Takes count) :
    2 ≤ count := by
  rcases h with rfl | ⟨-, rfl⟩
  · exact Nat.le_refl 2
  · exact Nat.le_succ 2

/-! ### Subscripts -/

/-- What is read of a window is in it, or is an error of an expression. -/
theorem supplied_of_contains {window : Substring} {limit : Nat}
    {outcome : Except (Failure ω) (Value ω)} (h : window.Contains limit outcome) :
    Supplied outcome := by
  rintro rfl
  rcases h with ⟨error, herror⟩ | ⟨-, hconfines⟩
  · exact nomatch herror
  · exact hconfines

/-- Subscripts have both of their operands. -/
theorem supplied_subscript [Host ω] (symbol : Symbol) (container index : Value ω) :
    Supplied (subscript symbol container index) := by
  unfold subscript
  split
  · exact supplied_mapError _
  · exact supplied_mapError _
  · -- texts and their windows are read within their bounds
    exact supplied_of_contains (Substring.contains_subscriptText _ _ _ _)
  · exact supplied_of_contains (Substring.contains_subscriptText _ _ _ _)
  · split
    · exact supplied_ok _
    · exact supplied_error _
  · exact supplied_error _

/-- An array has a single index, or is the error of an expression. -/
theorem supplied_subscriptAt [Host ω] (symbol : Symbol) (container : Value ω)
    (indices : List (Value ω)) : Supplied (subscriptAt symbol container indices) := by
  unfold subscriptAt
  split
  · exact supplied_subscript _ _ _
  · exact supplied_error _

/-! ### Tables of numeric functions -/

namespace NumericFunction

variable {numbers : List Double}

/-- A function of one number has it. -/
theorem supplied_unary (f : Double → Double) (h : 1 ≤ numbers.length) :
    Supplied (unary f numbers : Except (Failure ω) Double) := by
  cases numbers with
  | nil => cases h
  | cons a rest => exact supplied_ok (f a)

/-- A function of two numbers has both. -/
theorem supplied_binary (f : Double → Double → Double) (h : 2 ≤ numbers.length) :
    Supplied (binary f numbers : Except (Failure ω) Double) := by
  obtain ⟨a, b, rest, rfl⟩ := exists_of_two_le_length h
  exact supplied_ok (f a b)

/-- The extreme of no numbers is an error of an expression. -/
theorem supplied_extreme (name : Text) (exceeds : Double → Double → Bool) (numbers : List Double) :
    Supplied (extreme name exceeds numbers : Except (Failure ω) Double) := by
  cases numbers with
  | nil => exact supplied_error _
  | cons a rest => exact supplied_ok _

/-- A choice among too few numbers is an error of an expression. -/
theorem supplied_choice (numbers : List Double) :
    Supplied (choice numbers : Except (Failure ω) Double) := by
  unfold choice
  split
  · exact supplied_ok _
  · exact supplied_error _

end NumericFunction

open NumericFunction

section Tables

variable {symbol : Symbol} {f : NumericFunction ω} {numbers : List Double}

/-- Functions of any number of arguments are the extremes. -/
theorem variadicFunctions_supplied {name : Text} (h : variadicFunctions.lookup name = some f)
    (numbers : List Double) : Supplied (f numbers) := by
  unfold variadicFunctions at h
  rw [List.lookup_cons] at h
  split at h
  · obtain rfl := Option.some.inj h
    exact supplied_extreme _ _ numbers
  rw [List.lookup_cons] at h
  split at h
  · obtain rfl := Option.some.inj h
    exact supplied_extreme _ _ numbers
  · -- there are no others in the list
    cases h

/-- A symbol of arithmetic has the operands that its function looks for. -/
theorem mathSymbol?_supplied (h : mathSymbol? symbol = some f)
    (hcount : symbol.Takes numbers.length) : Supplied (f numbers) := by
  unfold mathSymbol? at h
  split at h
  · -- a variable is a constant
    obtain ⟨-, h⟩ := Option.ite_none_right_eq_some.mp h
    obtain rfl := Option.some.inj h
    exact supplied_ok _
  · -- an infix operator has two operands or more
    obtain ⟨operation, -, rfl⟩ := Option.map_eq_some_iff.mp h
    exact supplied_binary operation hcount.two_le
  · -- a sign has one
    have hone : 1 ≤ numbers.length := Nat.le_of_eq (Eq.symm hcount)
    split at h
    · obtain rfl := Option.some.inj h
      exact supplied_unary _ hone
    · obtain ⟨-, h⟩ := Option.ite_none_right_eq_some.mp h
      obtain rfl := Option.some.inj h
      exact supplied_unary _ hone
  · -- a function is found with the number of its arguments, or as one of any number
    split at h
    · obtain rfl := Option.some.inj h
      exact supplied_unary _ (Nat.le_of_eq (Arity.exactly.inj hcount))
    · exact variadicFunctions_supplied h numbers
  · split at h
    · obtain rfl := Option.some.inj h
      exact supplied_binary _ (Nat.le_of_eq (Arity.exactly.inj hcount))
    · exact variadicFunctions_supplied h numbers
  · exact variadicFunctions_supplied h numbers
  · cases h

/-- A symbol of logic has the operands that its function looks for. -/
theorem logicSymbol?_supplied (h : logicSymbol? symbol = some f)
    (hcount : symbol.Takes numbers.length) : Supplied (f numbers) := by
  unfold logicSymbol? at h
  split at h
  · split at h
    · -- the choice checks the number of its operands, since it may also have two
      obtain rfl := Option.some.inj h
      exact supplied_choice numbers
    · obtain ⟨test, -, rfl⟩ := Option.map_eq_some_iff.mp h
      exact supplied_binary _ hcount.two_le
  · obtain ⟨-, h⟩ := Option.ite_none_right_eq_some.mp h
    obtain rfl := Option.some.inj h
    exact supplied_unary _ (Nat.le_of_eq (Eq.symm hcount))
  · cases h

end Tables

/-! ### Evaluators -/

/-- The evaluator looks for no more operands than the symbol stands for. -/
def Symbol.Supplies (symbol : Symbol) (evaluator : MachineEvaluator σ ω) : Prop :=
  ∀ arguments, symbol.Takes arguments.length → ∀ machine, Supplied (evaluator arguments machine).1

section Evaluators

variable {symbol : Symbol}

/-- Sending a result does not lose it. -/
theorem supplied_storeResult (machine : Machine σ ω) {outcome : Except (Failure ω) (Value ω)}
    (h : Supplied outcome) : Supplied (machine.storeResult outcome).1 := by
  cases outcome with
  | error failure => exact h.error
  | ok value => exact supplied_ok _

/-- There is a value for each operand. -/
theorem supplies_ofValues {f : List (Value ω) → Except (Failure ω) (Value ω)}
    (h : ∀ values, symbol.Takes values.length → Supplied (f values)) :
    symbol.Supplies (.ofValues f : MachineEvaluator σ ω) := by
  intro arguments hcount machine
  -- the values are loaded one for each number
  refine supplied_storeResult machine (h _ ?_)
  rwa [ValueTable.loadAll, List.length_map]

/-- An operator on one value has it. -/
theorem supplies_unaryValue {f : Value ω → Except (Error ω) (Value ω)}
    (h : ∀ count, symbol.Takes count → 1 ≤ count) :
    symbol.Supplies (.unaryValue f : MachineEvaluator σ ω) := by
  refine supplies_ofValues fun values hcount => ?_
  cases values with
  | nil => cases h 0 hcount
  | cons a rest => exact supplied_mapError (f a)

/-- An operator on two values has both. -/
theorem supplies_binaryValue {f : Value ω → Value ω → Except (Failure ω) (Value ω)}
    (h : ∀ count, symbol.Takes count → 2 ≤ count) (hf : ∀ a b, Supplied (f a b)) :
    symbol.Supplies (.binaryValue f : MachineEvaluator σ ω) := by
  refine supplies_ofValues fun values hcount => ?_
  obtain ⟨a, b, rest, rfl⟩ := exists_of_two_le_length (h _ hcount)
  exact hf a b

/-- A constant looks for no operands. -/
theorem supplies_constant (value : Double) :
    symbol.Supplies (.constant value : MachineEvaluator σ ω) :=
  fun _ _ _ => supplied_ok value

/-- The operator `??` has both of its operands. -/
theorem supplies_coalescing :
    Symbol.coalesce.Supplies (.coalescing : MachineEvaluator σ ω) := by
  intro arguments hcount machine
  obtain ⟨a, b, rest, rfl⟩ := exists_of_two_le_length hcount.two_le
  exact supplied_ok _

/-- A condition counts its operands itself. -/
theorem supplies_conditional : symbol.Supplies (.conditional : MachineEvaluator σ ω) := by
  intro arguments _ machine
  unfold MachineEvaluator.conditional MachineEvaluator.ofTable
  dsimp only
  split
  · split
    · exact supplied_ok _
    · exact supplied_error _
  · exact supplied_error _

/-- Equality has both of its operands. -/
theorem supplies_equality [Host ω] {name : Text} (negated : Bool) :
    (Symbol.infixOp name).Supplies (.equality symbol negated : MachineEvaluator σ ω) := by
  intro arguments hcount machine
  obtain ⟨a, b, rest, rfl⟩ := exists_of_two_le_length hcount.two_le
  exact (supplied_mapError _).map _

/-- What is found for each member of a list is as long as the list. -/
theorem length_of_mapM {α β : Type} {f : α → Option β} {list : List α} {others : List β}
    (h : list.mapM f = some others) : others.length = list.length := by
  induction list generalizing others with
  | nil =>
    obtain rfl := Option.some.inj h
    rfl
  | cons a rest ih =>
    rw [List.mapM_cons] at h
    -- the first member has a value, and so have the others
    obtain ⟨b, -, h⟩ := Option.bind_eq_some_iff.mp h
    obtain ⟨bs, hrest, h⟩ := Option.bind_eq_some_iff.mp h
    obtain rfl := Option.some.inj h
    exact congrArg Nat.succ (ih hrest)

/-- The numbers of the operands are as many as the operands. -/
theorem supplied_onNumbers {f : NumericFunction ω} {arguments : List Double}
    (h : ∀ numbers : List Double, numbers.length = arguments.length → Supplied (f numbers))
    (table : ValueTable ω) : Supplied (MachineEvaluator.onNumbers symbol f table arguments) := by
  unfold MachineEvaluator.onNumbers
  split
  next numbers hnumbers => exact h numbers (length_of_mapM hnumbers)
  · exact supplied_error _

/-- A numeric operator has what its function looks for. -/
theorem supplies_numeric {f : NumericFunction ω}
    (h : ∀ numbers : List Double, symbol.Takes numbers.length → Supplied (f numbers)) :
    symbol.Supplies (.numeric symbol f : MachineEvaluator σ ω) := by
  intro arguments hcount machine
  exact supplied_onNumbers (fun numbers hlength => h numbers (by rwa [hlength])) machine.table

/-- So has a logical one. -/
theorem supplies_logical {f : NumericFunction ω}
    (h : ∀ numbers : List Double, symbol.Takes numbers.length → Supplied (f numbers)) :
    symbol.Supplies (.logical symbol f : MachineEvaluator σ ω) := by
  intro arguments hcount machine
  exact (supplied_onNumbers (fun numbers hlength => h numbers (by rwa [hlength]))
    machine.table).map _

end Evaluators

/-! ### Built-in meanings -/

section BuiltIn

variable [Host ω] {symbol : Symbol} {logic : Bool}

/-- Ranges, subscripts, array literals and string literals. -/
theorem structuralSymbol?_supplies {meaning : Meaning σ ω}
    (h : structuralSymbol? symbol = some meaning) (machine : Machine σ ω) :
    symbol.Supplies (meaning machine).1 := by
  cases symbol with
  | infixOp name =>
    -- an infix operator has two operands or more, whether it is a subscript or a range
    simp only [structuralSymbol?] at h
    split at h
    · obtain rfl := Option.some.inj h
      exact supplies_binaryValue (fun _ => Symbol.Takes.two_le) (supplied_subscript _)
    · obtain ⟨-, h⟩ := Option.ite_none_right_eq_some.mp h
      obtain rfl := Option.some.inj h
      exact supplies_binaryValue (fun _ => Symbol.Takes.two_le) fun _ _ => supplied_mapError _
  | prefixOp name =>
    obtain ⟨-, h⟩ := Option.ite_none_right_eq_some.mp h
    obtain rfl := Option.some.inj h
    exact supplies_unaryValue fun _ hcount => Nat.le_of_eq (Eq.symm hcount)
  | postfixOp name =>
    obtain ⟨-, h⟩ := Option.ite_none_right_eq_some.mp h
    obtain rfl := Option.some.inj h
    exact supplies_unaryValue fun _ hcount => Nat.le_of_eq (Eq.symm hcount)
  | function name arity =>
    obtain ⟨-, h⟩ := Option.ite_none_right_eq_some.mp h
    obtain rfl := Option.some.inj h
    exact supplies_ofValues fun values _ => supplied_ok _
  | var name =>
    obtain ⟨contents, -, rfl⟩ := Option.map_eq_some_iff.mp h
    exact supplies_constant _
  | array name =>
    obtain ⟨contents, -, rfl⟩ := Option.map_eq_some_iff.mp h
    exact supplies_ofValues fun values _ => supplied_subscriptAt _ _ values

/-- Arithmetic. -/
theorem arithmeticSymbol?_supplies {evaluator : MachineEvaluator σ ω}
    (h : arithmeticSymbol? symbol = some evaluator) : symbol.Supplies evaluator := by
  obtain ⟨f, hf, rfl⟩ := Option.map_eq_some_iff.mp h
  split
  -- the sum adds values
  next hsum =>
    subst hsum
    exact supplies_binaryValue (fun _ => Symbol.Takes.two_le) fun _ _ => supplied_mapError _
  · exact supplies_numeric fun _ => mathSymbol?_supplied hf

/-- Logic. -/
theorem logicalSymbol?_supplies {evaluator : MachineEvaluator σ ω}
    (h : logicalSymbol? symbol = some evaluator) : symbol.Supplies evaluator := by
  obtain ⟨f, hf, rfl⟩ := Option.map_eq_some_iff.mp h
  split
  next hequality =>
    rw [hequality]
    exact supplies_equality false
  split
  next hequality =>
    rw [hequality]
    exact supplies_equality true
  split
  · exact supplies_conditional
  · exact supplies_logical fun _ => logicSymbol?_supplied hf

/-- **A built-in meaning looks for no more operands than its symbol stands for.** -/
theorem builtIn?_supplies {meaning : Meaning σ ω} (h : builtIn? logic symbol = some meaning)
    (machine : Machine σ ω) : symbol.Supplies (meaning machine).1 := by
  unfold builtIn? at h
  -- the cases are tried in the order in which they are defined
  extract_lets named at h
  clear_value named
  split at h
  · obtain rfl := Option.some.inj h
    exact supplies_constant _
  split at h
  next hcoalesce =>
    obtain rfl := Option.some.inj h
    rw [hcoalesce]
    exact supplies_coalescing
  split at h
  next evaluator harithmetic =>
    obtain rfl := Option.some.inj h
    exact arithmeticSymbol?_supplies harithmetic
  split at h
  next evaluator hlogical =>
    obtain rfl := Option.some.inj h
    obtain ⟨-, hlogical⟩ := Option.ite_none_right_eq_some.mp hlogical
    exact logicalSymbol?_supplies hlogical
  · exact structuralSymbol?_supplies h machine

end BuiltIn

/-! ### Resolving -/

/-- The host does not answer that an operand is missing, which only an operator says. -/
def HostFunction.Supplied (function : HostFunction σ ω) : Prop :=
  ∀ arguments host, DynExpr.Supplied (function arguments host).1

/-- No function of the host answers that an operand is missing. -/
def HostLookup.Supplied (lookup : HostLookup σ ω) : Prop :=
  ∀ symbol function, lookup.impure? symbol = some function ∨ lookup.pure? symbol = some function →
    function.Supplied

section Resolving

variable {options : Options} {lookup : HostLookup σ ω} {symbol : Symbol}
  {function : HostFunction σ ω}

/-- The failing evaluator looks for no operands. -/
theorem supplies_failing {failure : Failure ω} (h : failure ≠ .missingOperand) :
    symbol.Supplies (.failing failure : MachineEvaluator σ ω) :=
  fun _ _ _ => supplied_error_iff.mpr h

/-- Nor does one that remembers. -/
theorem supplies_remembering {outcome : Except (Failure ω) Double} (h : Supplied outcome) :
    symbol.Supplies (.remembering outcome : MachineEvaluator σ ω) := by
  cases outcome with
  | error failure => exact supplies_failing (supplied_error_iff.mp h)
  | ok value => exact supplies_constant value

/-- The host counts its arguments itself. -/
theorem supplies_ofHost (h : function.Supplied) :
    symbol.Supplies (.ofHost function : MachineEvaluator σ ω) :=
  fun _ _ _ => supplied_storeResult _ (h _ _)

variable [Host ω]

/-- What is no container is an error of an expression. -/
theorem supplied_subscriptReader (symbol : Symbol) (container : Value ω) :
    Supplied (subscriptReader symbol container) := by
  unfold subscriptReader
  split
  · exact supplied_ok _
  · exact supplied_error _

/-- A container is read with the indices that there are. -/
theorem subscriptReader_supplied {container : Value ω}
    {read : List (Value ω) → Except (Failure ω) (Value ω)}
    (h : subscriptReader symbol container = .ok read) (indices : List (Value ω)) :
    Supplied (read indices) := by
  unfold subscriptReader at h
  split at h
  · cases h
    exact supplied_subscriptAt symbol container indices
  · cases h

/-- Reading through a variable of the host. -/
theorem supplies_readingVariable (h : function.Supplied) :
    symbol.Supplies (readingVariable symbol function) := by
  intro arguments _ machine
  have hcontainer := h [] machine.host
  unfold readingVariable
  rcases hresult : function [] machine.host with ⟨failure | container, host⟩
  · -- the host's own failure is none of a missing operand
    rw [hresult] at hcontainer
    exact hcontainer.error
  · have hreader := supplied_subscriptReader symbol container
    dsimp only
    cases hread : subscriptReader symbol container with
    | error failure =>
      rw [hread] at hreader
      exact hreader.error
    | ok read => exact supplied_storeResult _ (subscriptReader_supplied hread _)

/-- Reading a container that was asked for when the symbol was resolved. -/
theorem supplies_ofContainer (h : function.Supplied) (machine : Machine σ ω) :
    symbol.Supplies (Meaning.ofContainer symbol function machine).1 := by
  have hcontainer := h [] machine.host
  unfold Meaning.ofContainer
  rcases hresult : function [] machine.host with ⟨failure | container, host⟩
  · rw [hresult] at hcontainer
    exact supplies_failing (supplied_error_iff.mp hcontainer)
  · have hreader := supplied_subscriptReader symbol container
    dsimp only [Except.bind]
    cases hread : subscriptReader symbol container with
    | error failure =>
      rw [hread] at hreader
      exact supplies_failing (supplied_error_iff.mp hreader)
    | ok read => exact supplies_ofValues fun values _ => subscriptReader_supplied hread values

/-- A symbol without a meaning is an error of an expression. -/
theorem unresolvedFailure_ne_missingOperand (options : Options) (lookup : HostLookup σ ω)
    (symbol : Symbol) : unresolvedFailure options lookup symbol ≠ .missingOperand := by
  unfold unresolvedFailure
  extract_lets resolves probes
  split
  · nofun
  · split
    · nofun
    · nofun

/-- An impure symbol. -/
theorem impureMeaning?_supplies (hlookup : lookup.Supplied) {meaning : Meaning σ ω}
    (h : impureMeaning? options lookup symbol = some meaning) (machine : Machine σ ω) :
    symbol.Supplies (meaning machine).1 := by
  unfold impureMeaning? at h
  split at h
  next function hfunction =>
    obtain rfl := Option.some.inj h
    exact supplies_ofHost (hlookup _ _ (.inl hfunction))
  split at h
  next function hfunction =>
    obtain rfl := Option.some.inj h
    -- the function is the one of the array's variable
    obtain ⟨container, -, hfunction⟩ := Option.bind_eq_some_iff.mp hfunction
    exact supplies_readingVariable (hlookup _ _ (.inl hfunction))
  obtain ⟨-, h⟩ := Option.ite_none_right_eq_some.mp h
  split at h
  next function hfunction =>
    obtain rfl := Option.some.inj h
    exact supplies_ofHost (hlookup _ _ (.inr hfunction))
  · exact builtIn?_supplies h machine

/-- A pure symbol. -/
theorem pureMeaning_supplies (hlookup : lookup.Supplied) (options : Options) (symbol : Symbol)
    (machine : Machine σ ω) : symbol.Supplies (pureMeaning options lookup symbol machine).1 := by
  unfold pureMeaning
  cases hfunction : lookup.pure? symbol with
  | some function =>
    have hsupplied := hlookup _ _ (.inr hfunction)
    dsimp only
    split
    · -- computed now, its outcome is remembered
      exact supplies_remembering (supplied_storeResult _ (hsupplied _ _))
    · exact supplies_ofHost hsupplied
  | none =>
    cases hvariable : symbol.containerOf?.bind lookup.pure? with
    | some function =>
      obtain ⟨container, -, hvariable⟩ := Option.bind_eq_some_iff.mp hvariable
      exact supplies_ofContainer (hlookup _ _ (.inr hvariable)) machine
    | none =>
      cases hmeaning : (builtIn? options.logic symbol : Option (Meaning σ ω)) with
      | some meaning => exact builtIn?_supplies hmeaning machine
      | none =>
        exact supplies_failing (unresolvedFailure_ne_missingOperand options lookup symbol)

end Resolving

end DynExpr
