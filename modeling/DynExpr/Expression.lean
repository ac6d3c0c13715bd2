import DynExpr.Node.Parser
import DynExpr.Operators

/-!
# Compiled expressions

An expression is compiled once and evaluated any number of times. Compiling resolves every
symbol. The host is asked first: its impure functions are called at every evaluation, its pure
ones may be called while compiling. Then come the built-in meanings, and a symbol that has none
fails when it is reached. So compiling itself never fails, and what does not change from one
evaluation to the next is computed only once.

A host that defines a variable but not the array of the same name gets subscripts for free: the
value of the variable is subscripted.

* `Options` chooses logic, purity of the host's operators and functions, and folding.
* `HostLookup` is what the host defines; `HostLookup.ofTables` combines constants with a table.
* `compile` compiles a tree, `Expression.run` evaluates the result. Whatever an evaluation adds
  to the table of values is forgotten afterwards, also if it fails.
-/

namespace DynExpr

variable {σ ω : Type}

/-! ### Options and definitions of the host -/

/-- How an expression is compiled. -/
structure Options where
  logic : Bool
  pureSymbols : Bool
  unfolded : Bool
deriving DecidableEq

/-- Logic, impure host functions, and folding. -/
def Options.standard : Options := ⟨true, false, false⟩

/-- What the host defines: for each symbol an impure function, which is called at every
evaluation, or a pure one, which may be called while compiling. -/
structure HostLookup (σ ω : Type) where
  impure? : Symbol → Option (HostFunction σ ω)
  pure? : Symbol → Option (HostFunction σ ω)

/-- Named constants of the host. -/
abbrev Constants (ω : Type) := Text → Option (Value ω)

/-- Symbols defined by the host. -/
abbrev SymbolTable (σ ω : Type) := Symbol → Option (HostFunction σ ω)

/-- The function that a table defines for a symbol. A function without an entry for its number
of arguments is looked up with any number. -/
def SymbolTable.find? (table : SymbolTable σ ω) (symbol : Symbol) : Option (HostFunction σ ω) :=
  match table symbol, symbol with
  | some function, _ => some function
  | none, .function name (.exactly _) => table (.function name .any)
  | none, _ => none

/-- A constant read as a symbol: as a variable it is its value, as an array it is subscripted. -/
def constantFunction [Host ω] (symbol : Symbol) (value : Value ω) : HostFunction σ ω :=
  fun arguments host =>
    match symbol with
    | .array _ => (subscriptAt symbol value arguments, host)
    | _ => (.ok value, host)

/-- The value of the constant that a symbol reads: the one with the name of a variable or an
array. -/
def Constants.of? (constants : Constants ω) : Symbol → Option (Value ω)
  | .var name => constants name
  | .array name => constants name
  | _ => none

/-- The symbol reads a name: it is a variable or an array. -/
def Symbol.isVariableLike : Symbol → Bool
  | .var _ | .array _ => true
  | _ => false

/-- Combines constants with a table of symbols. Constants are pure and hide variables and arrays
of the same name; other variables and arrays are impure. Operators and functions are impure,
or pure if the options say so. -/
def HostLookup.ofTables [Host ω] (options : Options) (constants : Constants ω)
    (table : SymbolTable σ ω) : HostLookup σ ω where
  impure? symbol :=
    if symbol.isVariableLike then
      (if (constants.of? symbol).isSome then none else table.find? symbol)
    else if options.pureSymbols then none
    else table.find? symbol
  pure? symbol :=
    match constants.of? symbol with
    | some value => some (constantFunction symbol value)
    | none => table.find? symbol

/-! ### Resolving symbols -/

/-- The greatest number of arguments that is tried for a function that is not found. -/
def greatestProbedArity : Nat := 10

/-- The failure of a symbol without a meaning. If a function of the same name has a meaning with
another number of arguments, the least such number is the one expected. -/
def unresolvedFailure [Host ω] (options : Options) (lookup : HostLookup σ ω) (symbol : Symbol) :
    Failure ω :=
  let resolves (probe : Symbol) : Bool :=
    (lookup.impure? probe).isSome || (lookup.pure? probe).isSome ||
      (builtIn? options.logic probe : Option (Meaning σ ω)).isSome
  let probes : List Symbol :=
    match symbol with
    | .function name _ =>
      (List.range (greatestProbedArity + 1)).map fun count => .function name (.exactly count)
    | _ => []
  match probes.find? resolves with
  | some probe => .error (.arityMismatch probe)
  | none =>
    if symbol = .comma then .error (.unexpectedToken (utf8 ","))
    else .error (.undefinedSymbol symbol)

/-- The variable with the name of an array. -/
def Symbol.containerOf? : Symbol → Option Symbol
  | .array name => some (.var name)
  | _ => none

/-- Reads an array through the host's impure variable of its name: the variable is read at every
evaluation. -/
def readingVariable [Host ω] (symbol : Symbol) (variableFunction : HostFunction σ ω) :
    MachineEvaluator σ ω := fun arguments machine =>
  match variableFunction [] machine.host with
  | (.error failure, host) => (.error failure, { machine with host })
  | (.ok container, host) =>
    let machine := { machine with host }
    match subscriptReader symbol container with
    | .error failure => (.error failure, machine)
    | .ok read => machine.storeResult (read (machine.table.loadAll arguments))

/-- The impure meaning of a symbol: what the host calls at every evaluation. Without folding,
pure functions and built-in meanings are called at every evaluation, too. -/
def impureMeaning? [Host ω] (options : Options) (lookup : HostLookup σ ω) (symbol : Symbol) :
    Option (Meaning σ ω) :=
  match lookup.impure? symbol with
  | some function => some (.plain (.ofHost function))
  | none =>
    match symbol.containerOf?.bind lookup.impure? with
    | some function => some (.plain (readingVariable symbol function))
    | none =>
      -- an array of a pure variable is left to the pure meaning
      if options.unfolded then
        match lookup.pure? symbol with
        | some function => some (.plain (.ofHost function))
        | none => builtIn? options.logic symbol
      else none

/-- Whether a pure symbol is computed as soon as it is resolved: a variable, or a function
without arguments. -/
def Symbol.isConstantLike : Symbol → Bool
  | .var _ => true
  | .function _ arity => arity == .exactly 0
  | _ => false

/-- Computes a pure value when its symbol is resolved; a failure is remembered. -/
def Meaning.computed (function : HostFunction σ ω) : Meaning σ ω := fun machine =>
  let (result, machine) := Machine.callHost function [] machine
  (.remembering result, machine)

/-- Reads an array through the host's pure variable of its name: the variable is read when the
symbol is resolved, and a failure is remembered. -/
def Meaning.ofContainer [Host ω] (symbol : Symbol) (variableFunction : HostFunction σ ω) :
    Meaning σ ω := fun machine =>
  let (container, host) := variableFunction [] machine.host
  let machine := { machine with host }
  match container.bind (subscriptReader symbol) with
  | .ok read => (MachineEvaluator.ofValues read, machine)
  | .error failure => (.failing failure, machine)

/-- The pure meaning of a symbol: what the host defines as pure, a built-in meaning, or the
failure of a symbol that has none. -/
def pureMeaning [Host ω] (options : Options) (lookup : HostLookup σ ω) (symbol : Symbol) :
    Meaning σ ω :=
  match lookup.pure? symbol with
  | some function =>
    if symbol.isConstantLike then .computed function else .plain (.ofHost function)
  | none =>
    match symbol.containerOf?.bind lookup.pure? with
    | some function => .ofContainer symbol function
    | none =>
      match builtIn? options.logic symbol with
      | some meaning => meaning
      | none => .plain (.failing (unresolvedFailure options lookup symbol))

/-- What replaces a call: the coalescing operator with a literal on its left is one of its
operands, unless the host defines the operator. -/
def coalescingReplacement? (lookup : HostLookup σ ω) (symbol : Symbol)
    (children : List (EvalNode (Machine σ ω) (Failure ω))) :
    Option (EvalNode (Machine σ ω) (Failure ω)) :=
  match children with
  | [left, right] =>
    if symbol = .coalesce ∧ (lookup.pure? symbol).isNone then
      left.literal?.map fun value => if value = Channel.nil then right else left
    else none
  | _ => none

/-- How the symbols of an expression are resolved. -/
def resolution [Host ω] (options : Options) (lookup : HostLookup σ ω) :
    Resolution (Machine σ ω) (Failure ω) where
  impure? symbol machine :=
    match impureMeaning? options lookup symbol with
    | some meaning =>
      let (evaluator, machine) := meaning machine
      (some evaluator, machine)
    | none => (none, machine)
  pure symbol := pureMeaning options lookup symbol
  replacement? := coalescingReplacement? lookup

/-! ### Expressions -/

/-- A compiled expression: its tree, the number of table entries that belong to it, and its
normalized text. -/
structure Expression (σ ω : Type) where
  root : EvalNode (Machine σ ω) (Failure ω)
  baseline : Nat
  description : Text

/-- Compiles a tree, starting from an empty table. -/
def compile [Host ω] (options : Options) (lookup : HostLookup σ ω) (node : Node) (host : σ) :
    Expression σ ω × Machine σ ω :=
  let (root, machine) := fold (resolution options lookup) node ⟨host, .empty⟩
  (⟨root, machine.table.size, node.describe⟩, machine)

namespace Expression

/-- The symbols that an evaluation calls. -/
def symbols (expression : Expression σ ω) : SymbolSet := expression.root.symbols

/-- Evaluates an expression. Afterwards the table is as long as before. -/
def run (expression : Expression σ ω) : Action (Machine σ ω) (Failure ω) (Value ω) :=
  fun machine =>
    let (result, machine) := expression.root.evaluate machine
    (result.map machine.table.load,
      { machine with table := machine.table.truncate expression.baseline })

end Expression

end DynExpr
