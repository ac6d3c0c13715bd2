import DynExpr.Node

/-!
# Evaluation and folding over a numeric channel

An expression is evaluated as a tree of calls between which only doubles travel. What a symbol
does is an `Evaluator`, which may read and change a state and may fail. A failure ends the
evaluation, but the state keeps what was done to it.

Symbols are resolved in two ways. An *impure* evaluator is called at every evaluation. A *pure*
one may be called once and for all while the tree is being built: a node whose operands have all
become literals is *folded* to the literal of its result. If the pure evaluator fails there, the
failure is remembered and the node fails with it at every evaluation.

* `EvalNode.evaluate` evaluates a tree: operands from left to right, then the symbol.
* `fold` builds the tree of an expression, folding from the leaves up.
* `EvalNode.symbols` is the set of symbols that are still called.
-/

namespace DynExpr

/-- A computation that reads and changes a state of type `σ` and may fail with an `ε`. -/
abbrev Action (σ ε α : Type) := σ → Except ε α × σ

/-- What a symbol does to the numbers of its operands. -/
abbrev Evaluator (σ ε : Type) := List Double → Action σ ε Double

namespace Evaluator

variable {σ ε : Type}

/-- The evaluator that yields a number. -/
def constant (value : Double) : Evaluator σ ε := fun _ state => (.ok value, state)

/-- The evaluator that fails. -/
def failing (failure : ε) : Evaluator σ ε := fun _ state => (.error failure, state)

/-- The evaluator that always ends as a computation has ended. -/
def remembering : Except ε Double → Evaluator σ ε
  | .ok value => constant value
  | .error failure => failing failure

end Evaluator

/-- A tree ready for evaluation. -/
inductive EvalNode (σ ε : Type)
  | literal (value : Double)
  | call (symbol : Symbol) (evaluator : Evaluator σ ε) (children : List (EvalNode σ ε))

namespace EvalNode

variable {σ ε : Type}

/-- The number that a literal is. -/
def literal? : EvalNode σ ε → Option Double
  | literal value => some value
  | call _ _ _ => none

mutual
/-- Evaluates a tree: all operands in order, then the symbol. -/
def evaluate : EvalNode σ ε → Action σ ε Double
  | literal value => fun state => (.ok value, state)
  | call _ evaluator children => fun state =>
    match evaluateAll children state with
    | (.ok arguments, state) => evaluator arguments state
    | (.error failure, state) => (.error failure, state)

/-- Evaluates trees in order, up to the first failure. -/
def evaluateAll : List (EvalNode σ ε) → Action σ ε (List Double)
  | [] => fun state => (.ok [], state)
  | node :: rest => fun state =>
    match evaluate node state with
    | (.error failure, state) => (.error failure, state)
    | (.ok value, state) =>
      match evaluateAll rest state with
      | (.ok values, state) => (.ok (value :: values), state)
      | (.error failure, state) => (.error failure, state)
end

mutual
/-- Adds the symbols that a tree calls to a set. -/
def addSymbols (set : SymbolSet) : EvalNode σ ε → SymbolSet
  | literal _ => set
  | call symbol _ children => addSymbolsOfAll (SymbolSet.insert symbol set) children

/-- Adds the symbols that all trees of a list call to a set. -/
def addSymbolsOfAll (set : SymbolSet) : List (EvalNode σ ε) → SymbolSet
  | [] => set
  | node :: rest => addSymbolsOfAll (node.addSymbols set) rest
end

/-- The symbols that a tree calls. -/
def symbols (node : EvalNode σ ε) : SymbolSet := node.addSymbols []

/-- The numbers of literals, if all trees of a list are literals. -/
def literals? : List (EvalNode σ ε) → Option (List Double)
  | [] => some []
  | node :: rest =>
    match node.literal?, literals? rest with
    | some value, some values => some (value :: values)
    | _, _ => none

end EvalNode

/-! ### Folding -/

/-- How symbols are resolved. Resolving may itself change the state. The pure evaluator is
asked for where there is no impure one, and where no replacement is put in the place of the
call. -/
structure Resolution (σ ε : Type) where
  impure? : Symbol → σ → Option (Evaluator σ ε) × σ
  pure : Symbol → σ → Evaluator σ ε × σ
  replacement? : Symbol → List (EvalNode σ ε) → Option (EvalNode σ ε)

variable {σ ε : Type}

/-- Builds the node of a symbol whose operands are built: an impure call, a replacement, the
literal of a pure call with literal operands, or a pure call. -/
def foldCall (resolution : Resolution σ ε) (symbol : Symbol) (children : List (EvalNode σ ε)) :
    σ → EvalNode σ ε × σ := fun state =>
  match resolution.impure? symbol state with
  | (some evaluator, state) => (.call symbol evaluator children, state)
  | (none, state) =>
    match resolution.replacement? symbol children with
    | some node => (node, state)
    | none =>
      let (evaluator, state) := resolution.pure symbol state
      match EvalNode.literals? children with
      | none => (.call symbol evaluator children, state)
      | some arguments =>
        -- all operands are known, and so is the result, be it a number or a failure
        match evaluator arguments state with
        | (.ok value, state) => (.literal value, state)
        | (.error failure, state) => (.call symbol (.failing failure) children, state)

mutual
/-- Builds the evaluation tree of an expression. -/
def fold (resolution : Resolution σ ε) : Node → σ → EvalNode σ ε × σ
  | .number value => fun state => (.literal value, state)
  | .apply symbol children => fun state =>
    let (children, state) := foldAll resolution children state
    foldCall resolution symbol children state

/-- Builds the evaluation trees of the operands, from left to right. -/
def foldAll (resolution : Resolution σ ε) : List Node → σ → List (EvalNode σ ε) × σ
  | [] => fun state => ([], state)
  | node :: rest => fun state =>
    let (node, state) := fold resolution node state
    let (nodes, state) := foldAll resolution rest state
    (node :: nodes, state)
end

end DynExpr
