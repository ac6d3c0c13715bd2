import DynExpr.Expression
import DynExpr.Proofs.Channel.RoundTrip

/-!
# The value of an expression

What an expression means can be said without tables, doubles that carry values, or compiling. A
symbol stands for a function on values, and the value of a tree is found from the leaves up: the
operands are evaluated from left to right, the function is applied to their values, and the result
is brought into its form by `Value.norm`.

* `builtInOnValues?` are the functions that every expression has: coercions, arithmetic, logic,
  subscripts, ranges and literals.
* `symbolFunction` is the function of every symbol, given the constants and the table of the host.
* `Node.interpret` is the value of a tree, or the failure that keeps it from having one.

Two properties of trees appear in what is proved about it. `Node.TagFree` says that no reserved
double arises in the interpretation, and `Node.Calls` that a symbol occurs in the tree.
-/

namespace DynExpr

variable {σ ω : Type}

/-- A function on values that may fail. -/
abbrev ValueFunction (ω : Type) := List (Value ω) → Except (Failure ω) (Value ω)

/-! ### Built-in functions -/

namespace ValueFunction

/-- A numeric function on the numbers of the operands; an operand without a number is an error
about all operands. -/
def onNumbers (symbol : Symbol) (f : NumericFunction ω) (values : List (Value ω)) :
    Except (Failure ω) Double :=
  match values.mapM Value.numeric? with
  | some numbers => f numbers
  | none => .error (.error (.typeMismatch symbol values))

/-- A numeric function, with a number as its result. -/
def numeric (symbol : Symbol) (f : NumericFunction ω) : ValueFunction ω :=
  fun values => (onNumbers symbol f values).map .double

/-- A numeric condition, with a truth value as its result. -/
def logical (symbol : Symbol) (f : NumericFunction ω) : ValueFunction ω :=
  fun values => (onNumbers symbol f values).map fun d => .bool d.isTrue

/-- A function of one value. -/
def unary (f : Value ω → Except (Error ω) (Value ω)) : ValueFunction ω
  | a :: _ => (f a).mapError .error
  | [] => .error .missingOperand

/-- A function of two values. -/
def binary (f : Value ω → Value ω → Except (Failure ω) (Value ω)) : ValueFunction ω
  | a :: b :: _ => f a b
  | _ => .error .missingOperand

/-- Equality, or its negation. -/
def equality [Host ω] (symbol : Symbol) (negated : Bool) : ValueFunction ω
  | a :: b :: _ =>
    ((equalValues symbol a b).mapError .error).map fun equal => .bool (equal != negated)
  | _ => .error .missingOperand

/-- The choice of the second or third value by the number of the first. -/
def conditional : ValueFunction ω
  | [a, b, c] =>
    match a.numeric? with
    | some condition => .ok (if condition.isTrue then b else c)
    | none => .error (.error (.typeMismatch .conditional [a, b, c]))
  | _ => .error (.error (.undefinedSymbol .conditional))

/-- The first value, or the second one where the first is nil. -/
def coalescing : ValueFunction ω
  | a :: b :: _ => .ok (if a.isNil then b else a)
  | _ => .error .missingOperand

end ValueFunction

open ValueFunction

/-- The value that a name for a single truth value or nil stands for. -/
def namedValue? (name : Text) : Option (Value ω) :=
  if name = utf8 "true" then some (.bool true)
  else if name = utf8 "false" then some (.bool false)
  else if name = utf8 "nil" then some .nil
  else none

/-- The functions of subscripts, ranges and literals. -/
def structuralOnValues? [Host ω] (symbol : Symbol) : Option (ValueFunction ω) :=
  match symbol with
  | .infixOp name =>
    if name = Symbol.brackets then some (binary (subscript symbol))
    else if isRangeName name then
      some (binary fun a b => (makeRange symbol a b).mapError .error)
    else none
  | .prefixOp name => if isRangeName name then some (unary (makePartialRange symbol)) else none
  | .postfixOp name =>
    if name = closedRangeName then some (unary (makePartialRange symbol)) else none
  | .function name _ =>
    if name = Symbol.brackets then some fun values => .ok (.array values) else none
  | .var name => (Text.unquoted? name).map fun contents _ => .ok (.string contents)
  | .array name => (Text.unquoted? name).map fun contents => subscriptAt symbol (.string contents)

/-- The functions of arithmetic: on numbers, except that a sum adds values. -/
def arithmeticOnValues? [Host ω] (symbol : Symbol) : Option (ValueFunction ω) :=
  (mathSymbol? symbol).map fun f =>
    if symbol = .infixOp (utf8 "+") then binary fun a b => (add symbol a b).mapError .error
    else numeric symbol f

/-- The functions of logic: equality compares values, the choice is between values, and all else
is a condition on numbers. -/
def logicalOnValues? [Host ω] (symbol : Symbol) : Option (ValueFunction ω) :=
  (logicSymbol? symbol).map fun f =>
    if symbol = .infixOp (utf8 "==") then equality symbol false
    else if symbol = .infixOp (utf8 "!=") then equality symbol true
    else if symbol = .conditional then conditional
    else logical symbol f

/-- The built-in function of a symbol, if it has one. -/
def builtInOnValues? [Host ω] (logic : Bool) (symbol : Symbol) : Option (ValueFunction ω) :=
  let named : Option (Value ω) :=
    match symbol with
    | .var name => namedValue? name
    | _ => none
  match named with
  | some value => some fun _ => .ok value
  | none =>
    if symbol = .coalesce then some coalescing
    else
      match arithmeticOnValues? symbol with
      | some f => some f
      | none =>
        match (if logic then logicalOnValues? symbol else none) with
        | some f => some f
        | none => structuralOnValues? symbol

/-! ### The functions of all symbols -/

/-- What a function of the host answers in a given state of the host. -/
def HostFunction.answer (function : HostFunction σ ω) (host : σ) : ValueFunction ω :=
  fun arguments => (function arguments host).1

/-- Reads a variable of the host, as the host yields it, and subscripts it. -/
def subscriptingAnswer [Host ω] (symbol : Symbol) (answer : ValueFunction ω) : ValueFunction ω :=
  fun indices =>
    match answer [] with
    | .error failure => .error failure
    | .ok container =>
      match subscriptReader symbol container with
      | .error failure => .error failure
      | .ok read => read indices

/-- The function of a symbol: a constant, a function of the host, an array read through the host's
variable of its name, a built-in function, or else the failure of a symbol without a meaning. -/
def symbolFunction [Host ω] (options : Options) (constants : Constants ω)
    (table : SymbolTable σ ω) (host : σ) (symbol : Symbol) : ValueFunction ω :=
  match constants.of? symbol with
  | some value => (constantFunction symbol value).answer host
  | none =>
    match table.find? symbol with
    | some function => function.answer host
    | none =>
      match symbol.containerOf?.bind table.find? with
      | some function => subscriptingAnswer symbol (function.answer host)
      | none =>
        match builtInOnValues? options.logic symbol with
        | some f => f
        | none => fun _ =>
          .error (unresolvedFailure options (.ofTables options constants table) symbol)

/-! ### Trees -/

namespace Node

mutual
/-- The value of a tree: its operands in order, then the function of its symbol. -/
def interpret (meaning : Symbol → ValueFunction ω) : Node → Except (Failure ω) (Value ω)
  | number value => .ok (.double value)
  | apply symbol children =>
    match interpretAll meaning children with
    | .ok values => (meaning symbol values).map Value.norm
    | .error failure => .error failure

/-- The values of trees in order, up to the first failure. -/
def interpretAll (meaning : Symbol → ValueFunction ω) :
    List Node → Except (Failure ω) (List (Value ω))
  | [] => .ok []
  | node :: rest =>
    match interpret meaning node with
    | .error failure => .error failure
    | .ok value =>
      match interpretAll meaning rest with
      | .ok values => .ok (value :: values)
      | .error failure => .error failure
end

mutual
/-- No function that is applied in the interpretation of the tree yields a reserved double. -/
def TagFree (meaning : Symbol → ValueFunction ω) : Node → Prop
  | number _ => True
  | apply symbol children =>
    AllTagFree meaning children ∧
      ∀ values v, interpretAll meaning children = .ok values → meaning symbol values = .ok v →
        v.TagFree

/-- None yields a reserved double in the interpretation of the trees, which ends with the first
failure. -/
def AllTagFree (meaning : Symbol → ValueFunction ω) : List Node → Prop
  | [] => True
  | node :: rest =>
    node.TagFree meaning ∧ ∀ v, interpret meaning node = .ok v → AllTagFree meaning rest
end

/-- The symbol occurs in the tree. -/
inductive Calls (symbol : Symbol) : Node → Prop
  | here (children : List Node) : Calls symbol (.apply symbol children)
  | inside {other : Symbol} {children : List Node} {child : Node} (hmem : child ∈ children)
      (h : Calls symbol child) : Calls symbol (.apply other children)

end Node

end DynExpr
