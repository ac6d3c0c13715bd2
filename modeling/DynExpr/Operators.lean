import DynExpr.Channel
import DynExpr.Evaluation
import DynExpr.StandardSymbols
import DynExpr.Subscript

/-!
# Operators on values

Built-in symbols work on the doubles that carry values. Each looks at its operands through the
table and sends its result through it.

* Arithmetic and logic take the numbers of their operands; logic yields truth values.
* The sum, equality, subscripts, ranges and array literals work on values.
* The choice and the coalescing operator pass one of their operands on as it is.
* A string literal is stored when its symbol is resolved, once for all evaluations.

`builtIn?` is the meaning of every symbol that has one.
-/

namespace DynExpr

/-- The state of an evaluation: the host's own, and the values that are underway. -/
structure Machine (σ ω : Type) where
  host : σ
  table : ValueTable ω

variable {σ ω : Type}

/-- An evaluator of the machine. -/
abbrev MachineEvaluator (σ ω : Type) := Evaluator (Machine σ ω) (Failure ω)

/-- What the host does for a symbol. -/
abbrev HostFunction (σ ω : Type) := List (Value ω) → Action σ (Failure ω) (Value ω)

namespace Machine

/-- Sends a value. -/
def store (machine : Machine σ ω) (value : Value ω) : Double × Machine σ ω :=
  let (d, table) := machine.table.store value
  (d, { machine with table })

/-- Sends the result of a computation, unless it failed. -/
def storeResult (machine : Machine σ ω) :
    Except (Failure ω) (Value ω) → Except (Failure ω) Double × Machine σ ω
  | .ok value =>
    let (d, machine) := machine.store value
    (.ok d, machine)
  | .error failure => (.error failure, machine)

/-- Lets the host compute a value, and sends it. -/
def callHost (function : HostFunction σ ω) (arguments : List (Value ω)) :
    Action (Machine σ ω) (Failure ω) Double := fun machine =>
  let (result, host) := function arguments machine.host
  Machine.storeResult { machine with host } result

end Machine

namespace MachineEvaluator

/-- The evaluator that computes a double from the doubles of its operands and the table. -/
def ofTable (f : ValueTable ω → List Double → Except (Failure ω) Double) :
    MachineEvaluator σ ω := fun arguments machine => (f machine.table arguments, machine)

/-- The evaluator that computes a value from the values of its operands. -/
def ofValues (f : List (Value ω) → Except (Failure ω) (Value ω)) : MachineEvaluator σ ω :=
  fun arguments machine => machine.storeResult (f (machine.table.loadAll arguments))

/-- The evaluator that the host computes. -/
def ofHost (function : HostFunction σ ω) : MachineEvaluator σ ω :=
  fun arguments machine => Machine.callHost function (machine.table.loadAll arguments) machine

/-- Applies a function to the numbers of the operands; an operand without a number is an error
about all operands. -/
def onNumbers (symbol : Symbol) (f : NumericFunction ω) (table : ValueTable ω)
    (arguments : List Double) : Except (Failure ω) Double :=
  match arguments.mapM table.number? with
  | some numbers => f numbers
  | none => .error (.error (.typeMismatch symbol (table.loadAll arguments)))

/-- A numeric function as an evaluator. -/
def numeric (symbol : Symbol) (f : NumericFunction ω) : MachineEvaluator σ ω :=
  ofTable (onNumbers symbol f)

/-- A numeric condition as an evaluator that yields a truth value. -/
def logical (symbol : Symbol) (f : NumericFunction ω) : MachineEvaluator σ ω :=
  ofTable fun table arguments =>
    (onNumbers symbol f table arguments).map fun d => Channel.ofBool d.isTrue

/-- A function of one value as an evaluator. -/
def unaryValue (f : Value ω → Except (Error ω) (Value ω)) : MachineEvaluator σ ω :=
  ofValues fun
    | a :: _ => (f a).mapError .error
    | [] => .error .missingOperand

/-- A function of two values as an evaluator. -/
def binaryValue (f : Value ω → Value ω → Except (Failure ω) (Value ω)) : MachineEvaluator σ ω :=
  ofValues fun
    | a :: b :: _ => f a b
    | _ => .error .missingOperand

/-- Equality, or its negation, as an evaluator. -/
def equality [Host ω] (symbol : Symbol) (negated : Bool) : MachineEvaluator σ ω :=
  ofTable fun table arguments =>
    match arguments with
    | a :: b :: _ =>
      ((equalValues symbol (table.load a) (table.load b)).mapError .error).map fun equal =>
        Channel.ofBool (equal != negated)
    | _ => .error .missingOperand

/-- The choice of the second or third operand by the number of the first. -/
def conditional : MachineEvaluator σ ω :=
  ofTable fun table arguments =>
    match arguments with
    | [a, b, c] =>
      match table.number? a with
      | some condition => .ok (if condition.isTrue then b else c)
      | none => .error (.error (.typeMismatch .conditional (table.loadAll arguments)))
    | _ => .error (.error (.undefinedSymbol .conditional))

/-- The first operand, or the second one where the first is nil. -/
def coalescing : MachineEvaluator σ ω :=
  ofTable fun _ arguments =>
    match arguments with
    | a :: b :: _ => .ok (if a = Channel.nil then b else a)
    | _ => .error .missingOperand

end MachineEvaluator

open MachineEvaluator

/-- A meaning that is established when its symbol is resolved. -/
abbrev Meaning (σ ω : Type) := Machine σ ω → MachineEvaluator σ ω × Machine σ ω

/-- A meaning that takes nothing to establish. -/
def Meaning.plain (evaluator : MachineEvaluator σ ω) : Meaning σ ω :=
  fun machine => (evaluator, machine)

/-- A constant value: it is stored when the symbol is resolved. -/
def Meaning.stored (value : Value ω) : Meaning σ ω := fun machine =>
  let (d, machine) := machine.store value
  (.constant d, machine)

/-- The double that a symbol for a single truth value or nil stands for. -/
def namedConstant? (name : Text) : Option Double :=
  if name = utf8 "true" then some (Channel.ofBool true)
  else if name = utf8 "false" then some (Channel.ofBool false)
  else if name = utf8 "nil" then some Channel.nil
  else none

/-- The name of an operator that builds ranges. -/
def isRangeName (name : Text) : Bool := name == closedRangeName || name == halfOpenRangeName

/-- The meaning of a symbol for subscripts, ranges and literals. -/
def structuralSymbol? [Host ω] (symbol : Symbol) : Option (Meaning σ ω) :=
  match symbol with
  | .infixOp name =>
    if name = Symbol.brackets then some (.plain (binaryValue (subscript symbol)))
    else if isRangeName name then
      some (.plain (binaryValue fun a b => (makeRange symbol a b).mapError .error))
    else none
  | .prefixOp name =>
    if isRangeName name then some (.plain (unaryValue (makePartialRange symbol))) else none
  | .postfixOp name =>
    if name = closedRangeName then some (.plain (unaryValue (makePartialRange symbol))) else none
  | .function name _ =>
    if name = Symbol.brackets then some (.plain (ofValues fun values => .ok (.array values)))
    else none
  | .var name => (Text.unquoted? name).map fun contents => .stored (.string contents)
  | .array name =>
    (Text.unquoted? name).map fun contents =>
      .plain (ofValues (subscriptAt symbol (.string contents)))

/-- The meaning of a symbol of arithmetic: on numbers, except that a sum adds values. -/
def arithmeticSymbol? [Host ω] (symbol : Symbol) : Option (MachineEvaluator σ ω) :=
  (mathSymbol? symbol).map fun f =>
    if symbol = .infixOp (utf8 "+") then
      binaryValue fun a b => (add symbol a b).mapError .error
    else numeric symbol f

/-- The meaning of a symbol of logic: equality compares values, the choice passes values on,
and all else is a condition on numbers. -/
def logicalSymbol? [Host ω] (symbol : Symbol) : Option (MachineEvaluator σ ω) :=
  (logicSymbol? symbol).map fun f =>
    if symbol = .infixOp (utf8 "==") then equality symbol false
    else if symbol = .infixOp (utf8 "!=") then equality symbol true
    else if symbol = .conditional then conditional
    else logical symbol f

/-- The built-in meaning of a symbol, if it has one. Truth values and nil come first, then the
coalescing operator, arithmetic, logic if it is asked for, and the structural symbols. -/
def builtIn? [Host ω] (logic : Bool) (symbol : Symbol) : Option (Meaning σ ω) :=
  let named :=
    match symbol with
    | .var name => namedConstant? name
    | _ => none
  match named with
  | some value => some (.plain (.constant value))
  | none =>
    if symbol = .coalesce then some (.plain coalescing)
    else
      match arithmeticSymbol? symbol with
      | some evaluator => some (.plain evaluator)
      | none =>
        match (if logic then logicalSymbol? symbol else none) with
        | some evaluator => some (.plain evaluator)
        | none => structuralSymbol? symbol

end DynExpr
