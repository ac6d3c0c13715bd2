import DynExpr.Double
import DynExpr.Failure

/-!
# Standard symbols

The arithmetic that every expression has, on plain numbers: operators, functions of one and
two arguments, and the extremes of any number of arguments. The logic of comparisons and
connectives is a second table, so that a host may do without it. Truth is one and falsity is
zero; every number but zero counts as true, a NaN included.

* `mathSymbol?` and `logicSymbol?` are the two tables.
-/

namespace DynExpr

variable {ω : Type}

/-- A function of numbers that may fail. -/
abbrev NumericFunction (ω : Type) := List Double → Except (Failure ω) Double

namespace NumericFunction

/-- A function of the first argument. -/
def unary (f : Double → Double) : NumericFunction ω
  | a :: _ => .ok (f a)
  | [] => .error .missingOperand

/-- A function of the first two arguments. -/
def binary (f : Double → Double → Double) : NumericFunction ω
  | a :: b :: _ => .ok (f a b)
  | _ => .error .missingOperand

/-- A condition on the first two arguments, as a number. -/
def condition (f : Double → Double → Bool) : NumericFunction ω :=
  binary fun a b => Double.ofBool (f a b)

/-- The first argument that no later one exceeds, where `exceeds a b` says that `b` exceeds
`a`. There must be an argument. -/
def extreme (name : Text) (exceeds : Double → Double → Bool) : NumericFunction ω
  | [] => .error (.error (.arityMismatch (.function name (.exactly 1))))
  | a :: rest => .ok (rest.foldl (fun best x => if exceeds best x then x else best) a)

end NumericFunction

/-- A number counts as true. -/
def Double.isTrue (d : Double) : Bool := !d.equal .zero

open NumericFunction

/-! ### Arithmetic -/

/-- The functions of one argument. -/
def unaryFunctions : List (Text × (Double → Double)) :=
  [(utf8 "sqrt", Double.sqrt), (utf8 "floor", Double.floor), (utf8 "ceil", Double.ceiling),
    (utf8 "round", Double.round), (utf8 "cos", Double.cos), (utf8 "sin", Double.sin),
    (utf8 "tan", Double.tan), (utf8 "ctan", Double.cotan), (utf8 "acos", Double.acos),
    (utf8 "asin", Double.asin), (utf8 "atan", Double.atan), (utf8 "arccos", Double.acos),
    (utf8 "arcsin", Double.asin), (utf8 "abs", Double.abs), (utf8 "log", Double.log),
    (utf8 "exp", Double.exp)]

/-- The functions of two arguments. -/
def binaryFunctions : List (Text × (Double → Double → Double)) :=
  [(utf8 "pow", Double.pow), (utf8 "atan2", Double.atan2), (utf8 "mod", Double.remainder)]

/-- The infix operators of arithmetic. -/
def arithmeticOperators : List (Text × (Double → Double → Double)) :=
  [(utf8 "+", Double.add), (utf8 "-", Double.sub), (utf8 "*", Double.mul), (utf8 "/", Double.div),
    (utf8 "%", Double.remainder)]

/-- The functions of any number of arguments. -/
def variadicFunctions : List (Text × NumericFunction ω) :=
  [(utf8 "max", extreme (utf8 "max") Double.less),
    (utf8 "min", extreme (utf8 "min") fun best x => x.less best)]

/-- The meaning of a symbol of arithmetic. A function is found by its exact number of arguments
first, and among the functions of any number of arguments else. -/
def mathSymbol? : Symbol → Option (NumericFunction ω)
  | .var name => if name = utf8 "pi" then some fun _ => .ok .pi else none
  | .infixOp name => (arithmeticOperators.lookup name).map binary
  | .prefixOp name =>
    if name = utf8 "-" then some (unary Double.neg)
    else if name = utf8 "+" then some (unary id)
    else none
  | .function name (.exactly 1) =>
    match unaryFunctions.lookup name with
    | some f => some (unary f)
    | none => variadicFunctions.lookup name
  | .function name (.exactly 2) =>
    match binaryFunctions.lookup name with
    | some f => some (binary f)
    | none => variadicFunctions.lookup name
  | .function name _ => variadicFunctions.lookup name
  | _ => none

/-! ### Logic -/

/-- The infix conditions. -/
def conditions : List (Text × (Double → Double → Bool)) :=
  [(utf8 "==", Double.equal), (utf8 "!=", fun a b => !a.equal b),
    (utf8 ">", fun a b => b.less a), (utf8 ">=", fun a b => b.lessOrEqual a),
    (utf8 "<", Double.less), (utf8 "<=", Double.lessOrEqual),
    (utf8 "&&", fun a b => a.isTrue && b.isTrue), (utf8 "||", fun a b => a.isTrue || b.isTrue)]

/-- The choice between the second and the third argument by the first. -/
def choice : NumericFunction ω
  | [a, b, c] => .ok (if a.isTrue then b else c)
  | _ => .error (.error (.undefinedSymbol .conditional))

/-- The meaning of a symbol of logic. -/
def logicSymbol? : Symbol → Option (NumericFunction ω)
  | .infixOp name =>
    if name = utf8 "?:" then some choice else (conditions.lookup name).map condition
  | .prefixOp name =>
    if name = utf8 "!" then some (unary fun a => Double.ofBool (!a.isTrue)) else none
  | _ => none

end DynExpr
