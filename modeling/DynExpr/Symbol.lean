import DynExpr.Text

/-!
# Symbols

A symbol is what an expression names and someone has to give a meaning: a variable, an array
read at one index, an operator in one of its three positions, or a function called with a
number of arguments. The set of symbols is open; nothing here says what any of them does.

A variable whose name is enclosed in quotes is a string literal. The subscript operator is
the infix operator `[]`, and an array literal is a call of the function `[]`.

* `Symbol.describe` names a symbol in messages.
* `Symbol.compare` is a total order: by kind, then name, then arity.
-/

namespace DynExpr

/-- How many arguments a function takes. -/
inductive Arity
  | exactly (count : Nat)
  | any
deriving DecidableEq

/-- The arity as messages state it. -/
def Arity.describe : Arity → Text
  | .exactly count => utf8 "аргументов: " ++ decimalText count
  | .any => utf8 "любое число аргументов"

/-- An exact arity precedes an arbitrary one; exact ones are ordered by their count. -/
def Arity.compare : Arity → Arity → Ordering
  | .exactly m, .exactly n => Ord.compare m n
  | .exactly _, .any => .lt
  | .any, .exactly _ => .gt
  | .any, .any => .eq

/-- An entity that an expression names. -/
inductive Symbol
  | var (name : Text)
  | array (name : Text)
  | infixOp (name : Text)
  | prefixOp (name : Text)
  | postfixOp (name : Text)
  | function (name : Text) (arity : Arity)
deriving DecidableEq

namespace Symbol

/-- The name of the subscript operator and of the array literal. -/
def brackets : Text := utf8 "[]"

/-- The subscript operator. -/
def subscript : Symbol := .infixOp brackets

/-- The array literal of a number of elements. -/
def arrayLiteral (count : Nat) : Symbol := .function brackets (.exactly count)

/-- The conditional operator, of two or three operands. -/
def conditional : Symbol := .infixOp (utf8 "?:")

/-- The operator that takes its second operand where the first is nil. -/
def coalesce : Symbol := .infixOp (utf8 "??")

/-- The comma as an operator. -/
def comma : Symbol := .infixOp (utf8 ",")

/-- The name without position and arity. -/
def name : Symbol → Text
  | var name | array name | infixOp name | prefixOp name | postfixOp name | function name _ => name

/-- The number of operands that the kind of symbol takes. -/
def arity : Symbol → Arity
  | var _ => .exactly 0
  | array _ => .exactly 1
  | infixOp _ => .exactly 2
  | prefixOp _ => .exactly 1
  | postfixOp _ => .exactly 1
  | function _ arity => arity

/-- The contents of a string literal, for a name enclosed in quotes. -/
def unquoted? (symbol : Symbol) : Option Text := Text.unquoted? symbol.name

/-- A name as an expression writes it: string literals are escaped anew. -/
def escapeName (name : Text) : Text :=
  match Text.unquoted? name with
  | some contents => Text.quoted contents
  | none => name

/-- The name as an expression writes it. -/
def escaped (symbol : Symbol) : Text := escapeName symbol.name

/-- The symbol as messages name it. -/
def describe : Symbol → Text
  | var name =>
    if (Text.unquoted? name).isSome then utf8 "строковый литерал " ++ escapeName name
    else utf8 "переменная " ++ escapeName name
  | array name => utf8 "массив " ++ escapeName name ++ utf8 "[]"
  | infixOp name =>
    if name = brackets then utf8 "оператор индексации []"
    else utf8 "инфиксный оператор " ++ name
  | prefixOp name => utf8 "префиксный оператор " ++ name
  | postfixOp name => utf8 "постфиксный оператор " ++ name
  | function name _ =>
    if name = brackets then utf8 "литерал массива" else utf8 "функция " ++ name ++ utf8 "()"

/-- The rank of a kind in the order of symbols. -/
def rank : Symbol → Nat
  | var _ => 0
  | array _ => 1
  | infixOp _ => 2
  | prefixOp _ => 3
  | postfixOp _ => 4
  | function _ _ => 5

/-- Symbols are ordered by kind, then by name, then by arity. -/
def compare (a b : Symbol) : Ordering :=
  (Ord.compare a.rank b.rank).then ((Text.compare a.name b.name).then (a.arity.compare b.arity))

end Symbol

/-! ### Sets of symbols -/

/-- A set of symbols: a list in strictly increasing order. -/
abbrev SymbolSet := List Symbol

/-- Adds a symbol to a set, unless it is there already. -/
def SymbolSet.insert (symbol : Symbol) : SymbolSet → SymbolSet
  | [] => [symbol]
  | s :: rest =>
    match symbol.compare s with
    | .lt => symbol :: s :: rest
    | .eq => s :: rest
    | .gt => s :: SymbolSet.insert symbol rest

/-- The set of the symbols of a list. -/
def SymbolSet.ofList (symbols : List Symbol) : SymbolSet :=
  symbols.foldl (fun set symbol => SymbolSet.insert symbol set) []

/-! ### Infix operators -/

/-- How tightly an infix operator binds; a greater number binds tighter. The colon binds no
operands at all, and an operator that is not listed binds looser than all others but the
conditional and the comma. -/
def infixPrecedence (name : Text) : Int :=
  if name = utf8 ":" then -1
  else if name = utf8 "," then 0
  else if name ∈ [utf8 "?:", utf8 "?"] then 1
  else if name = utf8 "||" then 3
  else if name = utf8 "&&" then 4
  else if name ∈ [utf8 "==", utf8 "!=", utf8 "<", utf8 "<=", utf8 ">", utf8 ">=", utf8 "===",
    utf8 "!=="] then 5
  else if name = utf8 "??" then 6
  else if name ∈ [utf8 "...", utf8 "..<"] then 7
  else if name ∈ [utf8 "+", utf8 "-", utf8 "|", utf8 "^"] then 8
  else if name ∈ [utf8 "*", utf8 "/", utf8 "%", utf8 "&"] then 9
  else if name ∈ [utf8 "<<", utf8 ">>"] then 10
  else 2

/-- Whether an infix operator groups to the right. -/
def isRightAssociative (name : Text) : Bool :=
  name ∈ [utf8 "?:", utf8 "?", utf8 "??"]

end DynExpr
