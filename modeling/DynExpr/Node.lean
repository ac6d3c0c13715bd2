import DynExpr.Symbol
import DynExpr.Double.Decimal

/-!
# Expression trees

A node is a number or a symbol applied to operands. What a symbol means is left open, and so
is how many operands it has: `Node.WellShaped` says which trees have the operands that their
symbols stand for.

* `Node.symbols` is the set of all symbols of a tree.
* `Node.describe?` writes a tree with as few parentheses as its operators need. It fails only
  where an operator lacks an operand.
-/

namespace DynExpr

/-- An expression tree. -/
inductive Node
  | number (value : Double)
  | apply (symbol : Symbol) (children : List Node)

namespace Node

/-! ### Symbols -/

mutual
/-- Adds the symbols of a tree to a set. -/
def addSymbols (set : SymbolSet) : Node → SymbolSet
  | number _ => set
  | apply symbol children => addSymbolsOfAll (SymbolSet.insert symbol set) children

/-- Adds the symbols of all trees of a list to a set. -/
def addSymbolsOfAll (set : SymbolSet) : List Node → SymbolSet
  | [] => set
  | node :: rest => addSymbolsOfAll (node.addSymbols set) rest
end

/-- The symbols of a tree. -/
def symbols (node : Node) : SymbolSet := node.addSymbols []

/-! ### Shape -/

/-- The numbers of operands that a symbol may have. -/
def operandCounts (symbol : Symbol) (count : Nat) : Bool :=
  match symbol.arity with
  | .any => true
  | .exactly n => count == n || (symbol = .conditional && count == 3)

mutual
/-- Every symbol of the tree has the operands it stands for: none for a variable, one for an
array and for a prefix or postfix operator, the declared number for a function, two for an
infix operator, of which the conditional may also have three. -/
def WellShaped : Node → Bool
  | number _ => true
  | apply symbol children => operandCounts symbol children.length && allWellShaped children

/-- All trees of a list are well-shaped. -/
def allWellShaped : List Node → Bool
  | [] => true
  | node :: rest => node.WellShaped && allWellShaped rest
end

/-! ### Writing a tree -/

/-- The precedence of a node that is an infix operator other than a subscript. -/
def precedence? : Node → Option Int
  | apply (.infixOp name) _ => if name = Symbol.brackets then none else some (infixPrecedence name)
  | _ => none

/-- A text in parentheses. -/
def parenthesized (text : Text) : Text := 40 :: (text ++ [41])

/-- Whether an operand of an infix operator needs parentheses: it binds looser, or as tightly
on the side to which the operator does not group. -/
def needsParentheses (parent : Text) (onRight : Bool) (operand : Node) : Bool :=
  match operand.precedence? with
  | none => false
  | some precedence =>
    precedence < infixPrecedence parent ||
      (precedence == infixPrecedence parent && onRight != isRightAssociative parent)

/-- The text of an operand, in parentheses if it is an infix operator. -/
def operandText (operand : Node) (text : Text) : Text :=
  if operand.precedence?.isSome then parenthesized text else text

/-- The text of an operand of an infix operator. -/
def infixOperandText (parent : Text) (onRight : Bool) (operand : Node) (text : Text) : Text :=
  if needsParentheses parent onRight operand then parenthesized text else text

/-- Writes an infix operator between two operands. The index of a subscript and the operands
of a comma are written as they are. -/
def betweenText (name : Text) (left right : Node × Text) : Text :=
  if name = Symbol.brackets then
    operandText left.1 left.2 ++ (utf8 "[" ++ (right.2 ++ utf8 "]"))
  else if name = utf8 "," then left.2 ++ (utf8 ", " ++ right.2)
  else
    infixOperandText name false left.1 left.2 ++
      (utf8 " " ++ (name ++ (utf8 " " ++ infixOperandText name true right.1 right.2)))

/-- Writes a symbol applied to operands, given each operand together with its text. Nothing is
written if an operand is missing. -/
def applied? (symbol : Symbol) (operands : List (Node × Text)) : Option Text :=
  let list := Text.join (utf8 ", ") (operands.map (·.2))
  match symbol with
  | .var name => some (Symbol.escapeName name)
  | .array name => some (Symbol.escapeName name ++ utf8 "[" ++ list ++ utf8 "]")
  | .function name _ =>
    if name = Symbol.brackets then some (utf8 "[" ++ list ++ utf8 "]")
    else some (name ++ utf8 "(" ++ list ++ utf8 ")")
  | .prefixOp name =>
    match operands with
    | (a, s) :: _ => some (name ++ operandText a s)
    | _ => none
  | .postfixOp name =>
    match operands with
    | (a, s) :: _ => some (operandText a s ++ name)
    | _ => none
  | .infixOp name =>
    match operands with
    | [(a, s), (b, t), (c, u)] =>
      if name = utf8 "?:" then
        some (infixOperandText name false a s ++
          (utf8 " ? " ++ (t ++ (utf8 " : " ++ infixOperandText name true c u))))
      else some (betweenText name (a, s) (b, t))
    | left :: right :: _ => some (betweenText name left right)
    | _ => none

mutual
/-- Writes a tree; nothing if an operator lacks an operand. -/
def describe? : Node → Option Text
  | number value => some value.text
  | apply symbol children =>
    match describeAll? children with
    | none => none
    | some operands => applied? symbol operands

/-- Writes all trees of a list. -/
def describeAll? : List Node → Option (List (Node × Text))
  | [] => some []
  | node :: rest =>
    match node.describe?, describeAll? rest with
    | some text, some others => some ((node, text) :: others)
    | _, _ => none
end

/-- The text of a tree that lacks no operand. -/
def describe (node : Node) : Text := node.describe?.getD []

end Node

end DynExpr
