import DynExpr.Node
import DynExpr.Token

/-!
# Reading an expression

Infix operators are read by climbing precedences, operands by descent:

* an *infix expression* of a least precedence is a unary expression followed by infix
  operators of at least that precedence, each with its right operand;
* a *unary expression* is an operator before a unary expression, or a postfix expression;
* a *postfix expression* is a primary one followed by subscripts and postfix operators;
* a *primary expression* is a number, a name, a call, an array literal, or an infix
  expression in parentheses.

Any operator may stand in any position: what it is depends on where it stands. An operator
after an operand is a postfix one if no blank precedes it and what follows can be no operand
of it: the end, a closing bracket, a comma, or an operator set off by a blank.

Every reader consumes tokens, and its result carries the proof: the rest is shorter than what
it was given. A reader hands its own tokens only to readers of a lower rank, of which there are
six, so the rank and six times the number of tokens bound the reading: it ends, whatever the
tokens are.

* `parseTokens` reads a whole list of tokens, `parse` a whole line.
-/

namespace DynExpr

namespace Parser

/-- The lexeme at the beginning; an exhausted list stands at its finish. -/
def next : List Token → Lexeme
  | [] => .finish
  | token :: _ => token.lexeme

/-- The fault of finding the lexeme at the beginning where another is needed. -/
def unexpected (tokens : List Token) : SyntaxFault :=
  match next tokens with
  | .finish => ⟨utf8 "конец выражения"⟩
  | lexeme => ⟨lexeme.text⟩

/-- The infix operator at the beginning, if there is one; a comma is one too. -/
def infixName? : Lexeme → Option Text
  | .comma => some (utf8 ",")
  | .operator name => some name
  | _ => none

/-- The operator at the beginning stands after its operand. -/
def isPostfixPosition : List Token → Bool
  | ⟨.operator _, _, false⟩ :: rest =>
    match rest with
    | [] => true
    | ⟨lexeme, _, spaced⟩ :: _ =>
      match lexeme with
      | .finish | .rightParen | .rightBracket | .comma => true
      | .operator _ => spaced
      | _ => false
  | _ => false

/-- The postfix operator at the beginning, if there is one. -/
def postfixName? (tokens : List Token) : Option Text :=
  if isPostfixPosition tokens then
    match next tokens with
    | .operator name => some name
    | _ => none
  else none

/-- The least precedence of the operators that the right operand of an infix operator may
hold. -/
def rightPrecedence (name : Text) : Int :=
  if isRightAssociative name then infixPrecedence name else infixPrecedence name + 1

/-- A subscript of an expression: a named one reads an array, any other is an operand. -/
def subscripted (container index : Node) : Node :=
  match container with
  | .apply (.var name) _ => .apply (.array name) [index]
  | container => .apply .subscript [container, index]

/-- A result together with the rest of the tokens, of which some were consumed. -/
abbrev Consumed (α : Type) (tokens : List Token) :=
  Except SyntaxFault (α × { rest : List Token // rest.length < tokens.length })

/-- A result together with the rest of the tokens, of which any number was consumed. -/
abbrev Continued (α : Type) (tokens : List Token) :=
  Except SyntaxFault (α × { rest : List Token // rest.length ≤ tokens.length })

mutual

/-- Reads an infix expression whose operators have at least the given precedence. -/
def infixExpression (least : Int) (tokens : List Token) : Consumed Node tokens :=
  match unaryExpression tokens with
  | .error fault => .error fault
  | .ok (left, ⟨rest, shorter⟩) =>
    match infixTail least left rest with
    | .error fault => .error fault
    | .ok (node, ⟨rest', shorter'⟩) => .ok (node, ⟨rest', Nat.lt_of_le_of_lt shorter' shorter⟩)
termination_by 6 * tokens.length + 3

/-- Reads the infix operators that follow a left operand, each with its right operand. -/
def infixTail (least : Int) (left : Node) (tokens : List Token) : Continued Node tokens :=
  match tokens with
  | [] => .ok (left, ⟨[], Nat.le_refl _⟩)
  | token :: rest =>
    match infixName? token.lexeme with
    | none => .ok (left, ⟨token :: rest, Nat.le_refl _⟩)
    | some name =>
      if infixPrecedence name < least then .ok (left, ⟨token :: rest, Nat.le_refl _⟩)
      else if name = utf8 "?" then
        -- between question mark and colon anything but a comma may stand
        match infixExpression 1 rest with
        | .error fault => .error fault
        | .ok (middle, ⟨afterMiddle, h₁⟩) =>
          match h₂ : afterMiddle with
          | [] => .error (unexpected [])
          | colon :: rest' =>
            if colon.lexeme = .operator (utf8 ":") then
              match infixExpression (infixPrecedence name) rest' with
              | .error fault => .error fault
              | .ok (right, ⟨rest'', h₃⟩) =>
                match infixTail least (.apply .conditional [left, middle, right]) rest'' with
                | .error fault => .error fault
                | .ok (node, ⟨final, h₄⟩) =>
                  .ok (node, ⟨final, by simp only [List.length_cons] at *; omega⟩)
            else .error (unexpected (colon :: rest'))
      else
        match infixExpression (rightPrecedence name) rest with
        | .error fault => .error fault
        | .ok (right, ⟨rest', h₁⟩) =>
          match infixTail least (.apply (.infixOp name) [left, right]) rest' with
          | .error fault => .error fault
          | .ok (node, ⟨final, h₂⟩) =>
            .ok (node, ⟨final, by simp only [List.length_cons] at *; omega⟩)
termination_by 6 * tokens.length + 0
decreasing_by all_goals (subst_vars; simp only [List.length_cons] at *; omega)

/-- Reads a unary expression. -/
def unaryExpression (tokens : List Token) : Consumed Node tokens :=
  match tokens with
  | ⟨.operator name, _, _⟩ :: rest =>
    match unaryExpression rest with
    | .error fault => .error fault
    | .ok (operand, ⟨rest', shorter⟩) =>
      .ok (.apply (.prefixOp name) [operand], ⟨rest', Nat.lt_succ_of_lt shorter⟩)
  | tokens => postfixExpression tokens
termination_by 6 * tokens.length + 2

/-- Reads a postfix expression. -/
def postfixExpression (tokens : List Token) : Consumed Node tokens :=
  match primaryExpression tokens with
  | .error fault => .error fault
  | .ok (operand, ⟨rest, shorter⟩) =>
    match postfixTail operand rest with
    | .error fault => .error fault
    | .ok (node, ⟨rest', shorter'⟩) => .ok (node, ⟨rest', Nat.lt_of_le_of_lt shorter' shorter⟩)
termination_by 6 * tokens.length + 1

/-- Reads the subscripts and postfix operators that follow an operand. -/
def postfixTail (operand : Node) (tokens : List Token) : Continued Node tokens :=
  match tokens with
  | [] => .ok (operand, ⟨[], Nat.le_refl _⟩)
  | token :: rest =>
    if token.lexeme = .leftBracket then
      match infixExpression 0 rest with
      | .error fault => .error fault
      | .ok (index, ⟨afterIndex, h₁⟩) =>
        match h₂ : afterIndex with
        | [] => .error (unexpected [])
        | closing :: rest' =>
          if closing.lexeme = .rightBracket then
            match postfixTail (subscripted operand index) rest' with
            | .error fault => .error fault
            | .ok (node, ⟨final, h₃⟩) =>
              .ok (node, ⟨final, by simp only [List.length_cons] at *; omega⟩)
          else .error (unexpected (closing :: rest'))
    else
      match postfixName? (token :: rest) with
      | none => .ok (operand, ⟨token :: rest, Nat.le_refl _⟩)
      | some name =>
        match postfixTail (.apply (.postfixOp name) [operand]) rest with
        | .error fault => .error fault
        | .ok (node, ⟨final, h₁⟩) => .ok (node, ⟨final, Nat.le_succ_of_le h₁⟩)
termination_by 6 * tokens.length + 0
decreasing_by all_goals (subst_vars; simp only [List.length_cons] at *; omega)

/-- Reads a primary expression. -/
def primaryExpression (tokens : List Token) : Consumed Node tokens :=
  match tokens with
  | ⟨.number _ value, _, _⟩ :: rest => .ok (.number value, ⟨rest, Nat.lt_succ_self _⟩)
  | ⟨.identifier name, _, _⟩ :: ⟨.leftParen, _, _⟩ :: rest =>
    match arguments .rightParen rest with
    | .error fault => .error fault
    | .ok (children, ⟨rest', shorter⟩) =>
      .ok (.apply (.function name (.exactly children.length)) children,
        ⟨rest', by simp only [List.length_cons]; omega⟩)
  | ⟨.identifier name, _, _⟩ :: rest => .ok (.apply (.var name) [], ⟨rest, Nat.lt_succ_self _⟩)
  | ⟨.leftParen, _, _⟩ :: rest =>
    match infixExpression 0 rest with
    | .error fault => .error fault
    | .ok (inner, ⟨afterInner, h₁⟩) =>
      match h₂ : afterInner with
      | [] => .error (unexpected [])
      | closing :: rest' =>
        if closing.lexeme = .rightParen then
          .ok (inner, ⟨rest', by simp only [List.length_cons] at *; omega⟩)
        else .error (unexpected (closing :: rest'))
  | ⟨.leftBracket, _, _⟩ :: rest =>
    match arguments .rightBracket rest with
    | .error fault => .error fault
    | .ok (children, ⟨rest', shorter⟩) =>
      .ok (.apply (.arrayLiteral children.length) children, ⟨rest', Nat.lt_succ_of_lt shorter⟩)
  | tokens => .error (unexpected tokens)
termination_by 6 * tokens.length + 0

/-- Reads a list of expressions separated by commas, up to and including a closing bracket. -/
def arguments (closing : Lexeme) (tokens : List Token) : Consumed (List Node) tokens :=
  match tokens with
  | [] => .error (unexpected [])
  | token :: rest =>
    if token.lexeme = closing then .ok ([], ⟨rest, Nat.lt_succ_self _⟩)
    else argumentsTail closing (token :: rest)
termination_by 6 * tokens.length + 5

/-- Reads at least one expression of a list, up to and including a closing bracket. -/
def argumentsTail (closing : Lexeme) (tokens : List Token) : Consumed (List Node) tokens :=
  match infixExpression 1 tokens with
  | .error fault => .error fault
  | .ok (first, ⟨afterFirst, h₁⟩) =>
    match h₂ : afterFirst with
    | [] => .error (unexpected [])
    | separator :: rest =>
      if separator.lexeme = .comma then
        match argumentsTail closing rest with
        | .error fault => .error fault
        | .ok (others, ⟨rest', h₃⟩) =>
          .ok (first :: others, ⟨rest', by simp only [List.length_cons] at *; omega⟩)
      else if separator.lexeme = closing then
        .ok ([first], ⟨rest, by simp only [List.length_cons] at *; omega⟩)
      else .error (unexpected (separator :: rest))
termination_by 6 * tokens.length + 4
decreasing_by
  · omega
  · subst_vars; simp only [List.length_cons] at *; omega

end

end Parser

/-- Reads a whole list of tokens as one expression. Without a token before the finish there is
nothing to read. -/
def parseTokens (tokens : List Token) : Except SyntaxFault Node :=
  if Parser.next tokens = .finish then .error ⟨[]⟩
  else
    match Parser.infixExpression 0 tokens with
    | .error fault => .error fault
    | .ok (node, ⟨rest, _⟩) =>
      if Parser.next rest = .finish then .ok node else .error (Parser.unexpected rest)

/-- Reads a whole line as one expression. -/
def parse (line : Text) : Except SyntaxFault Node :=
  match tokenize line with
  | .error fault => .error fault
  | .ok tokens => parseTokens tokens

end DynExpr
