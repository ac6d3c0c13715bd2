import DynExpr.Node.Parser

/-!
# The grammar of the readers

Each reader comes with a proof that it consumed tokens, which is in the way when one only wants to
say what it reads. So for each reader there is a relation between the tokens, what is read and the
tokens that are left, and the branches of the readers are its rules: an infix expression is a unary
expression and a tail, a tail may stop or take an operator and its right operand, and so on.

Two conditions on the tokens that are left come up in these rules.

* `Parser.Ends`: no postfix operator and no subscript follows, and a postfix operator may stand
  before them. This is so at the end, before a closing bracket or a comma, and before an operator
  set off by a blank.
* `Parser.Below`: the next infix operator, if there is one, binds looser than a given precedence.
-/

namespace DynExpr.Parser

/-! ### What the readers read -/

/-- Reading an infix expression yields `node` and leaves `rest`. -/
def ReadsInfix (least : Int) (tokens : List Token) (node : Node) (rest : List Token) : Prop :=
  ∃ h, infixExpression least tokens = .ok (node, ⟨rest, h⟩)

/-- Reading on after a left operand yields `node` and leaves `rest`. -/
def ReadsInfixTail (least : Int) (left : Node) (tokens : List Token) (node : Node)
    (rest : List Token) : Prop :=
  ∃ h, infixTail least left tokens = .ok (node, ⟨rest, h⟩)

/-- Reading a unary expression yields `node` and leaves `rest`. -/
def ReadsUnary (tokens : List Token) (node : Node) (rest : List Token) : Prop :=
  ∃ h, unaryExpression tokens = .ok (node, ⟨rest, h⟩)

/-- Reading a postfix expression yields `node` and leaves `rest`. -/
def ReadsPostfix (tokens : List Token) (node : Node) (rest : List Token) : Prop :=
  ∃ h, postfixExpression tokens = .ok (node, ⟨rest, h⟩)

/-- Reading on after an operand yields `node` and leaves `rest`. -/
def ReadsPostfixTail (operand : Node) (tokens : List Token) (node : Node) (rest : List Token) :
    Prop :=
  ∃ h, postfixTail operand tokens = .ok (node, ⟨rest, h⟩)

/-- Reading a primary expression yields `node` and leaves `rest`. -/
def ReadsPrimary (tokens : List Token) (node : Node) (rest : List Token) : Prop :=
  ∃ h, primaryExpression tokens = .ok (node, ⟨rest, h⟩)

/-- Reading a list up to a closing bracket yields `nodes` and leaves `rest`. -/
def ReadsArguments (closing : Lexeme) (tokens : List Token) (nodes : List Node)
    (rest : List Token) : Prop :=
  ∃ h, arguments closing tokens = .ok (nodes, ⟨rest, h⟩)

/-- Reading a list of at least one member up to a closing bracket yields `nodes` and leaves
`rest`. -/
def ReadsArgumentsTail (closing : Lexeme) (tokens : List Token) (nodes : List Node)
    (rest : List Token) : Prop :=
  ∃ h, argumentsTail closing tokens = .ok (nodes, ⟨rest, h⟩)

/-- An operand ends before these tokens, and so does a postfix operator. -/
def Ends : List Token → Prop
  | [] => True
  | token :: _ =>
    match token.lexeme with
    | .finish | .rightParen | .rightBracket | .comma => True
    | .operator _ => token.spaceBefore = true
    | _ => False

/-- The next infix operator, if there is one, binds looser than the precedence. -/
def Below (precedence : Int) (tokens : List Token) : Prop :=
  ∀ name, infixName? (next tokens) = some name → infixPrecedence name < precedence

variable {least : Int} {left right middle operand node index : Node} {nodes : List Node}
  {closing : Lexeme} {name : Text} {token bracket colon : Token}
  {tokens afterFirst afterSecond rest : List Token}

/-! ### Infix expressions -/

/-- A left operand, and what is read on after it. -/
theorem ReadsUnary.readsInfix (hleft : ReadsUnary tokens left afterFirst)
    (htail : ReadsInfixTail least left afterFirst node rest) :
    ReadsInfix least tokens node rest := by
  obtain ⟨hshorter, hleft⟩ := hleft
  obtain ⟨hshorter', htail⟩ := htail
  refine ⟨Nat.lt_of_le_of_lt hshorter' hshorter, ?_⟩
  rw [infixExpression, hleft]
  simp only [htail]

/-- Before an operator that binds looser, reading on stops. -/
theorem readsInfixTail_stop (hbelow : Below least rest) :
    ReadsInfixTail least left rest left rest := by
  refine ⟨Nat.le_refl _, ?_⟩
  cases rest with
  | nil => rw [infixTail]
  | cons token rest =>
    rw [infixTail]
    -- there is no operator, or one that is left
    split
    · rfl
    · next name hname => rw [if_pos (hbelow name hname)]

/-- An infix operator that binds tightly enough takes its right operand. -/
theorem ReadsInfix.readsInfixTail (hname : infixName? token.lexeme = some name)
    (hbinds : least ≤ infixPrecedence name) (hquestion : name ≠ utf8 "?")
    (hright : ReadsInfix (rightPrecedence name) tokens right afterFirst)
    (htail : ReadsInfixTail least (.apply (.infixOp name) [left, right]) afterFirst node rest) :
    ReadsInfixTail least left (token :: tokens) node rest := by
  obtain ⟨hshorter, hright⟩ := hright
  obtain ⟨hshorter', htail⟩ := htail
  refine ⟨by rw [List.length_cons]; omega, ?_⟩
  rw [infixTail]
  simp only [hname, if_neg (Int.not_lt.mpr hbinds), if_neg hquestion, hright, htail]

/-- A question mark takes two expressions, with a colon between them. -/
theorem ReadsInfix.readsInfixTail_conditional (hquestion : token.lexeme = .operator (utf8 "?"))
    (hbinds : least ≤ 1) (hmiddle : ReadsInfix 1 tokens middle (colon :: afterFirst))
    (hcolon : colon.lexeme = .operator (utf8 ":"))
    (hright : ReadsInfix 1 afterFirst right afterSecond)
    (htail : ReadsInfixTail least (.apply .conditional [left, middle, right]) afterSecond node
      rest) :
    ReadsInfixTail least left (token :: tokens) node rest := by
  obtain ⟨hshorter, hmiddle⟩ := hmiddle
  obtain ⟨hshorter', hright⟩ := hright
  obtain ⟨hshorter'', htail⟩ := htail
  -- the colon is one token
  have hlength : (colon :: afterFirst).length = afterFirst.length + 1 := rfl
  have hprecedence : infixPrecedence (utf8 "?") = 1 := by decide
  refine ⟨by rw [List.length_cons]; omega, ?_⟩
  rw [infixTail]
  simp only [hquestion, infixName?, hprecedence, if_neg (Int.not_lt.mpr hbinds), if_true, hmiddle,
    hcolon, hright, htail]

/-! ### Unary and postfix expressions -/

/-- A prefix operator takes the unary expression behind it. -/
theorem ReadsUnary.prefixOp (hname : token.lexeme = .operator name)
    (hoperand : ReadsUnary tokens operand rest) :
    ReadsUnary (token :: tokens) (.apply (.prefixOp name) [operand]) rest := by
  obtain ⟨hshorter, hoperand⟩ := hoperand
  obtain ⟨lexeme, position, spaced⟩ := token
  obtain rfl : lexeme = .operator name := hname
  refine ⟨Nat.lt_succ_of_lt hshorter, ?_⟩
  rw [unaryExpression]
  simp only [hoperand]

/-- What begins with an operand has no prefix operator. -/
theorem ReadsPostfix.readsUnary (hnode : ReadsPostfix tokens node rest) :
    ReadsUnary tokens node rest := by
  obtain ⟨hshorter, hnode⟩ := hnode
  refine ⟨hshorter, ?_⟩
  unfold unaryExpression
  split
  · -- no primary expression begins with an operator
    rw [postfixExpression, primaryExpression.eq_def] at hnode
    cases hnode
  · exact hnode

/-- An operand, and what is read on after it. -/
theorem ReadsPrimary.readsPostfix (hoperand : ReadsPrimary tokens operand afterFirst)
    (htail : ReadsPostfixTail operand afterFirst node rest) : ReadsPostfix tokens node rest := by
  obtain ⟨hshorter, hoperand⟩ := hoperand
  obtain ⟨hshorter', htail⟩ := htail
  refine ⟨Nat.lt_of_le_of_lt hshorter' hshorter, ?_⟩
  rw [postfixExpression, hoperand]
  simp only [htail]

/-- Where an operand ends, reading on stops. -/
theorem readsPostfixTail_stop (hends : Ends rest) : ReadsPostfixTail operand rest operand rest := by
  refine ⟨Nat.le_refl _, ?_⟩
  cases rest with
  | nil => rw [postfixTail]
  | cons token rest =>
    obtain ⟨lexeme, position, spaced⟩ := token
    have hbracket : lexeme ≠ .leftBracket := by rintro rfl; exact hends
    -- an operator after a blank is no postfix operator
    have hoperator : postfixName? (⟨lexeme, position, spaced⟩ :: rest) = none := by
      cases lexeme with
      | operator name =>
        obtain rfl : spaced = true := hends
        rfl
      | _ => rfl
    rw [postfixTail, if_neg hbracket]
    simp only [hoperator]

/-- An index in brackets subscripts the operand. -/
theorem ReadsInfix.readsPostfixTail (hopening : token.lexeme = .leftBracket)
    (hindex : ReadsInfix 0 tokens index (bracket :: afterFirst))
    (hclosing : bracket.lexeme = .rightBracket)
    (htail : ReadsPostfixTail (subscripted operand index) afterFirst node rest) :
    ReadsPostfixTail operand (token :: tokens) node rest := by
  obtain ⟨hshorter, hindex⟩ := hindex
  obtain ⟨hshorter', htail⟩ := htail
  have hlength : (bracket :: afterFirst).length = afterFirst.length + 1 := rfl
  refine ⟨by rw [List.length_cons]; omega, ?_⟩
  rw [postfixTail]
  simp only [if_pos hopening, hindex, if_pos hclosing, htail]

/-- An operator right after an operand is a postfix operator, if an operand ends after it. -/
theorem ReadsPostfixTail.postfixOp (hname : token.lexeme = .operator name)
    (hspaced : token.spaceBefore = false) (hends : Ends tokens)
    (htail : ReadsPostfixTail (.apply (.postfixOp name) [operand]) tokens node rest) :
    ReadsPostfixTail operand (token :: tokens) node rest := by
  obtain ⟨hshorter, htail⟩ := htail
  obtain ⟨lexeme, position, spaced⟩ := token
  obtain rfl : lexeme = .operator name := hname
  obtain rfl : spaced = false := hspaced
  -- the operator touches its operand, and nothing that it could be an infix operator for follows
  have hposition : isPostfixPosition (⟨.operator name, position, false⟩ :: tokens) = true := by
    cases tokens with
    | nil => rfl
    | cons second others =>
      obtain ⟨lexeme, position, spaced⟩ := second
      cases lexeme with
      | operator other => exact hends
      | finish | rightParen | rightBracket | comma => rfl
      | _ => exact hends.elim
  have hoperator : postfixName? (⟨.operator name, position, false⟩ :: tokens) = some name := by
    rw [postfixName?, if_pos hposition]
    rfl
  refine ⟨Nat.le_succ_of_le hshorter, ?_⟩
  rw [postfixTail, if_neg (by simp)]
  simp only [hoperator, htail]

/-! ### Primary expressions -/

/-- A number. -/
theorem readsPrimary_number {text : Text} {value : Double}
    (hnumber : token.lexeme = .number text value) :
    ReadsPrimary (token :: rest) (.number value) rest := by
  obtain ⟨lexeme, position, spaced⟩ := token
  obtain rfl : lexeme = .number text value := hnumber
  exact ⟨Nat.lt_succ_self _, by rw [primaryExpression]⟩

/-- A name that is not called. -/
theorem readsPrimary_var (hname : token.lexeme = .identifier name)
    (hnext : next rest ≠ .leftParen) :
    ReadsPrimary (token :: rest) (.apply (.var name) []) rest := by
  obtain ⟨lexeme, position, spaced⟩ := token
  obtain rfl : lexeme = .identifier name := hname
  refine ⟨Nat.lt_succ_self _, ?_⟩
  cases rest with
  | nil => rw [primaryExpression.eq_def]
  | cons second others =>
    obtain ⟨lexeme, position', spaced'⟩ := second
    cases lexeme with
    -- a parenthesis would make it a call
    | leftParen => exact absurd rfl hnext
    | _ => rw [primaryExpression.eq_def]

/-- A name in front of a list in parentheses. -/
theorem ReadsArguments.readsPrimary_function (hname : token.lexeme = .identifier name)
    (hopening : bracket.lexeme = .leftParen)
    (harguments : ReadsArguments .rightParen tokens nodes rest) :
    ReadsPrimary (token :: bracket :: tokens)
      (.apply (.function name (.exactly nodes.length)) nodes) rest := by
  obtain ⟨hshorter, harguments⟩ := harguments
  obtain ⟨lexeme, position, spaced⟩ := token
  obtain rfl : lexeme = .identifier name := hname
  obtain ⟨lexeme, position', spaced'⟩ := bracket
  obtain rfl : lexeme = .leftParen := hopening
  refine ⟨by simp only [List.length_cons]; omega, ?_⟩
  rw [primaryExpression]
  simp only [harguments]

/-- An expression in parentheses. -/
theorem ReadsInfix.readsPrimary (hopening : token.lexeme = .leftParen)
    (hnode : ReadsInfix 0 tokens node (bracket :: rest)) (hclosing : bracket.lexeme = .rightParen) :
    ReadsPrimary (token :: tokens) node rest := by
  obtain ⟨hshorter, hnode⟩ := hnode
  obtain ⟨lexeme, position, spaced⟩ := token
  obtain rfl : lexeme = .leftParen := hopening
  have hlength : (bracket :: rest).length = rest.length + 1 := rfl
  refine ⟨by rw [List.length_cons]; omega, ?_⟩
  rw [primaryExpression]
  simp only [hnode, if_pos hclosing]

/-- A list in brackets. -/
theorem ReadsArguments.readsPrimary_arrayLiteral (hopening : token.lexeme = .leftBracket)
    (harguments : ReadsArguments .rightBracket tokens nodes rest) :
    ReadsPrimary (token :: tokens) (.apply (.arrayLiteral nodes.length) nodes) rest := by
  obtain ⟨hshorter, harguments⟩ := harguments
  obtain ⟨lexeme, position, spaced⟩ := token
  obtain rfl : lexeme = .leftBracket := hopening
  refine ⟨Nat.lt_succ_of_lt hshorter, ?_⟩
  rw [primaryExpression]
  simp only [harguments]

/-! ### Lists -/

/-- An empty list. -/
theorem readsArguments_nil (hclosing : token.lexeme = closing) :
    ReadsArguments closing (token :: rest) [] rest := by
  refine ⟨Nat.lt_succ_self _, ?_⟩
  rw [arguments, if_pos hclosing]

/-- The last member of a list. -/
theorem ReadsInfix.readsArgumentsTail (hnode : ReadsInfix 1 tokens node (bracket :: rest))
    (hcomma : closing ≠ .comma) (hclosing : bracket.lexeme = closing) :
    ReadsArgumentsTail closing tokens [node] rest := by
  obtain ⟨hshorter, hnode⟩ := hnode
  have hlength : (bracket :: rest).length = rest.length + 1 := rfl
  refine ⟨by omega, ?_⟩
  rw [argumentsTail]
  simp only [hnode, if_pos hclosing]
  rw [if_neg (by rw [hclosing]; exact hcomma)]

/-- A member in front of a comma, and the other ones. -/
theorem ReadsInfix.readsArgumentsTail_cons (hnode : ReadsInfix 1 tokens node (token :: afterFirst))
    (hcomma : token.lexeme = .comma) (htail : ReadsArgumentsTail closing afterFirst nodes rest) :
    ReadsArgumentsTail closing tokens (node :: nodes) rest := by
  obtain ⟨hshorter, hnode⟩ := hnode
  obtain ⟨hshorter', htail⟩ := htail
  have hlength : (token :: afterFirst).length = afterFirst.length + 1 := rfl
  refine ⟨by omega, ?_⟩
  rw [argumentsTail]
  simp only [hnode, if_pos hcomma, htail]

/-! ### What an expression begins with -/

/-- Where a bracket closes, at a comma and at the end, there is no expression to read. -/
theorem unaryExpression_eq_error
    (hnext : next tokens ∈ [Lexeme.finish, .rightParen, .rightBracket, .comma]) :
    unaryExpression tokens = .error (unexpected tokens) := by
  cases tokens with
  | nil =>
    rw [unaryExpression.eq_def]
    dsimp only
    rw [postfixExpression, primaryExpression.eq_def]
  | cons token tokens =>
    obtain ⟨lexeme, position, spaced⟩ := token
    cases lexeme with
    | finish | rightParen | rightBracket | comma =>
      rw [unaryExpression.eq_def]
      dsimp only
      rw [postfixExpression, primaryExpression.eq_def]
    | _ => simp [next] at hnext

/-- An expression begins with none of these. -/
theorem ReadsInfix.next_notMem (hnode : ReadsInfix least tokens node rest) :
    next tokens ∉ [Lexeme.finish, .rightParen, .rightBracket, .comma] := by
  obtain ⟨hshorter, hnode⟩ := hnode
  intro hnext
  have hfault : infixExpression least tokens = .error (unexpected tokens) := by
    rw [infixExpression, unaryExpression_eq_error hnext]
  rw [hfault] at hnode
  cases hnode

/-- A list that has members is a list. -/
theorem ReadsArgumentsTail.readsArguments (htail : ReadsArgumentsTail closing tokens nodes rest)
    (hclosing : closing ∈ [Lexeme.finish, .rightParen, .rightBracket, .comma]) :
    ReadsArguments closing tokens nodes rest := by
  obtain ⟨hshorter, htail⟩ := htail
  refine ⟨hshorter, ?_⟩
  cases tokens with
  | nil => exact absurd hshorter (Nat.not_lt_zero _)
  | cons token tokens =>
    -- a list with members does not begin with its closing bracket
    have hlexeme : token.lexeme ≠ closing := by
      rintro rfl
      have hnext : next (token :: tokens) ∈
          [Lexeme.finish, .rightParen, .rightBracket, .comma] := hclosing
      rw [argumentsTail, infixExpression, unaryExpression_eq_error hnext] at htail
      cases htail
    rw [arguments, if_neg hlexeme, htail]

/-- A whole list of tokens is read as an expression that leaves only the finish. -/
theorem ReadsInfix.parseTokens (hnode : ReadsInfix 0 tokens node rest)
    (hfinish : next rest = .finish) : parseTokens tokens = .ok node := by
  have hnext : next tokens ≠ .finish := fun h => hnode.next_notMem (h ▸ List.mem_cons_self)
  obtain ⟨hshorter, hnode⟩ := hnode
  rw [DynExpr.parseTokens, if_neg hnext, hnode]
  exact if_pos hfinish

end DynExpr.Parser
