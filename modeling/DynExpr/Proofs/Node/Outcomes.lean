import DynExpr.Proofs.Node.Reads

/-!
# The readers without their proofs

The readers carry proofs that they consume tokens. What a reader answers apart from that is its
`Parser.outcome`: a fault, or a result together with the tokens that are left. There is one equation
for the outcome of each reader, in which the outcomes of the readers that it calls are put together
one after the other, and `Parser.expect` takes the brackets, and the colon, that have to be there.

Statements about all outcomes, the faults included, are proved along these equations.
-/

namespace DynExpr.Parser

/-- What is read, and the tokens that are left; or a fault. -/
abbrev Outcome (α : Type) := Except SyntaxFault (α × List Token)

/-- What a reader answers, without the proof that it consumed tokens. -/
def outcome {α : Type} {p : List Token → Prop} :
    Except SyntaxFault (α × { rest : List Token // p rest }) → Outcome α
  | .ok (value, rest) => .ok (value, rest.1)
  | .error fault => .error fault

/-- Goes on with what was read, and with the tokens that are left. -/
def Outcome.andThen {α β : Type} (read : Outcome α) (next : α → List Token → Outcome β) :
    Outcome β :=
  match read with
  | .ok (value, rest) => next value rest
  | .error fault => .error fault

/-- Takes a token with the given lexeme. -/
def expect (lexeme : Lexeme) (tokens : List Token) : Outcome Unit :=
  match tokens with
  | [] => .error (unexpected [])
  | token :: rest =>
    if token.lexeme = lexeme then .ok ((), rest) else .error (unexpected (token :: rest))

/-- A primary expression may begin with the lexeme. -/
def beginsPrimary : Lexeme → Bool
  | .number _ _ | .identifier _ | .leftParen | .leftBracket => true
  | _ => false

variable {least : Int} {left operand : Node} {closing : Lexeme} {token : Token}
  {tokens rest : List Token}

/-! ### Equations -/

/-- An expression is an operand and the infix operators after it. -/
theorem outcome_infixExpression :
    outcome (infixExpression least tokens) =
      (outcome (unaryExpression tokens)).andThen fun left rest =>
        outcome (infixTail least left rest) := by
  rw [infixExpression]
  rcases unaryExpression tokens with fault | ⟨left, rest, hshorter⟩
  · rfl
  · dsimp only [outcome, Outcome.andThen]
    rcases infixTail least left rest with fault | ⟨node, rest', hshorter'⟩ <;> rfl

/-- Without an infix operator the expression is over. -/
theorem outcome_infixTail_stop (h : infixName? (next tokens) = none) :
    outcome (infixTail least left tokens) = .ok (left, tokens) := by
  cases tokens with
  | nil =>
    rw [infixTail]
    rfl
  | cons token rest =>
    have hname : infixName? token.lexeme = none := h
    rw [infixTail]
    simp only [hname]
    rfl

/-- An infix operator that binds too loosely is left, and any other one is taken. -/
theorem outcome_infixTail {name : Text} (h : infixName? token.lexeme = some name) :
    outcome (infixTail least left (token :: rest)) =
      if infixPrecedence name < least then .ok (left, token :: rest)
      else if name = utf8 "?" then
        (outcome (infixExpression 1 rest)).andThen fun middle afterMiddle =>
          (expect (.operator (utf8 ":")) afterMiddle).andThen fun _ afterColon =>
            (outcome (infixExpression (infixPrecedence name) afterColon)).andThen
              fun right afterRight =>
                outcome (infixTail least (.apply .conditional [left, middle, right]) afterRight)
      else
        (outcome (infixExpression (rightPrecedence name) rest)).andThen fun right afterRight =>
          outcome (infixTail least (.apply (.infixOp name) [left, right]) afterRight) := by
  rw [infixTail]
  simp only [h]
  split
  · rfl
  split
  · rcases infixExpression 1 rest with fault | ⟨middle, afterMiddle, hmiddle⟩
    · rfl
    dsimp only [outcome, Outcome.andThen]
    cases afterMiddle with
    | nil => rfl
    | cons colon afterColon =>
      unfold expect
      -- both sides look for the colon, and name the same fault without it
      by_cases hcolon : colon.lexeme = .operator (utf8 ":")
      · simp only [if_pos hcolon]
        rcases infixExpression (infixPrecedence name) afterColon with
          fault | ⟨right, afterRight, hright⟩
        · rfl
        dsimp only
        rcases infixTail least (.apply .conditional [left, middle, right]) afterRight with
          fault | ⟨node, final, hfinal⟩ <;> rfl
      · simp only [if_neg hcolon]
  · rcases infixExpression (rightPrecedence name) rest with fault | ⟨right, afterRight, hright⟩
    · rfl
    dsimp only [outcome, Outcome.andThen]
    rcases infixTail least (.apply (.infixOp name) [left, right]) afterRight with
      fault | ⟨node, final, hfinal⟩ <;> rfl

/-- An operator in front is a prefix operator. -/
theorem outcome_unaryExpression_operator {name : Text} (h : token.lexeme = .operator name) :
    outcome (unaryExpression (token :: rest)) =
      (outcome (unaryExpression rest)).andThen fun operand afterOperand =>
        .ok (.apply (.prefixOp name) [operand], afterOperand) := by
  obtain ⟨lexeme, position, spaced⟩ := token
  obtain rfl : lexeme = .operator name := h
  rw [unaryExpression]
  rcases unaryExpression rest with fault | ⟨operand, afterOperand, hshorter⟩ <;> rfl

/-- Without one, postfix operators may follow the operand. -/
theorem outcome_unaryExpression (h : ∀ name, next tokens ≠ .operator name) :
    outcome (unaryExpression tokens) = outcome (postfixExpression tokens) := by
  unfold unaryExpression
  split
  · next name position spaced others => exact absurd rfl (h name)
  · rfl

/-- An operand, and the postfix operators and subscripts after it. -/
theorem outcome_postfixExpression :
    outcome (postfixExpression tokens) =
      (outcome (primaryExpression tokens)).andThen fun operand rest =>
        outcome (postfixTail operand rest) := by
  rw [postfixExpression]
  rcases primaryExpression tokens with fault | ⟨operand, rest, hshorter⟩
  · rfl
  · dsimp only [outcome, Outcome.andThen]
    rcases postfixTail operand rest with fault | ⟨node, rest', hshorter'⟩ <;> rfl

/-- Nothing follows at the end of the tokens. -/
theorem outcome_postfixTail_nil : outcome (postfixTail operand []) = .ok (operand, []) := by
  rw [postfixTail]
  rfl

/-- An opening bracket begins an index. -/
theorem outcome_postfixTail_bracket (h : token.lexeme = .leftBracket) :
    outcome (postfixTail operand (token :: rest)) =
      (outcome (infixExpression 0 rest)).andThen fun index afterIndex =>
        (expect .rightBracket afterIndex).andThen fun _ afterBracket =>
          outcome (postfixTail (subscripted operand index) afterBracket) := by
  rw [postfixTail]
  simp only [if_pos h]
  rcases infixExpression 0 rest with fault | ⟨index, afterIndex, hindex⟩
  · rfl
  dsimp only [outcome, Outcome.andThen]
  cases afterIndex with
  | nil => rfl
  | cons bracket afterBracket =>
    unfold expect
    -- the index has to be closed
    by_cases hbracket : bracket.lexeme = .rightBracket
    · simp only [if_pos hbracket]
      rcases postfixTail (subscripted operand index) afterBracket with
        fault | ⟨node, final, hfinal⟩ <;> rfl
    · simp only [if_neg hbracket]

/-- Any other token is a postfix operator, or is left. -/
theorem outcome_postfixTail (h : token.lexeme ≠ .leftBracket) :
    outcome (postfixTail operand (token :: rest)) =
      match postfixName? (token :: rest) with
      | none => .ok (operand, token :: rest)
      | some name => outcome (postfixTail (.apply (.postfixOp name) [operand]) rest) := by
  rw [postfixTail]
  simp only [if_neg h]
  cases postfixName? (token :: rest) with
  | none => rfl
  | some name =>
    dsimp only
    rcases postfixTail (.apply (.postfixOp name) [operand]) rest with
      fault | ⟨node, final, hfinal⟩ <;> rfl

/-- What begins no operand is a fault. -/
theorem outcome_primaryExpression_fault (h : beginsPrimary (next tokens) = false) :
    outcome (primaryExpression tokens) = .error (unexpected tokens) := by
  rw [primaryExpression.eq_def]
  cases tokens with
  | nil => rfl
  | cons token rest =>
    obtain ⟨lexeme, position, spaced⟩ := token
    cases lexeme with
    -- these begin an operand
    | number | identifier | leftParen | leftBracket => cases h
    | _ => rfl

/-- A number. -/
theorem outcome_primaryExpression_number {text : Text} {value : Double}
    (h : token.lexeme = .number text value) :
    outcome (primaryExpression (token :: rest)) = .ok (.number value, rest) := by
  obtain ⟨lexeme, position, spaced⟩ := token
  obtain rfl : lexeme = .number text value := h
  rw [primaryExpression]
  rfl

/-- A name in front of a parenthesis is called. -/
theorem outcome_primaryExpression_call {name : Text} {bracket : Token}
    (h : token.lexeme = .identifier name) (hbracket : bracket.lexeme = .leftParen) :
    outcome (primaryExpression (token :: bracket :: rest)) =
      (outcome (arguments .rightParen rest)).andThen fun children afterArguments =>
        .ok (.apply (.function name (.exactly children.length)) children, afterArguments) := by
  obtain ⟨lexeme, position, spaced⟩ := token
  obtain ⟨lexeme', position', spaced'⟩ := bracket
  obtain rfl : lexeme = .identifier name := h
  obtain rfl : lexeme' = .leftParen := hbracket
  rw [primaryExpression]
  rcases arguments .rightParen rest with fault | ⟨children, rest', hshorter⟩ <;> rfl

/-- Any other name is a variable. -/
theorem outcome_primaryExpression_var {name : Text} (h : token.lexeme = .identifier name)
    (hnext : next rest ≠ .leftParen) :
    outcome (primaryExpression (token :: rest)) = .ok (.apply (.var name) [], rest) := by
  obtain ⟨hshorter, hread⟩ := readsPrimary_var h hnext
  rw [hread]
  rfl

/-- An expression in parentheses. -/
theorem outcome_primaryExpression_paren (h : token.lexeme = .leftParen) :
    outcome (primaryExpression (token :: rest)) =
      (outcome (infixExpression 0 rest)).andThen fun inner afterInner =>
        (expect .rightParen afterInner).andThen fun _ afterParen => .ok (inner, afterParen) := by
  obtain ⟨lexeme, position, spaced⟩ := token
  obtain rfl : lexeme = .leftParen := h
  rw [primaryExpression]
  rcases infixExpression 0 rest with fault | ⟨inner, afterInner, hinner⟩
  · rfl
  dsimp only [outcome, Outcome.andThen]
  cases afterInner with
  | nil => rfl
  | cons paren afterParen =>
    unfold expect
    by_cases hparen : paren.lexeme = .rightParen
    · simp only [if_pos hparen]
    · simp only [if_neg hparen]

/-- An array literal. -/
theorem outcome_primaryExpression_bracket (h : token.lexeme = .leftBracket) :
    outcome (primaryExpression (token :: rest)) =
      (outcome (arguments .rightBracket rest)).andThen fun children afterArguments =>
        .ok (.apply (.arrayLiteral children.length) children, afterArguments) := by
  obtain ⟨lexeme, position, spaced⟩ := token
  obtain rfl : lexeme = .leftBracket := h
  rw [primaryExpression]
  rcases arguments .rightBracket rest with fault | ⟨children, rest', hshorter⟩ <;> rfl

/-- A list does not end with the tokens. -/
theorem outcome_arguments_nil : outcome (arguments closing []) = .error (unexpected []) := by
  rw [arguments]
  rfl

/-- A list is empty, or has members. -/
theorem outcome_arguments :
    outcome (arguments closing (token :: rest)) =
      if token.lexeme = closing then .ok ([], rest)
      else outcome (argumentsTail closing (token :: rest)) := by
  rw [arguments]
  split <;> rfl

/-- A list is not over at the finish. -/
theorem outcome_arguments_fault (h : next tokens = .finish) (hclosing : closing ≠ .finish) :
    outcome (arguments closing tokens) = .error (unexpected tokens) := by
  cases tokens with
  | nil => exact outcome_arguments_nil
  | cons token rest =>
    have hlexeme : token.lexeme ≠ closing := fun heq => hclosing (heq ▸ h)
    -- the finish begins no expression
    have hmember : infixExpression 1 (token :: rest) = .error (unexpected (token :: rest)) := by
      rw [infixExpression, unaryExpression_eq_error (h ▸ List.mem_cons_self)]
    rw [outcome_arguments, if_neg hlexeme, argumentsTail, hmember]
    rfl

/-- After a member of a list a comma or the closing bracket has to follow. -/
def afterMember (closing : Lexeme) (first : Node) (tokens : List Token) : Outcome (List Node) :=
  if next tokens = .comma then
    (expect .comma tokens).andThen fun _ rest =>
      (outcome (argumentsTail closing rest)).andThen fun others afterOthers =>
        .ok (first :: others, afterOthers)
  else (expect closing tokens).andThen fun _ rest => .ok ([first], rest)

/-- A member, and what follows it. -/
theorem outcome_argumentsTail :
    outcome (argumentsTail closing tokens) =
      (outcome (infixExpression 1 tokens)).andThen fun first rest =>
        afterMember closing first rest := by
  rw [argumentsTail]
  rcases infixExpression 1 tokens with fault | ⟨first, afterFirst, hfirst⟩
  · rfl
  dsimp only [outcome, Outcome.andThen]
  unfold afterMember expect
  cases afterFirst with
  | nil => rfl
  | cons separator rest =>
    -- a comma goes on with the list, and only the closing bracket ends it
    by_cases hcomma : separator.lexeme = .comma
    · simp only [if_pos hcomma, next, Outcome.andThen]
      rcases argumentsTail closing rest with fault | ⟨others, rest', hothers⟩ <;> rfl
    · simp only [if_neg hcomma, next]
      by_cases hclosing : separator.lexeme = closing
      · simp only [if_pos hclosing]; rfl
      · simp only [if_neg hclosing]; rfl

/-- A whole list of tokens has to be read up to its finish. -/
theorem parseTokens_outcome :
    parseTokens tokens =
      if next tokens = .finish then .error ⟨[]⟩
      else
        match outcome (infixExpression 0 tokens) with
        | .error fault => .error fault
        | .ok (node, rest) =>
          if next rest = .finish then .ok node else .error (unexpected rest) := by
  unfold parseTokens
  split
  · rfl
  · rcases infixExpression 0 tokens with fault | ⟨node, rest, hshorter⟩ <;> rfl

/-- A list of tokens that is read is read to its finish. -/
theorem parseTokens_eq_ok {node : Node} (h : parseTokens tokens = .ok node) :
    ∃ rest, outcome (infixExpression 0 tokens) = .ok (node, rest) ∧ next rest = .finish := by
  rw [parseTokens_outcome] at h
  split at h
  · cases h
  split at h
  · cases h
  · next node' rest hread =>
    split at h
    · next hnext =>
      cases h
      exact ⟨rest, hread, hnext⟩
    · cases h

/-- An outcome of an infix expression is what is read. -/
theorem readsInfix_of_outcome {node : Node}
    (h : outcome (infixExpression least tokens) = .ok (node, rest)) :
    ReadsInfix least tokens node rest := by
  unfold ReadsInfix
  rcases hread : infixExpression least tokens with fault | ⟨node', rest', hshorter⟩
  · rw [hread] at h
    cases h
  · rw [hread] at h
    cases h
    exact ⟨hshorter, rfl⟩

/-! ### Tokens that are left -/

/-- A reader that consumes tokens leaves fewer. -/
theorem length_lt_of_outcome {α : Type} {reader : Consumed α tokens} {value : α} {left : List Token}
    (h : outcome reader = .ok (value, left)) : left.length < tokens.length := by
  match reader with
  | .error fault => cases h
  | .ok (_, ⟨_, hshorter⟩) =>
    cases h
    exact hshorter

/-- An expected token is consumed. -/
theorem length_lt_of_expect {lexeme : Lexeme} {left : List Token}
    (h : expect lexeme tokens = .ok ((), left)) : left.length < tokens.length := by
  unfold expect at h
  split at h
  · cases h
  · split at h
    · cases h
      exact Nat.lt_succ_self _
    · cases h

end DynExpr.Parser
