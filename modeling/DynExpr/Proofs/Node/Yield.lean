import DynExpr.Proofs.Node.Context
import DynExpr.Proofs.Node.Builds
import DynExpr.Proofs.Token.Names

/-!
# No token is lost

A tree keeps of its tokens the values of the numbers, the names and the operators, its terminals;
brackets and commas only shape it. `Node.yield` is the walk over a tree in the order of its source
that collects these terminals.

`Parser.Outcome.Yields` says of an outcome of reading that it accounts for the tokens it has taken,
none of which is a finish: a result has as its terminals those of these tokens, behind the ones that
it had before, and a fault names the first token that is left. Readings one after the other yield if
each one does (`Parser.Outcome.Yields.andThen`), so every reader yields.

`parse_yield` is the result for a line: it is read as a tree that yields the terminals of its tokens
in their order, or there is a fault.
-/

namespace DynExpr

open DynExpr.Parser

/-! ### Terminals -/

/-- What a tree keeps of a token. -/
inductive Terminal
  | number (value : Double)
  | name (text : Text)
  | operator (text : Text)
deriving DecidableEq

/-- The terminal of a lexeme. Brackets, commas and the finish have none. -/
def Lexeme.terminal? : Lexeme → Option Terminal
  | number _ value => some (.number value)
  | identifier text => some (.name text)
  | operator text => some (.operator text)
  | _ => none

/-- The terminals of tokens, in their order. -/
def terminals (tokens : List Token) : List Terminal := tokens.filterMap (·.lexeme.terminal?)

/-- The terminals between the operands of an infix operator: subscripts and commas have none. -/
def betweenTerminals (name : Text) : List Terminal :=
  if name = Symbol.brackets ∨ name = utf8 "," then [] else [.operator name]

/-- The terminals of a symbol and of its operands in the order of their source, given those of each
operand. -/
def Symbol.arrange (symbol : Symbol) (operands : List (List Terminal)) : List Terminal :=
  match symbol with
  | .var name => [.name name]
  | .array name => .name name :: operands.flatten
  | .function name _ =>
    if name = brackets then operands.flatten else .name name :: operands.flatten
  | .prefixOp name => .operator name :: operands.flatten
  | .postfixOp name => operands.flatten ++ [.operator name]
  | .infixOp name =>
    match operands with
    | [left, right] => left ++ (betweenTerminals name ++ right)
    | [condition, first, second] =>
      condition ++ (.operator (utf8 "?") :: (first ++ (.operator (utf8 ":") :: second)))
    | _ => operands.flatten

mutual
/-- The terminals of a tree, in the order of its source. -/
def Node.yield : Node → List Terminal
  | .number value => [.number value]
  | .apply symbol children => symbol.arrange (Node.yields children)

/-- The terminals of each tree of a list. -/
def Node.yields : List Node → List (List Terminal)
  | [] => []
  | node :: rest => node.yield :: Node.yields rest
end

/-- No tokens have no terminals. -/
@[simp] theorem terminals_nil : terminals [] = [] := rfl

/-- The terminal of the first token comes first. -/
@[simp] theorem terminals_cons (token : Token) (tokens : List Token) :
    terminals (token :: tokens) = token.lexeme.terminal?.toList ++ terminals tokens := by
  unfold terminals
  rw [List.filterMap_cons]
  cases token.lexeme.terminal? <;> rfl

/-- Terminals are listed in the order of the tokens. -/
@[simp] theorem terminals_append (tokens others : List Token) :
    terminals (tokens ++ others) = terminals tokens ++ terminals others :=
  List.filterMap_append

/-- An infix operator other than a subscript leaves its token between its operands. -/
theorem Lexeme.IsNamed.terminal?_of_infixName? {lexeme : Lexeme} {name : Text} (h : lexeme.IsNamed)
    (hname : infixName? lexeme = some name) :
    lexeme.terminal?.toList = betweenTerminals name := by
  cases lexeme with
  | comma =>
    obtain rfl := Option.some.inj hname
    rfl
  | operator text =>
    obtain rfl := Option.some.inj hname
    have hall : ∀ b ∈ text, isOperatorByte b = true := h.2
    -- neither brackets nor commas are bytes of an operator
    have hother : ¬ (text = Symbol.brackets ∨ text = utf8 ",") := by
      rintro (rfl | rfl)
      · exact absurd (hall 91 (by decide)) (by decide)
      · exact absurd (hall 44 (by decide)) (by decide)
    rw [betweenTerminals, if_neg hother]
    rfl
  | _ => cases hname

/-- No name of a line is the pair of brackets. -/
theorem Lexeme.IsNamed.ne_brackets {name : Text} (h : (Lexeme.identifier name).IsNamed) :
    name ≠ Symbol.brackets := by
  rintro rfl
  rcases h with h | ⟨quote, contents, hquote, h⟩
  · exact absurd h.1 (by decide)
  · have hhead : (91 : UInt8) = quote := (List.cons.inj h).1
    rcases hquote with rfl | rfl <;> exact absurd hhead (by decide)

/-- A subscript begins with its container. -/
theorem yield_subscripted (container index : Node) :
    (subscripted container index).yield = container.yield ++ index.yield := by
  unfold subscripted
  split
  · simp [Node.yield, Node.yields, Symbol.arrange]
  · simp [Node.yield, Node.yields, Symbol.arrange, Symbol.subscript, betweenTerminals]

/-- A prefix operator comes first. -/
theorem yield_prefixOp (name : Text) (operand : Node) :
    (Node.apply (.prefixOp name) [operand]).yield = .operator name :: operand.yield := by
  simp [Node.yield, Node.yields, Symbol.arrange]

/-- A postfix operator comes last. -/
theorem yield_postfixOp (name : Text) (operand : Node) :
    (Node.apply (.postfixOp name) [operand]).yield = operand.yield ++ [.operator name] := by
  simp [Node.yield, Node.yields, Symbol.arrange]

/-- A call begins with its name. -/
theorem yield_function {name : Text} (hname : name ≠ Symbol.brackets) (arity : Arity)
    (children : List Node) :
    (Node.apply (.function name arity) children).yield =
      .name name :: (Node.yields children).flatten := by
  simp [Node.yield, Symbol.arrange, hname]

/-- An array literal has no terminal of its own. -/
theorem yield_arrayLiteral (count : Nat) (children : List Node) :
    (Node.apply (.arrayLiteral count) children).yield = (Node.yields children).flatten := by
  simp [Node.yield, Symbol.arrange, Symbol.arrayLiteral]

/-- An infix operator is between its operands. -/
theorem yield_infixOp (name : Text) (left right : Node) :
    (Node.apply (.infixOp name) [left, right]).yield =
      left.yield ++ betweenTerminals name ++ right.yield := by
  simp [Node.yield, Node.yields, Symbol.arrange]

/-- A conditional has two terminals of its own. -/
theorem yield_conditional (condition first second : Node) :
    (Node.apply .conditional [condition, first, second]).yield =
      condition.yield ++ [.operator (utf8 "?")] ++ first.yield ++ [.operator (utf8 ":")] ++
        second.yield := by
  simp [Node.yield, Node.yields, Symbol.arrange, Symbol.conditional]

/-! ### Outcomes that account for their tokens -/

namespace Parser

variable {α β : Type} {yield : α → List Terminal} {yield' : β → List Terminal}
  {before : List Terminal} {token : Token} {tokens used used' rest rest' : List Token}
  {read : Outcome α} {f : α → List Token → Outcome β}

/-- The tokens `used` are taken, of which none is a finish, and `rest` is left. -/
def Takes (tokens used rest : List Token) : Prop :=
  tokens = used ++ rest ∧ ∀ token ∈ used, token.lexeme ≠ .finish

/-- Nothing is taken. -/
theorem takes_nil (tokens : List Token) : Takes tokens [] tokens :=
  ⟨rfl, fun _ hmem => absurd hmem List.not_mem_nil⟩

/-- One more token is taken in front. -/
theorem Takes.cons (h : Takes tokens used rest) (htoken : token.lexeme ≠ .finish) :
    Takes (token :: tokens) (token :: used) rest :=
  ⟨by rw [h.1, List.cons_append], List.forall_mem_cons.mpr ⟨htoken, h.2⟩⟩

/-- Tokens are taken one after the other. -/
theorem Takes.append (h : Takes tokens used rest) (h' : Takes rest used' rest') :
    Takes tokens (used ++ used') rest' :=
  ⟨by rw [h.1, h'.1, List.append_assoc], List.forall_mem_append.mpr ⟨h.2, h'.2⟩⟩

/-- What is left is among what there was. -/
theorem Takes.among {Q : Lexeme → Prop} (h : Takes tokens used rest) (htokens : Among Q tokens) :
    Among Q rest :=
  fun token hmem => htokens token (h.1 ▸ List.mem_append_right _ hmem)

/-- A result has the terminals of the tokens that were taken, behind the ones of `before`. A fault
is that of finding the tokens that are left. -/
def Outcome.Yields (yield : α → List Terminal) (before : List Terminal) (tokens : List Token) :
    Outcome α → Prop
  | .ok (value, rest) => ∃ used, Takes tokens used rest ∧ yield value = before ++ terminals used
  | .error fault => ∃ used rest, Takes tokens used rest ∧ fault = unexpected rest

/-- Nothing was taken. -/
theorem yields_ok {value : α} (h : yield value = before) :
    Outcome.Yields yield before tokens (.ok (value, tokens)) :=
  ⟨[], takes_nil tokens, by rw [h, terminals_nil, List.append_nil]⟩

/-- A fault at once. -/
theorem yields_fault : Outcome.Yields yield before tokens (.error (unexpected tokens)) :=
  ⟨[], tokens, takes_nil tokens, rfl⟩

/-- A token is taken. -/
theorem Outcome.Yields.cons {lexeme : Lexeme} (hlexeme : token.lexeme = lexeme)
    (hfinish : lexeme ≠ .finish)
    (h : read.Yields yield (before ++ lexeme.terminal?.toList) rest) :
    read.Yields yield before (token :: rest) := by
  subst hlexeme
  match read, h with
  | .ok (value, left), ⟨used, hused, hyield⟩ =>
    refine ⟨token :: used, hused.cons hfinish, ?_⟩
    rw [hyield, terminals_cons, List.append_assoc]
  | .error fault, ⟨used, left, hused, hfault⟩ =>
    exact ⟨token :: used, left, hused.cons hfinish, hfault⟩

/-- **Readings one after the other account for their tokens** if each of them does. -/
theorem Outcome.Yields.andThen (h : read.Yields yield [] tokens)
    (hf : ∀ value used rest, Takes tokens used rest → read = .ok (value, rest) →
      (f value rest).Yields yield' (before ++ yield value) rest) :
    (read.andThen f).Yields yield' before tokens := by
  match read, h with
  | .error fault, h => exact h
  | .ok (value, between), ⟨used, hused, hyield⟩ =>
    show (f value between).Yields yield' before tokens
    -- the second reading starts with the terminals of the first one
    have hnext := hf value used between hused rfl
    rw [hyield, List.nil_append] at hnext
    match f value between, hnext with
    | .ok (final, left), ⟨used', hused', hyield'⟩ =>
      refine ⟨used ++ used', hused.append hused', ?_⟩
      rw [hyield', terminals_append, List.append_assoc]
    | .error fault, ⟨used', left, hused', hfault⟩ =>
      exact ⟨used ++ used', left, hused.append hused', hfault⟩

/-- An expected token is taken. -/
theorem yields_expect {lexeme : Lexeme} (hfinish : lexeme ≠ .finish) :
    (expect lexeme tokens).Yields (fun _ => lexeme.terminal?.toList) [] tokens := by
  unfold expect
  split
  · exact yields_fault
  · split
    · next token rest hlexeme => exact .cons hlexeme hfinish (yields_ok rfl)
    · exact yields_fault

/-! ### The readers -/

-- The induction is the one of `infixExpression_alike`. What is carried along besides is that the
-- tokens have names, since brackets in a name would be taken for a subscript.
mutual

/-- An expression, down to a least precedence. -/
theorem infixExpression_yields {least : Int} {tokens : List Token}
    (htokens : Among Lexeme.IsNamed tokens) :
    (outcome (infixExpression least tokens)).Yields Node.yield [] tokens := by
  rw [outcome_infixExpression]
  refine (unaryExpression_yields htokens).andThen fun left used rest hused hread => ?_
  have hshorter := length_lt_of_outcome hread
  exact infixTail_yields (hused.among htokens)
termination_by 6 * tokens.length + 3

/-- Infix operators after a left operand, whose terminals come first. -/
theorem infixTail_yields {least : Int} {left : Node} {tokens : List Token}
    (htokens : Among Lexeme.IsNamed tokens) :
    (outcome (infixTail least left tokens)).Yields Node.yield left.yield tokens := by
  obtain ⟨count, hcount⟩ : ∃ count, tokens.length = count := ⟨_, rfl⟩
  cases hnext : infixName? (next tokens) with
  | none =>
    rw [outcome_infixTail_stop hnext]
    exact yields_ok rfl
  | some name =>
    cases tokens with
    | nil => cases hnext
    | cons token others =>
      have hname : infixName? token.lexeme = some name := hnext
      rw [outcome_infixTail hname]
      split
      · exact yields_ok rfl
      -- the finish is no operator
      have hfinish : token.lexeme ≠ .finish := fun h => by
        rw [h] at hname
        cases hname
      refine .cons rfl hfinish ?_
      rw [htokens.head.terminal?_of_infixName? hname]
      split
      · -- a question mark: two more expressions follow, with a colon between them
        next hquestion =>
        subst hquestion
        refine (infixExpression_yields htokens.tail).andThen
          fun middle _ afterMiddle hmiddle hread => ?_
        have hnamed : Among Lexeme.IsNamed afterMiddle := (hmiddle.among htokens.tail)
        have hshorter := length_lt_of_outcome hread
        refine (yields_expect (by decide)).andThen fun _ _ afterColon hcolon hread' => ?_
        have hnamed' : Among Lexeme.IsNamed afterColon := (hcolon.among hnamed)
        have hshorter' := length_lt_of_expect hread'
        refine (infixExpression_yields hnamed').andThen
          fun right _ afterRight hright hread'' => ?_
        have hshorter'' := length_lt_of_outcome hread''
        have htail : (outcome (infixTail least (.apply .conditional [left, middle, right])
            afterRight)).Yields Node.yield _ afterRight :=
          infixTail_yields (hright.among hnamed')
        rwa [yield_conditional] at htail
      · -- any other infix operator: its right operand follows
        refine (infixExpression_yields htokens.tail).andThen
          fun right _ afterRight hright hread => ?_
        have hshorter := length_lt_of_outcome hread
        have htail : (outcome (infixTail least (.apply (.infixOp name) [left, right])
            afterRight)).Yields Node.yield _ afterRight :=
          infixTail_yields (hright.among htokens.tail)
        rwa [yield_infixOp] at htail
termination_by 6 * tokens.length + 0
decreasing_by all_goals (simp only [List.length_cons] at *; omega)

/-- An operand with its prefix operators. -/
theorem unaryExpression_yields {tokens : List Token} (htokens : Among Lexeme.IsNamed tokens) :
    (outcome (unaryExpression tokens)).Yields Node.yield [] tokens := by
  obtain ⟨count, hcount⟩ : ∃ count, tokens.length = count := ⟨_, rfl⟩
  by_cases hoperator : ∃ name, next tokens = .operator name
  · obtain ⟨name, hname⟩ := hoperator
    cases tokens with
    | nil => cases hname
    | cons token others =>
      have hlexeme : token.lexeme = .operator name := hname
      rw [outcome_unaryExpression_operator hlexeme]
      refine .cons hlexeme (fun h => nomatch h) ?_
      exact (unaryExpression_yields htokens.tail).andThen fun operand _ _ _ _ =>
        yields_ok (yield_prefixOp name operand)
  · rw [outcome_unaryExpression fun name hname => hoperator ⟨name, hname⟩]
    exact postfixExpression_yields htokens
termination_by 6 * tokens.length + 2
decreasing_by all_goals (simp only [List.length_cons] at *; omega)

/-- An operand with its postfix operators and subscripts. -/
theorem postfixExpression_yields {tokens : List Token} (htokens : Among Lexeme.IsNamed tokens) :
    (outcome (postfixExpression tokens)).Yields Node.yield [] tokens := by
  rw [outcome_postfixExpression]
  refine (primaryExpression_yields htokens).andThen fun operand _ rest hused hread => ?_
  have hshorter := length_lt_of_outcome hread
  exact postfixTail_yields (hused.among htokens)
termination_by 6 * tokens.length + 1

/-- Postfix operators and subscripts after an operand, whose terminals come first. -/
theorem postfixTail_yields {operand : Node} {tokens : List Token}
    (htokens : Among Lexeme.IsNamed tokens) :
    (outcome (postfixTail operand tokens)).Yields Node.yield operand.yield tokens := by
  obtain ⟨count, hcount⟩ : ∃ count, tokens.length = count := ⟨_, rfl⟩
  cases tokens with
  | nil =>
    rw [outcome_postfixTail_nil]
    exact yields_ok rfl
  | cons token others =>
    by_cases hbracket : token.lexeme = .leftBracket
    · -- an index in brackets
      rw [outcome_postfixTail_bracket hbracket]
      refine .cons hbracket (by decide) ?_
      refine (infixExpression_yields htokens.tail).andThen
        fun index _ afterIndex hindex hread => ?_
      have hnamed : Among Lexeme.IsNamed afterIndex := (hindex.among htokens.tail)
      have hshorter := length_lt_of_outcome hread
      refine (yields_expect (by decide)).andThen fun _ _ afterBracket hclosing hread' => ?_
      have hshorter' := length_lt_of_expect hread'
      have htail : (outcome (postfixTail (subscripted operand index) afterBracket)).Yields
          Node.yield _ afterBracket := postfixTail_yields (hclosing.among hnamed)
      rw [yield_subscripted] at htail
      simpa only [Lexeme.terminal?, Option.toList_none, List.append_nil] using htail
    · rw [outcome_postfixTail hbracket]
      cases hname : postfixName? (token :: others) with
      | none => exact yields_ok rfl
      | some name =>
        refine .cons (postfixName?_eq_some hname) (fun h => nomatch h) ?_
        have htail : (outcome (postfixTail (.apply (.postfixOp name) [operand]) others)).Yields
            Node.yield _ others := postfixTail_yields htokens.tail
        rwa [yield_postfixOp] at htail
termination_by 6 * tokens.length + 0
decreasing_by all_goals (simp only [List.length_cons] at *; omega)

/-- A number, a name, a call, an array literal, or an expression in parentheses. -/
theorem primaryExpression_yields {tokens : List Token} (htokens : Among Lexeme.IsNamed tokens) :
    (outcome (primaryExpression tokens)).Yields Node.yield [] tokens := by
  obtain ⟨count, hcount⟩ : ∃ count, tokens.length = count := ⟨_, rfl⟩
  cases tokens with
  | nil =>
    rw [outcome_primaryExpression_fault rfl]
    exact yields_fault
  | cons token others =>
    have hnamed := htokens.head
    cases hlexeme : token.lexeme with
    | number text value =>
      rw [outcome_primaryExpression_number hlexeme]
      exact .cons hlexeme (fun h => nomatch h) (yields_ok rfl)
    | identifier name =>
      rw [hlexeme] at hnamed
      by_cases hopening : next others = .leftParen
      · -- a call
        cases others with
        | nil => cases hopening
        | cons bracket others =>
          have hbracket : bracket.lexeme = .leftParen := hopening
          rw [outcome_primaryExpression_call hlexeme hbracket]
          refine .cons hlexeme (fun h => nomatch h) (.cons hbracket (by decide) ?_)
          exact (arguments_yields rfl (by decide) htokens.tail.tail).andThen fun children _ _ _ _ =>
            yields_ok (yield_function hnamed.ne_brackets _ children)
      · rw [outcome_primaryExpression_var hlexeme hopening]
        exact .cons hlexeme (fun h => nomatch h) (yields_ok rfl)
    | leftParen =>
      rw [outcome_primaryExpression_paren hlexeme]
      refine .cons hlexeme (by decide) ?_
      refine (infixExpression_yields htokens.tail).andThen fun inner _ _ _ _ => ?_
      -- the parentheses have no terminals
      exact (yields_expect (by decide)).andThen fun _ _ _ _ _ =>
        yields_ok (by simp [Lexeme.terminal?])
    | leftBracket =>
      rw [outcome_primaryExpression_bracket hlexeme]
      refine .cons hlexeme (by decide) ?_
      exact (arguments_yields rfl (by decide) htokens.tail).andThen fun children _ _ _ _ =>
        yields_ok (yield_arrayLiteral _ children)
    | _ =>
      have hfault : beginsPrimary (next (token :: others)) = false := by rw [next, hlexeme]; rfl
      rw [outcome_primaryExpression_fault hfault]
      exact yields_fault
termination_by 6 * tokens.length + 0
decreasing_by all_goals (simp only [List.length_cons] at *; omega)

/-- A list up to its closing bracket. -/
theorem arguments_yields {closing : Lexeme} (hclosing : closing.terminal? = none)
    (hfinish : closing ≠ .finish) {tokens : List Token} (htokens : Among Lexeme.IsNamed tokens) :
    (outcome (arguments closing tokens)).Yields (fun nodes => (Node.yields nodes).flatten) []
      tokens := by
  cases tokens with
  | nil =>
    rw [outcome_arguments_nil]
    exact yields_fault
  | cons token others =>
    rw [outcome_arguments]
    split
    · next hlexeme =>
      exact .cons hlexeme hfinish (yields_ok (by rw [hclosing]; rfl))
    · exact argumentsTail_yields hclosing hfinish htokens
termination_by 6 * tokens.length + 5

/-- The members of a list that is not empty. -/
theorem argumentsTail_yields {closing : Lexeme} (hclosing : closing.terminal? = none)
    (hfinish : closing ≠ .finish) {tokens : List Token} (htokens : Among Lexeme.IsNamed tokens) :
    (outcome (argumentsTail closing tokens)).Yields (fun nodes => (Node.yields nodes).flatten) []
      tokens := by
  rw [outcome_argumentsTail]
  refine (infixExpression_yields htokens).andThen fun first _ afterFirst hfirst hread => ?_
  have hnamed : Among Lexeme.IsNamed afterFirst := (hfirst.among htokens)
  have hshorter := length_lt_of_outcome hread
  unfold afterMember
  split
  · refine (yields_expect (by decide)).andThen fun _ _ afterComma hcomma hread' => ?_
    have hnamed' : Among Lexeme.IsNamed afterComma := (hcomma.among hnamed)
    have hshorter' := length_lt_of_expect hread'
    refine (argumentsTail_yields hclosing hfinish hnamed').andThen fun others _ _ _ _ => ?_
    exact yields_ok (by simp [Node.yields, Lexeme.terminal?])
  · -- the closing bracket, which has no terminal
    refine (yields_expect hfinish).andThen fun _ _ _ _ _ => yields_ok ?_
    simp [Node.yields, hclosing]
termination_by 6 * tokens.length + 4

end

end Parser

/-! ### A whole line -/

section Line

variable {used taken rest : List Token} {finish : Token}

/-- What is left behind taken tokens begins with a finish only if it is the finish. -/
theorem Parser.Takes.eq_finish (h : Takes (used ++ [finish]) taken rest)
    (hfinish : finish.lexeme = .finish) (hused : ∀ token ∈ used, token.lexeme ≠ .finish)
    (hnext : next rest = .finish) : rest = [finish] := by
  obtain ⟨hall, htaken⟩ := h
  rcases List.append_eq_append_iff.mp hall with ⟨between, rfl, hlast⟩ | ⟨between, rfl, rfl⟩
  · cases between with
    | nil => exact hlast.symm
    | cons token between =>
      -- the finish would have been taken
      obtain rfl := (List.cons.inj hlast).1
      exact absurd hfinish (htaken _ (List.mem_append_right _ List.mem_cons_self))
  · cases between with
    | nil => rfl
    | cons token between =>
      exact absurd hnext (hused token (List.mem_append_right _ List.mem_cons_self))

/-- The tokens of a text are read as a tree that yields their terminals, or one of them is where
reading stops. -/
theorem parseTokens_yields (hfinish : finish.lexeme = .finish)
    (hused : ∀ token ∈ used, token.lexeme ≠ .finish)
    (hnamed : Among Lexeme.IsNamed (used ++ [finish])) :
    (∃ node, parseTokens (used ++ [finish]) = .ok node ∧
      node.yield = terminals (used ++ [finish])) ∨
    ∃ fault, parseTokens (used ++ [finish]) = .error fault ∧
      (fault = ⟨[]⟩ ∨ ∃ token ∈ used ++ [finish], fault = unexpected [token]) := by
  -- the rest is not empty, since the finish would be taken otherwise
  have hfault : ∀ taken rest, Takes (used ++ [finish]) taken rest →
      ∃ token ∈ used ++ [finish], unexpected rest = unexpected [token] := by
    intro taken rest htakes
    cases rest with
    | nil => cases htakes.eq_finish hfinish hused rfl
    | cons token others =>
      exact ⟨token, htakes.1 ▸ List.mem_append_right _ List.mem_cons_self, rfl⟩
  have hyields : (outcome (infixExpression 0 (used ++ [finish]))).Yields Node.yield []
      (used ++ [finish]) := infixExpression_yields hnamed
  rw [parseTokens_outcome]
  split
  · exact .inr ⟨_, rfl, .inl rfl⟩
  generalize outcome (infixExpression 0 (used ++ [finish])) = read at hyields
  match read, hyields with
  | .error _, ⟨taken, rest, htakes, rfl⟩ =>
    exact .inr ⟨_, rfl, .inr (hfault taken rest htakes)⟩
  | .ok (node, rest), ⟨taken, htakes, hnode⟩ =>
    dsimp only
    split
    · next hnext =>
      obtain rfl := htakes.eq_finish hfinish hused hnext
      -- the finish has no terminal
      have hlast : terminals [finish] = [] := by
        rw [terminals_cons, hfinish]
        rfl
      refine .inl ⟨node, rfl, ?_⟩
      rw [hnode, htakes.1, terminals_append, hlast, List.append_nil, List.nil_append]
    · exact .inr ⟨_, rfl, .inr (hfault taken rest htakes)⟩

/-- **No token is lost or read twice.** A line that is cut into tokens is read as a tree that yields
the terminals of all of its tokens, or there is a fault: there is nothing to read, or reading stops
at one of the tokens. What would stand behind the finish has no influence on that. A line that is
not cut into tokens has the fault of the scanner. -/
theorem parse_yield (line : Text) :
    (∃ fault, tokenize line = .error fault ∧ parse line = .error fault) ∨
    ∃ tokens, tokenize line = .ok tokens ∧
      (∀ beyond, parseTokens (tokens ++ beyond) = parse line) ∧
      ((∃ node, parse line = .ok node ∧ node.yield = terminals tokens) ∨
        ∃ fault, parse line = .error fault ∧
          (fault = ⟨[]⟩ ∨ ∃ token ∈ tokens, fault = unexpected [token])) := by
  unfold parse
  cases htokens : tokenize line with
  | error fault => exact .inl ⟨fault, rfl, rfl⟩
  | ok tokens =>
    have hnamed : Among Lexeme.IsNamed tokens := tokensFrom_isNamed htokens
    obtain ⟨used, finish, rfl, hfinish, hused⟩ := tokensFrom_finish htokens
    refine .inr ⟨_, rfl, fun beyond => ?_, parseTokens_yields hfinish hused hnamed⟩
    -- the finish is the end, whatever stands behind it
    have hnext : next [finish] = .finish := hfinish
    have hnext' : next ([finish] ++ beyond) = .finish := hfinish
    rw [List.append_assoc]
    exact (parseTokens_eq_of_aligned hnext hnext' (aligned_append used _ _)).symm

end Line

end DynExpr
