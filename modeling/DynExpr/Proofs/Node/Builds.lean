import DynExpr.Proofs.Node.Outcomes

/-!
# What the readers build

A property of trees that every way of building a tree keeps is a property of every tree that is
read. `Parser.Builds Q P` lists the ways of building a tree, and what the readers know each time:
which lexeme named the symbol, of which `Q` holds, and that `P` holds of the operands. Of an infix
operator they also know that it binds operands at all, and that it is no question mark, which stands
for the conditional.

`Parser.Outcome.Ensures` says of an outcome of reading that what was read has a property, and that
the lexemes which are left have `Q`. Readings one after the other ensure what the last one does
(`Parser.Outcome.Ensures.andThen`), so there is one theorem for each reader, and they recurse as the
readers do. `parseTokens_builds` is the result for a whole list of tokens, `parse_builds` for a
line.
-/

namespace DynExpr

namespace Parser

/-- Whatever is built from lexemes with `Q` and from trees with `P` has `P`. -/
structure Builds (Q : Lexeme → Prop) (P : Node → Prop) : Prop where
  number {text : Text} {value : Double} (h : Q (.number text value)) : P (.number value)
  var {name : Text} (h : Q (.identifier name)) : P (.apply (.var name) [])
  function {name : Text} {children : List Node} (h : Q (.identifier name))
    (hchildren : ∀ child ∈ children, P child) :
    P (.apply (.function name (.exactly children.length)) children)
  arrayLiteral {children : List Node} (hchildren : ∀ child ∈ children, P child) :
    P (.apply (.arrayLiteral children.length) children)
  subscripted {container index : Node} (hcontainer : P container) (hindex : P index) :
    P (subscripted container index)
  prefixOp {name : Text} {operand : Node} (h : Q (.operator name)) (hoperand : P operand) :
    P (.apply (.prefixOp name) [operand])
  postfixOp {name : Text} {operand : Node} (h : Q (.operator name)) (hoperand : P operand) :
    P (.apply (.postfixOp name) [operand])
  infixOp {lexeme : Lexeme} {name : Text} {left right : Node} (h : Q lexeme)
    (hname : infixName? lexeme = some name) (hbinds : 0 ≤ infixPrecedence name)
    (hquestion : name ≠ utf8 "?") (hleft : P left) (hright : P right) :
    P (.apply (.infixOp name) [left, right])
  conditional {condition first second : Node} (hcondition : P condition) (hfirst : P first)
    (hsecond : P second) : P (.apply .conditional [condition, first, second])

/-- All tokens have lexemes with `Q`. -/
def Among (Q : Lexeme → Prop) (tokens : List Token) : Prop := ∀ token ∈ tokens, Q token.lexeme

variable {Q : Lexeme → Prop} {P : Node → Prop}

/-- The first lexeme is among them. -/
theorem Among.head {token : Token} {rest : List Token} (h : Among Q (token :: rest)) :
    Q token.lexeme := h token List.mem_cons_self

/-- The others are, too. -/
theorem Among.tail {token : Token} {rest : List Token} (h : Among Q (token :: rest)) :
    Among Q rest := fun other hmem => h other (List.mem_cons_of_mem _ hmem)

/-- The right operand of an operator that binds is read with a precedence that is not negative. -/
theorem rightPrecedence_nonneg {name : Text} (h : 0 ≤ infixPrecedence name) :
    0 ≤ rightPrecedence name := by
  unfold rightPrecedence
  -- the precedence of the operator, or the next one
  split <;> omega

/-- A postfix operator is an operator. -/
theorem postfixName?_eq_some {token : Token} {rest : List Token} {name : Text}
    (h : postfixName? (token :: rest) = some name) : token.lexeme = .operator name := by
  unfold postfixName? at h
  split at h
  · split at h
    · next hnext => exact Option.some.inj h ▸ hnext
    · cases h
  · cases h

/-! ### Outcomes that ensure a property -/

section Ensures

variable {α β : Type} {R : α → Prop} {S : β → Prop} {read : Outcome α}
  {f : α → List Token → Outcome β} {tokens : List Token}

/-- What is read has a property, and the lexemes that are left have one. -/
def Outcome.Ensures (R : α → Prop) (Q : Lexeme → Prop) (read : Outcome α) : Prop :=
  ∀ value rest, read = .ok (value, rest) → R value ∧ Among Q rest

/-- What is read at once. -/
theorem ensures_ok {value : α} (h : R value) (htokens : Among Q tokens) :
    Outcome.Ensures R Q (.ok (value, tokens)) := by
  rintro _ _ ⟨⟩
  exact ⟨h, htokens⟩

/-- A fault ensures anything. -/
theorem ensures_error (fault : SyntaxFault) : Outcome.Ensures R Q (.error fault) := nofun

/-- **Readings one after the other ensure what the last one ensures.** -/
theorem Outcome.Ensures.andThen (h : read.Ensures R Q)
    (hf : ∀ value rest, read = .ok (value, rest) → R value → Among Q rest →
      (f value rest).Ensures S Q) : (read.andThen f).Ensures S Q := by
  match read, h with
  | .error fault, _ => exact ensures_error fault
  | .ok (value, rest), h =>
    obtain ⟨hvalue, hrest⟩ := h value rest rfl
    exact hf value rest rfl hvalue hrest

/-- A token that is expected leaves the others. -/
theorem ensures_expect (lexeme : Lexeme) (htokens : Among Q tokens) :
    (expect lexeme tokens).Ensures (fun _ => True) Q := by
  cases tokens with
  | nil => exact ensures_error _
  | cons token others =>
    unfold expect
    dsimp only
    split
    · exact ensures_ok trivial htokens.tail
    · exact ensures_error _

end Ensures

/-! ### The readers -/

-- The induction follows the readers, by the number of tokens and then by the reader. Where the
-- cases take a list apart, its length has a name, so that it is still known below.
mutual

/-- An expression, down to a least precedence. -/
theorem infixExpression_builds (hP : Builds Q P) {least : Int} (hleast : 0 ≤ least)
    {tokens : List Token} (htokens : Among Q tokens) :
    (outcome (infixExpression least tokens)).Ensures P Q := by
  rw [outcome_infixExpression]
  refine (unaryExpression_builds hP htokens).andThen fun left rest hread hleft hrest => ?_
  have hshorter := length_lt_of_outcome hread
  exact infixTail_builds hP hleast hleft hrest
termination_by 6 * tokens.length + 3

/-- Infix operators after a left operand. -/
theorem infixTail_builds (hP : Builds Q P) {least : Int} (hleast : 0 ≤ least) {left : Node}
    {tokens : List Token} (hleft : P left) (htokens : Among Q tokens) :
    (outcome (infixTail least left tokens)).Ensures P Q := by
  obtain ⟨count, hcount⟩ : ∃ count, tokens.length = count := ⟨_, rfl⟩
  cases hnext : infixName? (next tokens) with
  | none =>
    rw [outcome_infixTail_stop hnext]
    exact ensures_ok hleft htokens
  | some name =>
    cases tokens with
    | nil => cases hnext
    | cons token others =>
      have hname : infixName? token.lexeme = some name := hnext
      rw [outcome_infixTail hname]
      split
      · -- an operator that binds too loosely is left for the caller
        exact ensures_ok hleft htokens
      next hbinds =>
      have hprecedence : 0 ≤ infixPrecedence name := by omega
      split
      · -- a question mark: two more expressions follow, with a colon between them
        refine (infixExpression_builds hP (by decide) htokens.tail).andThen
          fun middle afterMiddle hread hmiddle hafterMiddle => ?_
        have hshorter := length_lt_of_outcome hread
        refine (ensures_expect _ hafterMiddle).andThen
          fun _ afterColon hread' _ hafterColon => ?_
        have hshorter' := length_lt_of_expect hread'
        refine (infixExpression_builds hP hprecedence hafterColon).andThen
          fun right afterRight hread'' hright hafterRight => ?_
        have hshorter'' := length_lt_of_outcome hread''
        exact infixTail_builds hP hleast (hP.conditional hleft hmiddle hright) hafterRight
      · -- any other infix operator: its right operand follows
        next hquestion =>
        refine (infixExpression_builds hP (rightPrecedence_nonneg hprecedence)
          htokens.tail).andThen fun right afterRight hread hright hafterRight => ?_
        have hshorter := length_lt_of_outcome hread
        have hnode := hP.infixOp htokens.head hname hprecedence hquestion hleft hright
        exact infixTail_builds hP hleast hnode hafterRight
termination_by 6 * tokens.length + 0
decreasing_by all_goals (simp only [List.length_cons] at *; omega)

/-- An operand with its prefix operators. -/
theorem unaryExpression_builds (hP : Builds Q P) {tokens : List Token}
    (htokens : Among Q tokens) : (outcome (unaryExpression tokens)).Ensures P Q := by
  obtain ⟨count, hcount⟩ : ∃ count, tokens.length = count := ⟨_, rfl⟩
  by_cases hoperator : ∃ name, next tokens = .operator name
  · obtain ⟨name, hname⟩ := hoperator
    cases tokens with
    | nil => cases hname
    | cons token others =>
      have hlexeme : token.lexeme = .operator name := hname
      have hnamed := htokens.head
      rw [hlexeme] at hnamed
      rw [outcome_unaryExpression_operator hlexeme]
      -- a prefix operator, and then its operand
      exact (unaryExpression_builds hP htokens.tail).andThen fun operand _ _ hoperand hrest =>
        ensures_ok (hP.prefixOp hnamed hoperand) hrest
  · rw [outcome_unaryExpression fun name hname => hoperator ⟨name, hname⟩]
    exact postfixExpression_builds hP htokens
termination_by 6 * tokens.length + 2
decreasing_by all_goals (simp only [List.length_cons] at *; omega)

/-- An operand with its postfix operators and subscripts. -/
theorem postfixExpression_builds (hP : Builds Q P) {tokens : List Token}
    (htokens : Among Q tokens) : (outcome (postfixExpression tokens)).Ensures P Q := by
  rw [outcome_postfixExpression]
  refine (primaryExpression_builds hP htokens).andThen fun operand rest hread hoperand hrest => ?_
  have hshorter := length_lt_of_outcome hread
  exact postfixTail_builds hP hoperand hrest
termination_by 6 * tokens.length + 1

/-- Postfix operators and subscripts after an operand. -/
theorem postfixTail_builds (hP : Builds Q P) {operand : Node} {tokens : List Token}
    (hoperand : P operand) (htokens : Among Q tokens) :
    (outcome (postfixTail operand tokens)).Ensures P Q := by
  obtain ⟨count, hcount⟩ : ∃ count, tokens.length = count := ⟨_, rfl⟩
  cases tokens with
  | nil =>
    rw [outcome_postfixTail_nil]
    exact ensures_ok hoperand htokens
  | cons token others =>
    by_cases hbracket : token.lexeme = .leftBracket
    · -- an index in brackets
      rw [outcome_postfixTail_bracket hbracket]
      refine (infixExpression_builds hP (by decide) htokens.tail).andThen
        fun index afterIndex hread hindex hafterIndex => ?_
      have hshorter := length_lt_of_outcome hread
      refine (ensures_expect _ hafterIndex).andThen
        fun _ afterBracket hread' _ hafterBracket => ?_
      have hshorter' := length_lt_of_expect hread'
      exact postfixTail_builds hP (hP.subscripted hoperand hindex) hafterBracket
    · rw [outcome_postfixTail hbracket]
      cases hname : postfixName? (token :: others) with
      | none => exact ensures_ok hoperand htokens
      | some name =>
        have hnamed := htokens.head
        rw [postfixName?_eq_some hname] at hnamed
        exact postfixTail_builds hP (hP.postfixOp hnamed hoperand) htokens.tail
termination_by 6 * tokens.length + 0
decreasing_by all_goals (simp only [List.length_cons] at *; omega)

/-- A number, a name, a call, an array literal, or an expression in parentheses. -/
theorem primaryExpression_builds (hP : Builds Q P) {tokens : List Token}
    (htokens : Among Q tokens) : (outcome (primaryExpression tokens)).Ensures P Q := by
  obtain ⟨count, hcount⟩ : ∃ count, tokens.length = count := ⟨_, rfl⟩
  cases tokens with
  | nil =>
    rw [outcome_primaryExpression_fault rfl]
    exact ensures_error _
  | cons token others =>
    have hnamed := htokens.head
    cases hlexeme : token.lexeme with
    | number text value =>
      rw [hlexeme] at hnamed
      rw [outcome_primaryExpression_number hlexeme]
      exact ensures_ok (hP.number hnamed) htokens.tail
    | identifier name =>
      rw [hlexeme] at hnamed
      by_cases hopening : next others = .leftParen
      · -- a call
        cases others with
        | nil => cases hopening
        | cons bracket others =>
          rw [outcome_primaryExpression_call hlexeme hopening]
          exact (arguments_builds hP htokens.tail.tail).andThen fun _ _ _ hchildren hrest =>
            ensures_ok (hP.function hnamed hchildren) hrest
      · rw [outcome_primaryExpression_var hlexeme hopening]
        exact ensures_ok (hP.var hnamed) htokens.tail
    -- parentheses leave no node of their own
    | leftParen =>
      rw [outcome_primaryExpression_paren hlexeme]
      refine (infixExpression_builds hP (by decide) htokens.tail).andThen
        fun inner _ _ hinner hafterInner => ?_
      exact (ensures_expect _ hafterInner).andThen fun _ _ _ _ hrest => ensures_ok hinner hrest
    | leftBracket =>
      rw [outcome_primaryExpression_bracket hlexeme]
      exact (arguments_builds hP htokens.tail).andThen fun _ _ _ hchildren hrest =>
        ensures_ok (hP.arrayLiteral hchildren) hrest
    | _ =>
      have hfault : beginsPrimary (next (token :: others)) = false := by rw [next, hlexeme]; rfl
      rw [outcome_primaryExpression_fault hfault]
      exact ensures_error _
termination_by 6 * tokens.length + 0
decreasing_by all_goals (simp only [List.length_cons] at *; omega)

/-- A list up to its closing bracket. -/
theorem arguments_builds (hP : Builds Q P) {closing : Lexeme} {tokens : List Token}
    (htokens : Among Q tokens) :
    (outcome (arguments closing tokens)).Ensures (fun nodes => ∀ node ∈ nodes, P node) Q := by
  cases tokens with
  | nil =>
    rw [outcome_arguments_nil]
    exact ensures_error _
  | cons token others =>
    rw [outcome_arguments]
    split
    · exact ensures_ok (fun _ hmem => absurd hmem List.not_mem_nil) htokens.tail
    · exact argumentsTail_builds hP htokens
termination_by 6 * tokens.length + 5

/-- The members of a list that is not empty. -/
theorem argumentsTail_builds (hP : Builds Q P) {closing : Lexeme} {tokens : List Token}
    (htokens : Among Q tokens) :
    (outcome (argumentsTail closing tokens)).Ensures (fun nodes => ∀ node ∈ nodes, P node) Q := by
  rw [outcome_argumentsTail]
  refine (infixExpression_builds hP (by decide) htokens).andThen
    fun first afterFirst hread hfirst hafterFirst => ?_
  have hshorter := length_lt_of_outcome hread
  unfold afterMember
  split
  · -- a comma: more members follow
    refine (ensures_expect _ hafterFirst).andThen fun _ afterComma hread' _ hafterComma => ?_
    have hshorter' := length_lt_of_expect hread'
    exact (argumentsTail_builds hP hafterComma).andThen fun _ _ _ hothers hrest =>
      ensures_ok (List.forall_mem_cons.mpr ⟨hfirst, hothers⟩) hrest
  · -- otherwise the list is over
    exact (ensures_expect _ hafterFirst).andThen fun _ _ _ _ hrest =>
      ensures_ok (List.forall_mem_singleton.mpr hfirst) hrest
termination_by 6 * tokens.length + 4

end

/-! ### Whole lines -/

/-- **What is read from tokens has every property that building keeps.** -/
theorem parseTokens_builds (hP : Builds Q P) {tokens : List Token} (htokens : Among Q tokens)
    {node : Node} (h : parseTokens tokens = .ok node) : P node := by
  obtain ⟨rest, hread, -⟩ := parseTokens_eq_ok h
  exact (infixExpression_builds hP (by decide) htokens node rest hread).1

/-- **What is read from a line has every property that building keeps**, if all its lexemes are as
they have to be. -/
theorem parse_builds (hP : Builds Q P) {line : Text}
    (hline : ∀ tokens, tokenize line = .ok tokens → Among Q tokens) {node : Node}
    (h : parse line = .ok node) : P node := by
  unfold parse at h
  split at h
  · cases h
  · next tokens htokens => exact parseTokens_builds hP (hline tokens htokens) h

end Parser

end DynExpr
