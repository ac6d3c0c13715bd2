import DynExpr.Proofs.Node.Spells

/-!
# Nodes and their texts

Each node is *spelled by* its text: `Node.SpelledBy` says as what the text is read, depending on the
symbol of the node, and what it begins with. With these facts about an operand, the text around it
can be settled.

* A subscript and a postfix operator need an operand that is no prefix or postfix operator
  (`Node.SpelledBy.spellsOperand_operandText`).
* An infix operator needs operands that bind tightly enough, which is what the parentheses are for
  (`Node.SpelledBy.spellsInfix_left`, `Node.SpelledBy.spellsInfix_right`).
* Where no parentheses are written, a comma may be in the way (`Node.SpelledBy.spellsInfix_member`).

Reading replaces the quotes of string literals by apostrophes, `Node.requoted`.
-/

namespace DynExpr

open Text

open DynExpr.Parser

/-! ### Precedences -/

section Precedences

variable {name other : Text}

/-- The operators that group to the right have precedences of their own, and so have the colon and
the comma. -/
theorem infixPrecedence_cases (name : Text) :
    (name = utf8 ":" ∧ infixPrecedence name = -1) ∨ (name = utf8 "," ∧ infixPrecedence name = 0) ∨
      (isRightAssociative name = true ∧ (infixPrecedence name = 1 ∨ infixPrecedence name = 6)) ∨
      (isRightAssociative name = false ∧ 2 ≤ infixPrecedence name ∧ infixPrecedence name ≠ 6) := by
  by_cases hright : name ∈ [utf8 "?:", utf8 "?", utf8 "??"]
  · -- the operators that group to the right
    refine .inr (.inr (.inl ⟨decide_eq_true hright, ?_⟩))
    simp only [List.mem_cons, List.not_mem_nil, or_false] at hright
    rcases hright with rfl | rfl | rfl
    · exact .inl (by decide)
    · exact .inl (by decide)
    · exact .inr (by decide)
  · by_cases hcolon : name = utf8 ":"
    · subst hcolon
      exact .inl ⟨rfl, by decide⟩
    by_cases hcomma : name = utf8 ","
    · subst hcomma
      exact .inr (.inl ⟨rfl, by decide⟩)
    refine .inr (.inr (.inr ⟨decide_eq_false hright, ?_⟩))
    simp only [List.mem_cons, List.not_mem_nil, or_false, not_or] at hright
    -- the rows of the table that are left, none of which has one of the two precedences
    have hquestion : name ∉ [utf8 "?:", utf8 "?"] := by simp [hright.1, hright.2.1]
    obtain ⟨precedence, hprecedence⟩ : ∃ p, infixPrecedence name = p := ⟨_, rfl⟩
    rw [hprecedence]
    unfold infixPrecedence at hprecedence
    rw [if_neg hcolon, if_neg hcomma, if_neg hquestion, if_neg hright.2.2] at hprecedence
    repeat' split at hprecedence
    all_goals
      subst hprecedence
      decide

/-- The two precedences of operators that group to the right. -/
theorem isRightAssociative_iff :
    isRightAssociative name = true ↔ infixPrecedence name = 1 ∨ infixPrecedence name = 6 := by
  rcases infixPrecedence_cases name with ⟨rfl, -⟩ | ⟨rfl, -⟩ | ⟨hright, hprecedence⟩ |
    ⟨hleft, hprecedence⟩
  · decide
  · decide
  · exact ⟨fun _ => hprecedence, fun _ => hright⟩
  · rw [hleft]
    exact ⟨fun h => absurd h Bool.false_ne_true, fun h => by omega⟩

/-- Operators of one precedence group to the same side. -/
theorem isRightAssociative_congr (h : infixPrecedence name = infixPrecedence other) :
    isRightAssociative name = isRightAssociative other := by
  rw [Bool.eq_iff_iff, isRightAssociative_iff, isRightAssociative_iff, h]

/-- Only the comma has the least precedence of the operators that bind. -/
theorem one_le_infixPrecedence (h : 0 ≤ infixPrecedence name) (hcomma : name ≠ utf8 ",") :
    1 ≤ infixPrecedence name := by
  rcases infixPrecedence_cases name with ⟨-, hprecedence⟩ | ⟨heq, -⟩ | ⟨-, hprecedence⟩ |
    ⟨-, hprecedence⟩
  · omega
  · exact absurd heq hcomma
  · omega
  · omega

/-- A right operand binds as tightly as its operator at least. -/
theorem infixPrecedence_le_rightPrecedence (name : Text) :
    infixPrecedence name ≤ rightPrecedence name := by
  unfold rightPrecedence
  split <;> omega

/-- It binds tighter by one at most. -/
theorem rightPrecedence_le (name : Text) : rightPrecedence name ≤ infixPrecedence name + 1 := by
  unfold rightPrecedence
  split <;> omega

/-- A right operand is never a comma. -/
theorem one_le_rightPrecedence (h : 0 ≤ infixPrecedence name) : 1 ≤ rightPrecedence name := by
  unfold rightPrecedence
  split
  · next hright =>
    rcases isRightAssociative_iff.mp hright with h | h <;> omega
  · omega

end Precedences

/-! ### Kinds of nodes -/

/-- The symbol with apostrophes for the quotes of a string literal. -/
def Symbol.requoted : Symbol → Symbol
  | .var name => .var (DynExpr.requoted name)
  | .array name => .array (DynExpr.requoted name)
  | symbol => symbol

namespace Node

mutual
/-- The tree with apostrophes for the quotes of all string literals. -/
def requoted : Node → Node
  | number value => number value
  | apply symbol children => apply symbol.requoted (requotedAll children)

/-- All trees of a list with apostrophes for quotes. -/
def requotedAll : List Node → List Node
  | [] => []
  | node :: rest => node.requoted :: requotedAll rest
end

/-- There are no quotes in a number. -/
@[simp] theorem requoted_number (value : Double) : (number value).requoted = number value := rfl

/-- The trees of a list one by one. -/
theorem requotedAll_eq_map (nodes : List Node) : requotedAll nodes = nodes.map requoted := by
  induction nodes with
  | nil => rfl
  | cons node rest ih => rw [requotedAll, ih, List.map_cons]

/-- The symbol and its operands. -/
@[simp] theorem requoted_apply (symbol : Symbol) (children : List Node) :
    (apply symbol children).requoted = apply symbol.requoted (children.map requoted) := by
  rw [requoted, requotedAll_eq_map]

/-- A container and its index. -/
theorem requoted_subscripted (container index : Node) :
    (subscripted container index).requoted = subscripted container.requoted index.requoted := by
  cases container with
  | number value => simp [subscripted, Symbol.requoted, Symbol.subscript]
  | apply symbol children =>
    cases symbol <;> simp [subscripted, Symbol.requoted, Symbol.subscript]

/-- The node is a prefix operator. -/
def isPrefix : Node → Bool
  | apply (.prefixOp _) _ => true
  | _ => false

/-- The node is a prefix or postfix operator. -/
def isUnary : Node → Bool
  | apply (.prefixOp _) _ | apply (.postfixOp _) _ => true
  | _ => false

/-- The node is a comma. -/
def isComma : Node → Bool
  | apply (.infixOp name) _ => name = utf8 ","
  | _ => false

/-- If the node is an infix operator, it may stand where operators down to a precedence of `left`
are read, and its right operand takes in all operators but those that bind looser than `right`. -/
def Binds (left right : Int) : Node → Prop
  | apply (.infixOp name) _ =>
    name = Symbol.brackets ∨ (left ≤ infixPrecedence name ∧ right ≤ rightPrecedence name)
  | _ => True

/-- As what the text of a node is read, and what it begins with. -/
structure SpelledBy (node : Node) (text : Text) : Prop where
  operand (hnode : node.precedence? = none) (hunary : node.isUnary = false) :
    SpellsOperand text node.requoted
  unary (hnode : node.precedence? = none) : SpellsUnary text node.requoted
  binds : node.Binds 0 0
  binding {left right : Int} (h : node.Binds left right) :
    SpellsInfix left right text node.requoted
  begins (hnode : node.isPrefix = false) : BeginsOperand (operandText node text)
  afterPrefix {name : Text} {operand : Node} (hnode : node = .apply (.prefixOp name) [operand])
    (hoperand : operand.isPrefix = false) : ∃ rest, text = name ++ rest ∧ BeginsOperand rest

/-- An operand that is no infix operator stands by itself. -/
theorem operandText_of_none {node : Node} (h : node.precedence? = none) (text : Text) :
    operandText node text = text := by
  rw [operandText, h]
  rfl

/-- An infix operator is in parentheses. -/
theorem operandText_of_some {node : Node} {precedence : Int}
    (h : node.precedence? = some precedence) (text : Text) :
    operandText node text = parenthesized text := by
  rw [operandText, h]
  rfl

/-- A parenthesis begins an operand. -/
theorem beginsOperand_parenthesized (text : Text) : BeginsOperand (parenthesized text) :=
  ⟨40, text ++ [41], rfl, .inr (by decide)⟩

/-! ### Operands -/

namespace SpelledBy

variable {node : Node} {text : Text} (h : node.SpelledBy text)

include h

/-- Everything is an operand in parentheses. -/
theorem spellsOperand_parenthesized : SpellsOperand (parenthesized text) node.requoted :=
  (h.binding h.binds).parenthesized

/-- An operand that is no prefix or postfix operator can be subscripted. -/
theorem spellsOperand_operandText (hunary : node.isUnary = false) :
    SpellsOperand (operandText node text) node.requoted := by
  cases hprecedence : node.precedence? with
  | none =>
    rw [operandText_of_none hprecedence]
    exact h.operand hprecedence hunary
  | some precedence =>
    rw [operandText_of_some hprecedence]
    exact h.spellsOperand_parenthesized

/-- An operand, with its parentheses if it needs them. -/
theorem spellsUnary_operandText : SpellsUnary (operandText node text) node.requoted := by
  cases hprecedence : node.precedence? with
  | none =>
    rw [operandText_of_none hprecedence]
    exact h.unary hprecedence
  | some precedence =>
    rw [operandText_of_some hprecedence]
    exact h.spellsOperand_parenthesized.spellsUnary

/-- Anything may stand between brackets. -/
theorem spellsInfix_index : SpellsInfix 0 0 text node.requoted := h.binding h.binds

/-- Anything may stand before a comma. -/
theorem spellsInfix_beforeComma : SpellsInfix 0 1 text node.requoted := by
  refine h.binding ?_
  have hbinds := h.binds
  unfold Binds at hbinds ⊢
  split
  · rcases hbinds with hname | ⟨hprecedence, -⟩
    · exact .inl hname
    · exact .inr ⟨hprecedence, one_le_rightPrecedence hprecedence⟩
  · trivial

/-- Anything but a comma may be a member of a list. -/
theorem spellsInfix_member (hcomma : node.isComma = false) :
    SpellsInfix 1 1 text node.requoted := by
  refine h.binding ?_
  have hbinds := h.binds
  unfold Binds at hbinds ⊢
  split
  · next name children =>
    rcases hbinds with hname | ⟨hprecedence, -⟩
    · exact .inl hname
    · have hne : name ≠ utf8 "," := of_decide_eq_false hcomma
      exact .inr ⟨one_le_infixPrecedence hprecedence hne, one_le_rightPrecedence hprecedence⟩
  · trivial

variable {parent : Text} {onRight : Bool} {left right : Int}

/-- An operand of an infix operator is in parentheses, or binds tighter, or binds as tightly and
stands on the side to which the operator groups. -/
theorem spellsInfix_infixOperandText
    (htighter : ∀ name, infixPrecedence parent < infixPrecedence name →
      left ≤ infixPrecedence name ∧ right ≤ rightPrecedence name)
    (hequal : ∀ name, infixPrecedence name = infixPrecedence parent →
      isRightAssociative parent = onRight →
      left ≤ infixPrecedence name ∧ right ≤ rightPrecedence name) :
    SpellsInfix left right (infixOperandText parent onRight node text) node.requoted := by
  unfold infixOperandText
  split
  · exact h.spellsOperand_parenthesized.spellsUnary.spellsInfix
  · next hparentheses =>
    refine h.binding ?_
    unfold Binds
    split
    · next name children =>
      by_cases hname : name = Symbol.brackets
      · exact .inl hname
      · -- the two conditions for parentheses, both of them false
        simp only [needsParentheses, precedence?, if_neg hname, Bool.or_eq_true,
          decide_eq_true_eq, Bool.and_eq_true, beq_iff_eq, bne_iff_ne, not_or, not_and,
          Decidable.not_not] at hparentheses
        obtain ⟨hle, hside⟩ := hparentheses
        by_cases hprecedence : infixPrecedence name = infixPrecedence parent
        · exact .inr (hequal name hprecedence (hside hprecedence).symm)
        · exact .inr (htighter name (by omega))
    · trivial

variable (parent) in
/-- The left operand of an infix operator. -/
theorem spellsInfix_left :
    SpellsInfix (infixPrecedence parent) (infixPrecedence parent + 1)
      (infixOperandText parent false node text) node.requoted := by
  refine h.spellsInfix_infixOperandText ?_ ?_
  · intro name hless
    have hright := infixPrecedence_le_rightPrecedence name
    exact ⟨by omega, by omega⟩
  · intro name heq hleft
    -- of two operators of one precedence, both group to the left
    have hright : rightPrecedence name = infixPrecedence name + 1 := by
      rw [rightPrecedence, isRightAssociative_congr heq, hleft, if_neg Bool.false_ne_true]
    exact ⟨by omega, by omega⟩

variable (parent) in
/-- The right operand of an infix operator. -/
theorem spellsInfix_right :
    SpellsInfix (rightPrecedence parent) (rightPrecedence parent)
      (infixOperandText parent true node text) node.requoted := by
  have hparent := rightPrecedence_le parent
  refine h.spellsInfix_infixOperandText ?_ ?_
  · intro name hless
    have hright := infixPrecedence_le_rightPrecedence name
    exact ⟨by omega, by omega⟩
  · -- an operator that groups to the right takes its like as its right operand
    intro name heq hassociative
    have hright := infixPrecedence_le_rightPrecedence name
    have hequal : rightPrecedence parent = infixPrecedence parent := by
      rw [rightPrecedence, if_pos hassociative]
    exact ⟨by omega, by omega⟩

end SpelledBy

/-! ### Nodes -/

section Nodes

variable {node container index operand left right middle : Node}
  {text text' text'' name : Text} {texts : List Text} {children : List Node}

/-- What is no infix operator binds tightly enough. -/
theorem binds_of_precedence?_eq_none (h : node.precedence? = none) (least most : Int) :
    node.Binds least most := by
  unfold Binds
  split
  · next name children =>
    by_cases hname : name = Symbol.brackets
    · exact .inl hname
    · rw [precedence?, if_neg hname] at h
      cases h
  · trivial

/-- An operand that begins with no operator. -/
theorem SpelledBy.of_spellsOperand (h : SpellsOperand text node.requoted)
    (hnode : node.precedence? = none) (hunary : node.isUnary = false)
    (hbegins : BeginsOperand text) : node.SpelledBy text where
  operand _ _ := h
  unary _ := h.spellsUnary
  binds := binds_of_precedence?_eq_none hnode 0 0
  binding _ := h.spellsUnary.spellsInfix
  begins _ := by rwa [operandText_of_none hnode]
  afterPrefix heq _ := by
    rw [heq] at hunary
    cases hunary

/-- A number. -/
theorem spelledBy_number {value : Double} (hvalue : value.IsMagnitude)
    (hfinite : value.isFinite = true) : (number value).SpelledBy value.text := by
  -- its text begins with a digit
  have hbegins : BeginsOperand value.text := by
    have hdigit := (Double.isNumeral_text hvalue hfinite).startsWithDigit
    cases htext : value.text with
    | nil =>
      rw [htext] at hdigit
      cases hdigit
    | cons b rest =>
      rw [htext] at hdigit
      have hb : isDigit b = true := hdigit
      exact ⟨b, rest, rfl, .inl (by rw [isWordByte, hb, Bool.true_or])⟩
  exact .of_spellsOperand (spellsOperand_number hvalue hfinite) rfl rfl hbegins

/-- A name begins an operand. -/
theorem beginsOperand_plainName (h : IsPlainName name) : BeginsOperand name := by
  obtain ⟨b, rest, rfl, hb⟩ := h.exists_cons
  exact ⟨b, rest, rfl, .inl (by rw [isWordByte, hb, Bool.or_true])⟩

/-- A variable, or a string literal. -/
theorem spelledBy_var (h : IsPlainName name ∨ IsQuotedName name) :
    (apply (.var name) []).SpelledBy (Symbol.escapeName name) := by
  have hbegins : BeginsOperand (Symbol.escapeName name) := by
    -- a plain name begins with a letter, and a literal with an apostrophe
    rcases h with h | ⟨quote, contents, hquote, rfl⟩
    · rw [Symbol.escapeName, h.unquoted?_eq_none]
      exact beginsOperand_plainName h
    · rw [Symbol.escapeName, unquoted?_quote hquote]
      exact ⟨39, _, rfl, .inr (by decide)⟩
  refine .of_spellsOperand ?_ rfl rfl hbegins
  rw [requoted_apply]
  exact spellsOperand_var h

/-- A call. -/
theorem spelledBy_function (hname : IsVerbatimName name)
    (h : List.Forall₂ (SpellsInfix 1 1) texts (children.map requoted)) :
    (apply (.function name (.exactly children.length)) children).SpelledBy
      (name ++ utf8 "(" ++ join (utf8 ", ") texts ++ utf8 ")") := by
  have hbegins : BeginsOperand name := by
    rcases hname with h | ⟨quote, contents, hquote, rfl, -, -⟩
    · exact beginsOperand_plainName h
    · refine ⟨quote, contents ++ [quote], rfl, .inr ?_⟩
      rcases hquote with rfl | rfl <;> decide
  have hread := spellsOperand_function hname h
  rw [List.length_map] at hread
  refine .of_spellsOperand ?_ rfl rfl ?_
  · rw [requoted_apply]
    exact hread
  · rw [List.append_assoc, List.append_assoc]
    exact hbegins.append _

/-- An array literal. -/
theorem spelledBy_arrayLiteral
    (h : List.Forall₂ (SpellsInfix 1 1) texts (children.map requoted)) :
    (apply (.arrayLiteral children.length) children).SpelledBy
      (utf8 "[" ++ join (utf8 ", ") texts ++ utf8 "]") := by
  have hread := spellsOperand_arrayLiteral h
  rw [List.length_map] at hread
  refine .of_spellsOperand ?_ rfl rfl ⟨91, _, rfl, .inr (by decide)⟩
  rw [requoted_apply]
  exact hread

/-- A prefix operator is unary. -/
theorem isPrefix_of_isUnary (h : node.isUnary = false) : node.isPrefix = false := by
  cases node with
  | number value => rfl
  | apply symbol children =>
    cases symbol with
    | prefixOp name => cases h
    | _ => rfl

/-- A subscript. -/
theorem spelledBy_subscripted (h : container.SpelledBy text) (hunary : container.isUnary = false)
    (hindex : index.SpelledBy text') :
    (subscripted container index).SpelledBy
      (operandText container text ++ (utf8 "[" ++ (text' ++ utf8 "]"))) := by
  have hread := (h.spellsOperand_operandText hunary).subscripted hindex.spellsInfix_index
  -- a subscript is an operand, whether it is read as an array or as an operator
  have hkind : (subscripted container index).precedence? = none ∧
      (subscripted container index).isUnary = false := by
    unfold subscripted
    split
    · exact ⟨rfl, rfl⟩
    · exact ⟨rfl, rfl⟩
  refine .of_spellsOperand ?_ hkind.1 hkind.2 ?_
  · rw [requoted_subscripted]
    exact hread
  · exact (h.begins (isPrefix_of_isUnary hunary)).append _

/-- A postfix operator. -/
theorem spelledBy_postfixOp (h : operand.SpelledBy text) (hunary : operand.isUnary = false)
    (hname : IsOperatorName name) :
    (apply (.postfixOp name) [operand]).SpelledBy (operandText operand text ++ name) where
  operand _ h := nomatch h
  unary _ := by
    rw [requoted_apply]
    exact (h.spellsOperand_operandText hunary).postfixOp hname
  binds := trivial
  binding _ := by
    rw [requoted_apply]
    exact ((h.spellsOperand_operandText hunary).postfixOp hname).spellsInfix
  begins _ := (h.begins (isPrefix_of_isUnary hunary)).append _
  afterPrefix heq _ := nomatch heq

/-- A prefix operator that is cut off in front of its operand. -/
theorem spelledBy_prefixOp {follow : Text → Prop} (h : operand.SpelledBy text)
    (hname : StandsFor follow name (.operator name))
    (hfollow : ∀ s, follow (operandText operand text ++ s)) :
    (apply (.prefixOp name) [operand]).SpelledBy (name ++ operandText operand text) where
  operand _ h := nomatch h
  unary _ := by
    rw [requoted_apply]
    exact h.spellsUnary_operandText.prefixOp hname hfollow
  binds := trivial
  binding _ := by
    rw [requoted_apply]
    exact (h.spellsUnary_operandText.prefixOp hname hfollow).spellsInfix
  begins h := nomatch h
  afterPrefix heq hoperand := by
    cases heq
    exact ⟨_, rfl, h.begins hoperand⟩

/-- An infix operator that is no subscript. -/
theorem SpelledBy.of_spellsInfix (hname : name ≠ Symbol.brackets)
    (hbinds : 0 ≤ infixPrecedence name)
    (h : SpellsInfix (infixPrecedence name) (rightPrecedence name) text
      (apply (.infixOp name) children).requoted) :
    (apply (.infixOp name) children).SpelledBy text := by
  have hsome : (apply (.infixOp name) children).precedence? = some (infixPrecedence name) := by
    rw [precedence?, if_neg hname]
  -- without parentheses, an infix operator is no operand and no unary expression
  refine ⟨?_, ?_, ?_, ?_, ?_, fun heq _ => nomatch heq⟩
  · intro hnone
    rw [hsome] at hnone
    cases hnone
  · intro hnone
    rw [hsome] at hnone
    cases hnone
  · exact .inr ⟨hbinds, Int.le_trans hbinds (infixPrecedence_le_rightPrecedence name)⟩
  · rintro least most (hbrackets | ⟨hleast, hmost⟩)
    · exact absurd hbrackets hname
    · exact h.mono hleast hmost
  · intro _
    rw [operandText_of_some hsome]
    exact beginsOperand_parenthesized text

/-- An infix operator between its operands. -/
theorem spelledBy_infixOp (hleft : left.SpelledBy text) (hright : right.SpelledBy text')
    (hname : IsOperatorName name) (hbinds : 0 ≤ infixPrecedence name)
    (hquestion : name ≠ utf8 "?") :
    (apply (.infixOp name) [left, right]).SpelledBy
      (infixOperandText name false left text ++
        (utf8 " " ++ (name ++ (utf8 " " ++ infixOperandText name true right text')))) := by
  -- a bracket is no byte of an operator
  have hbrackets : name ≠ Symbol.brackets := by
    rintro rfl
    exact absurd (hname.2 91 (by decide)) (by decide)
  refine .of_spellsInfix hbrackets hbinds ?_
  rw [requoted_apply]
  exact (hleft.spellsInfix_left name).infixOp hname hquestion (hright.spellsInfix_right name)

/-- A comma. -/
theorem spelledBy_comma (hleft : left.SpelledBy text) (hright : right.SpelledBy text')
    (hcomma : right.isComma = false) :
    (apply .comma [left, right]).SpelledBy (text ++ (utf8 ", " ++ text')) := by
  refine .of_spellsInfix (by decide) (by decide) ?_
  rw [requoted_apply]
  exact hleft.spellsInfix_beforeComma.comma (hright.spellsInfix_member hcomma)

/-- A conditional. -/
theorem spelledBy_conditional (hleft : left.SpelledBy text) (hmiddle : middle.SpelledBy text')
    (hcomma : middle.isComma = false) (hright : right.SpelledBy text'') :
    (apply .conditional [left, middle, right]).SpelledBy
      (infixOperandText (utf8 "?:") false left text ++
        (utf8 " ? " ++ (text' ++ (utf8 " : " ++
          infixOperandText (utf8 "?:") true right text'')))) := by
  -- a conditional groups to the right, so that another one may be its last operand
  have hprecedence : infixPrecedence (utf8 "?:") = 1 ∧ rightPrecedence (utf8 "?:") = 1 := by
    decide
  have hleft' := hleft.spellsInfix_left (utf8 "?:")
  have hright' := hright.spellsInfix_right (utf8 "?:")
  rw [hprecedence.1] at hleft'
  rw [hprecedence.2] at hright'
  refine .of_spellsInfix (by decide) (by decide) ?_
  rw [requoted_apply, hprecedence.1, hprecedence.2]
  exact hleft'.conditional (hmiddle.spellsInfix_member hcomma) hright'

end Nodes

end Node

end DynExpr
