import DynExpr.Proofs.Node.ReadBack
import Mathlib

/-!
# Fragments that are read back

`parse_describe` asks of a tree that it keep its grouping everywhere. Here this is looked at for
three kinds of trees.

* `Node.InfixOnly`: numbers, names, literals, calls of unquoted names, arrays, subscripts and infix
  operators. Their parentheses always suffice (`parse_describe_infixOnly`).
* `Node.UnaryOnly`: numbers, names, prefix operators, postfix operators and subscripts.
* `Node.ListsOnly`: numbers, names, commas, calls, arrays and conditionals.

In the last two, the grouping is not always kept. Operands are put in parentheses only if they are
infix expressions, so `(-a)[0]` is written as `-a[0]`, which is another tree
(`parse_describe_negativeSubscripted`). Members of lists are never put in parentheses, so
`f((a, b))` is written as `f(a, b)` (`parse_describe_callOfComma`).
-/

namespace DynExpr

open Text

open DynExpr.Parser

variable {line : Text} {node : Node}

namespace Node

/-- What spells a node is read as the node. -/
theorem SpelledBy.parse {text : Text} (h : node.SpelledBy text) :
    parse text = .ok node.requoted := h.spellsInfix_index.parse

/-! ### Trees without string literals -/

/-- The node is no string literal, and no array with a quoted name. -/
def Unquoted : Node → Prop
  | apply (.var name) _ | apply (.array name) _ => unquoted? name = none
  | _ => True

/-- A name that is not quoted is not written anew. -/
theorem requoted_of_unquoted {name : Text} (h : unquoted? name = none) :
    DynExpr.requoted name = name := by
  rw [DynExpr.requoted, h]

/-- So it is with a symbol. -/
theorem Unquoted.requoted_symbol {symbol : Symbol} {children : List Node}
    (h : (apply symbol children).Unquoted) : symbol.requoted = symbol := by
  cases symbol with
  | var name => exact congrArg Symbol.var (requoted_of_unquoted h)
  | array name => exact congrArg Symbol.array (requoted_of_unquoted h)
  | _ => rfl

/-- Without string literals there is nothing to replace. -/
theorem requoted_eq_self (h : node.Everywhere Unquoted) : node.requoted = node := by
  induction h with
  | number h => rfl
  | @apply symbol children h hchildren ih =>
    -- the operands stay as they are, by induction
    have hmap : children.map requoted = children := by
      calc children.map requoted = children.map id := List.map_congr_left ih
        _ = children := List.map_id children
    rw [requoted_apply, h.requoted_symbol, hmap]

end Node

/-- Without string literals, a tree that keeps its grouping is read back as it is. -/
theorem parse_describe_of_unquoted (hparse : parse line = .ok node)
    (hunquoted : node.Everywhere Node.Unquoted) (hnumbers : node.Everywhere Node.FiniteNumber)
    (hgrouping : node.Everywhere Node.KeepsGrouping) :
    node.describe? = some node.describe ∧ parse node.describe = .ok node := by
  have hread := parse_describe hparse hnumbers hgrouping
  rwa [Node.requoted_eq_self hunquoted] at hread

namespace Node

/-! ### Infix expressions -/

/-- The node is a number, a name, a literal, a call of an unquoted name, an array, a subscript or an
infix operator, but no comma. -/
def InfixOnly : Node → Prop
  | number _ => True
  | apply (.var _) _ | apply (.array _) _ => True
  | apply (.function name _) _ => unquoted? name = none
  | apply (.infixOp name) _ => name ≠ utf8 ","
  | apply (.prefixOp _) _ | apply (.postfixOp _) _ => False

/-- No infix expression is unary. -/
theorem InfixOnly.isUnary_eq_false (h : node.InfixOnly) : node.isUnary = false := by
  cases node with
  | number value => rfl
  | apply symbol children =>
    cases symbol with
    | prefixOp name | postfixOp name => exact h.elim
    | _ => rfl

/-- No infix expression is a comma. -/
theorem InfixOnly.isComma_eq_false (h : node.InfixOnly) : node.isComma = false := by
  cases node with
  | number value => rfl
  | apply symbol children =>
    cases symbol with
    | infixOp name => exact decide_eq_false h
    | _ => rfl

/-- A name that is not quoted needs no escapes. -/
theorem needsNoEscapes_of_unquoted {name : Text} (h : unquoted? name = none) :
    NeedsNoEscapes name := by
  rintro quote contents hquote rfl
  rw [unquoted?_quote hquote] at h
  cases h

/-- Among infix expressions only, every node keeps its grouping. -/
theorem InfixOnly.keepsGrouping (h : node.Everywhere InfixOnly) : node.KeepsGrouping := by
  have hself := h.self
  unfold KeepsGrouping
  split
  · exact ⟨needsNoEscapes_of_unquoted hself, fun child hmem =>
      (h.children child hmem).self.isComma_eq_false⟩
  · exact hself.elim
  · exact hself.elim
  · -- the operands of an infix operator are neither unary nor commas
    next name left right =>
    exact ⟨fun _ => (h.children left (by simp)).self.isUnary_eq_false, fun hcomma =>
      absurd hcomma hself⟩
  · next name left middle right =>
    exact (h.children middle (by simp)).self.isComma_eq_false
  · trivial

/-! ### Prefix operators, postfix operators and subscripts -/

/-- The node is a number, a name, a prefix or postfix operator or a subscript. -/
def UnaryOnly : Node → Prop
  | number _ => True
  | apply (.var name) _ | apply (.array name) _ => unquoted? name = none
  | apply (.prefixOp _) _ | apply (.postfixOp _) _ => True
  | apply (.infixOp name) _ => name = Symbol.brackets
  | apply (.function _ _) _ => False

/-- Unary expressions have no string literals. -/
theorem UnaryOnly.unquoted (h : node.UnaryOnly) : node.Unquoted := by
  cases node with
  | number value => trivial
  | apply symbol children =>
    cases symbol with
    | var name | array name => exact h
    | _ => trivial

/-- An operator that ends in neither a sign nor a point may stand before anything that is no prefix
operator. -/
theorem KeepsSigns.of_last {name : Text} (hnode : node.isPrefix = false)
    (hsign : 1 < name.length → endsInSign name = false) (hpoint : name.getLast? ≠ some 46) :
    KeepsSigns name node := by
  -- the name does not end in a point
  have hnotPoint : ¬ EndsInPoint none name := by
    rintro ⟨before, rfl, -⟩
    exact hpoint List.getLast?_concat
  unfold KeepsSigns
  split
  · cases hnode
  · exact ⟨hsign, fun _ => hnotPoint⟩

/-! ### Commas, calls, arrays and conditionals -/

/-- The node is a number, a name, a comma, a call, an array or a conditional with three operands. -/
def ListsOnly : Node → Prop
  | number _ => True
  | apply (.var name) _ => unquoted? name = none
  | apply (.function _ _) _ => True
  | apply (.infixOp name) children => name = utf8 "," ∨ (name = utf8 "?:" ∧ children.length = 3)
  | _ => False

/-- Neither have lists. -/
theorem ListsOnly.unquoted (h : node.ListsOnly) : node.Unquoted := by
  cases node with
  | number value => trivial
  | apply symbol children =>
    cases symbol with
    | var name => exact h
    | array name => exact h.elim
    | _ => trivial

end Node

/-! ### Small trees -/

/-- A variable whose name is one letter. -/
def Node.letter (b : UInt8) : Node := .apply (.var [b]) []

/-- The number zero. -/
def Node.zero : Node := .number Double.zero

open Node (letter zero)

section Small

variable {b : UInt8} {P : Node → Prop}

/-- A letter has no operands. -/
theorem everywhere_letter (h : P (letter b)) : (letter b).Everywhere P :=
  .apply h (List.forall_mem_nil _)

/-- A property everywhere in an operator with one operand. -/
theorem everywhere_single {symbol : Symbol} (h : P (.apply symbol [node]))
    (hnode : node.Everywhere P) : (Node.apply symbol [node]).Everywhere P :=
  .apply h (List.forall_mem_singleton.mpr hnode)

/-- A property everywhere in an operator with two operands. -/
theorem everywhere_pair {symbol : Symbol} {other : Node} (h : P (.apply symbol [node, other]))
    (hnode : node.Everywhere P) (hother : other.Everywhere P) :
    (Node.apply symbol [node, other]).Everywhere P :=
  .apply h (List.forall_mem_cons.mpr ⟨hnode, List.forall_mem_singleton.mpr hother⟩)

/-- One letter is not quoted. -/
theorem unquoted?_letter : unquoted? [b] = none := by
  simp [unquoted?]

/-- A letter spells the variable of this name. -/
theorem spelledBy_letter (h : isNameStart b = true) : (letter b).SpelledBy [b] := by
  have hname : IsPlainName [b] := ⟨h, by simp [nameLeading, h]⟩
  have hspelled := Node.spelledBy_var (.inl hname)
  rwa [Symbol.escapeName, unquoted?_letter] at hspelled

/-- The digit zero spells zero. -/
theorem spelledBy_zero : zero.SpelledBy (utf8 "0") := by
  have htext : Double.zero.text = utf8 "0" := by decide +kernel
  have hvalue : Double.zero.IsMagnitude := Nat.zero_le _
  have hspelled := Node.spelledBy_number hvalue rfl
  rwa [htext] at hspelled

/-- A minus sign is an operator. -/
theorem isOperatorName_minus : IsOperatorName (utf8 "-") := ⟨by decide, by decide +kernel⟩

/-- Before a letter, a minus sign is a prefix operator. -/
theorem spelledBy_minus {operand : Node} {text : Text} (h : operand.SpelledBy text)
    (hletter : ∃ b rest, Node.operandText operand text = b :: rest ∧ isNameStart b = true) :
    (Node.apply (.prefixOp (utf8 "-")) [operand]).SpelledBy
      (utf8 "-" ++ Node.operandText operand text) := by
  have hsign : 1 < (utf8 "-").length → endsInSign (utf8 "-") = false := fun h =>
    absurd h (by decide)
  refine Node.spelledBy_prefixOp h (standsFor_beforeOperand isOperatorName_minus hsign) fun s => ?_
  obtain ⟨b, rest, htext, hb⟩ := hletter
  rw [htext]
  refine ⟨⟨b, rest ++ s, rfl, .inl (by rw [isWordByte, hb, Bool.or_true])⟩, fun hdigit => ?_⟩
  -- a name does not begin with a digit
  have hnot := (isNameStart_only hb).2.1
  have hstart : isDigit b = true := hdigit
  rw [hnot] at hstart
  cases hstart

end Small

/-! ### Results -/

/-- **Infix expressions are read back.** Whatever infix operators a tree has, in whatever order, the
parentheses that are written suffice. -/
theorem parse_describe_infixOnly (hparse : parse line = .ok node)
    (hform : node.Everywhere Node.InfixOnly) (hnumbers : node.Everywhere Node.FiniteNumber) :
    node.describe? = some node.describe ∧ parse node.describe = .ok node.requoted :=
  parse_describe hparse hnumbers (hform.imp fun _ => Node.InfixOnly.keepsGrouping)

/-- A difference on the right of a difference, with a literal between double quotes. -/
def nestedDifference : Node :=
  .apply (.infixOp (utf8 "-"))
    [letter 97, .apply (.infixOp (utf8 "-")) [.apply (.var (utf8 "\"s\"")) [], zero]]

/-- The difference is read from this line. -/
theorem parse_nestedDifference :
    parse (utf8 "a - (\"s\" - 0)") = .ok nestedDifference := by
  -- the literal is spelled between double quotes
  have hliteral : IsVerbatimName (utf8 "\"s\"") :=
    .inr ⟨34, [115], .inr rfl, rfl, by decide, by decide⟩
  have hleft : SpellsOperand (utf8 "\"s\"") (.apply (.var (utf8 "\"s\"")) []) :=
    StandsFor.spellsOperand hliteral.standsFor fun _ _ _ hnext => readsPrimary_var rfl hnext
  have hinner := hleft.spellsUnary.spellsInfix.infixOp isOperatorName_minus (by decide)
    (spelledBy_zero.unary rfl).spellsInfix
  have hright := (hinner.mono (by decide) (by decide)).parenthesized.spellsUnary
  have houter := ((spelledBy_letter (b := 97) rfl).unary rfl).spellsInfix.infixOp
    isOperatorName_minus (by decide) hright.spellsInfix
  exact (houter.mono (by decide) (by decide)).parse

/-- The difference is read back, with apostrophes for quotes. -/
theorem parse_describe_infixOnly_nestedDifference :
    nestedDifference.describe = utf8 "a - ('s' - 0)" ∧
      parse (utf8 "a - ('s' - 0)") = .ok nestedDifference.requoted := by
  have hdescribe : nestedDifference.describe = utf8 "a - ('s' - 0)" := by decide +kernel
  have hminus : utf8 "-" ≠ utf8 "," := by decide
  have hform : nestedDifference.Everywhere Node.InfixOnly :=
    everywhere_pair hminus (everywhere_letter trivial)
      (everywhere_pair hminus (.apply trivial (List.forall_mem_nil _)) (.number trivial))
  have hnumbers : nestedDifference.Everywhere Node.FiniteNumber :=
    everywhere_pair trivial (everywhere_letter trivial)
      (everywhere_pair trivial (.apply trivial (List.forall_mem_nil _))
        (.number rfl))
  have hread := (parse_describe_infixOnly parse_nestedDifference hform hnumbers).2
  rw [hdescribe] at hread
  exact ⟨hdescribe, hread⟩

/-- **Unary operators and subscripts are read back** if they keep their grouping. -/
theorem parse_describe_unaryOnly (hparse : parse line = .ok node)
    (hform : node.Everywhere Node.UnaryOnly) (hnumbers : node.Everywhere Node.FiniteNumber)
    (hgrouping : node.Everywhere Node.KeepsGrouping) :
    node.describe? = some node.describe ∧ parse node.describe = .ok node :=
  parse_describe_of_unquoted hparse (hform.imp fun _ h => h.self.unquoted) hnumbers hgrouping

/-- The negative of an element, with a postfix operator at the element. -/
def negatedElement : Node :=
  .apply (.prefixOp (utf8 "-"))
    [.apply (.postfixOp (utf8 "!")) [.apply (.array (utf8 "a")) [zero]]]

/-- The negative is read from this line. -/
theorem parse_negatedElement : parse (utf8 "-a[0]!") = .ok negatedElement := by
  have hbang : IsOperatorName (utf8 "!") := ⟨by decide, by decide +kernel⟩
  have helement := Node.spelledBy_subscripted (spelledBy_letter (b := 97) rfl) rfl spelledBy_zero
  have hpostfixed := Node.spelledBy_postfixOp helement rfl hbang
  exact (spelledBy_minus hpostfixed ⟨97, _, rfl, rfl⟩).parse

/-- The negative is read back from its text. -/
theorem parse_describe_unaryOnly_negatedElement :
    negatedElement.describe = utf8 "-a[0]!" ∧ parse (utf8 "-a[0]!") = .ok negatedElement := by
  have hdescribe : negatedElement.describe = utf8 "-a[0]!" := by decide +kernel
  have hform : negatedElement.Everywhere Node.UnaryOnly :=
    everywhere_single trivial (everywhere_single trivial
      (everywhere_single unquoted?_letter (.number trivial)))
  have hnumbers : negatedElement.Everywhere Node.FiniteNumber :=
    everywhere_single trivial (everywhere_single trivial
      (everywhere_single trivial (.number rfl)))
  have hsigns : Node.KeepsSigns (utf8 "-")
      (.apply (.postfixOp (utf8 "!")) [.apply (.array (utf8 "a")) [zero]]) :=
    .of_last rfl (fun h => absurd h (by decide)) (by decide)
  have hgrouping : negatedElement.Everywhere Node.KeepsGrouping :=
    everywhere_single hsigns (everywhere_single rfl (everywhere_single trivial (.number trivial)))
  have hread := (parse_describe_unaryOnly parse_negatedElement hform hnumbers hgrouping).2
  rw [hdescribe] at hread
  exact ⟨hdescribe, hread⟩

/-- An element of a negative. -/
def negativeSubscripted : Node :=
  .apply .subscript [.apply (.prefixOp (utf8 "-")) [letter 97], zero]

/-- An element of a negative is written without parentheses, and read as the negative of an
element. -/
theorem parse_describe_negativeSubscripted :
    parse (utf8 "(-a)[0]") = .ok negativeSubscripted ∧
      negativeSubscripted.Everywhere Node.UnaryOnly ∧
      negativeSubscripted.Everywhere Node.FiniteNumber ∧
      negativeSubscripted.describe = utf8 "-a[0]" ∧
      parse negativeSubscripted.describe ≠ .ok negativeSubscripted := by
  have hdescribe : negativeSubscripted.describe = utf8 "-a[0]" := by decide +kernel
  have hletter := spelledBy_letter (b := 97) rfl
  have hnegative := spelledBy_minus hletter ⟨97, _, rfl, rfl⟩
  have hsubscripted := hnegative.spellsOperand_parenthesized.subscripted
    spelledBy_zero.spellsInfix_index
  have helement := Node.spelledBy_subscripted hletter rfl spelledBy_zero
  -- without parentheses the subscript belongs to the variable
  have hread : parse (utf8 "-a[0]") =
      .ok (.apply (.prefixOp (utf8 "-")) [.apply (.array (utf8 "a")) [zero]]) :=
    (spelledBy_minus helement ⟨97, _, rfl, rfl⟩).parse
  refine ⟨hsubscripted.spellsUnary.spellsInfix.parse, ?_, ?_, hdescribe, ?_⟩
  · exact everywhere_pair rfl (everywhere_single trivial (everywhere_letter unquoted?_letter))
      (.number trivial)
  · exact everywhere_pair trivial (everywhere_single trivial (everywhere_letter trivial))
      (.number rfl)
  · rw [hdescribe, hread]
    exact fun h => nomatch h

/-- **Lists, commas and conditionals are read back** if they keep their grouping. -/
theorem parse_describe_listsOnly (hparse : parse line = .ok node)
    (hform : node.Everywhere Node.ListsOnly) (hnumbers : node.Everywhere Node.FiniteNumber)
    (hgrouping : node.Everywhere Node.KeepsGrouping) :
    node.describe? = some node.describe ∧ parse node.describe = .ok node :=
  parse_describe_of_unquoted hparse (hform.imp fun _ h => h.self.unquoted) hnumbers hgrouping

/-- A call with an array among its arguments. -/
def callWithArray : Node :=
  .apply (.function (utf8 "f") (.exactly 2)) [letter 98, .apply (.arrayLiteral 1) [letter 99]]

/-- A conditional that chooses between a call and a comma. -/
def choiceOfCall : Node :=
  .apply .conditional [letter 97, callWithArray, .apply .comma [letter 100, zero]]

/-- The conditional is read from this line. -/
theorem parse_choiceOfCall : parse (utf8 "a ? f(b, [c]) : (d, 0)") = .ok choiceOfCall := by
  have hname : IsVerbatimName (utf8 "f") := .inl ⟨by decide, by decide⟩
  have hmember : List.Forall₂ (SpellsInfix 1 1) [utf8 "c"] ([letter 99].map Node.requoted) :=
    .cons ((spelledBy_letter rfl).spellsInfix_member rfl) .nil
  have harray := Node.spelledBy_arrayLiteral hmember
  have harguments : List.Forall₂ (SpellsInfix 1 1) [utf8 "b", utf8 "[c]"]
      ([letter 98, .apply (.arrayLiteral 1) [letter 99]].map Node.requoted) :=
    .cons ((spelledBy_letter rfl).spellsInfix_member rfl)
      (.cons (harray.spellsInfix_member rfl) .nil)
  have hcall := Node.spelledBy_function hname harguments
  have hcomma := Node.spelledBy_comma (spelledBy_letter (b := 100) rfl) spelledBy_zero rfl
  exact (Node.spelledBy_conditional (spelledBy_letter (b := 97) rfl) hcall rfl hcomma).parse

theorem everywhere_choiceOfCall {P : Node → Prop} (hnode : P choiceOfCall)
    (hcall : P callWithArray) (harray : P (.apply (.arrayLiteral 1) [letter 99]))
    (hcomma : P (.apply .comma [letter 100, zero])) (hletter : ∀ b, P (letter b))
    (hzero : P zero) : choiceOfCall.Everywhere P := by
  have hcall' : callWithArray.Everywhere P :=
    everywhere_pair hcall (everywhere_letter (hletter 98))
      (everywhere_single harray (everywhere_letter (hletter 99)))
  have hcomma' := everywhere_pair hcomma (everywhere_letter (hletter 100)) (.number hzero)
  exact .apply hnode (List.forall_mem_cons.mpr ⟨everywhere_letter (hletter 97),
    List.forall_mem_cons.mpr ⟨hcall', List.forall_mem_singleton.mpr hcomma'⟩⟩)

theorem parse_describe_listsOnly_choiceOfCall :
    choiceOfCall.describe = utf8 "a ? f(b, [c]) : (d, 0)" ∧
      parse (utf8 "a ? f(b, [c]) : (d, 0)") = .ok choiceOfCall := by
  have hdescribe : choiceOfCall.describe = utf8 "a ? f(b, [c]) : (d, 0)" := by decide +kernel
  have hform : choiceOfCall.Everywhere Node.ListsOnly :=
    everywhere_choiceOfCall (.inr ⟨rfl, rfl⟩) trivial trivial (.inl rfl)
      (fun _ => unquoted?_letter) trivial
  have hnumbers : choiceOfCall.Everywhere Node.FiniteNumber :=
    everywhere_choiceOfCall trivial trivial trivial trivial (fun _ => trivial)
      rfl
  have hgrouping : choiceOfCall.Everywhere Node.KeepsGrouping := by
    refine everywhere_choiceOfCall rfl ⟨?_, ?_⟩ ⟨?_, ?_⟩ ⟨fun _ => rfl, fun _ => rfl⟩
      (fun _ => trivial) trivial
    · exact Node.needsNoEscapes_of_unquoted unquoted?_letter
    · exact List.forall_mem_cons.mpr ⟨rfl, List.forall_mem_singleton.mpr rfl⟩
    · exact Node.needsNoEscapes_of_unquoted rfl
    · exact List.forall_mem_singleton.mpr rfl
  have hread := (parse_describe_listsOnly parse_choiceOfCall hform hnumbers hgrouping).2
  rw [hdescribe] at hread
  exact ⟨hdescribe, hread⟩

/-- A call with one argument, which is a comma. -/
def callOfComma : Node :=
  .apply (.function (utf8 "f") (.exactly 1)) [.apply .comma [letter 97, letter 98]]

/-- A comma among arguments is written without parentheses, and read as two arguments. -/
theorem parse_describe_callOfComma :
    parse (utf8 "f((a, b))") = .ok callOfComma ∧
      callOfComma.Everywhere Node.ListsOnly ∧
      callOfComma.describe = utf8 "f(a, b)" ∧
      parse callOfComma.describe ≠ .ok callOfComma := by
  have hdescribe : callOfComma.describe = utf8 "f(a, b)" := by decide +kernel
  -- without parentheses there are two arguments
  have hread : parse (utf8 "f(a, b)") =
      .ok (.apply (.function (utf8 "f") (.exactly 2)) [letter 97, letter 98]) := by cbv
  refine ⟨by cbv, ?_, hdescribe, ?_⟩
  · exact everywhere_single trivial (everywhere_pair (.inl rfl)
      (everywhere_letter unquoted?_letter) (everywhere_letter unquoted?_letter))
  · rw [hdescribe, hread]
    rintro ⟨⟩

end DynExpr
