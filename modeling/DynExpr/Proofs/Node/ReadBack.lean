import DynExpr.Proofs.Node.Shape
import DynExpr.Proofs.Node.Spelled

/-!
# Written trees are read back

Writing puts an operand of an operator in parentheses if it is an infix expression that binds
looser. No other parentheses are written, so a tree has to keep its grouping without them. What this
takes of a node and its operands is `Node.KeepsGrouping`:

* a member of a list, the right operand of a comma and the middle of a conditional are no commas;
* what a subscript or a postfix operator is applied to is no prefix or postfix operator;
* a prefix operator does not run into its operand (`Node.KeepsSigns`);
* the name of a function needs no escapes.

If this holds everywhere in a tree that was read, and its numbers are finite, then its text is read
as the same tree (`parse_describe`), except that string literals have apostrophes for quotes. A
number that is not finite is written as a name.
-/

namespace DynExpr

open Text

open DynExpr.Parser

namespace Node

/-! ### Conditions on a tree -/

/-- The node and all nodes below it have a property. -/
inductive Everywhere (P : Node → Prop) : Node → Prop
  | number {value : Double} (h : P (number value)) : Everywhere P (number value)
  | apply {symbol : Symbol} {children : List Node} (h : P (apply symbol children))
      (hchildren : ∀ child ∈ children, Everywhere P child) : Everywhere P (apply symbol children)

/-- The node is a finite number, or no number. -/
def FiniteNumber : Node → Prop
  | number value => value.isFinite = true
  | _ => True

/-- A quoted name that is written as it is has neither its quote nor a backslash inside. -/
def NeedsNoEscapes (name : Text) : Prop :=
  ∀ quote contents, (quote = 39 ∨ quote = 34) → name = quote :: (contents ++ [quote]) →
    quote ∉ contents ∧ 92 ∉ contents

/-- A prefix operator does not run into its operand. Before a sign that is a prefix operator itself,
it never does. Before anything else it must not end in a sign, unless it is nothing but this sign,
and before a number it must not end in a point that no other point precedes. -/
def KeepsSigns (name : Text) : Node → Prop
  | apply (.prefixOp inner) [operand] =>
    (∃ sign, inner = [sign] ∧ IsSign sign) ∧ operand.isPrefix = false
  | operand =>
    (1 < name.length → endsInSign name = false) ∧
      (startsWithDigit (operandText operand operand.describe) = true → ¬ EndsInPoint none name)

/-- The node is written so that its operands are told from what is around them. -/
def KeepsGrouping : Node → Prop
  | apply (.function name _) children =>
    NeedsNoEscapes name ∧ ∀ child ∈ children, child.isComma = false
  | apply (.prefixOp name) [operand] => KeepsSigns name operand
  | apply (.postfixOp _) [operand] => operand.isUnary = false
  | apply (.infixOp name) [left, right] =>
    (name = Symbol.brackets → left.isUnary = false) ∧
      (name = utf8 "," → right.isComma = false)
  | apply (.infixOp _) [_, middle, _] => middle.isComma = false
  | _ => True

section Everywhere

variable {P Q R : Node → Prop} {node : Node}

/-- What holds everywhere holds for the node. -/
theorem Everywhere.self (h : node.Everywhere P) : P node := by
  cases h with
  | number h => exact h
  | apply h _ => exact h

/-- It holds everywhere in its operands. -/
theorem Everywhere.children {symbol : Symbol} {children : List Node}
    (h : (Node.apply symbol children).Everywhere P) : ∀ child ∈ children, child.Everywhere P := by
  cases h with
  | apply _ hchildren => exact hchildren

/-- Two properties hold everywhere together. -/
theorem Everywhere.and (h : node.Everywhere P) (h' : node.Everywhere Q) :
    node.Everywhere fun node => P node ∧ Q node := by
  induction h with
  | number h => exact .number ⟨h, h'.self⟩
  | apply h _ ih =>
    exact .apply ⟨h, h'.self⟩ fun child hmem => ih child hmem (h'.children child hmem)

/-- What follows for a node from a property of all nodes below it holds everywhere. -/
theorem Everywhere.imp (h : node.Everywhere P)
    (himp : ∀ node : Node, node.Everywhere P → Q node) : node.Everywhere Q := by
  induction h with
  | number h => exact .number (himp _ (.number h))
  | apply h hchildren ih => exact .apply (himp _ (.apply h hchildren)) ih

end Everywhere

/-! ### Texts of trees -/

/-- The node is written, and spelled by what is written. -/
def Legible (node : Node) : Prop :=
  node.describe? = some node.describe ∧ node.SpelledBy node.describe

section Legible

variable {symbol : Symbol} {children : List Node} {text : Text}

/-- Legible operands are written in order. -/
theorem describeAll?_of_legible (h : ∀ child ∈ children, Legible child) :
    describeAll? children = some (children.map fun child => (child, child.describe)) :=
  describeAll?_eq fun child hmem => (h child hmem).1

/-- What is spelled by its text is legible. -/
theorem Legible.of_spelledBy {node : Node} (htext : node.describe? = some text)
    (h : node.SpelledBy text) : Legible node := by
  rw [Legible, describe_eq htext]
  exact ⟨htext, h⟩

/-- So is an application whose operands are legible. -/
theorem Legible.of_applied (hchildren : ∀ child ∈ children, Legible child)
    (happlied : applied? symbol (children.map fun child => (child, child.describe)) = some text)
    (h : (apply symbol children).SpelledBy text) : Legible (apply symbol children) := by
  refine .of_spelledBy ?_ h
  rw [describe?, describeAll?_of_legible hchildren]
  exact happlied

/-- Members of a list that are no commas. -/
theorem forall₂_spellsInfix (hchildren : ∀ child ∈ children, Legible child)
    (hcomma : ∀ child ∈ children, child.isComma = false) :
    List.Forall₂ (SpellsInfix 1 1) (children.map describe) (children.map requoted) := by
  rw [List.forall₂_map_left_iff, List.forall₂_map_right_iff, List.forall₂_same]
  -- a member that is no comma needs no parentheses
  exact fun child hmem => (hchildren child hmem).2.spellsInfix_member (hcomma child hmem)

end Legible

/-! ### Names -/

section Names

variable {name : Text}

/-- A name that needs no escapes is written as it is. -/
theorem NeedsNoEscapes.isVerbatimName (h : NeedsNoEscapes name)
    (hname : IsPlainName name ∨ IsQuotedName name) : IsVerbatimName name := by
  rcases hname with hplain | ⟨quote, contents, hquote, rfl⟩
  · exact .inl hplain
  · exact .inr ⟨quote, contents, hquote, rfl, h quote contents hquote rfl⟩

/-- Array literals have another name than functions. -/
theorem ne_brackets_of_isNamed (hname : IsPlainName name ∨ IsQuotedName name) :
    name ≠ Symbol.brackets := by
  rintro rfl
  rcases hname with ⟨hhead, -⟩ | ⟨quote, contents, hquote, heq⟩
  · exact absurd hhead (by decide)
  · obtain ⟨rfl, -⟩ := List.cons.inj heq
    exact absurd hquote (by decide)

end Names

/-! ### Reading back -/

/-- The node keeps its grouping, and is finite if it is a number. -/
def Kept (node : Node) : Prop := node.FiniteNumber ∧ node.KeepsGrouping

/-- A prefix operator that does not run into its operand is spelled by its text. -/
theorem KeepsSigns.spelledBy {name : Text} {operand : Node} (h : KeepsSigns name operand)
    (hoperand : operand.SpelledBy operand.describe) (hgrammatical : operand.Grammatical)
    (hname : IsOperatorName name) :
    (apply (.prefixOp name) [operand]).SpelledBy
      (name ++ operandText operand operand.describe) := by
  cases hkind : operand.isPrefix with
  | true =>
    -- a sign and its operand follow
    cases hgrammatical with
    | prefixOp inner hinnermost =>
      obtain ⟨⟨sign, rfl, hsign⟩, hnot⟩ := h
      obtain ⟨rest, htext, hrest⟩ := hoperand.afterPrefix rfl hnot
      refine spelledBy_prefixOp hoperand (standsFor_beforeSign hname) fun s => ?_
      rw [operandText_of_none rfl, htext]
      exact ⟨sign, rest ++ s, rfl, hsign, hrest.append s⟩
    | _ => cases hkind
  | false =>
    have hkeeps : (1 < name.length → endsInSign name = false) ∧
        (startsWithDigit (operandText operand operand.describe) = true →
          ¬ EndsInPoint none name) := by
      unfold KeepsSigns at h
      split at h
      · cases hkind
      · exact h
    -- an operand that is no prefix operator begins with no sign
    have hbegins := hoperand.begins hkind
    refine spelledBy_prefixOp hoperand (standsFor_beforeOperand hname hkeeps.1) fun s => ?_
    refine ⟨hbegins.append s, fun hdigit => hkeeps.2 ?_⟩
    obtain ⟨b, rest, htext, -⟩ := hbegins
    rw [htext] at hdigit ⊢
    exact hdigit

/-- A subscript keeps the grouping of what it is applied to, be it a name or not. -/
theorem Kept.of_subscripted {container index : Node} (hcontainer : container.Grammatical)
    (h : (subscripted container index).Everywhere Kept) :
    container.Everywhere Kept ∧ index.Everywhere Kept ∧ container.isUnary = false := by
  unfold subscripted at h
  split at h
  · next name children =>
    obtain rfl := hcontainer.children_eq_nil rfl
    exact ⟨.apply ⟨trivial, trivial⟩ (List.forall_mem_nil _), h.children index (by simp), rfl⟩
  · obtain ⟨-, hgrouping⟩ := h.self
    exact ⟨h.children container (by simp), h.children index (by simp), hgrouping.1 rfl⟩

/-- A subscript is written behind its container, be it a name or not. -/
theorem describe?_subscripted {container index : Node} (hgrammatical : container.Grammatical)
    (hcontainer : container.Legible) (hindex : index.Legible) :
    (subscripted container index).describe? =
      some (operandText container container.describe ++
        (utf8 "[" ++ (index.describe ++ utf8 "]"))) := by
  unfold subscripted
  split
  · next name children =>
    obtain rfl := hgrammatical.children_eq_nil rfl
    have hname : (apply (.var name) []).describe = Symbol.escapeName name := rfl
    rw [describe?, describeAll?_of_legible (List.forall_mem_singleton.mpr hindex), hname,
      operandText_of_none rfl, ← List.append_assoc, ← List.append_assoc]
    rfl
  · have hchildren : ∀ child ∈ [container, index], child.Legible :=
      List.forall_mem_cons.mpr ⟨hcontainer, List.forall_mem_singleton.mpr hindex⟩
    rw [describe?, describeAll?_of_legible hchildren]
    rfl

/-- **Whatever is built is legible**, if the grouping is kept everywhere. -/
theorem builds_legible :
    Builds (fun lexeme => lexeme.NamesMagnitude ∧ lexeme.IsNamed) fun node =>
      node.Grammatical ∧ (node.Everywhere Kept → node.Legible) where
  number h := by
    refine ⟨builds_grammatical.number h.1, fun hkept => ?_⟩
    -- only finite numbers are read back
    obtain ⟨hfinite, -⟩ := hkept.self
    exact .of_spelledBy rfl (spelledBy_number (h.1 _ _ rfl) hfinite)
  var h := by
    refine ⟨builds_grammatical.var h.1, fun _ => ?_⟩
    exact .of_spelledBy rfl (spelledBy_var h.2)
  function {name children} h hchildren := by
    refine ⟨builds_grammatical.function h.1 fun child hmem => (hchildren child hmem).1,
      fun hkept => ?_⟩
    -- no argument is a comma, and the name is written as it is
    obtain ⟨-, hescapes, hcomma⟩ := hkept.self
    have hlegible : ∀ child ∈ children, Legible child := fun child hmem =>
      (hchildren child hmem).2 (hkept.children child hmem)
    refine .of_applied hlegible ?_
      (spelledBy_function (hescapes.isVerbatimName h.2) (forall₂_spellsInfix hlegible hcomma))
    rw [applied?, if_neg (ne_brackets_of_isNamed h.2), List.map_map]
    rfl
  arrayLiteral {children} hchildren := by
    refine ⟨builds_grammatical.arrayLiteral fun child hmem => (hchildren child hmem).1,
      fun hkept => ?_⟩
    obtain ⟨-, -, hcomma⟩ := hkept.self
    have hlegible : ∀ child ∈ children, Legible child := fun child hmem =>
      (hchildren child hmem).2 (hkept.children child hmem)
    refine .of_applied hlegible ?_
      (spelledBy_arrayLiteral (forall₂_spellsInfix hlegible hcomma))
    rw [Symbol.arrayLiteral, applied?, if_pos rfl, List.map_map]
    rfl
  subscripted {container index} hcontainer hindex := by
    refine ⟨builds_grammatical.subscripted hcontainer.1 hindex.1, fun hkept => ?_⟩
    obtain ⟨hkeptContainer, hkeptIndex, hunary⟩ := Kept.of_subscripted hcontainer.1 hkept
    have hlegible := hcontainer.2 hkeptContainer
    have hlegible' := hindex.2 hkeptIndex
    exact .of_spelledBy (describe?_subscripted hcontainer.1 hlegible hlegible')
      (spelledBy_subscripted hlegible.2 hunary hlegible'.2)
  prefixOp {name operand} h hoperand := by
    refine ⟨builds_grammatical.prefixOp h.1 hoperand.1, fun hkept => ?_⟩
    obtain ⟨-, hsigns⟩ := hkept.self
    have hlegible := hoperand.2 (hkept.children operand List.mem_cons_self)
    refine .of_applied (List.forall_mem_singleton.mpr hlegible) ?_
      (KeepsSigns.spelledBy hsigns hlegible.2 hoperand.1 h.2)
    rfl
  postfixOp {name operand} h hoperand := by
    refine ⟨builds_grammatical.postfixOp h.1 hoperand.1, fun hkept => ?_⟩
    obtain ⟨-, hunary⟩ := hkept.self
    have hlegible := hoperand.2 (hkept.children operand List.mem_cons_self)
    refine .of_applied (List.forall_mem_singleton.mpr hlegible) ?_
      (spelledBy_postfixOp hlegible.2 hunary h.2)
    rfl
  infixOp {lexeme name left right} h hname hbinds hquestion hleft hright := by
    refine ⟨builds_grammatical.infixOp h.1 hname hbinds hquestion hleft.1 hright.1,
      fun hkept => ?_⟩
    obtain ⟨-, -, hcomma⟩ := hkept.self
    have hlegible := hleft.2 (hkept.children left (by simp))
    have hlegible' := hright.2 (hkept.children right (by simp))
    have hchildren : ∀ child ∈ [left, right], child.Legible :=
      List.forall_mem_cons.mpr ⟨hlegible, List.forall_mem_singleton.mpr hlegible'⟩
    -- a comma is written without a space before it, and any other operator with one
    cases lexeme with
    | comma =>
      obtain rfl := Option.some.inj hname
      exact .of_applied hchildren rfl (spelledBy_comma hlegible.2 hlegible'.2 (hcomma rfl))
    | operator other =>
      obtain rfl := Option.some.inj hname
      have hoperator : IsOperatorName other := h.2
      have hnotComma : other ≠ utf8 "," := by
        rintro rfl
        exact absurd (hoperator.2 44 (by decide)) (by decide)
      have hnotBrackets : other ≠ Symbol.brackets := by
        rintro rfl
        exact absurd (hoperator.2 91 (by decide)) (by decide)
      refine .of_applied hchildren ?_
        (spelledBy_infixOp hlegible.2 hlegible'.2 hoperator hbinds hquestion)
      simp only [List.map_cons, List.map_nil, applied?, betweenText, if_neg hnotBrackets,
        if_neg hnotComma]
    | _ => cases hname
  conditional {condition first second} hcondition hfirst hsecond := by
    refine ⟨builds_grammatical.conditional hcondition.1 hfirst.1 hsecond.1, fun hkept => ?_⟩
    obtain ⟨-, hcomma⟩ := hkept.self
    have hlegible := hcondition.2 (hkept.children condition (by simp))
    have hlegible' := hfirst.2 (hkept.children first (by simp))
    have hlegible'' := hsecond.2 (hkept.children second (by simp))
    have hchildren : ∀ child ∈ [condition, first, second], child.Legible :=
      List.forall_mem_cons.mpr ⟨hlegible,
        List.forall_mem_cons.mpr ⟨hlegible', List.forall_mem_singleton.mpr hlegible''⟩⟩
    exact .of_applied hchildren rfl
      (spelledBy_conditional hlegible.2 hlegible'.2 hcomma hlegible''.2)

end Node

variable {line : Text} {node : Node}

/-- **Written trees are read back.** If a tree that was read keeps its grouping everywhere, and all
its numbers are finite, then it is written, and its text is read as the same tree with apostrophes
for quotes. -/
theorem parse_describe (hparse : parse line = .ok node)
    (hnumbers : node.Everywhere Node.FiniteNumber)
    (hgrouping : node.Everywhere Node.KeepsGrouping) :
    node.describe? = some node.describe ∧ parse node.describe = .ok node.requoted := by
  -- tokens of a line have the lexemes that the text needs
  have hbuilt := parse_builds Node.builds_legible
    (fun _ htokens token hmem => ⟨tokensFrom_namesMagnitude htokens token hmem,
      tokensFrom_isNamed htokens token hmem⟩) hparse
  have hlegible := hbuilt.2 (hnumbers.and hgrouping)
  exact ⟨hlegible.1, hlegible.2.spellsInfix_index.parse⟩

end DynExpr
