import DynExpr.Expression
import DynExpr.Proofs.Evaluation.Folding
import DynExpr.Proofs.Node.Builds
import DynExpr.Proofs.Token.Scanned

/-!
# The trees that are read

`Node.Grammatical` are the trees that the readers can build: a variable has no operands, an array,
a prefix and a postfix operator have one, a function has as many as it says, and an infix operator
has two, of which the conditional may also have three. All numbers are from zero to infinity.

The readers build no others (`Parser.builds_grammatical`), since all numbers among the tokens of a
line are from zero to infinity. `parse_grammatical` is the result for a whole line.
-/

namespace DynExpr

/-- The trees that can be read. -/
inductive Node.Grammatical : Node → Prop
  | number {value : Double} (h : value.IsMagnitude) : Grammatical (.number value)
  | var (name : Text) : Grammatical (.apply (.var name) [])
  | array (name : Text) {index : Node} (hindex : Grammatical index) :
      Grammatical (.apply (.array name) [index])
  | function (name : Text) {children : List Node} (h : ∀ child ∈ children, Grammatical child) :
      Grammatical (.apply (.function name (.exactly children.length)) children)
  | prefixOp (name : Text) {operand : Node} (h : Grammatical operand) :
      Grammatical (.apply (.prefixOp name) [operand])
  | postfixOp (name : Text) {operand : Node} (h : Grammatical operand) :
      Grammatical (.apply (.postfixOp name) [operand])
  | infixOp (name : Text) {left right : Node} (hleft : Grammatical left)
      (hright : Grammatical right) : Grammatical (.apply (.infixOp name) [left, right])
  | conditional {condition first second : Node} (hcondition : Grammatical condition)
      (hfirst : Grammatical first) (hsecond : Grammatical second) :
      Grammatical (.apply .conditional [condition, first, second])

/-- From numbers between zero and infinity only grammatical trees are built. -/
theorem Parser.builds_grammatical : Builds Lexeme.NamesMagnitude Node.Grammatical where
  number h := .number (h _ _ rfl)
  var _ := .var _
  function _ hchildren := .function _ hchildren
  arrayLiteral hchildren := .function _ hchildren
  subscripted {container index} hcontainer hindex := by
    unfold subscripted
    split
    · exact .array _ hindex
    · exact .infixOp _ hcontainer hindex
  prefixOp _ hoperand := .prefixOp _ hoperand
  postfixOp _ hoperand := .postfixOp _ hoperand
  infixOp _ _ _ _ hleft hright := .infixOp _ hleft hright
  conditional hcondition hfirst hsecond := .conditional hcondition hfirst hsecond

/-- **What is read is grammatical.** -/
theorem parse_grammatical {line : Text} {node : Node} (h : parse line = .ok node) :
    node.Grammatical :=
  Parser.parse_builds Parser.builds_grammatical
    (fun _ htokens => tokensFrom_namesMagnitude htokens) h

/-! ### Taking a tree apart -/

namespace Node.Grammatical

/-- A number that is read is neither negative nor a NaN. -/
theorem isMagnitude {value : Double} (h : (Node.number value).Grammatical) : value.IsMagnitude := by
  cases h with
  | number h => exact h

/-- The operands of a grammatical tree are grammatical. -/
theorem children {symbol : Symbol} {children : List Node}
    (h : (Node.apply symbol children).Grammatical) :
    ∀ child ∈ children, child.Grammatical := by
  cases h with
  | var name => exact fun _ hmem => absurd hmem List.not_mem_nil
  | function name h => exact h
  | array name h => exact List.forall_mem_singleton.mpr h
  | prefixOp name h => exact List.forall_mem_singleton.mpr h
  | postfixOp name h => exact List.forall_mem_singleton.mpr h
  | infixOp name hleft hright =>
    exact List.forall_mem_cons.mpr ⟨hleft, List.forall_mem_singleton.mpr hright⟩
  | conditional hcondition hfirst hsecond =>
    exact List.forall_mem_cons.mpr ⟨hcondition,
      List.forall_mem_cons.mpr ⟨hfirst, List.forall_mem_singleton.mpr hsecond⟩⟩

/-- A variable, and a function without arguments, has no operands. -/
theorem children_eq_nil {symbol : Symbol} {children : List Node}
    (h : (Node.apply symbol children).Grammatical) (hsymbol : symbol.isConstantLike) :
    children = [] := by
  cases h with
  | var name => rfl
  | function name h =>
    -- the arity is the number of operands, and it is zero
    have hcount : Arity.exactly children.length = .exactly 0 := eq_of_beq hsymbol
    exact List.length_eq_zero_iff.mp (Arity.exactly.inj hcount)
  | _ => exact absurd hsymbol Bool.false_ne_true

end Node.Grammatical

/-!
## The shape of a tree

`Symbol.Takes` says how many operands a symbol stands for: a variable has none, an array, a prefix
and a postfix operator have one, a function has as many as it says, and an infix operator has two,
of which the conditional may also have three.

In a tree that was read every symbol has the operands it stands for
(`Node.Grammatical.applications_take`). Such a tree is well-shaped (`Node.wellShaped_of_takes`), and
it is written without missing an operand (`Node.describe?_of_takes`).
-/

/-- The symbol stands for this number of operands. -/
def Symbol.Takes : Symbol → Nat → Prop
  | var _, count => count = 0
  | array _, count | prefixOp _, count | postfixOp _, count => count = 1
  | infixOp name, count => count = 2 ∨ (name = utf8 "?:" ∧ count = 3)
  | function _ arity, count => arity = .exactly count

namespace Node

/-! ### Applications of a tree -/

/-- The applications in a list of trees are those in its trees. -/
theorem mem_applicationsOfAll {application : Application} {nodes : List Node} :
    application ∈ applicationsOfAll nodes ↔ ∃ node ∈ nodes, application ∈ node.applications := by
  induction nodes with
  | nil => simp [applicationsOfAll]
  | cons node rest ih => rw [applicationsOfAll, List.mem_append, ih, List.exists_mem_cons_iff]

/-- What holds for all applications in a tree holds for the one at its root, and for those in its
operands. -/
theorem forall_applications_apply {P : Application → Prop} {symbol : Symbol}
    {children : List Node} :
    (∀ application ∈ (apply symbol children).applications, P application) ↔
      P ⟨symbol, children⟩ ∧
        ∀ child ∈ children, ∀ application ∈ child.applications, P application := by
  constructor
  · intro h
    refine ⟨h _ (List.mem_append_right _ List.mem_cons_self), ?_⟩
    intro child hchild application hmem
    -- those in the operands come before the one at the root
    have hinside : application ∈ applicationsOfAll children :=
      mem_applicationsOfAll.mpr ⟨child, hchild, hmem⟩
    exact h application (List.mem_append_left _ hinside)
  · rintro ⟨hself, hchildren⟩ application hmem
    rcases List.mem_append.mp hmem with hmem | hmem
    · obtain ⟨child, hchild, hmem⟩ := mem_applicationsOfAll.mp hmem
      exact hchildren child hchild application hmem
    · obtain rfl := List.mem_singleton.mp hmem
      exact hself

/-! ### Trees that are read -/

/-- **What is read has the operands that its symbols stand for.** -/
theorem Grammatical.applications_take {node : Node} (h : node.Grammatical) :
    ∀ application ∈ node.applications,
      application.symbol.Takes application.children.length := by
  induction node using Node.induction with
  | number value => exact fun _ hmem => absurd hmem List.not_mem_nil
  | apply symbol children ih =>
    -- each way to read an application fixes the number of its operands
    have hself : symbol.Takes children.length := by
      cases h with
      | var name => exact rfl
      | array name hindex => exact rfl
      | function name hchildren => exact rfl
      | prefixOp name hoperand => exact rfl
      | postfixOp name hoperand => exact rfl
      | infixOp name hleft hright => exact .inl rfl
      | conditional hcondition hfirst hsecond => exact .inr ⟨rfl, rfl⟩
    exact forall_applications_apply.mpr
      ⟨hself, fun child hmem => ih child hmem (h.children child hmem)⟩

/-! ### Well-shaped trees -/

/-- The number that a symbol stands for passes the check of shapes. -/
theorem operandCounts_of_takes {symbol : Symbol} {count : Nat} (h : symbol.Takes count) :
    operandCounts symbol count = true := by
  cases symbol with
  | var name | array name | prefixOp name | postfixOp name =>
    obtain rfl : count = _ := h
    rfl
  | infixOp name =>
    rcases h with rfl | ⟨rfl, rfl⟩
    · rfl
    · rfl
  | function name arity =>
    obtain rfl : arity = .exactly count := h
    simp [operandCounts, Symbol.arity]

/-- A list of well-shaped trees is well-shaped. -/
theorem allWellShaped_eq_true {nodes : List Node} (h : ∀ node ∈ nodes, node.WellShaped = true) :
    allWellShaped nodes = true := by
  induction nodes with
  | nil => rfl
  | cons node rest ih =>
    rw [List.forall_mem_cons] at h
    rw [allWellShaped, h.1, ih h.2]
    rfl

/-- A tree whose symbols have the operands they stand for is well-shaped. -/
theorem wellShaped_of_takes {node : Node} (h : ∀ application ∈ node.applications,
    application.symbol.Takes application.children.length) : node.WellShaped = true := by
  induction node using Node.induction with
  | number value => rfl
  | apply symbol children ih =>
    obtain ⟨hself, hchildren⟩ := forall_applications_apply.mp h
    rw [WellShaped, operandCounts_of_takes hself,
      allWellShaped_eq_true fun child hmem => ih child hmem (hchildren child hmem)]
    rfl

/-! ### Trees that are written -/

/-- What is written is the description. -/
theorem describe_eq {node : Node} {text : Text} (h : node.describe? = some text) :
    node.describe = text := by
  rw [describe, h]
  rfl

/-- Operands that are written are written in order. -/
theorem describeAll?_eq {children : List Node}
    (h : ∀ child ∈ children, child.describe? = some child.describe) :
    describeAll? children = some (children.map fun child => (child, child.describe)) := by
  induction children with
  | nil => rfl
  | cons child rest ih =>
    obtain ⟨hchild, hrest⟩ := List.forall_mem_cons.mp h
    rw [describeAll?, hchild, ih hrest]
    rfl

/-- No operand is missing where a symbol has the operands it stands for. -/
theorem exists_applied?_eq {symbol : Symbol} {operands : List (Node × Text)}
    (h : symbol.Takes operands.length) : ∃ text, applied? symbol operands = some text := by
  cases symbol with
  | var name | array name => exact ⟨_, rfl⟩
  | function name arity =>
    by_cases hname : name = Symbol.brackets
    · exact ⟨_, if_pos hname⟩
    · exact ⟨_, if_neg hname⟩
  -- operators look for their operands, so the number counts here
  | prefixOp name | postfixOp name =>
    obtain ⟨operand, rfl⟩ := List.length_eq_one_iff.mp h
    exact ⟨_, rfl⟩
  | infixOp name =>
    rcases h with h | ⟨rfl, h⟩
    · obtain ⟨left, right, rfl⟩ := List.length_eq_two.mp h
      exact ⟨_, rfl⟩
    · obtain ⟨condition, first, second, rfl⟩ := List.length_eq_three.mp h
      exact ⟨_, rfl⟩

/-- **A tree whose symbols have the operands they stand for is written.** -/
theorem describe?_of_takes {node : Node} (h : ∀ application ∈ node.applications,
    application.symbol.Takes application.children.length) :
    node.describe? = some node.describe := by
  induction node using Node.induction with
  | number value => rfl
  | apply symbol children ih =>
    obtain ⟨hself, hchildren⟩ := forall_applications_apply.mp h
    have hoperands := describeAll?_eq fun child hmem => ih child hmem (hchildren child hmem)
    -- the operands are written first, and none of them is missing
    obtain ⟨text, htext⟩ : ∃ text,
        applied? symbol (children.map fun child => (child, child.describe)) = some text :=
      exists_applied?_eq (by rwa [List.length_map])
    have hdescribe : (apply symbol children).describe? = some text := by
      rw [describe?, hoperands]
      exact htext
    rw [hdescribe, describe_eq hdescribe]

end Node

end DynExpr
