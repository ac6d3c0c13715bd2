import DynExpr.Proofs.Node.Shape
import DynExpr.Proofs.Node.Spells
import DynExpr.Proofs.Node.Yield

/-!
# Texts in brackets

In brackets a text is read as by itself, whatever it is and wherever it stands: it is cut into the
same tokens (`tokensFrom_aligned`), and these are read alike up to the closing bracket
(`Parser.infixExpression_alike`). So in parentheses every text that can be read spells an operand
(`Parser.spellsOperand_enclosed`), and what is put together of such operands is read as it is
written.

`parse_enclosed` goes through the ways to put together an expression.
-/

namespace DynExpr

open Text

namespace Parser

variable {text : Text} {node : Node} {b : UInt8} {opening closing : Lexeme}

/-- Expressions end in front of a closing bracket. -/
theorem IsClosing.stops (h : IsClosing b closing) {bracket : Token}
    (hbracket : bracket.lexeme = closing) (rest : List Token) : Stops (bracket :: rest) := by
  show bracket.lexeme ∈ _
  rcases h with ⟨-, rfl⟩ | ⟨-, rfl⟩ <;> rw [hbracket] <;> decide

/-- A closing bracket is a token by itself. -/
theorem IsClosing.scanLexeme (h : IsClosing b closing) (s : Text) :
    scanLexeme b s = .ok (closing, 1) := by
  rcases h with ⟨rfl, rfl⟩ | ⟨rfl, rfl⟩ <;> rfl

/-- A closing bracket is no blank. -/
theorem IsClosing.isBlank (h : IsClosing b closing) : isBlank b = false := by
  rcases h with ⟨rfl, -⟩ | ⟨rfl, -⟩ <;> rfl

/-- The tokens are one token, and then tokens that are read as the node up to a bracket. -/
def IsEnclosed (opening closing : Lexeme) (node : Node) (spaced : Bool) (tokens rest : List Token) :
    Prop :=
  ∃ position inner bracket, tokens = ⟨opening, position, spaced⟩ :: inner ∧
    bracket.lexeme = closing ∧ ReadsInfix 0 inner node (bracket :: rest)

/-- What can be read by itself is read as the same up to a bracket. -/
theorem readsInfix_of_parse (h : parse text = .ok node) (hclosing : IsClosing b closing)
    {position : Nat} {s : Text} {rest : List Token}
    (hrest : tokensFrom (position + text.length + 1) s = .ok rest) :
    ∃ tokens bracket, tokensFrom position (text ++ b :: s) = .ok tokens ∧
      bracket.lexeme = closing ∧ ReadsInfix 0 tokens node (bracket :: rest) := by
  unfold parse at h
  cases htokens : tokenize text with
  | error fault =>
    rw [htokens] at h
    cases h
  | ok tokens =>
    rw [htokens] at h
    obtain ⟨left, hread, hnext⟩ := parseTokens_eq_ok h
    obtain ⟨finish, bracket, tokens', hfinish, hbracket, htokens', haligned⟩ :=
      tokensFrom_aligned htokens hclosing.isBlank hclosing.closes hclosing.scanLexeme hrest
    refine ⟨tokens', bracket, htokens', hbracket, readsInfix_of_outcome ?_⟩
    -- by itself, the text is read up to its finish
    have hleft : left = [finish] := by
      have hyields : (outcome (infixExpression 0 tokens)).Yields Node.yield [] tokens :=
        infixExpression_yields (tokensFrom_isNamed htokens)
      rw [hread] at hyields
      obtain ⟨taken, htakes, -⟩ := hyields
      obtain ⟨used, hused⟩ := haligned.exists_append
      obtain ⟨used', finish', hused', -, hothers⟩ := tokensFrom_finish htokens
      obtain ⟨rfl, hlast⟩ := List.append_inj' (hused.symm.trans hused') rfl
      exact (hused ▸ htakes).eq_finish hfinish hothers hnext
    have hstops : Stops [finish] := List.mem_cons.mpr (.inl hfinish)
    have halike : Alike [finish] (bracket :: rest) (outcome (infixExpression 0 tokens))
        (outcome (infixExpression 0 tokens')) :=
      infixExpression_alike hstops (hclosing.stops hbracket rest) haligned
    -- so it is read up to the bracket in its place
    rw [hread, hleft] at halike
    generalize outcome (infixExpression 0 tokens') = read' at halike ⊢
    cases halike with
    | ok _ h =>
      cases h with
      | stop => rfl
      | cons _ _ h => cases h
    | further hfurther => exact absurd (hfurther node [finish] rfl) (Nat.lt_irrefl _)

/-- Brackets around a text that can be read are read as brackets around its node. -/
theorem spells_enclosed (h : parse text = .ok node) {a : UInt8}
    (hopening : StandsFor (fun _ => True) [a] opening) (hclosing : IsClosing b closing) :
    Spells (fun _ => True) (a :: (text ++ [b])) (IsEnclosed opening closing node) := by
  intro spaced position s rest _ hrest
  -- the text inside begins behind the opening bracket, and the rest behind the closing one
  have hposition : position + (blank spaced).length + (a :: (text ++ [b])).length =
      position + (blank spaced).length + [a].length + text.length + 1 := by
    simp only [List.length_cons, List.length_append, List.length_nil]
    omega
  rw [hposition] at hrest
  obtain ⟨inner, bracket, hinner, hbracket, hread⟩ := readsInfix_of_parse h hclosing hrest
  obtain ⟨tokens, htokens, position', rfl⟩ :=
    hopening.spells spaced position _ inner trivial hinner
  refine ⟨_, ?_, position', inner, bracket, rfl, hbracket, hread⟩
  rw [List.cons_append, List.append_assoc]
  exact htokens

/-- **In parentheses, everything that can be read is an operand.** -/
theorem spellsOperand_enclosed (h : parse text = .ok node) :
    SpellsOperand (Node.parenthesized text) node := by
  refine (spells_enclosed h standsFor_leftParen (.inl ⟨rfl, rfl⟩)).imp (fun _ _ => trivial) ?_
  rintro _ tokens rest ⟨position, inner, bracket, rfl, hbracket, hread⟩ _ final remaining htail
  exact (hread.readsPrimary rfl hbracket).readsPostfix htail

/-- Everything that can be read is an index. -/
theorem SpellsOperand.subscripted_enclosed {text' : Text} {node' : Node}
    (h : SpellsOperand text node) (h' : parse text' = .ok node') :
    SpellsOperand (text ++ (utf8 "[" ++ (text' ++ utf8 "]"))) (Parser.subscripted node node') := by
  have hindex := spells_enclosed h' standsFor_leftBracket (.inr ⟨rfl, rfl⟩)
  refine (h.append false hindex fun _ _ => breaks_leftBracket _).imp (fun _ _ => trivial) ?_
  rintro _ tokens rest ⟨_, hread, position, inner, bracket, rfl, hbracket, hreadIndex⟩ _ final
    remaining htail
  refine hread ?_ final remaining (hreadIndex.readsPostfixTail rfl hbracket htail)
  exact fun hnext => nomatch hnext

/-- A blank may stand between a prefix operator and its operand. -/
theorem SpellsUnary.prefixOp_blank {name : Text} (h : SpellsUnary text node)
    (hname : IsOperatorName name) :
    SpellsUnary (name ++ (utf8 " " ++ text)) (.apply (.prefixOp name) [node]) := by
  refine ((standsFor_operator hname).spells.append true h fun _ _ => closes_cons (by decide) _).imp
    (fun _ => id) ?_
  rintro _ tokens rest ⟨_, ⟨_, rfl⟩, hread⟩ hends
  exact (hread hends).prefixOp rfl

end Parser

open DynExpr.Parser

/-! ### Putting expressions together -/

/-- Every operator but the colon binds. -/
theorem infixPrecedence_nonneg {name : Text} (h : name ≠ utf8 ":") : 0 ≤ infixPrecedence name := by
  unfold infixPrecedence
  rw [if_neg h]
  repeat' split
  all_goals decide

/-- **Reading is compositional under parentheses.** What three texts are read as by themselves, they
are read as wherever they stand in parentheses, and a text between the brackets of a subscript:
with an operator between, before or after them, in a conditional, and in the lists of a call and of
an array. -/
theorem parse_enclosed {e₁ e₂ e₃ op f : Text} {t₁ t₂ t₃ : Node} (h₁ : parse e₁ = .ok t₁)
    (h₂ : parse e₂ = .ok t₂) (h₃ : parse e₃ = .ok t₃) (hop : IsOperatorName op)
    (hquestion : op ≠ utf8 "?") (hcolon : op ≠ utf8 ":") (hf : IsPlainName f) :
    parse (utf8 "(" ++ e₁ ++ utf8 ")") = .ok t₁ ∧
    parse (utf8 "(" ++ e₁ ++ utf8 ") " ++ op ++ utf8 " (" ++ e₂ ++ utf8 ")") =
      .ok (.apply (.infixOp op) [t₁, t₂]) ∧
    parse (utf8 "(" ++ e₁ ++ utf8 "), (" ++ e₂ ++ utf8 ")") =
      .ok (.apply (.infixOp (utf8 ",")) [t₁, t₂]) ∧
    parse (utf8 "(" ++ e₁ ++ utf8 ") ? (" ++ e₂ ++ utf8 ") : (" ++ e₃ ++ utf8 ")") =
      .ok (.apply (.infixOp (utf8 "?:")) [t₁, t₂, t₃]) ∧
    parse (op ++ utf8 " (" ++ e₁ ++ utf8 ")") = .ok (.apply (.prefixOp op) [t₁]) ∧
    parse (utf8 "(" ++ e₁ ++ utf8 ")" ++ op) = .ok (.apply (.postfixOp op) [t₁]) ∧
    (∀ name, t₁ = .apply (.var name) [] →
      parse (utf8 "(" ++ e₁ ++ utf8 ")[" ++ e₂ ++ utf8 "]") = .ok (.apply (.array name) [t₂])) ∧
    ((∀ name, t₁ ≠ .apply (.var name) []) →
      parse (utf8 "(" ++ e₁ ++ utf8 ")[" ++ e₂ ++ utf8 "]") =
        .ok (.apply (.infixOp (utf8 "[]")) [t₁, t₂])) ∧
    parse (f ++ utf8 "((" ++ e₁ ++ utf8 "), (" ++ e₂ ++ utf8 "))") =
      .ok (.apply (.function f (.exactly 2)) [t₁, t₂]) ∧
    parse (utf8 "[(" ++ e₁ ++ utf8 "), (" ++ e₂ ++ utf8 ")]") =
      .ok (.apply (.function (utf8 "[]") (.exactly 2)) [t₁, t₂]) := by
  have henclosed₁ : SpellsOperand (Node.parenthesized e₁) t₁ := spellsOperand_enclosed h₁
  have henclosed₂ : SpellsOperand (Node.parenthesized e₂) t₂ := spellsOperand_enclosed h₂
  have henclosed₃ : SpellsOperand (Node.parenthesized e₃) t₃ := spellsOperand_enclosed h₃
  have hunary₁ := henclosed₁.spellsUnary
  have hunary₂ := henclosed₂.spellsUnary
  have hunary₃ := henclosed₃.spellsUnary
  have hbinds := infixPrecedence_nonneg hcolon
  have hsubscripted := (henclosed₁.subscripted_enclosed h₂).spellsUnary.spellsInfix.parse
  -- members of a list are separated by commas, and read one by one
  have hpair : List.Forall₂ (SpellsInfix 1 1) [Node.parenthesized e₁, Node.parenthesized e₂]
      [t₁, t₂] := .cons hunary₁.spellsInfix (.cons hunary₂.spellsInfix .nil)
  refine ⟨hunary₁.spellsInfix.parse, ?_, ?_, ?_, ?_, ?_, ?_, ?_, ?_, ?_⟩
  · -- the operator between
    have hoperation := hunary₁.spellsInfix.infixOp hop hquestion hunary₂.spellsInfix
    refine (congrArg parse ?_).trans (hoperation.mono hbinds (rightPrecedence_nonneg hbinds)).parse
    simp only [Node.parenthesized, List.cons_append, List.append_assoc]
    rfl
  · have hcomma := hunary₁.spellsInfix.comma hunary₂.spellsInfix
    refine (congrArg parse ?_).trans (hcomma.mono (Int.le_refl _) (by decide)).parse
    simp only [Node.parenthesized, List.cons_append, List.append_assoc]
    rfl
  · have hconditional := hunary₁.spellsInfix.conditional hunary₂.spellsInfix hunary₃.spellsInfix
    refine (congrArg parse ?_).trans (hconditional.mono (by decide) (by decide)).parse
    simp only [Node.parenthesized, List.cons_append, List.append_assoc]
    rfl
  · refine (congrArg parse ?_).trans (hunary₁.prefixOp_blank hop).spellsInfix.parse
    simp only [Node.parenthesized, List.append_assoc]
    rfl
  · exact (henclosed₁.postfixOp hop).spellsInfix.parse
  · rintro name rfl
    refine (congrArg parse ?_).trans hsubscripted
    simp only [Node.parenthesized, List.cons_append, List.append_assoc]
    rfl
  · intro hother
    have hsubscript : subscripted t₁ t₂ = .apply .subscript [t₁, t₂] := by
      unfold subscripted
      split
      · next name children =>
        -- a variable that is read has no operands
        have hnil := (parse_grammatical h₁).children_eq_nil rfl
        exact absurd (congrArg _ hnil) (hother name)
      · rfl
    rw [hsubscript] at hsubscripted
    refine (congrArg parse ?_).trans hsubscripted
    simp only [Node.parenthesized, List.cons_append, List.append_assoc]
    rfl
  · -- the two lists
    have hcall := spellsOperand_function (.inl hf) hpair
    refine (congrArg parse ?_).trans hcall.spellsUnary.spellsInfix.parse
    simp only [join, Node.parenthesized, List.cons_append, List.append_assoc]
    rfl
  · have harray := spellsOperand_arrayLiteral hpair
    refine (congrArg parse ?_).trans harray.spellsUnary.spellsInfix.parse
    simp only [join, Node.parenthesized, List.cons_append, List.append_assoc]
    rfl

/-- A comma binds looser than a product, and than a subscript, but not in parentheses. -/
theorem parse_enclosed_comma :
    parse (utf8 "(x, y) * (y)") =
      .ok (.apply (.infixOp (utf8 "*"))
        [.apply .comma [.apply (.var (utf8 "x")) [], .apply (.var (utf8 "y")) []],
          .apply (.var (utf8 "y")) []]) ∧
    parse (utf8 "(x, y)[y]") =
      .ok (.apply .subscript
        [.apply .comma [.apply (.var (utf8 "x")) [], .apply (.var (utf8 "y")) []],
          .apply (.var (utf8 "y")) []]) := by
  have hx : IsPlainName (utf8 "x") := ⟨by decide, by decide⟩
  have hy : IsPlainName (utf8 "y") := ⟨by decide, by decide⟩
  have hreadX : SpellsUnary (utf8 "x") (.apply (.var (utf8 "x")) []) :=
    (spellsOperand_var (.inl hx)).spellsUnary
  have hreadY : SpellsUnary (utf8 "y") (.apply (.var (utf8 "y")) []) :=
    (spellsOperand_var (.inl hy)).spellsUnary
  have hcomma : SpellsInfix 0 0 (utf8 "x" ++ (utf8 ", " ++ utf8 "y"))
      (.apply .comma [.apply (.var (utf8 "x")) [], .apply (.var (utf8 "y")) []]) :=
    (hreadX.spellsInfix.comma hreadY.spellsInfix).mono (Int.le_refl _) (by decide)
  have hparseY := hreadY.spellsInfix.parse
  have htimes : IsOperatorName (utf8 "*") := ⟨by decide, by decide +kernel⟩
  obtain ⟨-, hproduct, -, -, -, -, -, hsubscript, -, -⟩ :=
    parse_enclosed hcomma.parse hparseY hparseY htimes (by decide) (by decide) hx
  exact ⟨hproduct, hsubscript fun name h => nomatch h⟩

end DynExpr
