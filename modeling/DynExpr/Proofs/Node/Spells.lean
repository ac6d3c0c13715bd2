import DynExpr.Proofs.Double.ReadBack
import DynExpr.Proofs.Node.Reads
import DynExpr.Proofs.Token.Names
import Mathlib.Data.List.Forall2

/-!
# Texts that spell an expression

A text *spells* something if the scanner makes tokens of it that the readers read as this, wherever
the text stands and whatever comes after it, as long as it is something that may come after it.
There are three grades, by what may come after.

* `Parser.SpellsOperand`: subscripts and postfix operators may follow. Numbers, names, calls,
  subscripts and everything in parentheses are spelled so.
* `Parser.SpellsUnary`: infix operators may follow. Prefix and postfix operators are spelled so.
* `Parser.SpellsInfix left right`: infix operators may follow that bind looser than `right`. The
  text may be read wherever operators down to a precedence of at most `left` are read.

For each way of writing an expression there is a rule. Its text is put together with
`Spells.append`, which joins two texts, with or without a blank in between, and leaves to show what
may come after the first.
-/

namespace DynExpr

open Text

/-! ### Spelling tokens -/

/-- A blank or nothing. -/
def blank (spaced : Bool) : Text := if spaced then [32] else []

/-- The scanner makes tokens of `text` that stand in `relation` to the tokens of what comes next, as
long as `follow` holds of what comes next. A blank may stand before the text. -/
def Spells (follow : Text → Prop) (text : Text)
    (relation : Bool → List Token → List Token → Prop) : Prop :=
  ∀ spaced position s rest, follow s →
    tokensFrom (position + (blank spaced).length + text.length) s = .ok rest →
    ∃ tokens, tokensFrom position (blank spaced ++ (text ++ s)) = .ok tokens ∧
      relation spaced tokens rest

/-- The tokens are one token, and then the rest. -/
def IsToken (lexeme : Lexeme) (spaced : Bool) (tokens rest : List Token) : Prop :=
  ∃ position, tokens = ⟨lexeme, position, spaced⟩ :: rest

section Spells

variable {follow follow' : Text → Prop} {text text' : Text}
  {relation relation' : Bool → List Token → List Token → Prop}

/-- Less may follow, and less may be said. -/
theorem Spells.imp (h : Spells follow text relation) (hfollow : ∀ s, follow' s → follow s)
    (hrelation : ∀ spaced tokens rest, relation spaced tokens rest →
      relation' spaced tokens rest) : Spells follow' text relation' := by
  intro spaced position s rest hs hrest
  obtain ⟨tokens, htokens, hrelated⟩ := h spaced position s rest (hfollow s hs) hrest
  exact ⟨tokens, htokens, hrelation spaced tokens rest hrelated⟩

/-- Two texts stand one after the other. -/
theorem Spells.append (h : Spells follow text relation) (spaced' : Bool)
    (h' : Spells follow' text' relation')
    (hfollow : ∀ s, follow' s → follow (blank spaced' ++ (text' ++ s))) :
    Spells follow' (text ++ (blank spaced' ++ text')) fun spaced tokens rest =>
      ∃ between, relation spaced tokens between ∧ relation' spaced' between rest := by
  intro spaced position s rest hs hrest
  have hposition : position + (blank spaced).length + (text ++ (blank spaced' ++ text')).length =
      position + (blank spaced).length + text.length + (blank spaced').length + text'.length := by
    simp only [List.length_append]
    omega
  -- the second text starts where the first one ends, and is what follows the first one
  rw [hposition] at hrest
  obtain ⟨between, hbetween, hrelated'⟩ := h' spaced' _ s rest hs hrest
  obtain ⟨tokens, htokens, hrelated⟩ := h spaced position _ between (hfollow s hs) hbetween
  refine ⟨tokens, ?_, between, hrelated, hrelated'⟩
  rw [List.append_assoc text, List.append_assoc (blank spaced')]
  exact htokens

/-- Less may follow. -/
theorem StandsFor.mono {lexeme : Lexeme} (h : StandsFor follow text lexeme)
    (hfollow : ∀ s, follow' s → follow s) : StandsFor follow' text lexeme := by
  obtain ⟨b, others, htext, hb, hscan⟩ := h
  exact ⟨b, others, htext, hb, fun s hs => hscan s (hfollow s hs)⟩

/-- What stands for a lexeme is cut off as one token. -/
theorem StandsFor.spells {lexeme : Lexeme} (h : StandsFor follow text lexeme) :
    Spells follow text (IsToken lexeme) := by
  obtain ⟨b, others, rfl, hb, hscan⟩ := h
  intro spaced position s rest hs hrest
  -- the text begins with no blank, so the blank before it is all that is skipped
  have hblanks : (blank spaced ++ (b :: others ++ s)).takeWhile isBlank = blank spaced ∧
      (blank spaced ++ (b :: others ++ s)).dropWhile isBlank = b :: (others ++ s) := by
    have hblank : isBlank 32 = true := rfl
    cases spaced <;> simp [blank, hb, hblank]
  have hdrop : (others ++ s).drop ((b :: others).length - 1) = s := List.drop_left
  have hspaced : (!(blank spaced).isEmpty) = spaced := by cases spaced <;> rfl
  refine ⟨_, ?_, position + (blank spaced).length, rfl⟩
  rw [tokensFrom, hblanks.1, hspaced]
  split
  · next hcut =>
    rw [hblanks.2] at hcut
    cases hcut
  · next c others' hcut =>
    rw [hblanks.2] at hcut
    obtain ⟨rfl, rfl⟩ := List.cons.inj hcut
    rw [hscan s hs]
    dsimp only
    rw [hdrop, hrest]

end Spells

/-- A name that is written as it is stands for itself. -/
theorem IsVerbatimName.standsFor {name : Text} (h : IsVerbatimName name) :
    StandsFor Breaks name (.identifier name) := by
  rcases h with h | ⟨quote, contents, hquote, rfl, hfree, hbackslash⟩
  · exact standsFor_plainName h
  · exact (standsFor_verbatim hquote hfree hbackslash).mono fun _ _ => trivial

/-! ### What may come after -/

/-- A closing bracket, a comma or a blank may come after an expression, whatever comes behind it. -/
theorem closes_cons {b : UInt8} (h : b ∈ utf8 ")], ") (s : Text) : Closes (b :: s) := h

/-- A byte that belongs to no name and no operator breaks them off. -/
theorem breaks_cons {b : UInt8} (hword : isWordByte b = false)
    (hoperator : isOperatorByte b = false) (s : Text) : Breaks (b :: s) :=
  ⟨hword, fun h => absurd h (by rw [hoperator]; exact Bool.false_ne_true)⟩

/-- An opening bracket does. -/
theorem breaks_leftBracket (s : Text) : Breaks (91 :: s) := breaks_cons rfl (by decide) s

/-- So does an opening parenthesis. -/
theorem breaks_leftParen (s : Text) : Breaks (40 :: s) := breaks_cons rfl (by decide) s

/-- After an operator comes no letter or digit, if what follows it closes. -/
theorem IsOperatorName.breaks {name s : Text} (h : IsOperatorName name) (hs : Closes s) :
    Breaks (name ++ s) := by
  obtain ⟨hne, hall⟩ := h
  -- bytes of operators belong to no name
  have hword : ∀ b ∈ name, isWordByte b = false := by
    intro b hb
    obtain ⟨-, hdigit, hstart, -⟩ := isOperatorByte_only (hall b hb)
    rw [isWordByte, hdigit, hstart]
    rfl
  obtain ⟨b, rest, rfl⟩ := List.exists_cons_of_ne_nil hne
  refine ⟨hword b List.mem_cons_self, fun _ => ?_⟩
  cases rest with
  | nil => exact hs.breaks.head?
  | cons c rest => exact hword c (by simp)

namespace Parser

section Marks

variable {lexeme : Lexeme} {b : UInt8}

/-- A bracket or a comma stands for its lexeme, whatever comes next. -/
theorem standsFor_mark (hb : isBlank b = false)
    (h : ∀ s, scanLexeme b s = .ok (lexeme, 1)) : StandsFor (fun _ => True) [b] lexeme :=
  ⟨b, [], rfl, hb, fun s _ => h s⟩

/-- The opening parenthesis. -/
theorem standsFor_leftParen : StandsFor (fun _ => True) [40] .leftParen :=
  standsFor_mark rfl fun _ => rfl

/-- The closing parenthesis. -/
theorem standsFor_rightParen : StandsFor (fun _ => True) [41] .rightParen :=
  standsFor_mark rfl fun _ => rfl

/-- The opening bracket. -/
theorem standsFor_leftBracket : StandsFor (fun _ => True) [91] .leftBracket :=
  standsFor_mark rfl fun _ => rfl

/-- The closing bracket. -/
theorem standsFor_rightBracket : StandsFor (fun _ => True) [93] .rightBracket :=
  standsFor_mark rfl fun _ => rfl

/-- The comma. -/
theorem standsFor_comma : StandsFor (fun _ => True) [44] .comma :=
  standsFor_mark rfl fun _ => rfl

end Marks

/-! ### The three grades -/

/-- The tokens are read as an infix expression, or as the beginning of one, where operators down to
a precedence of at most `left` are read, and the next operator binds looser than `right`. -/
def ReadsUpTo (left right : Int) (node : Node) (tokens rest : List Token) : Prop :=
  Ends rest → Below right rest → ∀ least ≤ left, ∀ final remaining,
    ReadsInfixTail least node rest final remaining → ReadsInfix least tokens final remaining

/-- The text is read as an operand: reading on continues with the node. A name would be read as a
call if a parenthesis followed. -/
def SpellsOperand (text : Text) (node : Node) : Prop :=
  Spells Breaks text fun _ tokens rest => next rest ≠ .leftParen →
    ∀ final remaining, ReadsPostfixTail node rest final remaining →
      ReadsPostfix tokens final remaining

/-- The text is read as a unary expression, where an operand ends after it. -/
def SpellsUnary (text : Text) (node : Node) : Prop :=
  Spells Closes text fun _ tokens rest => Ends rest → ReadsUnary tokens node rest

/-- The text is read as an infix expression, within these bounds. -/
def SpellsInfix (left right : Int) (text : Text) (node : Node) : Prop :=
  Spells Closes text fun _ tokens rest => ReadsUpTo left right node tokens rest

variable {left right left' right' : Int} {text text' name : Text} {node node' middle : Node}
  {token : Token} {tokens between rest : List Token}

/-- Where an operand ends, no call begins. -/
theorem Ends.next_ne_leftParen (h : Ends rest) : next rest ≠ .leftParen := by
  cases rest with
  | nil => simp [next]
  | cons token rest =>
    intro heq
    have hlexeme : token.lexeme = .leftParen := heq
    simp only [Ends, hlexeme] at h

/-- What binds looser than one precedence binds looser than a higher one. -/
theorem Below.mono (h : Below left rest) (hle : left ≤ right) : Below right rest :=
  fun name hname => Int.lt_of_lt_of_le (h name hname) hle

/-- Reading stops before an operator that binds looser. -/
theorem ReadsUpTo.readsInfix {least : Int} (h : ReadsUpTo left right node tokens rest)
    (hleft : least ≤ left) (hright : least ≤ right) (hends : Ends rest)
    (hbelow : Below least rest) : ReadsInfix least tokens node rest :=
  h hends (hbelow.mono hright) least hleft node rest (readsInfixTail_stop hbelow)

/-- Reading stops before a closing bracket. -/
theorem ReadsUpTo.readsInfix_bracket {least : Int}
    (h : ReadsUpTo left right node tokens (token :: rest)) (hleft : least ≤ left)
    (hright : least ≤ right)
    (hclosing : token.lexeme = .rightParen ∨ token.lexeme = .rightBracket) :
    ReadsInfix least tokens node (token :: rest) := by
  -- a closing bracket ends the operand, and is no infix operator
  have hends : Ends (token :: rest) := by
    rcases hclosing with h | h <;> simp only [Ends, h]
  refine h.readsInfix hleft hright hends ?_
  intro name hname
  have hnext : infixName? token.lexeme = some name := hname
  rcases hclosing with h | h <;> (rw [h] at hnext; cases hnext)

/-! ### From grade to grade -/

/-- An operand is a unary expression. -/
theorem SpellsOperand.spellsUnary (h : SpellsOperand text node) : SpellsUnary text node := by
  refine h.imp (fun _ => Closes.breaks) ?_
  intro _ tokens rest hread hends
  -- no parenthesis follows, and no postfix operator either
  exact (hread hends.next_ne_leftParen _ _ (readsPostfixTail_stop hends)).readsUnary

/-- A unary expression is an infix expression within any bounds. -/
theorem SpellsUnary.spellsInfix (h : SpellsUnary text node) : SpellsInfix left right text node := by
  refine h.imp (fun _ => id) ?_
  intro _ tokens rest hread hends _ least _ final remaining htail
  exact (hread hends).readsInfix htail

/-- The bounds may be loosened. -/
theorem SpellsInfix.mono (h : SpellsInfix left right text node) (hleft : left' ≤ left)
    (hright : right' ≤ right) : SpellsInfix left' right' text node := by
  refine h.imp (fun _ => id) ?_
  intro _ tokens rest hread hends hbelow least hleast final remaining htail
  exact hread hends (hbelow.mono hright) least (Int.le_trans hleast hleft) final remaining htail

/-- In parentheses, everything is an operand. -/
theorem SpellsInfix.parenthesized (h : SpellsInfix 0 0 text node) :
    SpellsOperand (Node.parenthesized text) node := by
  have hclosing := h.append false standsFor_rightParen.spells fun _ _ =>
    closes_cons (by decide) _
  refine (standsFor_leftParen.spells.append false hclosing fun _ _ => trivial).imp
    (fun _ _ => trivial) ?_
  -- an opening parenthesis, the tokens of the text, and a closing parenthesis
  rintro _ tokens rest ⟨_, ⟨_, rfl⟩, _, hread, _, rfl⟩ _ final remaining htail
  have hinner := hread.readsInfix_bracket (Int.le_refl _) (Int.le_refl _) (.inl rfl)
  exact (hinner.readsPrimary rfl rfl).readsPostfix htail

/-! ### Operands -/

/-- What stands for a lexeme of an operand is an operand. -/
theorem StandsFor.spellsOperand {lexeme : Lexeme} (h : StandsFor Breaks text lexeme)
    (hread : ∀ position spaced rest, next rest ≠ .leftParen →
      ReadsPrimary (⟨lexeme, position, spaced⟩ :: rest) node rest) : SpellsOperand text node := by
  refine h.spells.imp (fun _ => id) ?_
  rintro spaced tokens rest ⟨position, rfl⟩ hnext final remaining htail
  exact (hread position spaced rest hnext).readsPostfix htail

/-- A number is read back from its text. -/
theorem spellsOperand_number {value : Double} (hvalue : value.IsMagnitude)
    (hfinite : value.isFinite = true) : SpellsOperand value.text (.number value) := by
  have hdigit := (Double.isNumeral_text hvalue hfinite).startsWithDigit
  have hscan := (Double.readsBack hvalue hfinite).scanNumber_text hvalue hfinite
  exact StandsFor.spellsOperand (standsFor_number hdigit hscan) fun _ _ _ _ =>
    readsPrimary_number rfl

/-- A name is written so that it is read as itself, a literal with apostrophes for quotes. -/
theorem spellsOperand_var (h : IsPlainName name ∨ IsQuotedName name) :
    SpellsOperand (Symbol.escapeName name) (.apply (.var (requoted name)) []) := by
  rcases h with h | ⟨quote, contents, hquote, rfl⟩
  · have hescaped : Symbol.escapeName name = name := by
      rw [Symbol.escapeName, h.unquoted?_eq_none]
    rw [hescaped, h.requoted_eq]
    exact StandsFor.spellsOperand (standsFor_plainName h) fun _ _ _ hnext =>
      readsPrimary_var rfl hnext
  · -- :: a literal is written between apostrophes
    have hescaped : Symbol.escapeName (quote :: (contents ++ [quote])) = quoted contents := by
      rw [Symbol.escapeName, unquoted?_quote hquote]
    have hrequoted : requoted (quote :: (contents ++ [quote])) = 39 :: (contents ++ [39]) := by
      rw [requoted, unquoted?_quote hquote]
    rw [hescaped, hrequoted]
    exact StandsFor.spellsOperand ((standsFor_quoted contents).mono fun _ _ => trivial)
      fun _ _ _ hnext => readsPrimary_var rfl hnext

/-- An index in brackets after an operand. -/
theorem SpellsOperand.subscripted (h : SpellsOperand text node)
    (hindex : SpellsInfix 0 0 text' node') :
    SpellsOperand (text ++ (utf8 "[" ++ (text' ++ utf8 "]"))) (Parser.subscripted node node') := by
  have hclosing := hindex.append false standsFor_rightBracket.spells fun _ _ =>
    closes_cons (by decide) _
  have hbrackets := standsFor_leftBracket.spells.append false hclosing fun _ _ => trivial
  refine (h.append false hbrackets fun _ _ => breaks_leftBracket _).imp (fun _ _ => trivial) ?_
  -- the tokens of the operand, and those of the index between brackets
  rintro _ tokens rest ⟨_, hread, _, ⟨_, rfl⟩, _, hreadIndex, _, rfl⟩ _ final remaining htail
  have hinner := hreadIndex.readsInfix_bracket (Int.le_refl _) (Int.le_refl _) (.inr rfl)
  refine hread ?_ final remaining (hinner.readsPostfixTail rfl rfl htail)
  exact fun hnext => nomatch hnext

/-! ### Prefix and postfix operators -/

/-- A postfix operator behind its operand. -/
theorem SpellsOperand.postfixOp (h : SpellsOperand text node) (hname : IsOperatorName name) :
    SpellsUnary (text ++ name) (.apply (.postfixOp name) [node]) := by
  refine (h.append false (standsFor_operator hname).spells fun _ => hname.breaks).imp
    (fun _ => id) ?_
  -- the operator is set off from what follows it, and not from the operand
  rintro _ tokens rest ⟨_, hread, _, rfl⟩ hends
  have htail : ReadsPostfixTail (.apply (.postfixOp name) [node]) rest
      (.apply (.postfixOp name) [node]) rest := readsPostfixTail_stop hends
  refine (hread ?_ _ _ (htail.postfixOp rfl rfl hends)).readsUnary
  exact fun hnext => nomatch hnext

/-- A prefix operator in front of its operand. -/
theorem SpellsUnary.prefixOp {follow : Text → Prop} (h : SpellsUnary text node)
    (hname : StandsFor follow name (.operator name)) (hfollow : ∀ s, follow (text ++ s)) :
    SpellsUnary (name ++ text) (.apply (.prefixOp name) [node]) := by
  refine (hname.spells.append false h fun s _ => hfollow s).imp (fun _ => id) ?_
  rintro _ tokens rest ⟨_, ⟨_, rfl⟩, hread⟩ hends
  exact (hread hends).prefixOp rfl

/-! ### Infix operators -/

/-- What follows an operator is read as its right operand. -/
theorem ReadsUpTo.infixOp (h : ReadsUpTo left right node tokens (token :: between))
    (hends : Ends (token :: between)) (hname : infixName? token.lexeme = some name)
    (hquestion : name ≠ utf8 "?") (hleft : infixPrecedence name ≤ left)
    (hright : infixPrecedence name < right)
    (h' : ReadsUpTo (rightPrecedence name) (rightPrecedence name) node' between rest) :
    ReadsUpTo (infixPrecedence name) (rightPrecedence name)
      (.apply (.infixOp name) [node, node']) tokens rest := by
  intro hends' hbelow least hleast final remaining htail
  have hoperand := h'.readsInfix (Int.le_refl _) (Int.le_refl _) hends' hbelow
  -- the left operand ends before the operator, which binds looser than what it allows
  have hbelow' : Below right (token :: between) := by
    intro other hother
    obtain rfl := Option.some.inj (hname.symm.trans hother)
    exact hright
  exact h hends hbelow' least (Int.le_trans hleast hleft) final remaining
    (hoperand.readsInfixTail hname hleast hquestion htail)

/-- An infix operator with a blank on both sides. -/
theorem SpellsInfix.infixOp
    (h : SpellsInfix (infixPrecedence name) (infixPrecedence name + 1) text node)
    (hname : IsOperatorName name) (hquestion : name ≠ utf8 "?")
    (h' : SpellsInfix (rightPrecedence name) (rightPrecedence name) text' node') :
    SpellsInfix (infixPrecedence name) (rightPrecedence name)
      (text ++ (utf8 " " ++ (name ++ (utf8 " " ++ text'))))
      (.apply (.infixOp name) [node, node']) := by
  have hoperator := (standsFor_operator hname).spells.append true h' fun _ _ =>
    closes_cons (by decide) _
  refine (h.append true hoperator fun _ _ => closes_cons (by decide) _).imp (fun _ => id) ?_
  rintro _ tokens rest ⟨_, hread, _, ⟨_, rfl⟩, hread'⟩
  exact hread.infixOp rfl rfl hquestion (Int.le_refl _) (Int.lt_succ _) hread'

/-- A comma is written without a blank before it. -/
theorem SpellsInfix.comma (h : SpellsInfix 0 1 text node) (h' : SpellsInfix 1 1 text' node') :
    SpellsInfix 0 1 (text ++ (utf8 ", " ++ text')) (.apply .comma [node, node']) := by
  have hoperator := standsFor_comma.spells.append true h' fun _ _ => trivial
  refine (h.append false hoperator fun _ _ => closes_cons (by decide) _).imp (fun _ => id) ?_
  rintro _ tokens rest ⟨_, hread, _, ⟨_, rfl⟩, hread'⟩
  exact hread.infixOp trivial rfl (by decide) (Int.le_refl _) (Int.lt_succ _) hread'

/-- A conditional. -/
theorem SpellsInfix.conditional {text'' : Text} (h : SpellsInfix 1 2 text node)
    (h' : SpellsInfix 1 1 text' middle) (h'' : SpellsInfix 1 1 text'' node') :
    SpellsInfix 1 1 (text ++ (utf8 " ? " ++ (text' ++ (utf8 " : " ++ text''))))
      (.apply .conditional [node, middle, node']) := by
  have hcolon : IsOperatorName (utf8 ":") := ⟨by decide, by decide +kernel⟩
  have hquestion : IsOperatorName (utf8 "?") := ⟨by decide, by decide +kernel⟩
  have hsecond := (standsFor_operator hcolon).spells.append true h'' fun _ _ =>
    closes_cons (by decide) _
  have hfirst := h'.append true hsecond fun _ _ => closes_cons (by decide) _
  have hoperator := (standsFor_operator hquestion).spells.append true hfirst fun _ _ =>
    closes_cons (by decide) _
  refine (h.append true hoperator fun _ _ => closes_cons (by decide) _).imp (fun _ => id) ?_
  rintro _ tokens rest ⟨_, hread, _, ⟨_, rfl⟩, _, hreadMiddle, _, ⟨_, rfl⟩, hread'⟩
  intro hends hbelow least hleast final remaining htail
  have hright := hread'.readsInfix (Int.le_refl _) (Int.le_refl _) hends hbelow
  -- the colon binds nothing, so the middle ends before it
  have hmiddle := hreadMiddle.readsInfix (Int.le_refl _) (Int.le_refl _) rfl (by
    intro name hname
    obtain rfl := Option.some.inj hname
    decide)
  -- the condition ends before the question mark
  refine hread rfl ?_ least hleast final remaining
    (hmiddle.readsInfixTail_conditional rfl hleast rfl hright htail)
  intro name hname
  obtain rfl := Option.some.inj hname
  decide

/-! ### Lists -/

/-- The byte is a closing bracket, and this is its lexeme. -/
def IsClosing (b : UInt8) (closing : Lexeme) : Prop :=
  (b = 41 ∧ closing = .rightParen) ∨ (b = 93 ∧ closing = .rightBracket)

section Lists

variable {b : UInt8} {closing : Lexeme} {texts : List Text} {nodes : List Node}

/-- A closing bracket stands for its lexeme. -/
theorem IsClosing.standsFor (h : IsClosing b closing) : StandsFor (fun _ => True) [b] closing := by
  rcases h with ⟨rfl, rfl⟩ | ⟨rfl, rfl⟩
  · exact standsFor_rightParen
  · exact standsFor_rightBracket

/-- A closing bracket closes an expression. -/
theorem IsClosing.closes (h : IsClosing b closing) (s : Text) : Closes (b :: s) := by
  rcases h with ⟨rfl, rfl⟩ | ⟨rfl, rfl⟩
  · exact closes_cons (by decide) s
  · exact closes_cons (by decide) s

/-- The members of a list are separated by commas, so they are no commas themselves. -/
theorem spells_argumentsTail (hclosing : IsClosing b closing) {text : Text} {node : Node}
    (h : SpellsInfix 1 1 text node) (hrest : List.Forall₂ (SpellsInfix 1 1) texts nodes) :
    Spells (fun _ => True) (join (utf8 ", ") (text :: texts) ++ [b]) fun _ tokens rest =>
      ReadsArgumentsTail closing tokens (node :: nodes) rest := by
  have hcomma : closing ≠ .comma := by
    rcases hclosing with ⟨-, rfl⟩ | ⟨-, rfl⟩ <;> exact fun h => nomatch h
  -- along the members behind the first one, each of which becomes the first one in its turn
  induction hrest generalizing text node with
  | nil =>
    refine (h.append false hclosing.standsFor.spells fun _ _ => hclosing.closes _).imp
      (fun _ => id) ?_
    rintro _ tokens rest ⟨_, hread, _, rfl⟩
    have hmember := hread.readsInfix_bracket (Int.le_refl _) (Int.le_refl _)
      (hclosing.imp And.right And.right)
    exact hmember.readsArgumentsTail hcomma rfl
  | @cons text' node' texts nodes hfirst _ ih =>
    -- a comma, a blank, and the list of the other members
    have hothers := standsFor_comma.spells.append true (ih hfirst) fun _ _ => trivial
    have happend : join (utf8 ", ") (text :: text' :: texts) ++ [b] =
        text ++ (blank false ++ ([44] ++ (blank true ++
          (join (utf8 ", ") (text' :: texts) ++ [b])))) := by
      rw [join, List.append_assoc, List.append_assoc]
      rfl
    rw [happend]
    refine (h.append false hothers fun _ _ => closes_cons (by decide) _).imp (fun _ => id) ?_
    rintro _ tokens rest ⟨_, hread, _, ⟨_, rfl⟩, htail⟩
    have hmember := hread.readsInfix (Int.le_refl _) (Int.le_refl _) trivial (by
      intro name hname
      obtain rfl := Option.some.inj hname
      decide)
    exact hmember.readsArgumentsTail_cons rfl htail

/-- A list with its closing bracket. -/
theorem spells_arguments (hclosing : IsClosing b closing)
    (h : List.Forall₂ (SpellsInfix 1 1) texts nodes) :
    Spells (fun _ => True) (join (utf8 ", ") texts ++ [b]) fun _ tokens rest =>
      ReadsArguments closing tokens nodes rest := by
  cases h with
  | nil =>
    refine hclosing.standsFor.spells.imp (fun _ => id) ?_
    rintro _ tokens rest ⟨_, rfl⟩
    exact readsArguments_nil rfl
  | cons hfirst hothers =>
    refine (spells_argumentsTail hclosing hfirst hothers).imp (fun _ => id) ?_
    intro _ tokens rest htail
    refine htail.readsArguments ?_
    -- the list does not begin with its closing bracket
    rcases hclosing with ⟨-, rfl⟩ | ⟨-, rfl⟩ <;> simp

/-- A call. -/
theorem spellsOperand_function (hname : IsVerbatimName name)
    (h : List.Forall₂ (SpellsInfix 1 1) texts nodes) :
    SpellsOperand (name ++ utf8 "(" ++ join (utf8 ", ") texts ++ utf8 ")")
      (.apply (.function name (.exactly nodes.length)) nodes) := by
  have hlist := spells_arguments (.inl ⟨rfl, rfl⟩) h
  have hopening := standsFor_leftParen.spells.append false hlist fun _ _ => trivial
  have happend : name ++ utf8 "(" ++ join (utf8 ", ") texts ++ utf8 ")" =
      name ++ (blank false ++ ([40] ++ (blank false ++ (join (utf8 ", ") texts ++ [41])))) := by
    rw [List.append_assoc, List.append_assoc]
    rfl
  rw [happend]
  refine (hname.standsFor.spells.append false hopening fun _ _ => breaks_leftParen _).imp
    (fun _ _ => trivial) ?_
  rintro _ tokens rest ⟨_, ⟨_, rfl⟩, _, ⟨_, rfl⟩, harguments⟩ _ final remaining htail
  exact (harguments.readsPrimary_function rfl rfl).readsPostfix htail

/-- An array literal. -/
theorem spellsOperand_arrayLiteral (h : List.Forall₂ (SpellsInfix 1 1) texts nodes) :
    SpellsOperand (utf8 "[" ++ join (utf8 ", ") texts ++ utf8 "]")
      (.apply (.arrayLiteral nodes.length) nodes) := by
  have hlist := spells_arguments (.inr ⟨rfl, rfl⟩) h
  have happend : utf8 "[" ++ join (utf8 ", ") texts ++ utf8 "]" =
      [91] ++ (blank false ++ (join (utf8 ", ") texts ++ [93])) := by
    rw [List.append_assoc]
    rfl
  rw [happend]
  refine (standsFor_leftBracket.spells.append false hlist fun _ _ => trivial).imp
    (fun _ _ => trivial) ?_
  rintro _ tokens rest ⟨_, ⟨_, rfl⟩, harguments⟩ _ final remaining htail
  exact (harguments.readsPrimary_arrayLiteral rfl).readsPostfix htail

end Lists

/-! ### A whole line -/

/-- What spells an expression is read as this expression. -/
theorem SpellsInfix.parse (h : SpellsInfix 0 0 text node) : parse text = .ok node := by
  -- behind the text there is only the finish
  have hfinish : tokensFrom (0 + (blank false).length + text.length) [] =
      .ok [⟨.finish, text.length, false⟩] := by
    rw [tokensFrom]
    simp [blank]
  obtain ⟨tokens, htokens, hread⟩ := h false 0 [] _ trivial hfinish
  have hline : tokenize text = .ok tokens := by
    rw [tokenize, ← htokens, List.append_nil]
    rfl
  have hnode := hread.readsInfix (Int.le_refl _) (Int.le_refl _) trivial (by rintro _ ⟨⟩)
  rw [DynExpr.parse, hline]
  exact hnode.parseTokens rfl

/-- A sum of two operands is read as their sum. -/
theorem SpellsOperand.parse_sum (h : SpellsOperand text node) (h' : SpellsOperand text' node') :
    DynExpr.parse (text ++ (utf8 " " ++ (utf8 "+" ++ (utf8 " " ++ text')))) =
      .ok (.apply (.infixOp (utf8 "+")) [node, node']) := by
  have hplus : IsOperatorName (utf8 "+") := ⟨by decide, by decide +kernel⟩
  have hsum := h.spellsUnary.spellsInfix.infixOp hplus (by decide) h'.spellsUnary.spellsInfix
  exact (hsum.mono (by decide) (by decide)).parse

end Parser

end DynExpr
