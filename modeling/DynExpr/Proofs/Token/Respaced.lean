import DynExpr.Proofs.Node.Spells
import DynExpr.Proofs.Token.Numerals
import DynExpr.Proofs.Token.Tiling

/-!
# Tokens set apart by single blanks

Where a lexeme ends was decided by what came next in its line: an operator leaves a point to a
number and a last sign to an operand, and a name or a number takes a point only if it goes on behind
it. Once the lexemes are set apart by single blanks (`respaced`), nothing is left to decide. Each of
them stands for itself there (`standsFor_scanLexeme`), because what was cut off as a number, a name
or an operator is cut off as the same one again, as long as it stands in front of a blank or at the
end of the line.

So a line is cut at the same places whatever its spacing is (`tokenize_respaced`). String literals
are the exception, since their text is what they mean and not how they are written.
-/

namespace DynExpr

open Text

variable {b : UInt8} {rest : Text} {lexeme : Lexeme} {covered : Nat}

/-! ### Lexemes in front of a blank -/

/-- A digit, or a point before one, begins a number. -/
theorem scanLexeme_of_number (h : (isDigit b || (b == 46 && startsWithDigit rest)) = true) :
    scanLexeme b rest = .ok (scanNumber (b :: rest), (scanNumber (b :: rest)).text.length) := by
  rcases Bool.or_eq_true_iff.mp h with hb | hpoint
  · exact scanLexeme_of_isDigit hb
  · obtain ⟨hb, hdigit⟩ := Bool.and_eq_true_iff.mp hpoint
    obtain rfl := eq_of_beq hb
    -- a point is neither a bracket nor a quote, and the digit behind it decides
    unfold scanLexeme
    rw [hdigit]
    rfl

/-- What was cut off as a number stands for itself. -/
theorem standsFor_scanNumber (h : (isDigit b || (b == 46 && startsWithDigit rest)) = true) :
    StandsFor Breaks (scanNumber (b :: rest)).text (scanNumber (b :: rest)) := by
  have hidem := scanNumber_text (b :: rest)
  have hprefix := prefix_scanNumber (b :: rest)
  have hne := scanNumber_text_ne_nil h
  generalize scanNumber (b :: rest) = number at hidem hprefix hne
  -- the number begins where the text begins
  obtain ⟨c, others, htext⟩ := List.exists_cons_of_ne_nil hne
  rw [htext] at hidem hprefix ⊢
  obtain ⟨rfl, hothers⟩ := List.cons_prefix_cons.mp hprefix
  refine ⟨c, others, rfl, ?_, ?_⟩
  · rcases Bool.or_eq_true_iff.mp h with hc | hpoint
    · exact (isDigit_only hc).1
    · rw [eq_of_beq (Bool.and_eq_true_iff.mp hpoint).1]
      rfl
  · intro s hs
    have hbegins : (isDigit c || (c == 46 && startsWithDigit (others ++ s))) = true := by
      cases others with
      | nil =>
        -- a point alone is no number, so this is a digit
        rcases Bool.or_eq_true_iff.mp h with hc | hpoint
        · rw [hc, Bool.true_or]
        · rw [eq_of_beq (Bool.and_eq_true_iff.mp hpoint).1] at hidem htext
          rw [← hidem] at htext
          cases htext
      | cons d others =>
        -- the next byte is the one that came next before
        obtain ⟨more, rfl⟩ := hothers
        exact h
    -- it is scanned as it was, and what comes next does not continue it
    rw [scanLexeme_of_number hbegins, ← List.cons_append,
      scanNumber_append hs (List.cons_ne_nil c others), hidem, htext]

/-- **A lexeme stands for itself in front of a blank**, unless it is a string literal. -/
theorem standsFor_scanLexeme (h : scanLexeme b rest = .ok (lexeme, covered))
    (hliteral : ¬ lexeme.IsLiteral) : StandsFor Closes lexeme.text lexeme := by
  cases scans_of_scanLexeme h with
  -- parentheses, brackets and the comma stand for themselves anywhere
  | leftParen => exact Parser.standsFor_leftParen.mono fun _ _ => trivial
  | rightParen => exact Parser.standsFor_rightParen.mono fun _ _ => trivial
  | leftBracket => exact Parser.standsFor_leftBracket.mono fun _ _ => trivial
  | rightBracket => exact Parser.standsFor_rightBracket.mono fun _ _ => trivial
  | comma => exact Parser.standsFor_comma.mono fun _ _ => trivial
  | literal hquote => exact absurd ⟨_, rfl, b, _, hquote, rfl⟩ hliteral
  | number hnumber => exact (standsFor_scanNumber hnumber).mono fun _ => Closes.breaks
  | name hname =>
    exact (standsFor_plainName (isPlainName_nameLeading hname)).mono fun _ => Closes.breaks
  | operator hoperator => exact standsFor_operator (isOperatorName_scanOperator hoperator)

/-- All lexemes of a line but the finish stand for themselves in front of a blank, unless they are
string literals. -/
theorem tokensFrom_standsFor {position : Nat} {s : Text} {tokens : List Token}
    (h : tokensFrom position s = .ok tokens) :
    ∀ token ∈ tokens, token.lexeme = .finish ∨ token.lexeme.IsLiteral ∨
      StandsFor Closes token.lexeme.text token.lexeme := by
  refine tokensFrom_forall (P := fun lexeme => lexeme = .finish ∨ lexeme.IsLiteral ∨
    StandsFor Closes lexeme.text lexeme) (.inl rfl) ?_ h
  intro b rest lexeme covered hscan
  by_cases hliteral : lexeme.IsLiteral
  · exact .inr (.inl hliteral)
  · exact .inr (.inr (standsFor_scanLexeme hscan hliteral))

/-! ### Lines of lexemes -/

/-- The texts of lexemes with single blanks between them. -/
def spaced (lexemes : List Lexeme) : Text := join (utf8 " ") (lexemes.map Lexeme.text)

/-- The line of the given tokens with single blanks between them, and without the finish. -/
def respaced (tokens : List Token) : Text := spaced (tokens.dropLast.map Token.lexeme)

/-- Behind a lexeme the line is at its end, or goes on with a blank. -/
theorem spaced_cons (lexeme : Lexeme) (lexemes : List Lexeme) :
    ∃ gap, spaced (lexeme :: lexemes) = lexeme.text ++ (blank gap ++ spaced lexemes) ∧
      Closes (blank gap ++ spaced lexemes) := by
  cases lexemes with
  | nil => exact ⟨false, (List.append_nil _).symm, trivial⟩
  | cons next lexemes =>
    have hblank : utf8 " " = blank true := by decide
    refine ⟨true, ?_, closes_cons (by decide) _⟩
    show lexeme.text ++ utf8 " " ++ spaced (next :: lexemes) = _
    rw [hblank, List.append_assoc]

/-- **Lexemes that stand for themselves are read from their line.** -/
theorem tokensFrom_spaced {lexemes : List Lexeme}
    (h : ∀ lexeme ∈ lexemes, StandsFor Closes lexeme.text lexeme) (gap : Bool) (position : Nat) :
    ∃ tokens, tokensFrom position (blank gap ++ spaced lexemes) = .ok tokens ∧
      tokens.map Token.lexeme = lexemes ++ [.finish] := by
  induction lexemes generalizing gap position with
  | nil =>
    have hfinish : tokensFrom position (blank gap) =
        .ok [⟨.finish, position + (blank gap).length, !(blank gap).isEmpty⟩] := by
      -- without lexemes the line is empty, or the one blank that was left in front of them
      cases gap with
      | false => rw [blank, tokensFrom]; rfl
      | true => rw [blank, tokensFrom]; rfl
    exact ⟨_, by rw [spaced, List.map_nil, join, List.append_nil]; exact hfinish, rfl⟩
  | cons lexeme lexemes ih =>
    obtain ⟨hfirst, hothers⟩ := List.forall_mem_cons.mp h
    obtain ⟨gap', hline, hcloses⟩ := spaced_cons lexeme lexemes
    obtain ⟨others, htokens, hlexemes⟩ :=
      ih hothers gap' (position + (blank gap).length + lexeme.text.length)
    obtain ⟨tokens, hread, position', rfl⟩ := hfirst.spells gap position _ others hcloses htokens
    refine ⟨_, by rw [hline]; exact hread, ?_⟩
    rw [List.map_cons, hlexemes, List.cons_append]

/-- **Lines are cut alike whatever their spacing is.** If the lexemes of a line are written with
single blanks between them, the new line has the same lexemes, with the same texts and values. -/
theorem tokenize_respaced {line : Text} {tokens : List Token} (h : tokenize line = .ok tokens)
    (hliteral : ∀ token ∈ tokens, ¬ token.lexeme.IsLiteral) :
    ∃ tokens', tokenize (respaced tokens) = .ok tokens' ∧
      tokens'.map Token.lexeme = tokens.map Token.lexeme := by
  obtain ⟨used, finish, rfl, hfinish, hused⟩ := tokensFrom_finish h
  -- none of the tokens in front of the finish is a finish or a literal
  have hstands : ∀ lexeme ∈ used.map Token.lexeme, StandsFor Closes lexeme.text lexeme := by
    intro lexeme hlexeme
    obtain ⟨token, htoken, rfl⟩ := List.mem_map.mp hlexeme
    have hmem : token ∈ used ++ [finish] := List.mem_append_left _ htoken
    rcases tokensFrom_standsFor h token hmem with hfinish | hquoted | hstands
    · exact absurd hfinish (hused token htoken)
    · exact absurd hquoted (hliteral token hmem)
    · exact hstands
  obtain ⟨tokens', htokens, hlexemes⟩ := tokensFrom_spaced hstands false 0
  refine ⟨tokens', ?_, ?_⟩
  · rw [respaced, List.dropLast_concat]
    exact htokens
  · rw [hlexemes, List.map_append, List.map_singleton, hfinish]

/-! ### A line without blanks -/

/-- The text of a string literal begins with a quote. -/
theorem Lexeme.IsLiteral.head?_text (h : lexeme.IsLiteral) :
    lexeme.text.head? = some 39 ∨ lexeme.text.head? = some 34 := by
  obtain ⟨name, rfl, quote, contents, hquote, rfl⟩ := h
  exact hquote.imp (congrArg some) (congrArg some)

/-- Operators that leave a sign to an operand and stand before a point that belongs to a number, and
names and numbers with points. -/
def tightLine : Text := utf8 "a<-.5...-0x1f==b.c!"

/-- The tokens of this line. -/
def tightTokens : List Token :=
  [⟨.identifier (utf8 "a"), 0, false⟩, ⟨.operator (utf8 "<"), 1, false⟩,
    ⟨.operator (utf8 "-"), 2, false⟩, ⟨.number (utf8 ".5") ⟨0x3FE0000000000000⟩, 3, false⟩,
    ⟨.operator (utf8 "..."), 5, false⟩, ⟨.operator (utf8 "-"), 8, false⟩,
    ⟨.number (utf8 "0x1f") ⟨0x403F000000000000⟩, 9, false⟩, ⟨.operator (utf8 "=="), 13, false⟩,
    ⟨.identifier (utf8 "b.c"), 15, false⟩, ⟨.operator (utf8 "!"), 18, false⟩,
    ⟨.finish, 19, false⟩]

/-- The line with blanks has the same lexemes. -/
theorem tokenize_respaced_tightLine :
    tokenize tightLine = .ok tightTokens ∧
      respaced tightTokens = utf8 "a < - .5 ... - 0x1f == b.c !" ∧
      ∃ tokens', tokenize (respaced tightTokens) = .ok tokens' ∧
        tokens'.map Token.lexeme = tightTokens.map Token.lexeme := by
  have htokens : tokenize tightLine = .ok tightTokens := by decide +kernel
  -- no lexeme begins with a quote
  have hheads : ∀ token ∈ tightTokens,
      token.lexeme.text.head? ≠ some 39 ∧ token.lexeme.text.head? ≠ some 34 := by decide +kernel
  refine ⟨htokens, by decide +kernel, tokenize_respaced htokens ?_⟩
  intro token htoken hliteral
  obtain ⟨happostrophe, hquote⟩ := hheads token htoken
  rcases hliteral.head?_text with h | h
  · exact happostrophe h
  · exact hquote h

end DynExpr
