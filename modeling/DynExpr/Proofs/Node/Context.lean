import DynExpr.Proofs.Node.Outcomes
import DynExpr.Proofs.Token.Joined

/-!
# Reading does not look around

What an expression is read as does not depend on what stands around it.

* `Parser.Stops`: every expression ends before these tokens, since a bracket closes there or nothing
  is left.
* `Parser.Alike`: two outcomes of reading aligned lists. They agree, be it in a result or in a
  fault, unless the first reading has come as far as `rest`, and there is something to find there.

Each reader answers alike on aligned lists, as long as no expression can go on behind them.
-/

namespace DynExpr

namespace Parser

/-! ### Tokens to the end of an expression -/

/-- An expression ends before these tokens, and so does everything inside it. -/
def Stops (tokens : List Token) : Prop :=
  next tokens ∈ [Lexeme.finish, .rightParen, .rightBracket]

variable {rest rest' tokens tokens' : List Token}

/-- No infix operator follows where expressions end. -/
theorem Stops.infixName?_eq_none (h : Stops rest) : infixName? (next rest) = none := by
  unfold Stops at h
  simp only [List.mem_cons, List.not_mem_nil, or_false] at h
  rcases h with h | h | h <;> rw [h] <;> rfl

/-- What can end an expression ends its operand. -/
theorem Stops.ends (h : Stops rest) : Ends rest := by
  cases rest with
  | nil => trivial
  | cons token rest =>
    have hlexeme : token.lexeme ∈ [Lexeme.finish, .rightParen, .rightBracket] := h
    simp only [List.mem_cons, List.not_mem_nil, or_false] at hlexeme
    rcases hlexeme with h | h | h <;> simp only [Ends, h]

/-- An operator that is set close to its operand is a postfix operator where an expression ends. -/
theorem Stops.isPostfixPosition (h : Stops rest) (name : Text) (position : Nat) :
    isPostfixPosition (⟨.operator name, position, false⟩ :: rest) = true := by
  cases rest with
  | nil => rfl
  | cons token rest =>
    obtain ⟨lexeme, position, spaced⟩ := token
    have hlexeme : lexeme ∈ [Lexeme.finish, .rightParen, .rightBracket] := h
    simp only [List.mem_cons, List.not_mem_nil, or_false] at hlexeme
    -- each of these tokens makes the operator a postfix one
    rcases hlexeme with rfl | rfl | rfl <;> rfl

end Parser

namespace Aligned

open DynExpr.Parser

variable {rest rest' tokens tokens' : List Token}

/-- What may stand inside an expression stands in both lists or in none. -/
theorem next_iff (hrest : Stops rest) (hrest' : Stops rest')
    (h : Aligned rest rest' tokens tokens') {lexeme : Lexeme}
    (hlexeme : lexeme ∉ [Lexeme.finish, .rightParen, .rightBracket]) :
    next tokens = lexeme ↔ next tokens' = lexeme := by
  cases h with
  -- the lists end here, where no such lexeme stands
  | stop =>
    refine ⟨fun h => absurd ?_ hlexeme, fun h => absurd ?_ hlexeme⟩
    · exact h ▸ hrest
    · exact h ▸ hrest'
  | cons hsame _ _ => rw [next, next, hsame]

/-- Lists that go on alike begin alike. -/
theorem next_eq (hrest : next rest = next rest') (h : Aligned rest rest' tokens tokens') :
    next tokens = next tokens' := by
  cases h with
  | stop => exact hrest
  | cons hsame _ _ => exact hsame

/-- Whether an operator stands after its operand does not depend on what is behind the end. -/
theorem postfixName?_eq (hrest : Stops rest) (hrest' : Stops rest')
    {token token' : Token} (hlexeme : token.lexeme = token'.lexeme)
    (hspaced : token.spaceBefore = token'.spaceBefore) (h : Aligned rest rest' tokens tokens') :
    postfixName? (token :: tokens) = postfixName? (token' :: tokens') := by
  obtain ⟨lexeme, position, spaced⟩ := token
  obtain ⟨_, position', _⟩ := token'
  obtain rfl := hlexeme
  obtain rfl := hspaced
  have hposition : isPostfixPosition (⟨lexeme, position, spaced⟩ :: tokens) =
      isPostfixPosition (⟨lexeme, position', spaced⟩ :: tokens') := by
    cases lexeme with
    | operator name =>
      cases spaced with
      | true => rfl
      | false =>
        cases h with
        -- behind the operator the expression ends, in both lists
        | stop => rw [hrest.isPostfixPosition, hrest'.isPostfixPosition]
        | @cons next next' _ _ hlexeme hspaced _ =>
          obtain ⟨_, _, _⟩ := next
          obtain ⟨_, _, _⟩ := next'
          obtain rfl := hlexeme
          obtain rfl := hspaced
          rfl
    | _ => rfl
  unfold postfixName?
  rw [hposition]
  rfl

end Aligned

namespace Parser

/-! ### Outcomes that agree -/

/-- The outcomes agree in a result and leave the rest of the aligned lists, or agree in a fault. If
one of the lists goes on behind `rest` or `rest'`, nothing is said about readings that come to this
place and find something there. -/
inductive Alike {α : Type} (rest rest' : List Token) : Outcome α → Outcome α → Prop
  | ok (value : α) {left left' : List Token} (h : Aligned rest rest' left left') :
      Alike rest rest' (.ok (value, left)) (.ok (value, left'))
  | failed (fault : SyntaxFault) : Alike rest rest' (.error fault) (.error fault)
  | further {read : Outcome α} (hread : ∀ value left, read = .ok (value, left) →
      left.length < rest.length) (h : ¬ (next rest = .finish ∧ next rest' = .finish))
      (read' : Outcome α) : Alike rest rest' read read'

variable {rest rest' tokens tokens' : List Token} {α β : Type} {read read' : Outcome α}
  {f f' : α → List Token → Outcome β}

/-- The outcome leaves no more tokens than there were. -/
def Outcome.Within (count : Nat) (read : Outcome α) : Prop :=
  ∀ value left, read = .ok (value, left) → left.length ≤ count

/-- What is read at once leaves the tokens that there are. -/
theorem within_ok (value : α) (tokens : List Token) :
    Outcome.Within tokens.length (.ok (value, tokens)) := by
  rintro _ _ ⟨⟩
  exact Nat.le_refl _

/-- Readings one after the other leave fewer and fewer tokens. -/
theorem Outcome.Within.andThen {count : Nat} (h : read.Within count)
    (hf : ∀ value left, (f value left).Within left.length) :
    (read.andThen f).Within count := by
  intro value left hleft
  match read, h with
  | .error fault, _ => cases hleft
  | .ok (first, between), h =>
    exact Nat.le_trans (hf first between value left hleft) (h first between rfl)

/-- A reader that consumes tokens leaves fewer. -/
theorem within_consumed (reader : Consumed α tokens) : (outcome reader).Within tokens.length :=
  fun _ _ h => Nat.le_of_lt (length_lt_of_outcome h)

/-- A reader that goes on leaves no more. -/
theorem within_continued (reader : Continued α tokens) : (outcome reader).Within tokens.length := by
  intro value left h
  match reader with
  | .error fault => cases h
  | .ok (_, ⟨_, hshorter⟩) =>
    cases h
    exact hshorter

/-- Nor does an expected token. -/
theorem within_expect (lexeme : Lexeme) (tokens : List Token) :
    (expect lexeme tokens).Within tokens.length :=
  fun _ _ h => Nat.le_of_lt (length_lt_of_expect h)

/-- **Readings one after the other agree** if the first ones do and the second ones do. -/
theorem Alike.andThen (h : Alike rest rest' read read')
    (hf : ∀ value left left', read = .ok (value, left) → Aligned rest rest' left left' →
      Alike rest rest' (f value left) (f' value left'))
    (hwithin : ∀ value left, (f value left).Within left.length) :
    Alike rest rest' (read.andThen f) (read'.andThen f') := by
  cases h with
  | ok value h => exact hf value _ _ rfl h
  | failed fault => exact .failed fault
  | further hread h =>
    -- the first reading came behind the end already, and the second one does not go back
    refine .further (fun value left hleft => ?_) h _
    match read, hread with
    | .error fault, _ => cases hleft
    | .ok (first, between), hread =>
      exact Nat.lt_of_le_of_lt (hwithin first between value left hleft) (hread first between rfl)

/-- Where every expression ends, nothing can be read. -/
theorem Alike.of_stop (hread : ∀ value left, read = .ok (value, left) → left.length < rest.length)
    (hfault : next rest = .finish → read = .error (unexpected rest))
    (hfault' : next rest' = .finish → read' = .error (unexpected rest')) :
    Alike rest rest' read read' := by
  by_cases hfinish : next rest = .finish ∧ next rest' = .finish
  · have hsame : unexpected rest = unexpected rest' := by
      unfold unexpected
      rw [hfinish.1, hfinish.2]
    rw [hfault hfinish.1, hfault' hfinish.2, hsame]
    exact .failed _
  · exact .further hread hfinish _

/-- An expected token is found in both lists or in none. -/
theorem Alike.expect (h : Aligned rest rest' tokens tokens') {lexeme : Lexeme}
    (hlexeme : lexeme ≠ .finish) :
    Alike rest rest' (expect lexeme tokens) (expect lexeme tokens') := by
  -- at the finish there is no other lexeme
  have hfault : ∀ tokens, next tokens = .finish →
      Parser.expect lexeme tokens = .error (unexpected tokens) := by
    intro tokens hfinish
    cases tokens with
    | nil => rfl
    | cons token tokens =>
      have hother : token.lexeme ≠ lexeme := fun h => hlexeme (h ▸ hfinish)
      exact if_neg hother
  cases h with
  | stop => exact .of_stop (fun _ _ h => length_lt_of_expect h) (hfault rest) (hfault rest')
  | @cons token token' tokens tokens' hsame hspaced h =>
    have hunexpected : unexpected (token :: tokens) = unexpected (token' :: tokens') := by
      rw [unexpected, unexpected, next, next, hsame]
    unfold Parser.expect
    dsimp only
    rw [← hsame, ← hunexpected]
    split
    · exact .ok () h
    · exact .failed _

/-- Nor does what follows a member of a list. -/
theorem within_afterMember (closing : Lexeme) (first : Node) (tokens : List Token) :
    (afterMember closing first tokens).Within tokens.length := by
  unfold afterMember
  split
  · exact (within_expect _ _).andThen fun _ _ =>
      (within_consumed _).andThen fun _ _ => within_ok _ _
  · exact (within_expect _ _).andThen fun _ _ => within_ok _ _

/-! ### The readers -/

-- The induction follows the readers, by the number of tokens and then by the reader. Where the
-- cases take a list apart, its length has a name, so that it is still known below.
mutual

/-- An expression, down to a least precedence. -/
theorem infixExpression_alike (hrest : Stops rest) (hrest' : Stops rest') {least : Int}
    {tokens tokens' : List Token} (h : Aligned rest rest' tokens tokens') :
    Alike rest rest' (outcome (infixExpression least tokens))
      (outcome (infixExpression least tokens')) := by
  rw [outcome_infixExpression, outcome_infixExpression]
  refine (unaryExpression_alike hrest hrest' h).andThen (fun left between between' hread h => ?_)
    fun _ _ => within_continued _
  have hshorter := length_lt_of_outcome hread
  exact infixTail_alike hrest hrest' h
termination_by 6 * tokens.length + 3

/-- Infix operators after a left operand. -/
theorem infixTail_alike (hrest : Stops rest) (hrest' : Stops rest') {least : Int} {left : Node}
    {tokens tokens' : List Token} (h : Aligned rest rest' tokens tokens') :
    Alike rest rest' (outcome (infixTail least left tokens))
      (outcome (infixTail least left tokens')) := by
  obtain ⟨count, hcount⟩ : ∃ count, tokens.length = count := ⟨_, rfl⟩
  cases h with
  | stop =>
    rw [outcome_infixTail_stop hrest.infixName?_eq_none,
      outcome_infixTail_stop hrest'.infixName?_eq_none]
    exact .ok left .stop
  | @cons token token' others others' hlexeme hspaced h =>
    cases hname : infixName? token.lexeme with
    | none =>
      have hstop : infixName? (next (token :: others)) = none := hname
      have hstop' : infixName? (next (token' :: others')) = none := by
        rw [next, ← hlexeme]
        exact hname
      rw [outcome_infixTail_stop hstop, outcome_infixTail_stop hstop']
      -- what follows is no operator, or one that binds too loosely
      exact .ok left (.cons hlexeme hspaced h)
    | some name =>
      have hname' : infixName? token'.lexeme = some name := hlexeme ▸ hname
      rw [outcome_infixTail hname, outcome_infixTail hname']
      split
      · exact .ok left (.cons hlexeme hspaced h)
      split
      · -- a question mark: two more expressions follow, with a colon between them
        refine (infixExpression_alike hrest hrest' h).andThen
          (fun middle afterMiddle afterMiddle' hmiddle h => ?_) fun _ _ => ?_
        · have hshorter := length_lt_of_outcome hmiddle
          refine (Alike.expect h (by decide)).andThen
            (fun _ afterColon afterColon' hcolon h => ?_) fun _ _ => ?_
          · have hshorter' := length_lt_of_expect hcolon
            refine (infixExpression_alike hrest hrest' h).andThen
              (fun right afterRight afterRight' hright h => ?_) fun _ _ => within_continued _
            have hshorter'' := length_lt_of_outcome hright
            exact infixTail_alike hrest hrest' h
          · exact (within_consumed _).andThen fun _ _ => within_continued _
        · exact (within_expect _ _).andThen fun _ _ =>
            (within_consumed _).andThen fun _ _ => within_continued _
      · -- any other infix operator: its right operand follows
        refine (infixExpression_alike hrest hrest' h).andThen
          (fun right afterRight afterRight' hright h => ?_) fun _ _ => within_continued _
        have hshorter := length_lt_of_outcome hright
        exact infixTail_alike hrest hrest' h
termination_by 6 * tokens.length + 0
decreasing_by all_goals (simp only [List.length_cons] at *; omega)

/-- An operand with its prefix operators. -/
theorem unaryExpression_alike (hrest : Stops rest) (hrest' : Stops rest')
    {tokens tokens' : List Token} (h : Aligned rest rest' tokens tokens') :
    Alike rest rest' (outcome (unaryExpression tokens)) (outcome (unaryExpression tokens')) := by
  obtain ⟨count, hcount⟩ : ∃ count, tokens.length = count := ⟨_, rfl⟩
  by_cases hoperator : ∃ name, next tokens = .operator name
  · obtain ⟨name, hname⟩ := hoperator
    have hname' := (h.next_iff hrest hrest' (by simp)).mp hname
    cases h with
    | stop =>
      -- no expression ends in front of a prefix operator
      rw [Stops, hname] at hrest
      simp at hrest
    | @cons token token' others others' hlexeme hspaced h =>
      rw [outcome_unaryExpression_operator hname, outcome_unaryExpression_operator hname']
      exact (unaryExpression_alike hrest hrest' h).andThen (fun _ _ _ _ h => .ok _ h)
        fun _ _ => within_ok _ _
  · have hoperator' : ∀ name, next tokens' ≠ .operator name := fun name hname' =>
      hoperator ⟨name, (h.next_iff hrest hrest' (by simp)).mpr hname'⟩
    rw [outcome_unaryExpression fun name hname => hoperator ⟨name, hname⟩,
      outcome_unaryExpression hoperator']
    exact postfixExpression_alike hrest hrest' h
termination_by 6 * tokens.length + 2
decreasing_by all_goals (simp only [List.length_cons] at *; omega)

/-- An operand with its postfix operators and subscripts. -/
theorem postfixExpression_alike (hrest : Stops rest) (hrest' : Stops rest')
    {tokens tokens' : List Token} (h : Aligned rest rest' tokens tokens') :
    Alike rest rest' (outcome (postfixExpression tokens))
      (outcome (postfixExpression tokens')) := by
  rw [outcome_postfixExpression, outcome_postfixExpression]
  refine (primaryExpression_alike hrest hrest' h).andThen
    (fun operand between between' hread h => ?_) fun _ _ => within_continued _
  have hshorter := length_lt_of_outcome hread
  exact postfixTail_alike hrest hrest' h
termination_by 6 * tokens.length + 1

/-- Postfix operators and subscripts after an operand. -/
theorem postfixTail_alike (hrest : Stops rest) (hrest' : Stops rest') {operand : Node}
    {tokens tokens' : List Token} (h : Aligned rest rest' tokens tokens') :
    Alike rest rest' (outcome (postfixTail operand tokens))
      (outcome (postfixTail operand tokens')) := by
  obtain ⟨count, hcount⟩ : ∃ count, tokens.length = count := ⟨_, rfl⟩
  cases h with
  | stop =>
    -- nothing follows the operand in either list
    have hstop : ReadsPostfixTail operand rest operand rest := readsPostfixTail_stop hrest.ends
    have hstop' : ReadsPostfixTail operand rest' operand rest' := readsPostfixTail_stop hrest'.ends
    obtain ⟨_, hread⟩ := hstop
    obtain ⟨_, hread'⟩ := hstop'
    rw [hread, hread']
    exact .ok operand .stop
  | @cons token token' others others' hlexeme hspaced h =>
    by_cases hbracket : token.lexeme = .leftBracket
    · -- an index in brackets
      rw [outcome_postfixTail_bracket hbracket,
        outcome_postfixTail_bracket (hlexeme ▸ hbracket)]
      refine (infixExpression_alike hrest hrest' h).andThen
        (fun index afterIndex afterIndex' hindex h => ?_) fun _ _ => ?_
      · have hshorter := length_lt_of_outcome hindex
        refine (Alike.expect h (by decide)).andThen
          (fun _ afterBracket afterBracket' hclosing h => ?_) fun _ _ => within_continued _
        have hshorter' := length_lt_of_expect hclosing
        exact postfixTail_alike hrest hrest' h
      · exact (within_expect _ _).andThen fun _ _ => within_continued _
    · rw [outcome_postfixTail hbracket, outcome_postfixTail (hlexeme ▸ hbracket),
        ← h.postfixName?_eq hrest hrest' hlexeme hspaced]
      cases postfixName? (token :: others) with
      | none => exact .ok operand (.cons hlexeme hspaced h)
      | some name => exact postfixTail_alike hrest hrest' h
termination_by 6 * tokens.length + 0
decreasing_by all_goals (simp only [List.length_cons] at *; omega)

/-- A number, a name, a call, an array literal, or an expression in parentheses. -/
theorem primaryExpression_alike (hrest : Stops rest) (hrest' : Stops rest')
    {tokens tokens' : List Token} (h : Aligned rest rest' tokens tokens') :
    Alike rest rest' (outcome (primaryExpression tokens))
      (outcome (primaryExpression tokens')) := by
  obtain ⟨count, hcount⟩ : ∃ count, tokens.length = count := ⟨_, rfl⟩
  cases h with
  | stop =>
    exact .of_stop (fun _ _ h => length_lt_of_outcome h)
      (fun h => outcome_primaryExpression_fault (h ▸ rfl))
      (fun h => outcome_primaryExpression_fault (h ▸ rfl))
  | @cons token token' others others' hlexeme hspaced h =>
    cases hkind : token.lexeme with
    | number text value =>
      rw [outcome_primaryExpression_number hkind,
        outcome_primaryExpression_number (hlexeme ▸ hkind)]
      exact .ok _ h
    | identifier name =>
      by_cases hopening : next others = .leftParen
      · -- a call
        have hopening' := (h.next_iff hrest hrest' (by decide)).mp hopening
        cases h with
        | stop =>
          rw [Stops, hopening] at hrest
          simp at hrest
        | cons _ _ h =>
          rw [outcome_primaryExpression_call hkind hopening,
            outcome_primaryExpression_call (hlexeme ▸ hkind) hopening']
          exact (arguments_alike hrest hrest' (by decide) h).andThen (fun _ _ _ _ h => .ok _ h)
            fun _ _ => within_ok _ _
      · have hopening' := fun h' => hopening ((h.next_iff hrest hrest' (by decide)).mpr h')
        rw [outcome_primaryExpression_var hkind hopening,
          outcome_primaryExpression_var (hlexeme ▸ hkind) hopening']
        exact .ok _ h
    | leftParen =>
      rw [outcome_primaryExpression_paren hkind,
        outcome_primaryExpression_paren (hlexeme ▸ hkind)]
      refine (infixExpression_alike hrest hrest' h).andThen (fun inner _ _ _ h => ?_)
        fun _ _ => (within_expect _ _).andThen fun _ _ => within_ok _ _
      exact (Alike.expect h (by decide)).andThen (fun _ _ _ _ h => .ok _ h)
        fun _ _ => within_ok _ _
    | leftBracket =>
      rw [outcome_primaryExpression_bracket hkind,
        outcome_primaryExpression_bracket (hlexeme ▸ hkind)]
      exact (arguments_alike hrest hrest' (by decide) h).andThen (fun _ _ _ _ h => .ok _ h)
        fun _ _ => within_ok _ _
    | _ =>
      have hsame : unexpected (token :: others) = unexpected (token' :: others') := by
        rw [unexpected, unexpected, next, next, hlexeme]
      have hfault : beginsPrimary (next (token :: others)) = false := by rw [next, hkind]; rfl
      have hfault' : beginsPrimary (next (token' :: others')) = false := by
        rw [next, ← hlexeme]
        exact hfault
      rw [outcome_primaryExpression_fault hfault, outcome_primaryExpression_fault hfault', hsame]
      exact .failed _
termination_by 6 * tokens.length + 0
decreasing_by all_goals (simp only [List.length_cons] at *; omega)

/-- A list up to its closing bracket. -/
theorem arguments_alike (hrest : Stops rest) (hrest' : Stops rest') {closing : Lexeme}
    (hclosing : closing ≠ .finish) {tokens tokens' : List Token}
    (h : Aligned rest rest' tokens tokens') :
    Alike rest rest' (outcome (arguments closing tokens))
      (outcome (arguments closing tokens')) := by
  cases h with
  | stop =>
    exact .of_stop (fun _ _ h => length_lt_of_outcome h)
      (fun h => outcome_arguments_fault h hclosing) (fun h => outcome_arguments_fault h hclosing)
  | @cons token token' others others' hlexeme hspaced h =>
    rw [outcome_arguments, outcome_arguments, ← hlexeme]
    split
    · exact .ok _ h
    · exact argumentsTail_alike hrest hrest' hclosing (.cons hlexeme hspaced h)
termination_by 6 * tokens.length + 5
decreasing_by all_goals (simp only [List.length_cons] at *; omega)

/-- The members of a list that is not empty. -/
theorem argumentsTail_alike (hrest : Stops rest) (hrest' : Stops rest') {closing : Lexeme}
    (hclosing : closing ≠ .finish) {tokens tokens' : List Token}
    (h : Aligned rest rest' tokens tokens') :
    Alike rest rest' (outcome (argumentsTail closing tokens))
      (outcome (argumentsTail closing tokens')) := by
  rw [outcome_argumentsTail, outcome_argumentsTail]
  refine (infixExpression_alike hrest hrest' h).andThen
    (fun first afterFirst afterFirst' hfirst h => ?_) fun _ _ => within_afterMember _ _ _
  have hshorter := length_lt_of_outcome hfirst
  have hcomma : next afterFirst = .comma ↔ next afterFirst' = .comma :=
    h.next_iff hrest hrest' (by decide)
  unfold afterMember
  by_cases hnext : next afterFirst = .comma
  · rw [if_pos hnext, if_pos (hcomma.mp hnext)]
    refine (Alike.expect h (by decide)).andThen
      (fun _ afterComma afterComma' hread h => ?_) fun _ _ =>
        (within_consumed _).andThen fun _ _ => within_ok _ _
    have hshorter' := length_lt_of_expect hread
    exact (argumentsTail_alike hrest hrest' hclosing h).andThen (fun _ _ _ _ h => .ok _ h)
      fun _ _ => within_ok _ _
  · rw [if_neg hnext, if_neg (mt hcomma.mpr hnext)]
    exact (Alike.expect h hclosing).andThen (fun _ _ _ _ h => .ok _ h)
      fun _ _ => within_ok _ _
termination_by 6 * tokens.length + 4

end

/-- **What stands behind the finish has no influence**, and neither has the place of the tokens. -/
theorem parseTokens_eq_of_aligned (hrest : next rest = .finish) (hrest' : next rest' = .finish)
    (h : Aligned rest rest' tokens tokens') : parseTokens tokens = parseTokens tokens' := by
  have hsame : next rest = next rest' := hrest.trans hrest'.symm
  have hstops : Stops rest := List.mem_cons.mpr (.inl hrest)
  have hstops' : Stops rest' := List.mem_cons.mpr (.inl hrest')
  rw [parseTokens_outcome, parseTokens_outcome, h.next_eq hsame]
  have halike : Alike rest rest' (outcome (infixExpression 0 tokens))
    (outcome (infixExpression 0 tokens')) := infixExpression_alike hstops hstops' h
  generalize outcome (infixExpression 0 tokens) = read at halike ⊢
  generalize outcome (infixExpression 0 tokens') = read' at halike ⊢
  -- both lists are read to the finish, so neither reading goes further
  cases halike with
  | ok node h => simp only [unexpected, h.next_eq hsame]
  | failed fault => rfl
  | further _ hfinish => exact absurd ⟨hrest, hrest'⟩ hfinish

end Parser

end DynExpr
