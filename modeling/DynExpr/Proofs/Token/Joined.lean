import DynExpr.Proofs.Token.Names

/-!
# Texts that stand before a mark

A text that stands by itself can just as well stand before a closing bracket: it is cut into the
same tokens, wherever it stands in its line. The scanners read a lexeme in front of a text that
closes as they read it at the end (`Closes.scanLexeme_append`), and they cover no more bytes than
there are (`scanLexeme_covered_le`).

`Aligned rest rest'` relates two lists of tokens that end in `rest` and `rest'`, and up to there
have the same lexemes with the same blanks before them. `tokensFrom_aligned` is the result for a
text before a mark, and `tokensFrom_finish` says that every list of tokens has one finish, at its
end.
-/

namespace DynExpr

open Text

variable {quote b : UInt8} {rest contents a s : Text} {lexeme : Lexeme} {covered : Nat}
  {previous : Option UInt8}

/-! ### How much a lexeme covers -/

/-- A string literal that ends does so whatever follows it. -/
theorem scanString_append (h : scanString quote rest = some (contents, covered)) (s : Text) :
    scanString quote (rest ++ s) = some (contents, covered) ∧ covered ≤ rest.length := by
  -- by the recursion of the scanner, whose failing cases are excluded
  fun_induction scanString quote rest generalizing contents covered with
  | case1 | case3 | case4 | case6 => cases h
  | case2 b rest hquote =>
    obtain ⟨rfl, rfl⟩ := Prod.mk.inj (Option.some.inj h)
    rw [eq_of_beq hquote]
    exact ⟨scanString_close, Nat.succ_le_succ (Nat.zero_le _)⟩
  | case5 b hquote hbackslash c rest contents' covered' hrest ih =>
    obtain ⟨rfl, rfl⟩ := Prod.mk.inj (Option.some.inj h)
    obtain ⟨hscan, hle⟩ := ih hrest
    obtain rfl := eq_of_beq hbackslash
    have hother : quote ≠ 92 := fun h => hquote (h ▸ beq_self_eq_true _)
    exact ⟨scanString_escape hother hscan, Nat.add_le_add_right hle 2⟩
  | case7 b rest hquote hbackslash contents' covered' hrest ih =>
    obtain ⟨rfl, rfl⟩ := Prod.mk.inj (Option.some.inj h)
    obtain ⟨hscan, hle⟩ := ih hrest
    rw [beq_iff_eq] at hquote hbackslash
    exact ⟨scanString_byte hquote hbackslash hscan, Nat.succ_le_succ hle⟩

/-- A point with digits behind it stands at the beginning. -/
theorem prefix_point_fractionDigits {s : Text} (h : (fractionDigits s).isEmpty = false) :
    46 :: fractionDigits s <+: s := by
  unfold fractionDigits at h ⊢
  split at h
  · exact (List.prefix_cons_inj 46).mpr (List.takeWhile_prefix _)
  · cases h

/-- An exponent stands at the beginning, if there is one. -/
theorem prefix_exponentPart (s : Text) : exponentPart s <+: s := by
  -- a letter, perhaps a sign, and digits: in each case where one is missing there is no exponent
  unfold exponentPart
  split
  · split
    · split
      · split
        · split
          · exact (List.prefix_cons_inj _).mpr
              ((List.prefix_cons_inj _).mpr (List.takeWhile_prefix _))
          · exact List.nil_prefix
        · split
          · exact (List.prefix_cons_inj _).mpr (List.takeWhile_prefix _)
          · exact List.nil_prefix
      · exact List.nil_prefix
    · exact List.nil_prefix
  · exact List.nil_prefix

/-- A decimal number covers the beginning of the text. -/
theorem prefix_scanDecimal (s : Text) : (scanDecimal s).text <+: s := by
  unfold scanDecimal
  dsimp only [Lexeme.text]
  have hpoint : (if (fractionDigits (s.dropWhile isDigit)).isEmpty then ([] : Text)
      else 46 :: fractionDigits (s.dropWhile isDigit)) <+: s.dropWhile isDigit := by
    split
    · exact List.nil_prefix
    · next hfraction => exact prefix_point_fractionDigits (Bool.eq_false_iff.mpr hfraction)
  generalize (if (fractionDigits (s.dropWhile isDigit)).isEmpty then ([] : Text)
    else 46 :: fractionDigits (s.dropWhile isDigit)) = point at hpoint ⊢
  -- the exponent is looked for behind the point and its digits
  have hrest : point ++ exponentPart ((s.dropWhile isDigit).drop point.length) <+:
      s.dropWhile isDigit := by
    have hexponent := prefix_exponentPart ((s.dropWhile isDigit).drop point.length)
    have happend := (List.prefix_append_right_inj point).mpr hexponent
    rwa [List.prefix_iff_eq_append.mp hpoint] at happend
  have hall := (List.prefix_append_right_inj (s.takeWhile isDigit)).mpr hrest
  rwa [List.takeWhile_append_dropWhile, ← List.append_assoc] at hall

/-- A number covers the beginning of the text. -/
theorem prefix_scanNumber (s : Text) : (scanNumber s).text <+: s := by
  unfold scanNumber
  split
  · next zero x digits =>
    split
    · exact (List.prefix_cons_inj _).mpr ((List.prefix_cons_inj _).mpr (List.takeWhile_prefix _))
    · exact prefix_scanDecimal _
  · exact prefix_scanDecimal _

/-- A name covers the beginning of the text. -/
theorem prefix_nameLeading (s : Text) : nameLeading s <+: s := by
  fun_induction nameLeading s with
  | case1 | case4 => exact List.nil_prefix
  -- a byte of the name, or a point inside of it
  | case2 b rest _ ih | case3 b rest _ _ ih => exact (List.prefix_cons_inj b).mpr ih

/-- A run of operators covers the beginning of the text. -/
theorem prefix_operatorRun (previous : Option UInt8) (s : Text) : operatorRun previous s <+: s := by
  fun_induction operatorRun previous s with
  | case1 | case2 | case3 => exact List.nil_prefix
  | case4 previous b rest _ _ ih => exact (List.prefix_cons_inj b).mpr ih

/-- An operator covers the beginning of the text. -/
theorem prefix_scanOperator (s : Text) : scanOperator s <+: s := by
  unfold scanOperator
  dsimp only
  split
  · -- a last sign that is left to an operand makes it shorter
    exact (List.dropLast_prefix _).trans (prefix_operatorRun none s)
  · exact prefix_operatorRun none s

/-- A lexeme covers no more than the text. -/
theorem scanLexeme_covered_le (h : scanLexeme b rest = .ok (lexeme, covered)) :
    covered ≤ rest.length + 1 := by
  -- each kind covers a beginning of the text, or a literal that ends in it
  cases scans_of_scanLexeme h with
  | literal _ hstring => exact Nat.succ_le_succ (scanString_append hstring []).2
  | number => exact (prefix_scanNumber (b :: rest)).length_le
  | name => exact (prefix_nameLeading (b :: rest)).length_le
  | operator => exact (prefix_scanOperator (b :: rest)).length_le
  | _ => exact Nat.succ_le_succ (Nat.zero_le _)

/-- What begins like a number has a number in front. -/
theorem scanNumber_text_ne_nil (h : (isDigit b || (b == 46 && startsWithDigit rest)) = true) :
    (scanNumber (b :: rest)).text ≠ [] := by
  -- it begins with a digit, or with a point and a digit
  have hdecimal : (scanDecimal (b :: rest)).text ≠ [] := by
    unfold scanDecimal
    dsimp only [Lexeme.text]
    rcases Bool.or_eq_true_iff.mp h with hb | hpoint
    · rw [List.takeWhile_cons_of_pos hb]
      exact List.cons_ne_nil _ _
    · obtain ⟨hb, hdigit⟩ := Bool.and_eq_true_iff.mp hpoint
      obtain rfl := eq_of_beq hb
      have hfraction : (fractionDigits (46 :: rest)).isEmpty = false := by
        cases rest with
        | nil => cases hdigit
        | cons c rest =>
          have hc : isDigit c = true := hdigit
          rw [fractionDigits, List.takeWhile_cons_of_pos hc]
          rfl
      have hwhole : (46 :: rest : Text).dropWhile isDigit = 46 :: rest := rfl
      rw [hwhole, hfraction]
      simp
  unfold scanNumber
  split
  · next heq =>
    split
    · exact List.cons_ne_nil _ _
    · exact hdecimal
  · exact hdecimal

/-- A lexeme covers a byte. -/
theorem scanLexeme_covered_pos (h : scanLexeme b rest = .ok (lexeme, covered)) : 0 < covered := by
  cases scans_of_scanLexeme h with
  | literal => exact Nat.succ_pos _
  | number hnumber => exact List.length_pos_iff.mpr (scanNumber_text_ne_nil hnumber)
  | name hname =>
    have hplain : IsPlainName (nameLeading (b :: rest)) := isPlainName_nameLeading hname
    obtain ⟨c, others, hcons, -⟩ := hplain.exists_cons
    rw [hcons]
    exact Nat.succ_pos _
  | operator hoperator => exact List.length_pos_iff.mpr (isOperatorName_scanOperator hoperator).1
  | _ => exact Nat.zero_lt_one

/-! ### Before a text that closes -/

namespace Closes

variable (hs : Closes s)

include hs

/-- A run of operators is the same as at the end. -/
theorem operatorRun_append (a : Text) : operatorRun previous (a ++ s) = operatorRun previous a := by
  induction a generalizing previous with
  | nil =>
    cases s with
    | nil => rfl
    | cons b rest =>
      have hoperator := hs.head.2.1
      simp [operatorRun, hoperator]
  | cons b rest ih =>
    have hdigit : startsWithDigit (rest ++ s) = startsWithDigit rest :=
      head?_append_any hs.breaks.isDigit_head?
    rw [List.cons_append, operatorRun, operatorRun, ih, hdigit]

/-- An operand begins in the text or not at all. -/
theorem startsWithOperand_append (a : Text) :
    startsWithOperand (a ++ s) = startsWithOperand a := by
  cases a with
  | nil =>
    cases s with
    | nil => rfl
    | cons b rest => exact hs.head.2.2
  | cons b rest =>
    have hdigit : startsWithDigit (rest ++ s) = startsWithDigit rest :=
      head?_append_any hs.breaks.isDigit_head?
    rw [List.cons_append, startsWithOperand, startsWithOperand, hdigit]

/-- An operator is the same as at the end. -/
theorem scanOperator_append (a : Text) : scanOperator (a ++ s) = scanOperator a := by
  unfold scanOperator
  dsimp only
  rw [hs.operatorRun_append, List.drop_append_of_le_length (prefix_operatorRun none a).length_le,
    hs.startsWithOperand_append]

/-- **Before a text that closes, a lexeme is scanned as it is at the end.** -/
theorem scanLexeme_append (h : scanLexeme b rest = .ok (lexeme, covered)) :
    scanLexeme b (rest ++ s) = .ok (lexeme, covered) := by
  by_cases hquote : b = 39 ∨ b = 34
  · -- a string literal ends by itself
    cases hstring : scanString b rest with
    | none => rcases hquote with rfl | rfl <;> simp [scanLexeme, hstring] at h
    | some found =>
      rw [scanLexeme_of_quote hquote hstring] at h
      rw [scanLexeme_of_quote hquote (scanString_append hstring s).1, h]
  · -- any other lexeme ends where a scanner stops, and none of them goes on in what closes
    have hnoQuote : (b == 39 || b == 34) = false := by simpa using hquote
    have hdigit : startsWithDigit (rest ++ s) = startsWithDigit rest :=
      head?_append_any hs.breaks.isDigit_head?
    have hnumber : scanNumber (b :: (rest ++ s)) = scanNumber (b :: rest) :=
      scanNumber_append hs.breaks (List.cons_ne_nil b rest)
    have hname : nameLeading (b :: (rest ++ s)) = nameLeading (b :: rest) :=
      nameLeading_append (a := b :: rest) hs.breaks
    have hoperator : scanOperator (b :: (rest ++ s)) = scanOperator (b :: rest) :=
      hs.scanOperator_append (b :: rest)
    unfold scanLexeme at h ⊢
    simp only [hnoQuote, Bool.false_eq_true, if_false] at h ⊢
    rw [hdigit, hnumber, hname, hoperator]
    exact h

end Closes

/-! ### Tokens -/

section Tokens

variable {position covered : Nat} {blanks : Text} {tokens : List Token}

/-- A lexeme behind blanks is the first token. -/
theorem tokensFrom_cons (hblanks : ∀ c ∈ blanks, isBlank c = true) (hb : isBlank b = false)
    (hscan : scanLexeme b rest = .ok (lexeme, covered))
    (htokens : tokensFrom (position + blanks.length + covered) (rest.drop (covered - 1)) =
      .ok tokens) :
    tokensFrom position (blanks ++ b :: rest) =
      .ok (⟨lexeme, position + blanks.length, !blanks.isEmpty⟩ :: tokens) := by
  have hb' : ¬ isBlank b = true := Bool.eq_false_iff.mp hb
  have htake : (blanks ++ b :: rest).takeWhile isBlank = blanks := by
    rw [List.takeWhile_append_of_pos hblanks, List.takeWhile_cons_of_neg hb', List.append_nil]
  have hdrop : (blanks ++ b :: rest).dropWhile isBlank = b :: rest := by
    rw [List.dropWhile_append_of_pos hblanks, List.dropWhile_cons_of_neg hb']
  -- both cuts of the line are known, so only the lexeme is left
  rw [tokensFrom, htake]
  split
  · next hcut =>
    rw [hdrop] at hcut
    cases hcut
  · next c others hcut =>
    rw [hdrop] at hcut
    obtain ⟨rfl, rfl⟩ := List.cons.inj hcut
    rw [hscan]
    dsimp only
    rw [htokens]

/-- A line that is scanned as one number has this token and the finish. -/
theorem tokenize_number {value : Double} (hdigit : startsWithDigit s = true)
    (hscan : scanNumber s = .number s value) :
    tokenize s = .ok [⟨.number s value, 0, false⟩, ⟨.finish, s.length, false⟩] := by
  cases s with
  | nil => cases hdigit
  | cons b rest =>
    have hb : isDigit b = true := hdigit
    have hlexeme : scanLexeme b rest = .ok (.number (b :: rest) value, rest.length + 1) := by
      rw [scanLexeme_of_isDigit hb, hscan]
      rfl
    have hfinish : tokensFrom (0 + 0 + (rest.length + 1)) (rest.drop (rest.length + 1 - 1)) =
        .ok [⟨.finish, rest.length + 1, false⟩] := by
      rw [Nat.add_sub_cancel, List.drop_length, tokensFrom, Nat.zero_add]
      rfl
    have htokens : tokensFrom 0 ([] ++ b :: rest) = _ :=
      tokensFrom_cons (List.forall_mem_nil _) (isDigit_only hb).1 hlexeme hfinish
    exact htokens

/-- What holds of the finish behind the last blanks, and of a token before tokens of which it holds,
holds of the tokens of every text. -/
theorem tokensFrom_induct {motive : Nat → Text → List Token → Prop}
    (finish : ∀ position blanks, (∀ c ∈ blanks, isBlank c = true) →
      motive position blanks [⟨.finish, position + blanks.length, !blanks.isEmpty⟩])
    (cons : ∀ position blanks b rest lexeme covered tokens, (∀ c ∈ blanks, isBlank c = true) →
      isBlank b = false → scanLexeme b rest = .ok (lexeme, covered) →
      motive (position + blanks.length + covered) (rest.drop (covered - 1)) tokens →
      motive position (blanks ++ b :: rest)
        (⟨lexeme, position + blanks.length, !blanks.isEmpty⟩ :: tokens))
    {position : Nat} {s : Text} {tokens : List Token} (h : tokensFrom position s = .ok tokens) :
    motive position s tokens := by
  have hcut : s = s.takeWhile isBlank ++ s.dropWhile isBlank :=
    List.takeWhile_append_dropWhile.symm
  have hblanks : ∀ c ∈ s.takeWhile isBlank, isBlank c = true :=
    List.all_eq_true.mp List.all_takeWhile
  rw [tokensFrom] at h
  split at h
  · next hnil =>
    cases h
    have hall := finish position (s.takeWhile isBlank) hblanks
    rw [hnil, List.append_nil] at hcut
    rw [← hcut] at hall ⊢
    exact hall
  · next b rest hcons =>
    split at h
    · cases h
    · next lexeme covered hscan =>
      split at h
      · cases h
      · next others hothers =>
        cases h
        -- what is left behind all the blanks begins with none
        have hb : isBlank b = false := by
          have hhead := List.head?_dropWhile_not isBlank s
          rw [hcons] at hhead
          simpa using hhead
        have hshorter : (rest.drop (covered - 1)).length < s.length := by
          rw [hcut, hcons, List.length_append, List.length_cons, List.length_drop]
          omega
        have ih := tokensFrom_induct finish cons hothers
        have hnext := cons position (s.takeWhile isBlank) b rest lexeme covered others hblanks hb
          hscan ih
        rwa [← hcons, ← hcut] at hnext
termination_by s.length
decreasing_by assumption

/-- No lexeme that is scanned is the finish. -/
theorem scanLexeme_ne_finish (h : scanLexeme b rest = .ok (lexeme, covered)) :
    lexeme ≠ .finish := by
  cases scans_of_scanLexeme h with
  | number =>
    obtain ⟨text, value, heq⟩ := exists_scanNumber_eq (b :: rest)
    rw [heq]
    exact fun hfinish => nomatch hfinish
  | _ => exact fun hfinish => nomatch hfinish

/-- **The finish is the last token**, and no other token is one. -/
theorem tokensFrom_finish (h : tokensFrom position s = .ok tokens) :
    ∃ used finish, tokens = used ++ [finish] ∧ finish.lexeme = .finish ∧
      ∀ token ∈ used, token.lexeme ≠ .finish := by
  refine tokensFrom_induct (motive := fun _ _ tokens => ∃ used finish, tokens = used ++ [finish] ∧
    finish.lexeme = .finish ∧ ∀ token ∈ used, token.lexeme ≠ .finish) ?_ ?_ h
  · -- blanks alone give the finish
    intro position blanks _
    exact ⟨[], _, rfl, rfl, fun _ hmem => absurd hmem List.not_mem_nil⟩
  · intro position blanks b rest lexeme covered tokens _ _ hscan ih
    obtain ⟨used, finish, rfl, hfinish, hused⟩ := ih
    exact ⟨_ :: used, finish, rfl, hfinish,
      List.forall_mem_cons.mpr ⟨scanLexeme_ne_finish hscan, hused⟩⟩

/-! ### Lists of tokens that agree up to a place -/

/-- The lists have the same lexemes, with the same blanks before them, up to `rest` and `rest'`. -/
inductive Aligned (rest rest' : List Token) : List Token → List Token → Prop
  | stop : Aligned rest rest' rest rest'
  | cons {token token' : Token} {tokens tokens' : List Token}
      (hlexeme : token.lexeme = token'.lexeme) (hspaced : token.spaceBefore = token'.spaceBefore)
      (h : Aligned rest rest' tokens tokens') :
      Aligned rest rest' (token :: tokens) (token' :: tokens')

/-- Behind the same tokens two lists are aligned. -/
theorem aligned_append (used rest rest' : List Token) :
    Aligned rest rest' (used ++ rest) (used ++ rest') := by
  induction used with
  | nil => exact .stop
  | cons token used ih => exact .cons rfl rfl ih

/-- A list that is aligned ends in the given rest. -/
theorem Aligned.exists_append {rest rest' tokens tokens' : List Token}
    (h : Aligned rest rest' tokens tokens') : ∃ used, tokens = used ++ rest := by
  induction h with
  | stop => exact ⟨[], rfl⟩
  | cons _ _ _ ih =>
    obtain ⟨used, rfl⟩ := ih
    exact ⟨_ :: used, rfl⟩

/-- **A text that stands before a mark is cut into the same tokens as by itself.** The mark takes
the place of the finish. -/
theorem tokensFrom_aligned (h : tokensFrom position s = .ok tokens) {mark : UInt8}
    {closing : Lexeme} (hblank : isBlank mark = false) (hcloses : ∀ t, Closes (mark :: t))
    (hscan : ∀ t, scanLexeme mark t = .ok (closing, 1)) {t : Text} {rest : List Token}
    {position' : Nat} (hrest : tokensFrom (position' + s.length + 1) t = .ok rest) :
    ∃ finish bracket tokens', finish.lexeme = .finish ∧ bracket.lexeme = closing ∧
      tokensFrom position' (s ++ mark :: t) = .ok tokens' ∧
      Aligned [finish] (bracket :: rest) tokens tokens' := by
  refine tokensFrom_induct (motive := fun _ s tokens => ∀ position',
    tokensFrom (position' + s.length + 1) t = .ok rest →
    ∃ finish bracket tokens', finish.lexeme = .finish ∧ bracket.lexeme = closing ∧
      tokensFrom position' (s ++ mark :: t) = .ok tokens' ∧
      Aligned [finish] (bracket :: rest) tokens tokens') ?_ ?_ h position' hrest
  · intro position blanks hblanks position' hrest
    exact ⟨_, _, _, rfl, rfl, tokensFrom_cons hblanks hblank (hscan t) hrest, .stop⟩
  · intro position blanks b others lexeme covered tokens hblanks hb hlexeme ih position' hrest
    have hpos := scanLexeme_covered_pos hlexeme
    have hle := scanLexeme_covered_le hlexeme
    have hstart : position' + blanks.length + covered + (others.drop (covered - 1)).length + 1 =
        position' + (blanks ++ b :: others).length + 1 := by
      rw [List.length_drop, List.length_append, List.length_cons]
      omega
    rw [← hstart] at hrest
    obtain ⟨finish, bracket, tokens', hfinish, hbracket, htokens, haligned⟩ := ih _ hrest
    -- the lexeme ends where it ended before, and the mark is behind what is left
    have hdrop : (others ++ mark :: t).drop (covered - 1) =
        others.drop (covered - 1) ++ mark :: t :=
      List.drop_append_of_le_length (by omega)
    rw [← hdrop] at htokens
    have hjoined := tokensFrom_cons hblanks hb ((hcloses t).scanLexeme_append hlexeme) htokens
    rw [← List.cons_append, ← List.append_assoc] at hjoined
    exact ⟨finish, bracket, _, hfinish, hbracket, hjoined, .cons rfl rfl haligned⟩

end Tokens

end DynExpr
