import DynExpr.Proofs.Token.Boundary
import DynExpr.Proofs.Token.Scanned

/-!
# Names, and what stands for them

Three kinds of names occur in a line: plain names, quoted names, which are string literals with
their escapes replaced, and names of operators. Every lexeme that is scanned has a name of its kind
(`tokensFrom_isNamed`).

The other way round, a text *stands for* a lexeme, `StandsFor follow text lexeme`, if the scanner
cuts off exactly this text and makes this lexeme of it, as long as `follow` holds of what comes
after the text. Plain names and operators stand for themselves, a quoted name is stood for by a
literal with the same contents, and numbers are stood for by their digits.

* Between blanks and brackets every operator stands for itself (`standsFor_operator`).
* Before an operand it does unless it ends in a sign or a point that the operand would take
  (`standsFor_beforeOperand`).
* Before a sign and an operand it always does (`standsFor_beforeSign`), since the scanner leaves the
  last sign to the operand.
-/

namespace DynExpr

open Text

/-! ### Names -/

/-- A name without quotes. -/
def IsPlainName (name : Text) : Prop :=
  name.head?.any isNameStart = true ∧ nameLeading name = name

/-- A string literal as a name: its contents between two quotes of one kind. -/
def IsQuotedName (name : Text) : Prop :=
  ∃ quote contents, (quote = 39 ∨ quote = 34) ∧ name = quote :: (contents ++ [quote])

/-- A name that is written as it is: a plain one, or a quoted one whose contents need no
escapes. -/
def IsVerbatimName (name : Text) : Prop :=
  IsPlainName name ∨ ∃ quote contents, (quote = 39 ∨ quote = 34) ∧
    name = quote :: (contents ++ [quote]) ∧ quote ∉ contents ∧ 92 ∉ contents

/-- A name of an operator. -/
def IsOperatorName (name : Text) : Prop := name ≠ [] ∧ ∀ b ∈ name, isOperatorByte b = true

/-- A string literal as a name, with apostrophes for quotes; a plain name is kept. -/
def requoted (name : Text) : Text :=
  match unquoted? name with
  | some contents => 39 :: (contents ++ [39])
  | none => name

/-- The lexeme has a name of its kind, if it has one at all. -/
def Lexeme.IsNamed : Lexeme → Prop
  | .identifier name => IsPlainName name ∨ IsQuotedName name
  | .operator name => IsOperatorName name
  | _ => True

/-- A name is not empty, and its first byte is one that begins names. -/
theorem IsPlainName.exists_cons {name : Text} (h : IsPlainName name) :
    ∃ b rest, name = b :: rest ∧ isNameStart b = true := by
  obtain ⟨hhead, -⟩ := h
  cases name with
  | nil => cases hhead
  | cons b rest => exact ⟨b, rest, rfl, hhead⟩

/-- Without its quotes a string literal is its contents. -/
@[simp] theorem unquoted?_quote {quote : UInt8} (h : quote = 39 ∨ quote = 34) (contents : Text) :
    unquoted? (quote :: (contents ++ [quote])) = some contents := by
  rcases h with rfl | rfl <;> simp [unquoted?]

/-- A name without quotes is no string literal. -/
theorem IsPlainName.unquoted?_eq_none {name : Text} (h : IsPlainName name) :
    unquoted? name = none := by
  obtain ⟨b, rest, rfl, hb⟩ := h.exists_cons
  have hpunctuation := (isNameStart_only hb).2.2.2
  have h1 : b ≠ 39 := fun h => hpunctuation (by rw [h]; decide)
  have h2 : b ≠ 34 := fun h => hpunctuation (by rw [h]; decide)
  simp [unquoted?, h1, h2]

/-- A name without quotes is kept. -/
theorem IsPlainName.requoted_eq {name : Text} (h : IsPlainName name) : requoted name = name := by
  rw [requoted, h.unquoted?_eq_none]

/-! ### Scanned names -/

/-- What begins like a name has a name in front. -/
theorem nameLeading_head? {rest : Text} (h : rest.head?.any isNameStart = true) :
    (nameLeading rest).head?.any isNameStart = true := by
  cases rest with
  | nil => cases h
  | cons b rest =>
    have hb : isNameStart b = true := h
    simp [nameLeading, hb]

/-- What was scanned as a name is scanned as the same name again. -/
theorem nameLeading_nameLeading (s : Text) : nameLeading (nameLeading s) = nameLeading s := by
  induction s with
  | nil => rfl
  | cons b rest ih =>
    rw [nameLeading]
    split
    · next hb => rw [nameLeading, if_pos hb, ih]
    · next hb =>
      split
      · next hpoint =>
        -- the point is kept, as what stands behind it is a name again
        have hstart := nameLeading_head? (Bool.and_eq_true_iff.mp hpoint).2
        have hpoint' : (b == 46 && (nameLeading rest).head?.any isNameStart) = true :=
          Bool.and_eq_true_iff.mpr ⟨(Bool.and_eq_true_iff.mp hpoint).1, hstart⟩
        rw [nameLeading, if_neg hb, if_pos hpoint', ih]
      · rfl

/-- What is scanned as a name is one without quotes. -/
theorem isPlainName_nameLeading {b : UInt8} {rest : Text} (hb : isNameStart b = true) :
    IsPlainName (nameLeading (b :: rest)) :=
  ⟨nameLeading_head? hb, nameLeading_nameLeading _⟩

/-- A run of operator bytes has no others. -/
theorem operatorRun_all {previous : Option UInt8} {s : Text} :
    ∀ b ∈ operatorRun previous s, isOperatorByte b = true := by
  induction s generalizing previous with
  | nil => exact fun _ h => absurd h List.not_mem_nil
  | cons b rest ih =>
    rw [operatorRun]
    -- the run stops at any other byte, or at the point of a number
    split
    · exact fun _ h => absurd h List.not_mem_nil
    · next hb =>
      split
      · exact fun _ h => absurd h List.not_mem_nil
      · exact List.forall_mem_cons.mpr ⟨by simpa using hb, ih⟩

/-- An operator has at least one byte: without a byte before it, a point is not left to a
number. -/
theorem isOperatorName_scanOperator {b : UInt8} {rest : Text} (hb : isOperatorByte b = true) :
    IsOperatorName (scanOperator (b :: rest)) := by
  have hrun : operatorRun none (b :: rest) = b :: operatorRun (some b) rest := by
    simp [operatorRun, hb]
  have hall : ∀ c ∈ operatorRun none (b :: rest), isOperatorByte c = true := operatorRun_all
  unfold scanOperator
  dsimp only
  split
  · next hsign =>
    simp only [Bool.and_eq_true, decide_eq_true_eq] at hsign
    refine ⟨?_, fun c hc => hall c ((List.dropLast_sublist _).subset hc)⟩
    -- a sign is left to an operand only if the run is longer than this
    intro hnil
    have hlength := congrArg List.length hnil
    rw [List.length_dropLast, List.length_nil] at hlength
    omega
  · exact ⟨by rw [hrun]; exact List.cons_ne_nil _ _, hall⟩

/-- A number has no name. -/
theorem scanNumber_isNamed (s : Text) : (scanNumber s).IsNamed := by
  obtain ⟨text, value, heq⟩ := exists_scanNumber_eq s
  rw [heq]
  trivial

/-- What is scanned has a name of its kind. -/
theorem scanLexeme_isNamed {b : UInt8} {rest : Text} {lexeme : Lexeme} {covered : Nat}
    (h : scanLexeme b rest = .ok (lexeme, covered)) : lexeme.IsNamed := by
  cases scans_of_scanLexeme h with
  | literal hquote => exact .inr ⟨b, _, hquote, rfl⟩
  | number => exact scanNumber_isNamed _
  | name hname => exact .inl (isPlainName_nameLeading hname)
  | operator hoperator => exact isOperatorName_scanOperator hoperator
  | _ => trivial

/-- **Every token of a line has a name of its kind.** -/
theorem tokensFrom_isNamed {position : Nat} {s : Text} {tokens : List Token}
    (h : tokensFrom position s = .ok tokens) : ∀ token ∈ tokens, token.lexeme.IsNamed :=
  tokensFrom_forall trivial scanLexeme_isNamed h

/-! ### Standing for a lexeme -/

/-- The text begins with an operand: with a byte of a number or a name, an opening bracket or a
quote. -/
def BeginsOperand (s : Text) : Prop :=
  ∃ b rest, s = b :: rest ∧ (isWordByte b = true ∨ b ∈ utf8 "(['\"")

/-- The scanner cuts off `text` and makes `lexeme` of it, whenever `follow` holds of what comes
next. -/
def StandsFor (follow : Text → Prop) (text : Text) (lexeme : Lexeme) : Prop :=
  ∃ b rest, text = b :: rest ∧ isBlank b = false ∧
    ∀ s, follow s → scanLexeme b (rest ++ s) = .ok (lexeme, text.length)

/-- A sign that an operand takes to itself. -/
def IsSign (b : UInt8) : Prop := b ∈ utf8 "-+!"

/-- An operand begins where it began, whatever follows. -/
theorem BeginsOperand.append {a : Text} (h : BeginsOperand a) (s : Text) :
    BeginsOperand (a ++ s) := by
  obtain ⟨b, rest, rfl, hb⟩ := h
  exact ⟨b, rest ++ s, rfl, hb⟩

/-- The scanner sees the operand. -/
theorem BeginsOperand.startsWithOperand {s : Text} (h : BeginsOperand s) :
    startsWithOperand s = true := by
  obtain ⟨b, rest, rfl, hword | hmem⟩ := h
  · rcases Bool.or_eq_true_iff.mp hword with hb | hb <;> simp [DynExpr.startsWithOperand, hb]
  · have hall : ∀ b ∈ utf8 "(['\"", (b == 40 || b == 91 || b == 39 || b == 34) = true := by
      decide +kernel
    have hb := hall b hmem
    simp only [Bool.or_eq_true, beq_iff_eq] at hb
    rcases hb with ((rfl | rfl) | rfl) | rfl <;> simp [DynExpr.startsWithOperand]

/-- No operand begins with an operator byte. -/
theorem BeginsOperand.head?_isOperatorByte {s : Text} (h : BeginsOperand s) :
    s.head?.any isOperatorByte = false := by
  obtain ⟨b, rest, rfl, hword | hmem⟩ := h
  · rcases Bool.or_eq_true_iff.mp hword with hb | hb
    · exact (isDigit_only hb).2.2.1
    · exact (isNameStart_only hb).2.2.1
  · have hall : ∀ b ∈ utf8 "(['\"", isOperatorByte b = false := by decide +kernel
    exact hall b hmem

/-! ### Scanning a lexeme of each kind -/

section Scan

variable {b : UInt8} {rest : Text}

/-- A digit begins a number. -/
theorem scanLexeme_of_isDigit (hb : isDigit b = true) :
    scanLexeme b rest = .ok (scanNumber (b :: rest), (scanNumber (b :: rest)).text.length) := by
  have hne : ∀ c ∈ punctuation, b ≠ c := fun c hc h => (isDigit_only hb).2.2.2 (h ▸ hc)
  -- the branches in front of that of numbers are those of the punctuation
  simp only [punctuation, utf8] at hne
  simp [scanLexeme, hb, hne 40 (by decide), hne 41 (by decide), hne 91 (by decide),
    hne 93 (by decide), hne 44 (by decide), hne 39 (by decide), hne 34 (by decide)]

/-- A byte that begins names begins one. -/
theorem scanLexeme_of_isNameStart (hb : isNameStart b = true) :
    scanLexeme b rest =
      .ok (.identifier (nameLeading (b :: rest)), (nameLeading (b :: rest)).length) := by
  obtain ⟨-, hdigit, hoperator, hpunctuation⟩ := isNameStart_only hb
  have hne : ∀ c ∈ punctuation, b ≠ c := fun c hc h => hpunctuation (h ▸ hc)
  -- the byte is no point either, which might begin a number
  have hpoint : b ≠ 46 := by
    rintro rfl
    exact absurd hoperator (by decide)
  simp [scanLexeme, hb, hdigit, hpoint, hne 40 (by decide), hne 41 (by decide), hne 91 (by decide),
    hne 93 (by decide), hne 44 (by decide), hne 39 (by decide), hne 34 (by decide)]

/-- An operator byte begins an operator, unless it is the point of a number. -/
theorem scanLexeme_of_isOperatorByte (hb : isOperatorByte b = true)
    (hpoint : b = 46 → startsWithDigit rest = false) :
    scanLexeme b rest =
      .ok (.operator (scanOperator (b :: rest)), (scanOperator (b :: rest)).length) := by
  obtain ⟨-, hdigit, hname, hpunctuation⟩ := isOperatorByte_only hb
  have hne : ∀ c ∈ punctuation, b ≠ c := fun c hc h => hpunctuation (h ▸ hc)
  have hnumber : (isDigit b || (b == 46 && startsWithDigit rest)) = false := by
    rw [hdigit, Bool.false_or]
    by_cases h : b = 46
    · rw [hpoint h, Bool.and_false]
    · rw [beq_false_of_ne h, Bool.false_and]
  simp [scanLexeme, hb, hname, hnumber, hne 40 (by decide), hne 41 (by decide), hne 91 (by decide),
    hne 93 (by decide), hne 44 (by decide), hne 39 (by decide), hne 34 (by decide)]

/-- A quote begins a string literal. -/
theorem scanLexeme_of_quote (hb : b = 39 ∨ b = 34) {contents : Text} {covered : Nat}
    (h : scanString b rest = some (contents, covered)) :
    scanLexeme b rest = .ok (.identifier (b :: (contents ++ [b])), covered + 1) := by
  rcases hb with rfl | rfl <;> simp [scanLexeme, h]

end Scan

section Standing

variable {name : Text}

/-- A number stands for itself where no word goes on. -/
theorem standsFor_number {a : Text} {value : Double} (hdigit : startsWithDigit a = true)
    (hscan : scanNumber a = .number a value) : StandsFor Breaks a (.number a value) := by
  cases a with
  | nil => cases hdigit
  | cons b rest =>
    have hb : isDigit b = true := hdigit
    refine ⟨b, rest, rfl, (isDigit_only hb).1, ?_⟩
    intro s hs
    rw [scanLexeme_of_isDigit hb, ← List.cons_append, scanNumber_append hs (List.cons_ne_nil _ _),
      hscan]
    rfl

/-- A name stands for itself where no word goes on. -/
theorem standsFor_plainName (h : IsPlainName name) :
    StandsFor Breaks name (.identifier name) := by
  have hleading := h.2
  obtain ⟨b, rest, rfl, hb⟩ := h.exists_cons
  refine ⟨b, rest, rfl, (isNameStart_only hb).1, ?_⟩
  intro s hs
  rw [scanLexeme_of_isNameStart hb, ← List.cons_append, nameLeading_append hs, hleading]

/-- A string with escapes stands for its contents, whatever follows. -/
theorem standsFor_quoted (contents : Text) :
    StandsFor (fun _ => True) (quoted contents) (.identifier (39 :: (contents ++ [39]))) := by
  refine ⟨39, contents.flatMap escape ++ [39], rfl, by decide, ?_⟩
  intro s _
  rw [List.append_assoc, List.singleton_append,
    scanLexeme_of_quote (.inl rfl) (scanString_quoted contents s)]
  simp [quoted]

/-- A string without escapes stands for itself, whatever follows. -/
theorem standsFor_verbatim {quote : UInt8} {contents : Text} (hquote : quote = 39 ∨ quote = 34)
    (hfree : quote ∉ contents) (hbackslash : 92 ∉ contents) :
    StandsFor (fun _ => True) (quote :: (contents ++ [quote]))
      (.identifier (quote :: (contents ++ [quote]))) := by
  refine ⟨quote, contents ++ [quote], rfl, by rcases hquote with rfl | rfl <;> decide, ?_⟩
  intro s _
  rw [List.append_assoc, List.singleton_append,
    scanLexeme_of_quote hquote (scanString_verbatim hfree hbackslash s)]
  simp

/-- What a run of operator bytes is scanned as depends on the run and on what comes next. -/
theorem scanLexeme_append_of_isOperatorName {b : UInt8} {rest s : Text}
    (h : IsOperatorName (b :: rest))
    (hpoint : startsWithDigit s = true → ¬ EndsInPoint none (b :: rest)) :
    scanLexeme b (rest ++ s) =
      .ok (.operator (scanOperator (b :: rest ++ s)), (scanOperator (b :: rest ++ s)).length) := by
  refine scanLexeme_of_isOperatorByte (h.2 b List.mem_cons_self) ?_
  rintro rfl
  cases rest with
  | nil =>
    -- a point alone: it must not stand before a digit
    cases hdigit : startsWithDigit s with
    | false => exact hdigit
    | true => exact absurd ⟨[], rfl, by simp⟩ (hpoint hdigit)
  | cons c rest => exact (isOperatorByte_only (h.2 c (by simp))).2.1

/-- Between blanks and brackets an operator stands for itself. -/
theorem standsFor_operator (h : IsOperatorName name) :
    StandsFor Closes name (.operator name) := by
  obtain ⟨hne, hall⟩ := h
  obtain ⟨b, rest, rfl⟩ := List.exists_cons_of_ne_nil hne
  refine ⟨b, rest, rfl, (isOperatorByte_only (hall b List.mem_cons_self)).1, ?_⟩
  intro s hs
  -- what closes begins with none of the bytes that would change the operator
  have hhead : s.head?.any isOperatorByte = false ∧ startsWithOperand s = false ∧
      startsWithDigit s = false := by
    cases s with
    | nil => exact ⟨rfl, rfl, rfl⟩
    | cons c s => exact ⟨hs.head.2.1, hs.head.2.2, (isWordByte_false hs.head.1).1⟩
  obtain ⟨hoperator, hoperand, hdigit⟩ := hhead
  have hpoint : startsWithDigit s = true → ¬ EndsInPoint none (b :: rest) := by simp [hdigit]
  rw [scanLexeme_append_of_isOperatorName ⟨hne, hall⟩ hpoint,
    scanOperator_append hall hoperator hpoint, hoperand, Bool.and_false, if_neg Bool.false_ne_true]

/-- Before an operand, an operator stands for itself unless it ends in a sign that is not all of
it, or in a point that no other point precedes and that stands before a digit. -/
theorem standsFor_beforeOperand (h : IsOperatorName name)
    (hsign : 1 < name.length → endsInSign name = false) :
    StandsFor (fun s => BeginsOperand s ∧ (startsWithDigit s = true → ¬ EndsInPoint none name))
      name (.operator name) := by
  obtain ⟨hne, hall⟩ := h
  obtain ⟨b, rest, rfl⟩ := List.exists_cons_of_ne_nil hne
  refine ⟨b, rest, rfl, (isOperatorByte_only (hall b List.mem_cons_self)).1, ?_⟩
  rintro s ⟨hs, hpoint⟩
  have hoperator := hs.head?_isOperatorByte
  -- there is no sign to leave to the operand, or it is the whole operator
  have hkeep : (decide (1 < (b :: rest).length) && endsInSign (b :: rest) &&
      startsWithOperand s) = false := by
    by_cases hlength : 1 < (b :: rest).length
    · rw [hsign hlength, Bool.and_false, Bool.false_and]
    · rw [decide_eq_false hlength, Bool.false_and, Bool.false_and]
  rw [scanLexeme_append_of_isOperatorName ⟨hne, hall⟩ hpoint,
    scanOperator_append hall hoperator hpoint, hkeep, if_neg Bool.false_ne_true]

/-- Before a sign and an operand, an operator stands for itself: the sign is left to the operand. -/
theorem standsFor_beforeSign (h : IsOperatorName name) :
    StandsFor (fun s => ∃ sign s', s = sign :: s' ∧ IsSign sign ∧ BeginsOperand s')
      name (.operator name) := by
  obtain ⟨hne, hall⟩ := h
  obtain ⟨b, rest, rfl⟩ := List.exists_cons_of_ne_nil hne
  refine ⟨b, rest, rfl, (isOperatorByte_only (hall b List.mem_cons_self)).1, ?_⟩
  rintro _ ⟨sign, s, rfl, hsign, hs⟩
  have hsigns : ∀ c ∈ utf8 "-+!", isOperatorByte c = true ∧ c ≠ 46 ∧
      (c == 45 || c == 43 || c == 33) = true := by decide +kernel
  obtain ⟨hoperator, hnotPoint, hends⟩ := hsigns sign hsign
  -- the run that is scanned is the operator and the sign
  have hname : IsOperatorName (b :: (rest ++ [sign])) := by
    refine ⟨List.cons_ne_nil _ _, ?_⟩
    rw [← List.cons_append]
    exact List.forall_mem_append.mpr ⟨hall, List.forall_mem_singleton.mpr hoperator⟩
  have hpoint : ¬ EndsInPoint none (b :: (rest ++ [sign])) := by
    rintro ⟨before, heq, -⟩
    rw [← List.cons_append] at heq
    exact hnotPoint (List.cons.inj (List.append_inj' heq rfl).2).1
  have hlast : endsInSign (b :: (rest ++ [sign])) = true := by
    rw [← List.cons_append, endsInSign, List.getLast?_append]
    exact hends
  have hscan := scanLexeme_append_of_isOperatorName (s := s) hname fun _ => hpoint
  rw [scanOperator_append hname.2 hs.head?_isOperatorByte fun _ => hpoint, hlast,
    hs.startsWithOperand] at hscan
  rw [List.append_assoc, List.singleton_append] at hscan
  rw [hscan]
  have hlength : 1 < (b :: (rest ++ [sign])).length := by simp
  have hdrop : (b :: (rest ++ [sign])).dropLast = b :: rest := by
    rw [← List.cons_append, List.dropLast_concat]
  -- so the last sign is dropped, and the operator is left
  rw [decide_eq_true hlength, Bool.true_and, Bool.true_and, if_pos rfl, hdrop]

end Standing

end DynExpr
