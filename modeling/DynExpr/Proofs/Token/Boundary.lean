import DynExpr.Token

/-!
# Where a lexeme ends

The scanners look one or two bytes ahead, so whether a lexeme ends where its text ends depends on
what comes next. Two conditions on the next bytes cover all that is written without a blank in
between.

* `Breaks s`: the text `s` continues no number and no name. It begins with no letter or digit, and
  an operator at its beginning is not followed by one either. Before such a text, numbers and names
  are scanned as if they stood alone (`scanNumber_append`, `nameLeading_append`).
* `Closes s`: the text `s` is at its end, or begins with a blank, a comma or a closing bracket.
  Before such a text an operator is scanned as if it stood alone.

Before an operand, an operator has to be more careful (`scanOperator_append`): a last sign is left
to the operand, and so is a point that no other point precedes.

String literals end by themselves. `scanString_quoted` reads back what `Text.quoted` wrote, and
`scanString_verbatim` is for contents that need no escapes.
-/

namespace DynExpr

open Text

/-! ### Classes of bytes -/

/-- A byte of numbers and names. -/
def isWordByte (b : UInt8) : Bool := isDigit b || isNameStart b

/-- The brackets, the comma and the two quotes. -/
def punctuation : Text := utf8 "()[],'\""

/-- What holds of the first 256 numbers holds of every byte. -/
theorem forall_byte {p : UInt8 → Bool}
    (h : (List.range 256).all (fun n => p (UInt8.ofNat n)) = true) (b : UInt8) : p b = true := by
  have hmem : b.toNat ∈ List.range 256 := List.mem_range.mpr b.toNat_lt
  simpa using List.all_eq_true.mp h _ hmem

/-- The classes of bytes that begin lexemes exclude each other and the blanks. -/
theorem isDigit_only {b : UInt8} (h : isDigit b = true) :
    isBlank b = false ∧ isNameStart b = false ∧ isOperatorByte b = false ∧ b ∉ punctuation := by
  have hbytes := forall_byte (p := fun b => !isDigit b || (!isBlank b && !isNameStart b &&
    !isOperatorByte b && decide (b ∉ punctuation))) (by decide +kernel) b
  simpa [h, and_assoc] using hbytes

/-- Bytes that begin names are no blanks, digits, operators or punctuation. -/
theorem isNameStart_only {b : UInt8} (h : isNameStart b = true) :
    isBlank b = false ∧ isDigit b = false ∧ isOperatorByte b = false ∧ b ∉ punctuation := by
  have hbytes := forall_byte (p := fun b => !isNameStart b || (!isBlank b && !isDigit b &&
    !isOperatorByte b && decide (b ∉ punctuation))) (by decide +kernel) b
  simpa [h, and_assoc] using hbytes

/-- Bytes of operators are no blanks and no punctuation, and begin neither numbers nor names. -/
theorem isOperatorByte_only {b : UInt8} (h : isOperatorByte b = true) :
    isBlank b = false ∧ isDigit b = false ∧ isNameStart b = false ∧ b ∉ punctuation := by
  have hbytes := forall_byte (p := fun b => !isOperatorByte b || (!isBlank b && !isDigit b &&
    !isNameStart b && decide (b ∉ punctuation))) (by decide +kernel) b
  simpa [h, and_assoc] using hbytes

/-- Hexadecimal digits are bytes of numbers and names. -/
theorem isHexDigit_isWordByte {b : UInt8} (h : isHexDigit b = true) : isWordByte b = true := by
  have hbytes := forall_byte (p := fun b => !isHexDigit b || isWordByte b) (by decide +kernel) b
  simpa [h] using hbytes

/-- Other bytes are no digits of any kind and begin no name. -/
theorem isWordByte_false {b : UInt8} (h : isWordByte b = false) :
    isDigit b = false ∧ isNameStart b = false ∧ isHexDigit b = false := by
  -- hexadecimal digits are bytes of words
  have hhex : isHexDigit b = false := by
    cases hb : isHexDigit b with
    | false => rfl
    | true => rw [isHexDigit_isWordByte hb] at h; cases h
  have hboth := Bool.or_eq_false_iff.mp h
  exact ⟨hboth.1, hboth.2, hhex⟩

/-! ### Conditions on what comes next -/

/-- The text continues no number and no name that stands before it. -/
def Breaks : Text → Prop
  | [] => True
  | b :: rest =>
    isWordByte b = false ∧ (isOperatorByte b = true → rest.head?.any isWordByte = false)

/-- The text is at its end, or begins with a closing bracket, a comma or a space. -/
def Closes : Text → Prop
  | [] => True
  | b :: _ => b ∈ utf8 ")], "

/-- What closes continues no number, no name and no operator, and begins no operand. -/
theorem Closes.head {b : UInt8} {rest : Text} (h : Closes (b :: rest)) :
    isWordByte b = false ∧ isOperatorByte b = false ∧ startsWithOperand (b :: rest) = false := by
  have hall : ∀ b ∈ utf8 ")], ", isWordByte b = false ∧ isOperatorByte b = false ∧
      (isDigit b || isNameStart b || b == 40 || b == 91 || b == 39 || b == 34 || b == 46) = false :=
    by decide +kernel
  obtain ⟨hword, hoperator, hoperand⟩ := hall b h
  simp only [Bool.or_eq_false_iff] at hoperand
  obtain ⟨⟨⟨⟨⟨⟨h1, h2⟩, h3⟩, h4⟩, h5⟩, h6⟩, h7⟩ := hoperand
  exact ⟨hword, hoperator, by simp only [startsWithOperand, h1, h2, h3, h4, h5, h6, h7]; rfl⟩

/-- What closes breaks off numbers and names. -/
theorem Closes.breaks {s : Text} (h : Closes s) : Breaks s := by
  cases s with
  | nil => trivial
  | cons b rest =>
    obtain ⟨hword, hoperator, -⟩ := h.head
    exact ⟨hword, fun hb => by rw [hoperator] at hb; cases hb⟩

/-- What breaks off begins with no byte of a word. -/
theorem Breaks.head? {s : Text} (h : Breaks s) : s.head?.any isWordByte = false := by
  cases s with
  | nil => rfl
  | cons b rest => exact h.1

section Words

variable {s : Text} (hs : Breaks s)

include hs

/-- What breaks off begins with no digit. -/
theorem Breaks.isDigit_head? : s.head?.any isDigit = false := by
  cases s with
  | nil => rfl
  | cons b rest => exact (isWordByte_false hs.1).1

/-- What breaks off begins with no hexadecimal digit. -/
theorem Breaks.isHexDigit_head? : s.head?.any isHexDigit = false := by
  cases s with
  | nil => rfl
  | cons b rest => exact (isWordByte_false hs.1).2.2

/-- What breaks off begins with no name. -/
theorem Breaks.isNameStart_head? : s.head?.any isNameStart = false := by
  cases s with
  | nil => rfl
  | cons b rest => exact (isWordByte_false hs.1).2.1

end Words

/-! ### Cutting off a run -/

section Runs

variable {p : UInt8 → Bool} {a s : Text}

/-- A condition on the first byte that fails at the second text depends on the first text alone. -/
theorem head?_append_any (h : s.head?.any p = false) : (a ++ s).head?.any p = a.head?.any p := by
  cases a with
  | nil => exact h
  | cons b rest => rfl

/-- A run ends where the text ends, if what comes next does not continue it. -/
theorem takeWhile_append_of_head? (h : s.head?.any p = false) :
    (a ++ s).takeWhile p = a.takeWhile p := by
  induction a with
  | nil =>
    -- the run is over before the second text begins
    cases s with
    | nil => rfl
    | cons b rest => exact List.takeWhile_cons_of_neg (by simpa using h)
  | cons b rest ih => rw [List.cons_append, List.takeWhile_cons, List.takeWhile_cons, ih]

/-- Behind the run the second text is left as it is. -/
theorem dropWhile_append_of_head? (h : s.head?.any p = false) :
    (a ++ s).dropWhile p = a.dropWhile p ++ s := by
  induction a with
  | nil =>
    cases s with
    | nil => rfl
    | cons b rest => exact List.dropWhile_cons_of_neg (by simpa using h)
  | cons b rest ih =>
    rw [List.cons_append, List.dropWhile_cons, List.dropWhile_cons, ih]
    split <;> rfl

end Runs

/-! ### Numbers -/

section Numbers

variable {a s : Text} (hs : Breaks s)

include hs

/-- The digits behind a point end where the text ends. -/
theorem fractionDigits_append : fractionDigits (a ++ s) = fractionDigits a := by
  cases a with
  | nil =>
    cases s with
    | nil => rfl
    | cons b rest =>
      unfold fractionDigits
      split
      · next rest' heq =>
        -- a point that begins `s` has no digit behind it
        obtain ⟨rfl, rfl⟩ := List.cons.inj heq
        have hnext := hs.2 (by decide)
        cases rest with
        | nil => rfl
        | cons c rest =>
          exact List.takeWhile_cons_of_neg (by simp [(isWordByte_false hnext).1])
      · rfl
  | cons b rest =>
    unfold fractionDigits
    by_cases hb : b = 46
    · subst hb
      exact takeWhile_append_of_head? hs.isDigit_head?
    · simp [hb]

/-- An exponent needs digits, and `s` begins with none, nor with a sign before one. -/
theorem exponentPart_append : exponentPart (a ++ s) = exponentPart a := by
  cases a with
  | nil =>
    cases s with
    | nil => rfl
    | cons b rest =>
      -- the letter of an exponent is a byte of a word
      have hletters : isWordByte 101 = true ∧ isWordByte 69 = true := by decide
      have hword := hs.1
      have h1 : b ≠ 101 := fun h => by rw [h, hletters.1] at hword; cases hword
      have h2 : b ≠ 69 := fun h => by rw [h, hletters.2] at hword; cases hword
      simp [exponentPart, h1, h2]
  | cons letter digits =>
    by_cases hletter : letter == 101 || letter == 69
    · cases digits with
      | nil =>
        cases s with
        | nil => rfl
        | cons sign rest =>
          have hdigit := (isWordByte_false hs.1).1
          -- a sign that begins the second text has no digit behind it
          by_cases hsign : sign == 43 || sign == 45
          · have hoperator : isOperatorByte sign = true := by
              rcases Bool.or_eq_true_iff.mp hsign with h | h <;> rw [eq_of_beq h] <;> decide
            have hnext : startsWithDigit rest = false := by
              have hrest := hs.2 hoperator
              cases rest with
              | nil => rfl
              | cons c rest => exact (isWordByte_false hrest).1
            simp [exponentPart, hletter, hsign, hnext]
          · simp [exponentPart, hletter, hsign, hdigit]
      | cons sign digits =>
        have hstart : startsWithDigit (digits ++ s) = startsWithDigit digits :=
          head?_append_any hs.isDigit_head?
        have hrun : (digits ++ s).takeWhile isDigit = digits.takeWhile isDigit :=
          takeWhile_append_of_head? hs.isDigit_head?
        have hrun' : (sign :: (digits ++ s)).takeWhile isDigit =
            (sign :: digits).takeWhile isDigit :=
          takeWhile_append_of_head? (a := sign :: digits) hs.isDigit_head?
        simp only [List.cons_append, exponentPart, hstart, hrun, hrun']
    · simp [exponentPart, hletter]

/-- A decimal number ends where its text ends. -/
theorem scanDecimal_append : scanDecimal (a ++ s) = scanDecimal a := by
  -- the point and its digits are a part of what stands behind the whole digits
  have hpoint : (if (fractionDigits (a.dropWhile isDigit)).isEmpty then ([] : Text)
      else 46 :: fractionDigits (a.dropWhile isDigit)).length ≤ (a.dropWhile isDigit).length := by
    split
    · exact Nat.zero_le _
    · next hfraction =>
      unfold fractionDigits at hfraction ⊢
      split at hfraction
      · next rest heq =>
        rw [heq, List.length_cons, List.length_cons]
        exact Nat.succ_le_succ (List.takeWhile_sublist isDigit).length_le
      · exact absurd rfl hfraction
  unfold scanDecimal
  dsimp only
  rw [takeWhile_append_of_head? hs.isDigit_head?, dropWhile_append_of_head? hs.isDigit_head?,
    fractionDigits_append hs, List.drop_append_of_le_length hpoint, exponentPart_append hs]

/-- **A number ends where its text ends**, if what comes next continues no number. -/
theorem scanNumber_append (ha : a ≠ []) : scanNumber (a ++ s) = scanNumber a := by
  have hdecimal := scanDecimal_append (a := a) hs
  cases a with
  | nil => exact absurd rfl ha
  | cons zero a =>
    cases a with
    | nil =>
      cases s with
      | nil => rfl
      | cons x digits =>
        -- what comes next is not the letter of a hexadecimal number
        have hletters : isWordByte 120 = true ∧ isWordByte 88 = true := by decide
        have hword := hs.1
        have h1 : x ≠ 120 := fun h => by rw [h, hletters.1] at hword; cases hword
        have h2 : x ≠ 88 := fun h => by rw [h, hletters.2] at hword; cases hword
        have hcondition : (zero == 48 && (x == 120 || x == 88) && digits.head?.any isHexDigit) =
            false := by
          simp [h1, h2]
        rw [List.cons_append, List.nil_append] at hdecimal ⊢
        unfold scanNumber
        simp only [hcondition]
        exact hdecimal
    | cons x digits =>
      rw [List.cons_append, List.cons_append] at hdecimal ⊢
      unfold scanNumber
      -- the letter is in the first text, and only the digits behind it could go on
      simp only [head?_append_any hs.isHexDigit_head?,
        takeWhile_append_of_head? hs.isHexDigit_head?, hdecimal]

end Numbers

/-! ### Names -/

/-- **A name ends where its text ends**, if what comes next continues no name. -/
theorem nameLeading_append {a s : Text} (hs : Breaks s) :
    nameLeading (a ++ s) = nameLeading a := by
  induction a with
  | nil =>
    cases s with
    | nil => rfl
    | cons b rest =>
      obtain ⟨hdigit, hname, -⟩ := isWordByte_false hs.1
      -- a point continues a name only before a byte that begins one
      have hpoint : (b == 46 && rest.head?.any isNameStart) = false := by
        by_cases hb : b = 46
        · have hnext := hs.2 (by rw [hb]; decide)
          cases rest with
          | nil => simp
          | cons c rest => simp [(isWordByte_false hnext).2.1]
        · simp [hb]
      simp [nameLeading, hdigit, hname, hpoint]
  | cons b rest ih =>
    simp only [List.cons_append, nameLeading, ih, head?_append_any hs.isNameStart_head?]

/-! ### Operators -/

/-- The text ends in a point that no other point precedes, given the byte before the text. -/
def EndsInPoint (previous : Option UInt8) (a : Text) : Prop :=
  ∃ before, a = before ++ [46] ∧ before.getLast?.or previous ≠ some 46

/-- A text that ends in such a point does so too with the byte before it. -/
theorem EndsInPoint.cons {previous : Option UInt8} {b : UInt8} {a : Text}
    (h : EndsInPoint (some b) a) : EndsInPoint previous (b :: a) := by
  obtain ⟨before, rfl, hbefore⟩ := h
  refine ⟨b :: before, rfl, ?_⟩
  rw [List.getLast?_cons, Option.some_or]
  cases hlast : before.getLast? with
  | none => rwa [hlast, Option.none_or] at hbefore
  | some c => rwa [hlast, Option.some_or] at hbefore

/-- A run of operator bytes is taken whole, unless its last point belongs to a number. -/
theorem operatorRun_append {previous : Option UInt8} {a s : Text}
    (ha : ∀ b ∈ a, isOperatorByte b = true) (hs : s.head?.any isOperatorByte = false)
    (hpoint : startsWithDigit s = true → ¬ EndsInPoint previous a) :
    operatorRun previous (a ++ s) = a := by
  induction a generalizing previous with
  | nil =>
    cases s with
    | nil => rfl
    | cons b rest =>
      have hb : isOperatorByte b = false := hs
      simp [operatorRun, hb]
  | cons b rest ih =>
    rw [List.forall_mem_cons] at ha
    have hrest : operatorRun (some b) (rest ++ s) = rest :=
      ih ha.2 fun hdigit hend => hpoint hdigit hend.cons
    have hnumber : (b == 46 && startsWithDigit (rest ++ s) && previous.any (· != 46)) = false := by
      cases rest with
      | nil =>
        -- the last byte: a point before a digit is excluded
        rw [Bool.eq_false_iff]
        intro h
        simp only [List.nil_append, Bool.and_eq_true, beq_iff_eq] at h
        obtain ⟨⟨rfl, hdigit⟩, hprevious⟩ := h
        refine hpoint hdigit ⟨[], rfl, ?_⟩
        rintro rfl
        exact Bool.false_ne_true hprevious
      | cons c rest =>
        have hc : startsWithDigit (c :: rest ++ s) = false :=
          (isOperatorByte_only (List.forall_mem_cons.mp ha.2).1).2.1
        -- any other byte has an operator behind it, which is no digit
        rw [hc, Bool.and_false, Bool.false_and]
    simp [operatorRun, ha.1, hnumber, hrest]

/-- The last byte is a sign that an operand takes to itself. -/
def endsInSign (a : Text) : Bool := a.getLast?.any fun b => b == 45 || b == 43 || b == 33

/-- **What the scanner makes of a run of operator bytes**: all of it, or all but a last sign that
stands before an operand. -/
theorem scanOperator_append {a s : Text} (ha : ∀ b ∈ a, isOperatorByte b = true)
    (hs : s.head?.any isOperatorByte = false)
    (hpoint : startsWithDigit s = true → ¬ EndsInPoint none a) :
    scanOperator (a ++ s) =
      if 1 < a.length && endsInSign a && startsWithOperand s then a.dropLast else a := by
  unfold scanOperator
  dsimp only
  -- the run is the first text, so what comes next is the second one
  rw [operatorRun_append ha hs hpoint, List.drop_left]
  rfl

/-! ### Strings -/

section Strings

variable {quote b c : UInt8} {rest contents s : Text} {covered : Nat}

/-- The closing quote ends a literal. -/
theorem scanString_close : scanString quote (quote :: rest) = some ([], 1) := by
  rw [scanString.eq_def]
  exact if_pos (beq_self_eq_true quote)

/-- A backslash and the byte behind it stand for one byte. -/
theorem scanString_escape (hquote : quote ≠ 92)
    (h : scanString quote rest = some (contents, covered)) :
    scanString quote (92 :: c :: rest) = some (unescape c :: contents, covered + 2) := by
  rw [scanString.eq_def]
  simp [Ne.symm hquote, h]

/-- Any other byte stands for itself. -/
theorem scanString_byte (hquote : b ≠ quote) (hbackslash : b ≠ 92)
    (h : scanString quote rest = some (contents, covered)) :
    scanString quote (b :: rest) = some (b :: contents, covered + 1) := by
  rw [scanString.eq_def]
  simp [hquote, hbackslash, h]

/-- A byte that has to be escaped is a backslash and another byte, which stands for it. -/
theorem escape_of_mem (h : b ∈ [92, 39, 10, 9, 13, 0]) :
    ∃ c, escape b = [92, c] ∧ unescape c = b := by
  simp only [List.mem_cons, List.not_mem_nil, or_false] at h
  rcases h with rfl | rfl | rfl | rfl | rfl | rfl
  · exact ⟨92, by decide⟩
  · exact ⟨39, by decide⟩
  · exact ⟨110, by decide⟩
  · exact ⟨116, by decide⟩
  · exact ⟨114, by decide⟩
  · exact ⟨48, by decide⟩

/-- **The literal that `quoted` writes is read back**, whatever follows. -/
theorem scanString_quoted (contents s : Text) :
    scanString 39 (contents.flatMap escape ++ 39 :: s) =
      some (contents, (contents.flatMap escape).length + 1) := by
  induction contents with
  | nil => exact scanString_close
  | cons b rest ih =>
    rw [List.flatMap_cons, List.append_assoc, List.length_append]
    -- a byte takes two places if it is escaped, and one otherwise
    by_cases hescaped : b ∈ [92, 39, 10, 9, 13, 0]
    · obtain ⟨c, hescape, rfl⟩ := escape_of_mem hescaped
      rw [hescape, List.cons_append, List.cons_append, List.nil_append,
        scanString_escape (by decide) ih]
      simp only [List.length_cons, List.length_nil, Option.some.injEq, Prod.mk.injEq, true_and]
      omega
    · simp only [List.mem_cons, List.not_mem_nil, or_false, not_or] at hescaped
      obtain ⟨h1, h2, h3, h4, h5, h6⟩ := hescaped
      have hescape : escape b = [b] := by simp [escape, h1, h2, h3, h4, h5, h6]
      rw [hescape, List.cons_append, List.nil_append, scanString_byte h2 h1 ih]
      simp only [List.length_cons, List.length_nil, Option.some.injEq, Prod.mk.injEq, true_and]
      omega

/-- Contents without quotes and backslashes need no escapes. -/
theorem scanString_verbatim (hquote : quote ∉ contents) (hbackslash : 92 ∉ contents) (s : Text) :
    scanString quote (contents ++ quote :: s) = some (contents, contents.length + 1) := by
  induction contents with
  | nil => exact scanString_close
  | cons b rest ih =>
    rw [List.mem_cons, not_or] at hquote hbackslash
    exact scanString_byte (Ne.symm hquote.1) (Ne.symm hbackslash.1) (ih hquote.2 hbackslash.2)

end Strings

end DynExpr
