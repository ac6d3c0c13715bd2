import DynExpr.Proofs.Channel.Tag
import DynExpr.Token

/-!
# How a lexeme is scanned

A lexeme that is scanned is a mark of one byte, a string literal, a number, a name or an operator,
and it covers the bytes that were read for it (`Scans`). What is true of each of these kinds is true
of every lexeme that the scanner finds (`scans_of_scanLexeme`), and of all tokens of a line
(`tokensFrom_forall`).
-/

namespace DynExpr

open Text

variable {b : UInt8} {rest : Text} {lexeme : Lexeme} {covered : Nat}

/-- The lexeme that begins with the byte `b`, and the number of bytes that it covers. -/
inductive Scans (b : UInt8) (rest : Text) : Lexeme → Nat → Prop
  | leftParen (hb : b = 40) : Scans b rest .leftParen 1
  | rightParen (hb : b = 41) : Scans b rest .rightParen 1
  | leftBracket (hb : b = 91) : Scans b rest .leftBracket 1
  | rightBracket (hb : b = 93) : Scans b rest .rightBracket 1
  | comma (hb : b = 44) : Scans b rest .comma 1
  | literal {contents : Text} {covered : Nat} (hquote : b = 39 ∨ b = 34)
      (hstring : scanString b rest = some (contents, covered)) :
    Scans b rest (.identifier (b :: (contents ++ [b]))) (covered + 1)
  | number (hnumber : (isDigit b || (b == 46 && startsWithDigit rest)) = true) :
    Scans b rest (scanNumber (b :: rest)) (scanNumber (b :: rest)).text.length
  | name (hname : isNameStart b = true) :
    Scans b rest (.identifier (nameLeading (b :: rest))) (nameLeading (b :: rest)).length
  | operator (hoperator : isOperatorByte b = true) :
    Scans b rest (.operator (scanOperator (b :: rest))) (scanOperator (b :: rest)).length

/-- **A lexeme that is scanned is of one of these kinds.** -/
theorem scans_of_scanLexeme (h : scanLexeme b rest = .ok (lexeme, covered)) :
    Scans b rest lexeme covered := by
  unfold scanLexeme at h
  -- the branches are those of the definition, and only the literal and the last one can fail
  split at h
  · next hb =>
    cases h
    exact .leftParen (eq_of_beq hb)
  split at h
  · next hb =>
    cases h
    exact .rightParen (eq_of_beq hb)
  split at h
  · next hb =>
    cases h
    exact .leftBracket (eq_of_beq hb)
  split at h
  · next hb =>
    cases h
    exact .rightBracket (eq_of_beq hb)
  split at h
  · next hb =>
    cases h
    exact .comma (eq_of_beq hb)
  split at h
  · next hquote =>
    split at h
    · next hstring =>
      cases h
      exact .literal (by simpa using hquote) hstring
    · cases h
  split at h
  · next hnumber =>
    cases h
    exact .number hnumber
  split at h
  · next hname =>
    cases h
    exact .name hname
  split at h
  · next hoperator =>
    cases h
    exact .operator hoperator
  · cases h

/-- What is scanned as a number is a number, whatever the text is. -/
theorem exists_scanNumber_eq (s : Text) : ∃ text value, scanNumber s = .number text value := by
  -- hexadecimal or decimal, in the end there is one
  unfold scanNumber
  split
  · split
    · exact ⟨_, _, rfl⟩
    · exact ⟨_, _, rfl⟩
  · exact ⟨_, _, rfl⟩

/-- What holds of every lexeme that is scanned, and of the finish, holds of all tokens. -/
theorem tokensFrom_forall {P : Lexeme → Prop} (hfinish : P .finish)
    (hscan : ∀ {b rest lexeme covered}, scanLexeme b rest = .ok (lexeme, covered) → P lexeme)
    {position : Nat} {s : Text} {tokens : List Token} (h : tokensFrom position s = .ok tokens) :
    ∀ token ∈ tokens, P token.lexeme := by
  rw [tokensFrom] at h
  split at h
  · obtain rfl := Except.ok.inj h
    exact List.forall_mem_singleton.mpr hfinish
  · next b rest hcut =>
    split at h
    · cases h
    · next lexeme covered hlexeme =>
      split at h
      · cases h
      · next others hothers =>
        -- what is left behind the lexeme is shorter, even if the lexeme covered no byte
        have hshorter : (rest.drop (covered - 1)).length < s.length := by
          have hsublist := (List.dropWhile_sublist Text.isBlank (l := s)).length_le
          rw [hcut, List.length_cons] at hsublist
          rw [List.length_drop]
          omega
        obtain rfl := Except.ok.inj h
        exact List.forall_mem_cons.mpr ⟨hscan hlexeme, tokensFrom_forall hfinish hscan hothers⟩
termination_by s.length
decreasing_by assumption

/-!
## The numbers that a line can name

A numeral has no sign and names no NaN: its double is one from zero to infinity, whose bits are at
most those of infinity (`Double.IsMagnitude`). So no numeral is read as a double that tags are
made of (`Double.IsMagnitude.not_reserved`), and neither is any token of a line
(`tokensFrom_namesMagnitude`).
-/

/-- The double is a number from zero to infinity. -/
def Double.IsMagnitude (d : Double) : Prop := d.bits.toNat ≤ Double.infinityBits

namespace Double

/-- A number from zero to infinity is no tag of the channel. -/
theorem IsMagnitude.not_reserved {d : Double} (h : d.IsMagnitude) : ¬ Channel.Reserved d := by
  have hbits : d.bits.toNat ≤ infinityBits := h
  unfold infinityBits at hbits
  rw [Channel.reserved_iff, Channel.toNat_mask]
  omega

/-- Without a sign, bits up to those of infinity are such a number. -/
theorem isMagnitude_ofParts {magnitude : Nat} (h : magnitude ≤ infinityBits) :
    (ofParts false magnitude).IsMagnitude := by
  have hlt : magnitude < 2 ^ 63 := Nat.lt_of_le_of_lt h (by decide)
  have hbits := toNat_ofParts false hlt
  rw [IsMagnitude, hbits, if_neg Bool.false_ne_true, Nat.zero_add]
  exact h

/-- Rounding gives infinity at most. -/
theorem isMagnitude_ofRatio (num den : Nat) : (ofRatio false num den).IsMagnitude :=
  isMagnitude_ofParts (Nat.min_le_right _ _)

/-- A choice between two such numbers is one. -/
theorem isMagnitude_ite {c : Prop} [Decidable c] {d e : Double} (hd : d.IsMagnitude)
    (he : e.IsMagnitude) : (if c then d else e).IsMagnitude := by
  split
  · exact hd
  · exact he

/-- The two ways of rounding a numeral give such numbers. -/
theorem isMagnitude_ofNumeral (places num den : Nat) :
    (ofNumeral places false num den).IsMagnitude :=
  isMagnitude_ite (isMagnitude_ofRatio _ _) (isMagnitude_ofRatio _ _)

/-- A numeral with an exponent is such a number. -/
theorem isMagnitude_ofScaled (base places mantissa : Nat) (exponent : Int) :
    (ofScaled base places false mantissa exponent).IsMagnitude := by
  have hzero : (ofParts false 0).IsMagnitude := isMagnitude_ofParts (Nat.zero_le _)
  have hinfinity : (infinity false).IsMagnitude := isMagnitude_ofParts (Nat.le_refl _)
  -- zero, and exponents that are out of range, are decided before anything is rounded
  exact isMagnitude_ite hzero <| isMagnitude_ite hinfinity <| isMagnitude_ite hzero <|
    isMagnitude_ite (isMagnitude_ofRatio _ _) <|
    isMagnitude_ite (isMagnitude_ofRatio _ _) (isMagnitude_ofNumeral _ _ _)

/-- A natural number is rounded without a sign. -/
theorem ofNat_eq (n : Nat) : ofNat n = ofRatio false (n * unitsPerOne) 1 := by
  have hsign : decide ((n : Int) < 0) = false := decide_eq_false (by omega)
  unfold ofNat ofInt
  rw [hsign, Int.natAbs_natCast]

/-- A natural number is such a number. -/
theorem isMagnitude_ofNat (n : Nat) : (ofNat n).IsMagnitude := by
  rw [ofNat_eq]
  exact isMagnitude_ofRatio _ _

end Double

/-! ### Tokens -/

/-- If the lexeme is a number, it is one from zero to infinity. -/
def Lexeme.NamesMagnitude (lexeme : Lexeme) : Prop :=
  ∀ text value, lexeme = .number text value → value.IsMagnitude

/-- The value of a decimal number is one from zero to infinity. -/
theorem scanDecimal_namesMagnitude (s : Text) : (scanDecimal s).NamesMagnitude := by
  rintro text value h
  obtain ⟨-, rfl⟩ := Lexeme.number.inj h
  exact Double.isMagnitude_ofScaled _ _ _ _

/-- The value of a number is one from zero to infinity. -/
theorem scanNumber_namesMagnitude (s : Text) : (scanNumber s).NamesMagnitude := by
  unfold scanNumber
  split
  · -- the value of hexadecimal digits is a natural number
    split
    · rintro text value h
      obtain ⟨-, rfl⟩ := Lexeme.number.inj h
      exact Double.isMagnitude_ofNat _
    · exact scanDecimal_namesMagnitude _
  · exact scanDecimal_namesMagnitude _

/-- The value of a scanned number is one from zero to infinity. -/
theorem scanLexeme_namesMagnitude {b : UInt8} {rest : Text} {lexeme : Lexeme} {covered : Nat}
    (h : scanLexeme b rest = .ok (lexeme, covered)) : lexeme.NamesMagnitude := by
  cases scans_of_scanLexeme h with
  | number => exact scanNumber_namesMagnitude _
  -- no other lexeme has a value
  | _ => exact fun _ _ hnumber => nomatch hnumber

/-- Every number of a line is one from zero to infinity. -/
theorem tokensFrom_namesMagnitude {position : Nat} {s : Text} {tokens : List Token}
    (h : tokensFrom position s = .ok tokens) :
    ∀ token ∈ tokens, token.lexeme.NamesMagnitude :=
  tokensFrom_forall (fun _ _ hnumber => nomatch hnumber) scanLexeme_namesMagnitude h

end DynExpr
