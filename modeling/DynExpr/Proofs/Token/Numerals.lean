import DynExpr.Proofs.Double.Written
import DynExpr.Proofs.Token.Joined

/-!
# Numbers as the scanner cuts them

A hexadecimal number is `0x` or `0X` and all the hexadecimal digits behind it, at least one of them
(`scanNumber_cases`). Any other number is decimal: digits, perhaps a point and more digits, perhaps
an exponent, whose letter may be of either case and whose sign may be missing
(`exists_scanDecimal_parts`).

What the scanner cut off as a number is the same number if it stands by itself (`scanNumber_text`):
the text in front of which it was cut has no part in it any more.
-/

namespace DynExpr

open Text

variable {s digits whole fraction exponent : Text}

/-! ### Exponents -/

/-- An exponent as the scanner takes it: a letter, perhaps a sign, and digits; or nothing. -/
def IsExponentPart (s : Text) : Prop :=
  s = [] ∨ ∃ letter sign digits, (letter = 101 ∨ letter = 69) ∧
    (sign = [] ∨ sign = [43] ∨ sign = [45]) ∧ digits ≠ [] ∧ AllDigits digits ∧
    s = letter :: (sign ++ digits)

/-- The digits in front of a text are digits. -/
theorem allDigits_takeWhile (s : Text) : AllDigits (s.takeWhile isDigit) := by
  intro b hb
  exact List.all_eq_true.mp List.all_takeWhile b hb

/-- A text that starts with a digit has digits in front. -/
theorem takeWhile_isDigit_ne_nil (h : startsWithDigit s = true) : s.takeWhile isDigit ≠ [] := by
  cases s with
  | nil => cases h
  | cons b rest =>
    have hb : isDigit b = true := h
    rw [List.takeWhile_cons_of_pos hb]
    exact List.cons_ne_nil _ _

/-- What is taken as an exponent is one. -/
theorem isExponentPart_exponentPart (s : Text) : IsExponentPart (exponentPart s) := by
  -- whenever a part is missing the exponent is empty
  unfold exponentPart
  split
  · next letter rest =>
    split
    · next hletter =>
      have hletter' : letter = 101 ∨ letter = 69 := by simpa using hletter
      split
      · next sign digits =>
        split
        · next hsign =>
          have hsign' : sign = 43 ∨ sign = 45 := by simpa using hsign
          split
          · -- a letter, a sign and digits
            next hdigits =>
            refine .inr ⟨letter, [sign], digits.takeWhile isDigit, hletter', ?_,
              takeWhile_isDigit_ne_nil hdigits, allDigits_takeWhile _, rfl⟩
            rcases hsign' with rfl | rfl
            · exact .inr (.inl rfl)
            · exact .inr (.inr rfl)
          · exact .inl rfl
        · split
          · -- a letter and digits
            next hdigit =>
            exact .inr ⟨letter, [], (sign :: digits).takeWhile isDigit, hletter', .inl rfl,
              takeWhile_isDigit_ne_nil hdigit, allDigits_takeWhile _, rfl⟩
          · exact .inl rfl
      · exact .inl rfl
    · exact .inl rfl
  · exact .inl rfl

namespace IsExponentPart

variable (h : IsExponentPart exponent)

include h

/-- An exponent begins with its letter, and so neither with a digit nor with a point. -/
theorem head?_any : exponent.head?.any isDigit = false ∧ exponent.head? ≠ some 46 := by
  obtain rfl | ⟨letter, sign, digits, hletter, -, -, -, rfl⟩ := h
  · exact ⟨rfl, by simp⟩
  · rcases hletter with rfl | rfl
    · exact ⟨rfl, by simp⟩
    · exact ⟨rfl, by simp⟩

/-- What was taken as an exponent is taken as a whole again. -/
theorem exponentPart_eq : exponentPart exponent = exponent := by
  obtain rfl | ⟨letter, sign, digits, hletter, hsign, hne, hdigits, rfl⟩ := h
  · rfl
  · have hletter' : (letter == 101 || letter == 69) = true := by simpa using hletter
    have hrun := (hdigits.cut (s := []) rfl).1
    rw [List.append_nil] at hrun
    rcases hsign with rfl | rfl | rfl
    · -- without a sign, the first digit stands where a sign would
      obtain ⟨b, rest, rfl⟩ := List.exists_cons_of_ne_nil hne
      have hb : isDigit b = true := hdigits b List.mem_cons_self
      have hnosign : (b == 43 || b == 45) = false := by
        have hsigns : isDigit 43 = false ∧ isDigit 45 = false := by decide
        have h1 : b ≠ 43 := fun h => by rw [h, hsigns.1] at hb; cases hb
        have h2 : b ≠ 45 := fun h => by rw [h, hsigns.2] at hb; cases hb
        rw [beq_false_of_ne h1, beq_false_of_ne h2, Bool.or_self]
      simp only [List.nil_append, exponentPart, hletter', hnosign, hb, hrun, if_true,
        Bool.false_eq_true, if_false]
    · -- with a sign, the digits stand behind it
      simp [exponentPart, hletter', hdigits.startsWithDigit hne, hrun]
    · simp [exponentPart, hletter', hdigits.startsWithDigit hne, hrun]

end IsExponentPart

/-! ### Decimal numbers -/

/-- Every decimal number has digits, a fraction and an exponent, each of them perhaps empty. -/
theorem exists_scanDecimal_parts (s : Text) :
    ∃ whole fraction exponent, AllDigits whole ∧ AllDigits fraction ∧ IsExponentPart exponent ∧
      scanDecimal s = .number (whole ++ (pointText fraction ++ exponent))
        (Double.ofDigits false whole fraction (exponentValue exponent)) := by
  -- the three parts are those that the scanner cuts off
  have hfraction : AllDigits (fractionDigits (s.dropWhile isDigit)) := by
    unfold fractionDigits
    split
    · exact allDigits_takeWhile _
    · exact List.forall_mem_nil _
  refine ⟨_, _, exponentPart ((s.dropWhile isDigit).drop
    (pointText (fractionDigits (s.dropWhile isDigit))).length), allDigits_takeWhile s, hfraction,
    isExponentPart_exponentPart _, ?_⟩
  rw [← List.append_assoc]
  rfl

/-- What was scanned as a decimal number is scanned as the same number again. -/
theorem scanDecimal_text (s : Text) : scanDecimal (scanDecimal s).text = scanDecimal s := by
  obtain ⟨whole, fraction, exponent, hwhole, hfraction, hexponent, heq⟩ :=
    exists_scanDecimal_parts s
  obtain ⟨hdigit, hpoint⟩ := hexponent.head?_any
  rw [heq]
  exact scanDecimal_append_exponent hwhole hfraction hdigit hpoint hexponent.exponentPart_eq

/-! ### Hexadecimal numbers -/

/-- Nothing but hexadecimal digits. -/
def AllHexDigits (s : Text) : Prop := ∀ b ∈ s, isHexDigit b = true

/-- The text is a hexadecimal number: `0x` or `0X`, and digits. -/
structure IsHexadecimal (x : UInt8) (digits : Text) : Prop where
  letter : x = 120 ∨ x = 88
  ne_nil : digits ≠ []
  allHexDigits : AllHexDigits digits

/-- A hexadecimal number is cut behind its last digit. -/
theorem IsHexadecimal.scanNumber_append {x : UInt8} (h : IsHexadecimal x digits)
    (hs : s.head?.any isHexDigit = false) :
    scanNumber (48 :: x :: (digits ++ s)) = .number (48 :: x :: digits) (hexValue digits) := by
  obtain ⟨hletter, hne, hdigits⟩ := h
  have hrun : (digits ++ s).takeWhile isHexDigit = digits := by
    have hstop : s.takeWhile isHexDigit = [] := takeWhile_append_of_head? (a := []) hs
    rw [List.takeWhile_append_of_pos hdigits, hstop, List.append_nil]
  -- there is a digit behind the letter, so it is the mark of a hexadecimal number
  have hfirst : (digits ++ s).head?.any isHexDigit = true := by
    obtain ⟨b, rest, rfl⟩ := List.exists_cons_of_ne_nil hne
    exact hdigits b List.mem_cons_self
  have hletter' : (x == 120 || x == 88) = true := by simpa using hletter
  unfold scanNumber
  dsimp only
  rw [hletter', hfirst, hrun]
  rfl

/-- A hexadecimal number is scanned as a whole. -/
theorem IsHexadecimal.scanNumber_eq {x : UInt8} (h : IsHexadecimal x digits) :
    scanNumber (48 :: x :: digits) = .number (48 :: x :: digits) (hexValue digits) := by
  have hscan := h.scanNumber_append (s := []) rfl
  rwa [List.append_nil] at hscan

/-- A number is hexadecimal, or it is decimal and no text that it begins with is hexadecimal. -/
theorem scanNumber_cases (s : Text) :
    (∃ x digits, IsHexadecimal x digits ∧
      scanNumber s = .number (48 :: x :: digits) (hexValue digits)) ∨
    (scanNumber s = scanDecimal s ∧ ∀ t, t <+: s → scanNumber t = scanDecimal t) := by
  by_cases hhex : ∃ x digits, s = 48 :: x :: digits ∧ (x = 120 ∨ x = 88) ∧
      digits.head?.any isHexDigit = true
  · -- the digits of the number are as many as there are in front
    obtain ⟨x, digits, rfl, hletter, hfirst⟩ := hhex
    have hne : digits.takeWhile isHexDigit ≠ [] := by
      cases digits with
      | nil => cases hfirst
      | cons b rest =>
        rw [List.takeWhile_cons_of_pos (show isHexDigit b = true from hfirst)]
        exact List.cons_ne_nil _ _
    have hnumber : IsHexadecimal x (digits.takeWhile isHexDigit) :=
      ⟨hletter, hne, fun b hb => List.all_eq_true.mp List.all_takeWhile b hb⟩
    have hscan := hnumber.scanNumber_append (s := digits.dropWhile isHexDigit)
      (by
        have hhead := List.head?_dropWhile_not isHexDigit digits
        cases hrest : (digits.dropWhile isHexDigit).head? with
        | none => rfl
        | some b => simpa [hrest] using hhead)
    rw [List.takeWhile_append_dropWhile] at hscan
    exact .inl ⟨x, _, hnumber, hscan⟩
  · -- no prefix begins with the mark of a hexadecimal number, since the whole text does not
    have hdecimal : ∀ t, t <+: s → scanNumber t = scanDecimal t := by
      rintro t ⟨rest, rfl⟩
      unfold scanNumber
      split
      · next zero x digits =>
        rw [if_neg]
        intro hmark
        simp only [Bool.and_eq_true, Bool.or_eq_true, beq_iff_eq] at hmark
        obtain ⟨⟨rfl, hletter⟩, hfirst⟩ := hmark
        refine hhex ⟨x, digits ++ rest, rfl, hletter, ?_⟩
        cases digits with
        | nil => cases hfirst
        | cons b digits => exact hfirst
      · rfl
    exact .inr ⟨hdecimal s (List.prefix_refl s), hdecimal⟩

/-! ### All numbers -/

/-- **What was scanned as a number is scanned as the same number again.** -/
theorem scanNumber_text (s : Text) : scanNumber (scanNumber s).text = scanNumber s := by
  rcases scanNumber_cases s with ⟨x, digits, hnumber, hscan⟩ | ⟨hscan, hdecimal⟩
  · rw [hscan]
    exact hnumber.scanNumber_eq
  · -- the text of a decimal number is a beginning of the text, so it is decimal again
    rw [hscan, hdecimal _ (prefix_scanDecimal s), scanDecimal_text]

end DynExpr
