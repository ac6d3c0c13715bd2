import DynExpr.Proofs.Double.Shortest
import DynExpr.Proofs.Double.Written
import DynExpr.Proofs.Token.Joined

/-!
# Written numbers are read back

A finite number without a sign is written as a numeral, and what the scanner reads from the numeral
is this number again (`Double.scanNumber_text`).

Each notation is read as the decimal that it writes: `ReadsAs s n exponent` says that the scanner
reads all of `s`, as `n * 10 ^ exponent`. The digits of an integer have its value
(`digitsValue_decimalText`), a point moves the exponent by the digits behind it, and an exponent is
read as the number that it writes (`exponentValue_exponentText`). It remains that the decimal lies
between the midpoints of the number. The shortest decimal does, and the integers that are written
in full are exact: the number is itself an integer then, since no other number has an integer
between its midpoints.

`tokenize_text` says the same of the line that consists of the written number.
-/

namespace DynExpr

open Text

/-! ### Digits -/

/-- One more digit multiplies by ten and adds its value. -/
theorem digitsValue_append_singleton (s : Text) (b : UInt8) :
    digitsValue 10 (s ++ [b]) = digitsValue 10 s * 10 + hexDigitValue b := by
  unfold digitsValue
  rw [List.foldl_append]
  rfl

/-- A decimal digit has the value that it was written for. -/
theorem hexDigitValue_digitChar {n : Nat} (h : n < 10) :
    hexDigitValue (Nat.digitChar n).toUInt8 = n := by
  have hall : ∀ n < 10, hexDigitValue (Nat.digitChar n).toUInt8 = n := by decide +kernel
  exact hall n h

/-- The last digit is the rest of the division by ten. -/
theorem decimalText_eq (n : Nat) :
    decimalText n =
      (if n < 10 then [] else decimalText (n / 10)) ++ [(Nat.digitChar (n % 10)).toUInt8] := by
  unfold decimalText
  rw [Nat.toDigits_eq_if (by omega)]
  split
  · next hlt => rw [Nat.mod_eq_of_lt hlt]; rfl
  · rw [List.map_append]; rfl

/-- **The digits of a number have its value.** -/
theorem digitsValue_decimalText (n : Nat) : digitsValue 10 (decimalText n) = n := by
  rw [decimalText_eq, digitsValue_append_singleton,
    hexDigitValue_digitChar (Nat.mod_lt _ (by omega))]
  -- a single digit, or more of them with the last one apart
  split
  · next hlt =>
    have hnil : digitsValue 10 [] = 0 := rfl
    omega
  · rw [digitsValue_decimalText (n / 10)]
    omega
termination_by n

namespace Double

/-! ### Notations -/

/-- The scanner reads the whole text, as the numeral `n * 10 ^ exponent`. -/
def ReadsAs (s : Text) (n : Nat) (exponent : Int) : Prop :=
  scanNumber s = .number s (ofDecimal false n exponent)

/-- **An exponent is read as the number that it writes.** -/
theorem exponentValue_exponentText (exponent : Int) :
    exponentValue (exponentText exponent) = exponent := by
  -- the zero that fills up to two digits does not count
  have hvalue : digitsValue 10 (if (decimalText exponent.natAbs).length < 2 then
      48 :: decimalText exponent.natAbs else decimalText exponent.natAbs) = exponent.natAbs := by
    split
    · exact (digitsValue_zeros 1 _).trans (digitsValue_decimalText _)
    · exact digitsValue_decimalText _
  unfold exponentText
  dsimp only
  generalize (if (decimalText exponent.natAbs).length < 2 then
    48 :: decimalText exponent.natAbs else decimalText exponent.natAbs) = digits at hvalue ⊢
  split
  · show -(digitsValue 10 digits : Int) = exponent
    rw [hvalue]
    omega
  · show (digitsValue 10 digits : Int) = exponent
    rw [hvalue]
    omega

section Notations

variable {digits whole fraction exponent : Text}

/-- A point moves the exponent by the digits behind it. -/
theorem readsAs_parts (hne : whole ≠ []) (hwhole : AllDigits whole)
    (hfraction : AllDigits fraction) (hexponent : IsExponent exponent) :
    ReadsAs (whole ++ (pointText fraction ++ exponent)) (digitsValue 10 (whole ++ fraction))
      (exponentValue exponent - fraction.length) := by
  have hnumeral : IsNumeral (whole ++ (pointText fraction ++ exponent)) :=
    ⟨whole, fraction, exponent, hne, hwhole, hfraction, hexponent, rfl⟩
  exact hnumeral.scanNumber_eq.trans (scanDecimal_parts hwhole hfraction hexponent)

/-- Digits alone are read as the integer that they denote. -/
theorem readsAs_digits (hne : digits ≠ []) (hdigits : AllDigits digits) :
    ReadsAs digits (digitsValue 10 digits) 0 := by
  have hreads : ReadsAs (digits ++ []) (digitsValue 10 (digits ++ [])) 0 :=
    readsAs_parts hne hdigits (List.forall_mem_nil _) (.inl rfl)
  rwa [List.append_nil] at hreads

/-- The digits of a number are read as the number. -/
theorem readsAs_decimalText (n : Nat) : ReadsAs (decimalText n) n 0 := by
  have hreads := readsAs_digits (decimalText_ne_nil n) (allDigits_decimalText n)
  rwa [digitsValue_decimalText] at hreads

/-- Positional notation is read as a decimal with as many places. -/
theorem readsAs_fractionText (hdigits : AllDigits digits) {places : Nat} (hplaces : 0 < places) :
    ReadsAs (fractionText digits places) (digitsValue 10 digits) (-places) := by
  obtain ⟨whole, fraction, hne, hwhole, hfraction, hlength, hvalue, htext⟩ :=
    fractionText_parts hdigits hplaces
  have hreads := readsAs_parts hne hwhole hfraction (.inl rfl)
  rw [← htext, hvalue, hlength] at hreads
  rwa [show exponentValue [] - (places : Int) = -places from Int.zero_sub _] at hreads

/-- Scientific notation is read as the decimal that it writes. -/
theorem readsAs_scientificText (hdigits : AllDigits digits) (hne : digits ≠ [])
    (exponent : Int) :
    ReadsAs (scientificText digits exponent) (digitsValue 10 digits) exponent := by
  -- one digit stands in front of the point, and the exponent makes up for the others
  obtain ⟨b, rest, rfl⟩ := List.exists_cons_of_ne_nil hne
  obtain ⟨hb, hrest⟩ := List.forall_mem_cons.mp hdigits
  have hreads := readsAs_parts (List.cons_ne_nil b []) (List.forall_mem_singleton.mpr hb) hrest
    (isExponent_exponentText (exponent + rest.length))
  rw [exponentValue_exponentText, Int.add_sub_cancel, ← List.append_assoc] at hreads
  exact hreads

end Notations

/-! ### Numbers -/

/-- An integer is exact when it is written in full. -/
theorem isDecimalOf_integer {m : Nat} (h : unitsPerOne ∣ unitsOfBits m) :
    IsDecimalOf m (unitsOfBits m / unitsPerOne) 0 := by
  -- nothing is lost by the division
  have hunits :
      unitsOfBits m / unitsPerOne * decimalFactor 0 * unitsPerOne = unitsOfBits m * 1 := by
    rw [show decimalFactor 0 = 1 from rfl, Nat.mul_one, Nat.mul_one, Nat.div_mul_cancel h]
  unfold IsDecimalOf
  rw [hunits]
  exact Nearest.exact m Nat.one_pos

/-- Only an integer has a decimal without a fraction. -/
theorem IsDecimalOf.dvd_units {m n : Nat} {exponent : Int} (h : IsDecimalOf m n exponent)
    (hexponent : ¬ exponent < 0) (hfinite : m < infinityBits) : unitsPerOne ∣ unitsOfBits m := by
  unfold IsDecimalOf decimalDivisor at h
  rw [if_neg hexponent] at h
  exact h.dvd_units hfinite

/-- A numeral of a decimal of a double is read as this double. -/
theorem ReadsAs.scanNumber_eq {s : Text} {m n : Nat} {exponent : Int} (h : ReadsAs s n exponent)
    (hdecimal : IsDecimalOf m n exponent) (hfinite : m < infinityBits) (hlow : -324 ≤ exponent)
    (hhigh : exponent ≤ 309) : scanNumber s = .number s (ofParts false m) :=
  h.trans (congrArg (Lexeme.number s) (hdecimal.ofDecimal_eq hfinite hlow hhigh))

/-- An integer that is written in full is read back. -/
theorem scanNumber_decimalText {m : Nat} (h : unitsPerOne ∣ unitsOfBits m)
    (hfinite : m < infinityBits) :
    scanNumber (decimalText (unitsOfBits m / unitsPerOne)) =
      .number (decimalText (unitsOfBits m / unitsPerOne)) (ofParts false m) :=
  (readsAs_decimalText _).scanNumber_eq (isDecimalOf_integer h) hfinite (by omega) (by omega)

/-- **The shortest text of a number is read as this number.** -/
theorem scanNumber_shortestText {m : Nat} (hpos : 0 < m) (hfinite : m < infinityBits) :
    scanNumber (shortestText m) = .number (shortestText m) (ofParts false m) := by
  obtain ⟨hdecimal, hlow, hhigh⟩ := isDecimalOf_shortest hpos
  have hdigits := allDigits_decimalText (shortest m).1
  have hvalue := digitsValue_decimalText (shortest m).1
  unfold shortestText
  dsimp only
  -- positional with a point, positional in full, scientific
  split
  · split
    · next hnegative =>
      have hreads := readsAs_fractionText hdigits (show 0 < (shortest m).2.natAbs by omega)
      rw [hvalue, show -((shortest m).2.natAbs : Int) = (shortest m).2 by omega] at hreads
      exact hreads.scanNumber_eq hdecimal hfinite hlow hhigh
    · next hnonneg => exact scanNumber_decimalText (hdecimal.dvd_units hnonneg hfinite) hfinite
  · -- here the digits are those of the shortest decimal, with its exponent
    have hreads := readsAs_scientificText hdigits (decimalText_ne_nil _) (shortest m).2
    rw [hvalue] at hreads
    exact hreads.scanNumber_eq hdecimal hfinite hlow hhigh

/-- A number without a sign is its magnitude. -/
theorem ofParts_magnitudeBits {d : Double} (hsign : d.negative = false) :
    ofParts false d.magnitudeBits = d := by
  have hrange : d.magnitudeBits < 2 ^ 63 := Nat.mod_lt _ (by decide)
  exact eq_of_magnitudeBits (magnitudeBits_ofParts _ hrange)
    ((negative_ofParts _ hrange).trans hsign.symm)

/-- **What is written is read back**: the text of a finite number without a sign is read as this
number. -/
theorem readsBack {d : Double} (hd : d.IsMagnitude) (hfinite : d.isFinite = true) :
    d.ReadsBack := by
  have hbelow : d.magnitudeBits < infinityBits := of_decide_eq_true hfinite
  have hsign := hd.negative_eq_false
  have hvalue := ofParts_magnitudeBits hsign
  unfold ReadsBack text
  -- neither NaN, nor infinity, nor sign
  rw [isNaN_of_isFinite hfinite, isInfinite_of_isFinite hfinite, hsign,
    if_neg Bool.false_ne_true, if_neg Bool.false_ne_true, if_neg Bool.false_ne_true]
  split
  · next hplain =>
    -- an integer that fits 64 bits is written as one
    have hintegral := (Bool.and_eq_true_iff.mp (Bool.and_eq_true_iff.mp hplain).1).2
    have hdvd : unitsPerOne ∣ unitsOfBits d.magnitudeBits :=
      Nat.dvd_of_mod_eq_zero (eq_of_beq hintegral)
    have htext : integerText (d.units.tdiv unitsPerOne) =
        decimalText (unitsOfBits d.magnitudeBits / unitsPerOne) := by
      rw [units, hsign, if_neg Bool.false_ne_true, ← Int.ofNat_tdiv, integerText,
        if_neg (Int.not_lt.mpr (Int.natCast_nonneg _)), Int.natAbs_natCast]
    rw [htext, scanNumber_decimalText hdvd hbelow]
    exact hvalue
  · next hplain =>
    -- a zero would be an integer
    have hne : d.magnitudeBits ≠ 0 := by
      intro hzero
      rw [isIntegral, hfinite, hzero] at hplain
      exact hplain (by decide +kernel)
    rw [scanNumber_shortestText (Nat.pos_of_ne_zero hne) hbelow]
    exact hvalue

/-! ### Numbers as lines -/

/-- A zero is written without its sign. -/
theorem text_of_isZero {d : Double} (h : d.isZero = true) : d.text = zero.text := by
  have hbits : d.magnitudeBits = 0 := eq_of_beq h
  have hparts (negative : Bool) (hd : d.negative = negative) : d = ofParts negative 0 :=
    eq_of_magnitudeBits (hbits.trans (magnitudeBits_ofParts negative (by decide)).symm)
      (hd.trans (negative_ofParts negative (by decide)).symm)
  cases hd : d.negative with
  | false =>
    rw [hparts false hd]
    rfl
  | true =>
    rw [hparts true hd]
    decide +kernel

/-- A double that is not negative has no sign, or is a zero. -/
theorem isMagnitude_of_units_nonneg {d : Double} (hfinite : d.isFinite = true)
    (hsign : 0 ≤ d.units) (hzero : d.isZero = false) : d.IsMagnitude := by
  have hbelow : d.magnitudeBits < infinityBits := of_decide_eq_true hfinite
  cases hd : d.negative with
  | false =>
    have hbits : d.magnitudeBits = d.bits.toNat :=
      Nat.mod_eq_of_lt (Nat.not_le.mp (of_decide_eq_false hd))
    rw [hbits] at hbelow
    exact Nat.le_of_lt hbelow
  | true =>
    -- only a zero has a sign and is not negative
    rw [units, hd, if_pos rfl] at hsign
    have hnone : unitsOfBits 0 = 0 := unitsOfBits_of_lt (by decide)
    have hbits : d.magnitudeBits = 0 := unitsOfBits_injective (by omega)
    rw [isZero, hbits] at hzero
    cases hzero

/-- A number without a sign is one token, with this number for its value. -/
theorem tokenize_text_of_isMagnitude {d : Double} (hd : d.IsMagnitude)
    (hfinite : d.isFinite = true) :
    tokenize d.text = .ok [⟨.number d.text d, 0, false⟩, ⟨.finish, d.text.length, false⟩] := by
  have hscan := (readsBack hd hfinite).scanNumber_text hd hfinite
  exact tokenize_number (isNumeral_text hd hfinite).startsWithDigit hscan

/-- **A written number is one token**: the line is the number and the finish behind it. The number
is not changed, and a zero loses its sign. -/
theorem tokenize_text {d : Double} (hfinite : d.isFinite = true) (hsign : 0 ≤ d.units) :
    tokenize d.text = .ok [⟨.number d.text (if d.isZero then zero else d), 0, false⟩,
      ⟨.finish, d.text.length, false⟩] := by
  -- a zero may have a sign, which is not written
  cases hzero : d.isZero with
  | true =>
    rw [text_of_isZero hzero, if_pos rfl]
    exact tokenize_text_of_isMagnitude (Nat.zero_le _) (by decide)
  | false =>
    rw [if_neg Bool.false_ne_true]
    exact tokenize_text_of_isMagnitude (isMagnitude_of_units_nonneg hfinite hsign hzero) hfinite

/-- The least positive number is written in scientific notation and read back. -/
theorem tokenize_text_least :
    (⟨1⟩ : Double).isFinite = true ∧ 0 ≤ (⟨1⟩ : Double).units ∧
      tokenize (⟨1⟩ : Double).text = .ok [⟨.number (⟨1⟩ : Double).text
        (if (⟨1⟩ : Double).isZero then zero else ⟨1⟩), 0, false⟩,
        ⟨.finish, (⟨1⟩ : Double).text.length, false⟩] :=
  ⟨by decide, by decide, tokenize_text (by decide) (by decide)⟩

end Double

end DynExpr
