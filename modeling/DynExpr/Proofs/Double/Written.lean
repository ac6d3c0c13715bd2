import DynExpr.Double.Decimal
import DynExpr.Proofs.Token.Boundary
import DynExpr.Proofs.Token.Scanned

/-!
# Written numbers are numerals

A decimal numeral has digits, then perhaps a point and more digits, then perhaps an exponent with
its sign (`IsNumeral`). The scanner reads a numeral to its end (`IsNumeral.text_scanNumber`).

A finite number without a sign is written as a numeral, in each of the notations
(`Double.isNumeral_text`). Whether it is also read as the same number is another question, which is
about rounding and not about scanning: `Double.ReadsBack`.
-/

namespace DynExpr

open Text

/-! ### Numerals -/

/-- Nothing but decimal digits. -/
def AllDigits (s : Text) : Prop := ∀ b ∈ s, isDigit b = true

/-- A point and the digits behind it, if there are any. -/
def pointText (fraction : Text) : Text := if fraction.isEmpty then [] else 46 :: fraction

/-- An exponent with its sign, or none. -/
def IsExponent (s : Text) : Prop :=
  s = [] ∨ ∃ sign digits, (sign = 43 ∨ sign = 45) ∧ digits ≠ [] ∧ AllDigits digits ∧
    s = 101 :: sign :: digits

/-- A decimal numeral. -/
def IsNumeral (s : Text) : Prop :=
  ∃ whole fraction exponent, whole ≠ [] ∧ AllDigits whole ∧ AllDigits fraction ∧
    IsExponent exponent ∧ s = whole ++ (pointText fraction ++ exponent)

/-- A byte that occurs in decimal numerals: a digit, a point, the letter of an exponent or its
sign. -/
def IsNumeralByte (b : UInt8) : Prop := isDigit b = true ∨ b ∈ utf8 ".e+-"

section Numerals

variable {digits whole fraction exponent s : Text}

/-- Digits occur in numerals. -/
theorem AllDigits.isNumeralByte (h : AllDigits digits) : ∀ b ∈ digits, IsNumeralByte b :=
  fun b hb => .inl (h b hb)

/-- A run of digits starts with a digit, if there are any. -/
theorem AllDigits.startsWithDigit (h : AllDigits digits) (hne : digits ≠ []) :
    startsWithDigit digits = true := by
  obtain ⟨b, rest, rfl⟩ := List.exists_cons_of_ne_nil hne
  exact h b List.mem_cons_self

/-- A run of digits ends where the next byte is no digit. -/
theorem AllDigits.cut (h : AllDigits digits) (hs : s.head?.any isDigit = false) :
    (digits ++ s).takeWhile isDigit = digits ∧ (digits ++ s).dropWhile isDigit = s := by
  -- nothing of the rest is taken
  have htake : s.takeWhile isDigit = [] := takeWhile_append_of_head? (a := []) hs
  have hdrop : s.dropWhile isDigit = s := dropWhile_append_of_head? (a := []) hs
  rw [List.takeWhile_append_of_pos h, List.dropWhile_append_of_pos h, htake, hdrop]
  exact ⟨List.append_nil _, rfl⟩

/-- An exponent does not begin with a digit. -/
theorem IsExponent.isDigit_head? (h : IsExponent exponent) :
    exponent.head?.any isDigit = false := by
  obtain rfl | ⟨sign, digits, -, -, -, rfl⟩ := h
  · rfl
  · rfl

/-- The bytes of an exponent occur in numerals. -/
theorem IsExponent.isNumeralByte (h : IsExponent exponent) :
    ∀ b ∈ exponent, IsNumeralByte b := by
  obtain rfl | ⟨sign, digits, hsign, -, hdigits, rfl⟩ := h
  · exact fun _ hb => absurd hb List.not_mem_nil
  · have hletter : IsNumeralByte 101 := .inr (by decide)
    have hsign' : IsNumeralByte sign := by
      rcases hsign with rfl | rfl
      · exact .inr (by decide)
      · exact .inr (by decide)
    exact List.forall_mem_cons.mpr ⟨hletter,
      List.forall_mem_cons.mpr ⟨hsign', hdigits.isNumeralByte⟩⟩

/-- A point and digits occur in numerals. -/
theorem AllDigits.isNumeralByte_pointText (h : AllDigits fraction) :
    ∀ b ∈ pointText fraction, IsNumeralByte b := by
  unfold pointText
  split
  · exact fun _ hb => absurd hb List.not_mem_nil
  · exact List.forall_mem_cons.mpr ⟨.inr (by decide), h.isNumeralByte⟩

/-- All bytes of a numeral occur in numerals. -/
theorem IsNumeral.isNumeralByte (h : IsNumeral s) : ∀ b ∈ s, IsNumeralByte b := by
  obtain ⟨whole, fraction, exponent, -, hwhole, hfraction, hexponent, rfl⟩ := h
  exact List.forall_mem_append.mpr ⟨hwhole.isNumeralByte,
    List.forall_mem_append.mpr ⟨hfraction.isNumeralByte_pointText, hexponent.isNumeralByte⟩⟩

/-- A numeral starts with a digit. -/
theorem IsNumeral.startsWithDigit (h : IsNumeral s) : startsWithDigit s = true := by
  obtain ⟨whole, fraction, exponent, hne, hwhole, -, -, rfl⟩ := h
  obtain ⟨b, rest, rfl⟩ := List.exists_cons_of_ne_nil hne
  exact hwhole b List.mem_cons_self

/-! ### Reading numerals -/

/-- An exponent is read to its end. -/
theorem IsExponent.exponentPart_eq (h : IsExponent exponent) :
    exponentPart exponent = exponent := by
  obtain rfl | ⟨sign, digits, hsign, hne, hdigits, rfl⟩ := h
  · rfl
  · -- the digits reach to the end
    have hrun := (hdigits.cut (s := []) rfl).1
    rw [List.append_nil] at hrun
    have hsign' : (sign == 43 || sign == 45) = true := by simpa using hsign
    simp [exponentPart, hsign', hdigits.startsWithDigit hne, hrun]

/-- The digits behind a point are read up to the exponent. -/
theorem fractionDigits_pointText (hfraction : AllDigits fraction)
    (hdigit : exponent.head?.any isDigit = false) (hpoint : exponent.head? ≠ some 46) :
    fractionDigits (pointText fraction ++ exponent) = fraction := by
  unfold pointText
  split
  · next hempty =>
    obtain rfl := List.isEmpty_iff.mp hempty
    -- without a point the exponent comes next, and it begins with none
    cases exponent with
    | nil => rfl
    | cons b rest =>
      have hb : b ≠ 46 := fun h => hpoint (by rw [h]; rfl)
      simp [fractionDigits, hb]
  · exact (hfraction.cut hdigit).1

/-- The parts of a decimal number are read as what they are, if the exponent can be told from
them. -/
theorem scanDecimal_append_exponent (hwhole : AllDigits whole) (hfraction : AllDigits fraction)
    (hdigit : exponent.head?.any isDigit = false) (hpoint : exponent.head? ≠ some 46)
    (hexponent : exponentPart exponent = exponent) :
    scanDecimal (whole ++ (pointText fraction ++ exponent)) =
      .number (whole ++ (pointText fraction ++ exponent))
        (Double.ofDigits false whole fraction (exponentValue exponent)) := by
  -- the digits in front of the point end at the point or at the exponent
  have hnext : (pointText fraction ++ exponent).head?.any isDigit = false := by
    unfold pointText
    split
    · exact hdigit
    · rfl
  obtain ⟨htake, hdrop⟩ := hwhole.cut hnext
  unfold scanDecimal
  dsimp only
  rw [htake, hdrop, fractionDigits_pointText hfraction hdigit hpoint, ← pointText,
    List.drop_left, hexponent, List.append_assoc]

/-- A decimal numeral is read to its end, as the number of its parts. -/
theorem scanDecimal_parts (hwhole : AllDigits whole) (hfraction : AllDigits fraction)
    (hexponent : IsExponent exponent) :
    scanDecimal (whole ++ (pointText fraction ++ exponent)) =
      .number (whole ++ (pointText fraction ++ exponent))
        (Double.ofDigits false whole fraction (exponentValue exponent)) := by
  have hpoint : exponent.head? ≠ some 46 := by
    obtain rfl | ⟨sign, digits, -, -, -, rfl⟩ := hexponent
    · simp
    · simp
  exact scanDecimal_append_exponent hwhole hfraction hexponent.isDigit_head? hpoint
    hexponent.exponentPart_eq

/-- A decimal numeral is not taken for a hexadecimal number. -/
theorem IsNumeral.scanNumber_eq (h : IsNumeral s) : scanNumber s = scanDecimal s := by
  unfold scanNumber
  split
  · next zero x digits =>
    -- the letter of a hexadecimal number does not occur in a decimal one
    have hletters : ∀ b ∈ utf8 "xX", isDigit b = false ∧ b ∉ utf8 ".e+-" := by decide +kernel
    have hne : ∀ b ∈ utf8 "xX", x ≠ b := by
      rintro b hb rfl
      obtain ⟨hdigit, hother⟩ := hletters x hb
      rcases h.isNumeralByte x (by simp) with hx | hx
      · rw [hdigit] at hx
        cases hx
      · exact hother hx
    rw [beq_false_of_ne (hne 120 (by decide)), beq_false_of_ne (hne 88 (by decide)),
      Bool.or_self, Bool.and_false, Bool.false_and, if_neg Bool.false_ne_true]
  · rfl

/-- **A decimal numeral is read to its end.** -/
theorem IsNumeral.text_scanNumber (h : IsNumeral s) : (scanNumber s).text = s := by
  rw [h.scanNumber_eq]
  obtain ⟨whole, fraction, exponent, -, hwhole, hfraction, hexponent, rfl⟩ := h
  rw [scanDecimal_parts hwhole hfraction hexponent]
  rfl

end Numerals

/-! ### Decimal digits -/

/-- A digit among the characters is a digit among the bytes. -/
theorem isDigit_toUInt8 {c : Char} (h : c.isDigit = true) : isDigit c.toUInt8 = true := by
  have hbounds : 48 ≤ c.val.toNat ∧ c.val.toNat ≤ 57 := by
    simpa [Char.isDigit, UInt32.le_iff_toNat_le] using h
  -- a digit fits one byte
  have hbyte : c.toUInt8.toNat = c.val.toNat := by
    show c.val.toUInt8.toNat = c.val.toNat
    rw [UInt32.toNat_toUInt8]
    omega
  simp only [isDigit, Bool.and_eq_true, decide_eq_true_eq, UInt8.le_iff_toNat_le, hbyte]
  exact hbounds

/-- Zeros in front do not count. -/
theorem digitsValue_zeros (n : Nat) (s : Text) :
    digitsValue 10 (List.replicate n 48 ++ s) = digitsValue 10 s := by
  induction n with
  | zero => rfl
  | succ n ih => exact ih

/-- An integer is written with digits. -/
theorem allDigits_decimalText (n : Nat) : AllDigits (decimalText n) := by
  intro b hb
  obtain ⟨c, hc, rfl⟩ := List.mem_map.mp hb
  exact isDigit_toUInt8 (Nat.isDigit_of_mem_toDigits (by decide) (by decide) hc)

/-- An integer has a digit at least. -/
theorem decimalText_ne_nil (n : Nat) : decimalText n ≠ [] :=
  fun h => Nat.toDigits_ne_nil (List.map_eq_nil_iff.mp h)

/-- An integer is written as a numeral. -/
theorem isNumeral_decimalText (n : Nat) : IsNumeral (decimalText n) :=
  ⟨decimalText n, [], [], decimalText_ne_nil n, allDigits_decimalText n, List.forall_mem_nil _,
    .inl rfl, by simp [pointText]⟩

namespace Double

/-! ### Notations -/

/-- An exponent is written as one. -/
theorem isExponent_exponentText (exponent : Int) : IsExponent (exponentText exponent) := by
  have hdigits := allDigits_decimalText exponent.natAbs
  refine .inr ⟨if exponent < 0 then 45 else 43, _, ?_, ?_, ?_, rfl⟩
  · -- the sign, at least two digits, and nothing but digits
    split
    · exact .inr rfl
    · exact .inl rfl
  · split
    · exact List.cons_ne_nil _ _
    · exact decimalText_ne_nil _
  · split
    · exact List.forall_mem_cons.mpr ⟨rfl, hdigits⟩
    · exact hdigits

section Notations

variable {digits : Text} (hdigits : AllDigits digits)

include hdigits

/-- Scientific notation is a numeral. -/
theorem isNumeral_scientificText (hne : digits ≠ []) (exponent : Int) :
    IsNumeral (scientificText digits exponent) := by
  obtain ⟨b, rest, rfl⟩ := List.exists_cons_of_ne_nil hne
  obtain ⟨hb, hrest⟩ := List.forall_mem_cons.mp hdigits
  refine ⟨[b], rest, exponentText (exponent + rest.length), List.cons_ne_nil _ _,
    List.forall_mem_singleton.mpr hb, hrest, isExponent_exponentText _, ?_⟩
  rw [← List.append_assoc]
  rfl

/-- Positional notation has the digits of the number, perhaps after zeros, and as many behind the
point as there are places. -/
theorem fractionText_parts {places : Nat} (hplaces : 0 < places) :
    ∃ whole fraction, whole ≠ [] ∧ AllDigits whole ∧ AllDigits fraction ∧
      fraction.length = places ∧
      digitsValue 10 (whole ++ fraction) = digitsValue 10 digits ∧
      fractionText digits places = whole ++ (pointText fraction ++ []) := by
  have hpoint {fraction : Text} (h : fraction.length = places) :
      pointText fraction = 46 :: fraction := by
    have hfraction : fraction ≠ [] := List.length_pos_iff.mp (by omega)
    rw [pointText, if_neg (by simpa using hfraction)]
  unfold fractionText
  split
  · next hshort =>
    -- the digits are parted, and there are some on either side
    have hlength : (digits.drop (digits.length - places)).length = places := by
      rw [List.length_drop]
      omega
    refine ⟨digits.take (digits.length - places), digits.drop (digits.length - places), ?_,
      fun b hb => hdigits b (List.mem_of_mem_take hb),
      fun b hb => hdigits b (List.mem_of_mem_drop hb), hlength, ?_, ?_⟩
    · rw [← List.length_pos_iff, List.length_take]
      omega
    · rw [List.take_append_drop]
    · rw [hpoint hlength, List.append_nil]
  · -- all digits stand behind the point, after as many zeros as are needed
    have hzeros : AllDigits (List.replicate (places - digits.length) 48) := by
      intro b hb
      rw [List.eq_of_mem_replicate hb]
      rfl
    have hlength : (List.replicate (places - digits.length) 48 ++ digits).length = places := by
      rw [List.length_append, List.length_replicate]
      omega
    refine ⟨[48], List.replicate (places - digits.length) 48 ++ digits,
      List.cons_ne_nil _ _, List.forall_mem_singleton.mpr rfl,
      List.forall_mem_append.mpr ⟨hzeros, hdigits⟩, hlength, ?_, ?_⟩
    · exact digitsValue_zeros (places - digits.length + 1) digits
    · rw [hpoint hlength, List.append_nil, List.append_assoc]
      rfl

/-- Positional notation is a numeral. -/
theorem isNumeral_fractionText {places : Nat} (hplaces : 0 < places) :
    IsNumeral (fractionText digits places) := by
  obtain ⟨whole, fraction, hne, hwhole, hfraction, -, -, heq⟩ := fractionText_parts hdigits hplaces
  exact ⟨whole, fraction, [], hne, hwhole, hfraction, .inl rfl, heq⟩

end Notations

/-- The shortest text of a number is a numeral, in each notation. -/
theorem isNumeral_shortestText (magnitude : Nat) : IsNumeral (shortestText magnitude) := by
  have hdigits := allDigits_decimalText (shortest magnitude).1
  have hne := decimalText_ne_nil (shortest magnitude).1
  unfold shortestText
  dsimp only
  -- with a point, in full, or scientific
  split
  · split
    · next hnegative => exact isNumeral_fractionText hdigits (by omega)
    · exact isNumeral_decimalText _
  · exact isNumeral_scientificText hdigits hne _

/-! ### Numbers without a sign -/

/-- A magnitude has no sign. -/
theorem IsMagnitude.negative_eq_false {d : Double} (h : d.IsMagnitude) : d.negative = false := by
  have hbits : d.bits.toNat ≤ infinityBits := h
  unfold infinityBits at hbits
  exact decide_eq_false (by omega)

/-- **A finite number without a sign is written as a numeral.** -/
theorem isNumeral_text {d : Double} (hd : d.IsMagnitude) (hfinite : d.isFinite = true) :
    IsNumeral d.text := by
  have hsign := hd.negative_eq_false
  unfold text
  rw [isNaN_of_isFinite hfinite, isInfinite_of_isFinite hfinite, hsign,
    if_neg Bool.false_ne_true, if_neg Bool.false_ne_true]
  split
  · -- an integer, which is not negative either
    have hunits : 0 ≤ d.units.tdiv unitsPerOne := by
      refine Int.tdiv_nonneg ?_ (Int.natCast_nonneg _)
      rw [units, hsign, if_neg Bool.false_ne_true]
      exact Int.natCast_nonneg _
    rw [integerText, if_neg (Int.not_lt.mpr hunits)]
    exact isNumeral_decimalText _
  · rw [if_neg Bool.false_ne_true]
    exact isNumeral_shortestText _

/-- The number that is read from the text is the number that was written. -/
def ReadsBack (d : Double) : Prop := (scanNumber d.text).value = d

/-- Reading what was written takes the whole text. -/
theorem ReadsBack.scanNumber_text {d : Double} (h : d.ReadsBack) (hd : d.IsMagnitude)
    (hfinite : d.isFinite = true) : scanNumber d.text = .number d.text d := by
  -- a number is read, whatever the text is
  have hshape (s : Text) : scanNumber s = .number (scanNumber s).text (scanNumber s).value := by
    unfold scanNumber
    split
    · split <;> rfl
    · rfl
  have hvalue : (scanNumber d.text).value = d := h
  rw [hshape, (isNumeral_text hd hfinite).text_scanNumber, hvalue]

end Double

end DynExpr
