import DynExpr.Proofs.Double.Distance
import DynExpr.Proofs.Double.ReadBack
import DynExpr.Proofs.Token.Numerals

/-!
# Integers in hexadecimal and in decimal digits

Decimal digits are read as the double nearest to the integer that they denote, however many they are
(`tokenize_digits`, `Double.isNearestTo_ofNat`). Hexadecimal digits are read by way of a 64-bit
integer, which stops at `2 ^ 64 - 1`. This integer is rounded to `2 ^ 64`, and so are all integers
around `2 ^ 64` up to the midpoint to the next double, which is `2 ^ 64 + 2 ^ 11`. Up to there
hexadecimal digits have the value of the integer, and beyond it they all have the value `2 ^ 64`
(`isNearestTo_hexValue_iff`).

The value of a number in a line depends on the text of the number alone (`tokenize_isScanned`), so
that `hexadecimal_nearest` speaks of hexadecimal numbers anywhere in a line.
-/

namespace DynExpr

open Text

/-! ### Integers as doubles -/

namespace Double

variable {n : Nat}

/-- A decimal without fraction and exponent is the double of its integer. -/
theorem ofDecimal_integer (n : Nat) : ofDecimal false n 0 = ofNat n := by
  unfold ofDecimal ofScaled
  split
  · -- zero is decided before anything is rounded
    next hzero =>
    rw [hzero, ofNat_eq, Nat.zero_mul]
    decide
  · rw [if_neg (by omega), if_neg (by omega), if_pos (Int.le_refl 0), ofNat_eq, Int.natAbs_zero,
      Nat.pow_eq, Nat.pow_zero, Nat.mul_one]

/-- The double `2 ^ 64`. -/
def saturated : Double := ⟨0x43F0000000000000⟩

/-- The units of `2 ^ 64` and of its neighbours: a step of `2 ^ 12` above and of `2 ^ 11` below. -/
theorem units_saturated :
    unitsOfBits 0x43F0000000000000 = 2 ^ 64 * unitsPerOne ∧
      unitsOfBits (0x43F0000000000000 + 1) = (2 ^ 64 + 2 ^ 12) * unitsPerOne ∧
      unitsOfBits (0x43F0000000000000 - 1) = (2 ^ 64 - 2 ^ 11) * unitsPerOne := by
  -- the exponent of the unit is left abstract, as the power is not to be computed
  obtain ⟨e, he, hpow⟩ : ∃ e, 1074 = e ∧ unitsPerOne = 2 ^ e := by
    unfold unitsPerOne
    generalize 1074 = e
    exact ⟨e, rfl, rfl⟩
  have hunit : 2 ^ (e + 11) = unitsPerOne * 2 ^ 11 := by rw [hpow, Nat.pow_add]
  have hdouble : 2 ^ (e + 11 + 1) = unitsPerOne * 2 ^ 12 := by rw [Nat.add_assoc, Nat.pow_add, hpow]
  have hm : IsSignificand 0x43F0000000000000 (2 ^ 52) (e + 11 + 1) :=
    ⟨by omega, by decide, .inr (Nat.le_refl _)⟩
  have hunits := hm.units
  have hsucc := hm.units_succ
  have hpred := hm.units_pred_first (Nat.succ_pos _) rfl
  rw [hdouble] at hunits hsucc
  rw [Nat.add_sub_cancel, hunit] at hpred
  generalize unitsPerOne = unit at hunits hsucc hpred ⊢
  refine ⟨?_, ?_, ?_⟩
  · rw [hunits]
    omega
  · rw [hsucc]
    omega
  · rw [hpred]
    omega

/-- Around `2 ^ 64`, between the midpoints, every integer is rounded to it. -/
theorem ofNat_eq_saturated (hlow : 2 ^ 64 - 2 ^ 10 ≤ n) (hhigh : n ≤ 2 ^ 64 + 2 ^ 11) :
    ofNat n = saturated := by
  obtain ⟨hunits, hsucc, hpred⟩ := units_saturated
  -- it is nearer to `2 ^ 64` than to either neighbour, and a tie goes to the even one
  have hnearest : Nearest 0x43F0000000000000 (n * unitsPerOne) 1 := by
    have hlow' := Nat.mul_le_mul_right unitsPerOne hlow
    have hhigh' := Nat.mul_le_mul_right unitsPerOne hhigh
    refine ⟨?_, ?_, fun _ => by decide⟩
    · rw [hunits, hpred]
      omega
    · rw [hunits, hsucc]
      omega
  have hbits := hnearest.nearestBits_eq (by decide) Nat.one_pos
  refine eq_of_magnitudeBits ?_ ?_
  · rw [magnitudeBits_ofNat, hbits]
    decide
  · rw [(isMagnitude_ofNat n).negative_eq_false]
    decide

/-- Beyond the midpoint the next double is nearer. -/
theorem not_isNearestTo_saturated (h : 2 ^ 64 + 2 ^ 11 < n) : ¬ saturated.IsNearestTo n := by
  intro hnearest
  -- the next double is compared with it
  have hle := hnearest.least ⟨0x43F0000000000001⟩ (by unfold IsMagnitude; decide)
  obtain ⟨hunits, hsucc, -⟩ := units_saturated
  have hthis : saturated.units = (2 ^ 64 * unitsPerOne : Nat) := by
    rw [← hunits]
    rfl
  have hnext : (⟨0x43F0000000000001⟩ : Double).units =
      ((2 ^ 64 + 2 ^ 12) * unitsPerOne : Nat) := by
    rw [← hsucc]
    rfl
  have hmul := Nat.mul_lt_mul_of_pos_right h (Nat.pos_of_ne_zero unitsPerOne_ne_zero)
  have hunit := Nat.pos_of_ne_zero unitsPerOne_ne_zero
  unfold distance at hle
  rw [hthis, hnext] at hle
  generalize n * unitsPerOne = units at hle hmul
  omega

end Double

/-! ### Digits -/

/-- Hexadecimal digits are read as the double nearest to their integer, or to `2 ^ 64` if the
integer is greater. -/
theorem isNearestTo_hexValue (digits : Text) :
    (hexValue digits).IsNearestTo (min (digitsValue 16 digits) (2 ^ 64)) := by
  unfold hexValue
  rcases Nat.lt_or_ge (digitsValue 16 digits) (2 ^ 64) with hlt | hge
  · -- integers of 64 bits are not capped
    rw [Nat.min_eq_left (by omega), Nat.min_eq_left (Nat.le_of_lt hlt)]
    exact Double.isNearestTo_ofNat _
  · -- the greatest 64-bit integer and the one behind it are rounded alike
    have hnearest := Double.isNearestTo_ofNat (2 ^ 64)
    rw [Double.ofNat_eq_saturated (by omega) (by omega)] at hnearest
    rw [Nat.min_eq_right (by omega), Nat.min_eq_right hge,
      Double.ofNat_eq_saturated (by omega) (by omega)]
    exact hnearest

/-- Beyond the midpoint above `2 ^ 64`, hexadecimal digits are read as `2 ^ 64`. -/
theorem hexValue_eq_saturated {digits : Text} (h : 2 ^ 64 + 2 ^ 11 < digitsValue 16 digits) :
    hexValue digits = Double.saturated := by
  unfold hexValue
  rw [Nat.min_eq_right (by omega)]
  exact Double.ofNat_eq_saturated (by omega) (by omega)

/-- Up to this midpoint, they are read as the double of their integer. -/
theorem hexValue_eq_ofNat {digits : Text} (h : digitsValue 16 digits ≤ 2 ^ 64 + 2 ^ 11) :
    hexValue digits = Double.ofNat (digitsValue 16 digits) := by
  unfold hexValue
  rcases Nat.lt_or_ge (digitsValue 16 digits) (2 ^ 64) with hlt | hge
  · rw [Nat.min_eq_left (by omega)]
  · -- between the cap and the midpoint everything is rounded alike
    rw [Nat.min_eq_right (by omega), Double.ofNat_eq_saturated (by omega) h]
    exact Double.ofNat_eq_saturated (by omega) (by omega)

/-- **Hexadecimal digits have their value up to a midpoint**, and not beyond it. -/
theorem isNearestTo_hexValue_iff (digits : Text) :
    (hexValue digits).IsNearestTo (digitsValue 16 digits) ↔
      digitsValue 16 digits ≤ 2 ^ 64 + 2 ^ 11 := by
  constructor
  · intro hnearest
    refine Nat.not_lt.mp fun hlt => ?_
    rw [hexValue_eq_saturated hlt] at hnearest
    exact Double.not_isNearestTo_saturated hlt hnearest
  · intro hle
    rw [hexValue_eq_ofNat hle]
    exact Double.isNearestTo_ofNat _

/-! ### Tokens -/

/-- If the lexeme is a number, its text alone is scanned as this number. -/
def Lexeme.IsScanned (lexeme : Lexeme) : Prop :=
  ∀ text value, lexeme = .number text value → scanNumber text = .number text value

/-- The text of a number is scanned as this number. -/
theorem isScanned_scanNumber (s : Text) : (scanNumber s).IsScanned := by
  intro text value h
  have hidem := scanNumber_text s
  rwa [h] at hidem

/-- What is scanned as a number is so by its text alone. -/
theorem scanLexeme_isScanned {b : UInt8} {rest : Text} {lexeme : Lexeme} {covered : Nat}
    (h : scanLexeme b rest = .ok (lexeme, covered)) : lexeme.IsScanned := by
  cases scans_of_scanLexeme h with
  | number => exact isScanned_scanNumber _
  | _ => exact fun _ _ hnumber => nomatch hnumber

/-- **The value of a number in a line depends on its text alone.** -/
theorem tokenize_isScanned {line : Text} {tokens : List Token} (h : tokenize line = .ok tokens) :
    ∀ token ∈ tokens, token.lexeme.IsScanned :=
  tokensFrom_forall (fun _ _ hnumber => nomatch hnumber) scanLexeme_isScanned h

/-- Decimal digits make a line of one number, the double nearest to their integer. -/
theorem tokenize_digits {digits : Text} (hne : digits ≠ []) (hdigits : AllDigits digits) :
    tokenize digits = .ok [⟨.number digits (Double.ofNat (digitsValue 10 digits)), 0, false⟩,
      ⟨.finish, digits.length, false⟩] := by
  refine tokenize_number (hdigits.startsWithDigit hne) ?_
  rw [← Double.ofDecimal_integer]
  exact Double.readsAs_digits hne hdigits

/-- **Hexadecimal numbers have their value up to a midpoint.** A hexadecimal number makes a line of
one token, and wherever it stands in a line it has the same value. This value is the double nearest
to the integer of the digits, or to `2 ^ 64` if the integer is greater. So it is nearest to the
integer up to the midpoint between `2 ^ 64` and the next double, and not beyond. Decimal digits of
the integer always have the value nearest to it. -/
theorem hexadecimal_nearest {x : UInt8} {digits : Text} (h : IsHexadecimal x digits) :
    ∃ value,
      tokenize (48 :: x :: digits) =
        .ok [⟨.number (48 :: x :: digits) value, 0, false⟩, ⟨.finish, digits.length + 2, false⟩] ∧
      (∀ line tokens, tokenize line = .ok tokens → ∀ token ∈ tokens, ∀ value',
        token.lexeme = .number (48 :: x :: digits) value' → value' = value) ∧
      value.IsNearestTo (min (digitsValue 16 digits) (2 ^ 64)) ∧
      (value.IsNearestTo (digitsValue 16 digits) ↔ digitsValue 16 digits ≤ 2 ^ 64 + 2 ^ 11) ∧
      ∀ decimal, decimal ≠ [] → AllDigits decimal →
        digitsValue 10 decimal = digitsValue 16 digits →
        ∃ value',
          tokenize decimal =
            .ok [⟨.number decimal value', 0, false⟩, ⟨.finish, decimal.length, false⟩] ∧
          value'.IsNearestTo (digitsValue 16 digits) ∧
          (value' = value ↔ digitsValue 16 digits ≤ 2 ^ 64 + 2 ^ 11) := by
  refine ⟨hexValue digits, tokenize_number rfl h.scanNumber_eq, ?_, isNearestTo_hexValue digits,
    isNearestTo_hexValue_iff digits, ?_⟩
  · -- in any line the value is that of the text alone
    intro line tokens htokens token htoken value' hlexeme
    have hscan := tokenize_isScanned htokens token htoken _ _ hlexeme
    rw [h.scanNumber_eq] at hscan
    exact (Lexeme.number.inj hscan).2.symm
  · intro decimal hne hdecimal hvalue
    have hnearest := Double.isNearestTo_ofNat (digitsValue 16 digits)
    refine ⟨Double.ofNat (digitsValue 16 digits), ?_, hnearest, ?_⟩
    · rw [tokenize_digits hne hdecimal, hvalue]
    rw [← isNearestTo_hexValue_iff]
    -- there is only one nearest double
    constructor
    · intro heq
      rwa [← heq]
    · intro hhex
      exact hnearest.eq hhex

/-- The letters of the mark and of the digits may be capital. -/
theorem hexadecimal_nearest_mixedCase :
    IsHexadecimal 88 (utf8 "Ff") ∧
      tokenize (utf8 "0XFf") =
        .ok [⟨.number (utf8 "0XFf") ⟨0x406FE00000000000⟩, 0, false⟩, ⟨.finish, 4, false⟩] ∧
      (⟨0x406FE00000000000⟩ : Double).IsNearestTo 255 := by
  have hdigits : AllHexDigits (utf8 "Ff") := by
    unfold AllHexDigits
    decide +kernel
  have hnumber : IsHexadecimal 88 (utf8 "Ff") := ⟨.inr rfl, by decide, hdigits⟩
  obtain ⟨value, htokens, -, hnearest, -⟩ := hexadecimal_nearest hnumber
  -- the line is read by computation, and the theorem says what is known of its value
  have hread : tokenize (utf8 "0XFf") =
      .ok [⟨.number (utf8 "0XFf") ⟨0x406FE00000000000⟩, 0, false⟩, ⟨.finish, 4, false⟩] :=
    tokenize_number (by decide) (by decide +kernel)
  have hline : (48 :: 88 :: utf8 "Ff" : Text) = utf8 "0XFf" := by decide
  have hvalue : min (digitsValue 16 (utf8 "Ff")) (2 ^ 64) = 255 := by decide
  rw [hline, hread] at htokens
  rw [hvalue] at hnearest
  cases htokens
  exact ⟨hnumber, hread, hnearest⟩

/-- The digits of `2 ^ 65` are read as `2 ^ 64` in base sixteen, which is not nearest to their
integer, and in base ten they are not. -/
theorem hexadecimal_not_nearest :
    IsHexadecimal 120 (utf8 "20000000000000000") ∧
      digitsValue 16 (utf8 "20000000000000000") = 2 ^ 65 ∧
      tokenize (utf8 "0x20000000000000000") =
        .ok [⟨.number (utf8 "0x20000000000000000") Double.saturated, 0, false⟩,
          ⟨.finish, 19, false⟩] ∧
      ¬ Double.saturated.IsNearestTo (2 ^ 65) ∧
      tokenize (utf8 "36893488147419103232") =
        .ok [⟨.number (utf8 "36893488147419103232") ⟨0x4400000000000000⟩, 0, false⟩,
          ⟨.finish, 20, false⟩] ∧
      digitsValue 10 (utf8 "36893488147419103232") = 2 ^ 65 := by
  have hdigits : AllHexDigits (utf8 "20000000000000000") := by
    unfold AllHexDigits
    decide +kernel
  have hnumber : IsHexadecimal 120 (utf8 "20000000000000000") := ⟨.inl rfl, by decide, hdigits⟩
  refine ⟨hnumber, by decide, ?_, ?_, ?_, by decide⟩
  · exact tokenize_number (by decide) (by decide +kernel)
  · exact Double.not_isNearestTo_saturated (by decide)
  · exact tokenize_number (by decide) (by decide +kernel)

end DynExpr
