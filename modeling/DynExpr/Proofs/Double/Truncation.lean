import DynExpr.Double
import DynExpr.Proofs.Double.Nearest

/-!
# Truncation is exact

A number of units is *exact* if it is the magnitude of a finite double, and then rounding does not
change it (`IsExact.ofRatio_eq`). The integer part of a finite double is exact, since a double with
a fraction is so small that every integer up to it is a double (`isExact_integerPart`). So
truncating a double is cutting its value toward zero (`units_truncate`). Powers of two are exact, up
to far beyond the limits of the integer types (`isExact_two_pow`).
-/

namespace DynExpr.Double

/-- The number of units is the magnitude of a finite double. -/
def IsExact (n : Nat) : Prop := ∃ m, m < infinityBits ∧ unitsOfBits m = n

/-- Zero is exact. -/
theorem isExact_zero : IsExact 0 := ⟨0, by decide, unitsOfBits_of_lt (by decide)⟩

/-- A significand of 53 bits and a step are exact. -/
theorem isExact_normal {q k : Nat} (hlow : 2 ^ 52 ≤ q) (hhigh : q < 2 ^ 53) (hk : k ≤ 2045) :
    IsExact (q * 2 ^ k) := by
  refine ⟨k * 2 ^ 52 + q, ?_, unitsOfBits_normal hlow hhigh⟩
  unfold infinityBits
  omega

/-- Integers up to `2 ^ 53` are exact. -/
theorem isExact_of_le {n : Nat} (h : n ≤ 2 ^ 53) : IsExact (n * unitsPerOne) := by
  rcases Nat.eq_zero_or_pos n with rfl | hpos
  · rw [Nat.zero_mul]
    exact isExact_zero
  · obtain ⟨q, k, hlow, hhigh, hk, heq⟩ := exists_significand hpos h
    rw [heq]
    exact isExact_normal hlow hhigh (by omega)

/-- Powers of two are exact, up to the largest exponent. -/
theorem isExact_two_pow {w : Nat} (h : w < 1024) : IsExact (2 ^ w * unitsPerOne) := by
  -- the unit is a power of two that is left abstract, since it is not to be computed
  unfold unitsPerOne
  obtain ⟨e, he, hlow, hhigh⟩ : ∃ e, e = 1074 ∧ 52 ≤ e ∧ e ≤ 1074 := ⟨1074, rfl, by omega, by omega⟩
  rw [← he, Nat.pow_eq]
  -- a power of two has the least significand of 53 bits
  have hshift : 2 ^ w * 2 ^ e = 2 ^ 52 * 2 ^ (w + (e - 52)) := by
    rw [← Nat.pow_add, ← Nat.pow_add]
    congr 1
    omega
  rw [hshift]
  exact isExact_normal (Nat.le_refl _) (by decide) (by omega)

/-- The integer part of a finite double is exact. -/
theorem isExact_integerPart {m : Nat} (h : m < infinityBits) :
    IsExact (unitsOfBits m / unitsPerOne * unitsPerOne) := by
  obtain ⟨q, k, hm⟩ := exists_isSignificand m
  obtain ⟨e, hunit⟩ := exists_unitsPerOne_eq
  rcases Nat.lt_or_ge k e with hk | hk
  · -- there may be a fraction, and then the integer part has at most 53 bits
    refine isExact_of_le (Nat.le_of_lt ((Nat.div_lt_iff_lt_mul ?_).mpr ?_))
    · exact Nat.pos_of_ne_zero unitsPerOne_ne_zero
    · calc unitsOfBits m = q * 2 ^ k := hm.units
        _ < 2 ^ 53 * 2 ^ k := Nat.mul_lt_mul_of_pos_right hm.lt (Nat.two_pow_pos k)
        _ ≤ 2 ^ 53 * unitsPerOne := by
          rw [hunit]
          exact Nat.mul_le_mul_left _ (Nat.pow_le_pow_right (by omega) (Nat.le_of_lt hk))
  · -- the step is one or more, so that there is no fraction
    have hdvd : unitsPerOne ∣ unitsOfBits m := by
      rw [hm.units, hunit]
      exact Nat.dvd_mul_left_of_dvd (Nat.pow_dvd_pow 2 hk) q
    rw [Nat.div_mul_cancel hdvd]
    exact ⟨m, h, rfl⟩

/-! ### Rounding -/

/-- The double is finite and has this value. -/
structure HasUnits (d : Double) (n : Int) : Prop where
  isFinite : d.isFinite = true
  units : d.units = n

/-- **Rounding does not change what is exact.** -/
theorem IsExact.hasUnits_ofRatio {n : Nat} (h : IsExact n) (negative : Bool) :
    (ofRatio negative n 1).HasUnits (if negative then -(n : Int) else n) := by
  obtain ⟨m, hfinite, rfl⟩ := h
  have hrange : m < 2 ^ 63 := Nat.lt_trans hfinite (by decide)
  -- a double is nearest to itself
  have hbits := (Nearest.exact m Nat.one_pos).nearestBits_eq hfinite Nat.one_pos
  rw [Nat.mul_one] at hbits
  rw [ofRatio, hbits]
  constructor
  · rw [Double.isFinite, magnitudeBits_ofParts _ hrange]
    exact decide_eq_true hfinite
  · rw [Double.units, magnitudeBits_ofParts _ hrange, negative_ofParts _ hrange]

/-- An integer that is exact is a double. -/
theorem IsExact.hasUnits_ofInt {n : Int} (h : IsExact (n.natAbs * unitsPerOne)) :
    (ofInt n).HasUnits (n * unitsPerOne) := by
  have hround := h.hasUnits_ofRatio (decide (n < 0))
  rw [Int.natCast_mul] at hround
  -- the sign of the integer is put back
  by_cases hneg : n < 0
  · have hmag : -(n.natAbs : Int) = n := by omega
    rwa [if_pos (decide_eq_true hneg), ← Int.neg_mul, hmag] at hround
  · have hmag : (n.natAbs : Int) = n := by omega
    rwa [if_neg (by simpa using hneg), hmag] at hround

/-! ### Truncation -/

section Truncation

variable {d : Double}

/-- **Truncation cuts toward zero**, and the result is a double. -/
theorem hasUnits_truncate (h : d.isFinite = true) :
    d.truncate.HasUnits (d.units.tdiv unitsPerOne * unitsPerOne) := by
  -- the division of the units rounds toward zero, as that of the magnitudes does
  have hpart : (d.units.tdiv unitsPerOne).natAbs = unitsOfBits d.magnitudeBits / unitsPerOne := by
    rw [Int.natAbs_tdiv, natAbs_units, Int.natAbs_natCast]
    rfl
  have hround := (isExact_integerPart (of_decide_eq_true h)).hasUnits_ofRatio d.negative
  unfold truncate mapToInteger
  rw [isNaN_of_isFinite h, isInfinite_of_isFinite h, if_neg Bool.false_ne_true,
    if_neg Bool.false_ne_true, hpart]
  rw [Int.natCast_mul, Int.ofNat_tdiv] at hround
  -- the sign is that of the double
  unfold units
  cases hsign : d.negative with
  | false =>
    rw [hsign, if_neg Bool.false_ne_true] at hround
    rwa [if_neg Bool.false_ne_true]
  | true =>
    rw [hsign, if_pos rfl] at hround
    rwa [if_pos rfl, Int.neg_tdiv, Int.neg_mul]

/-- Setting a bit of the magnitude does not make it smaller. -/
theorem magnitudeBits_le_quiet (d : Double) : d.magnitudeBits ≤ d.quiet.magnitudeBits := by
  unfold magnitudeBits quiet
  rw [UInt64.toNat_or, show (0x8000000000000000 : Nat) = 2 ^ 63 from rfl, Nat.or_mod_two_pow]
  exact Nat.left_le_or

/-- What is not finite is not truncated to a finite number. -/
theorem isFinite_truncate_of_not (h : d.isFinite = false) : d.truncate.isFinite = false := by
  have hlimit : infinityBits ≤ d.magnitudeBits := Nat.not_lt.mp (of_decide_eq_false h)
  unfold truncate mapToInteger
  -- what is not a number is made quiet, and an infinity stays as it is
  split
  · exact decide_eq_false (Nat.not_lt.mpr (Nat.le_trans hlimit d.magnitudeBits_le_quiet))
  · next hnan =>
    split
    · exact h
    · next hinfinite =>
      -- a finite number is left, which contradicts the assumption
      have hle : d.magnitudeBits ≤ infinityBits :=
        Nat.not_lt.mp fun hlt => hnan (decide_eq_true hlt)
      exact absurd (beq_iff_eq.mpr (Nat.le_antisymm hle hlimit)) hinfinite

end Truncation

/-! ### Comparing with integers -/

namespace HasUnits

variable {d e : Double} {m n : Int} (hd : d.HasUnits (m * unitsPerOne))
  (he : e.HasUnits (n * unitsPerOne))

include hd in
/-- The integer part of an integral double is its value. -/
theorem integerPart?_eq : d.integerPart? = some m := by
  rw [integerPart?, if_pos hd.isFinite, hd.units,
    Int.mul_tdiv_cancel _ (Int.natCast_ne_zero.mpr unitsPerOne_ne_zero)]

include hd he

/-- Integral doubles are in the order of their values. -/
theorem less_iff : d.less e = true ↔ m < n := by
  have hunit : (0 : Int) < unitsPerOne :=
    Int.natCast_pos.mpr (Nat.pos_of_ne_zero unitsPerOne_ne_zero)
  rw [less, isNaN_of_isFinite hd.isFinite, isNaN_of_isFinite he.isFinite, hd.units, he.units]
  simp only [Bool.not_false, Bool.true_and, decide_eq_true_eq]
  exact Int.mul_lt_mul_right hunit

/-- Integral doubles are in the order of their values, equal ones included. -/
theorem lessOrEqual_iff : d.lessOrEqual e = true ↔ m ≤ n := by
  have hunit : (0 : Int) < unitsPerOne :=
    Int.natCast_pos.mpr (Nat.pos_of_ne_zero unitsPerOne_ne_zero)
  rw [lessOrEqual, isNaN_of_isFinite hd.isFinite, isNaN_of_isFinite he.isFinite, hd.units, he.units]
  simp only [Bool.not_false, Bool.true_and, decide_eq_true_eq]
  exact Int.mul_le_mul_right hunit

end HasUnits

end DynExpr.Double
