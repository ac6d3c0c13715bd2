import DynExpr.Double
import Mathlib.Algebra.Group.Nat.Defs

/-!
# Exactly rounded integers

A normal double has a significand `q` of 53 bits and an exponent step `k`: its magnitude is
`q * 2 ^ k` units and its bits are `k * 2 ^ 52 + q` (`nearestBits_normal`,
`unitsOfBits_normal`). A ratio that is of this form is therefore not changed by rounding.

Every integer of magnitude at most `2 ^ 53` is of this form (`exists_significand`), and so
`Double.ofInt` keeps its value and its sign (`Double.ofInt_exact`).
-/

namespace DynExpr.Double

/-! ### Parts -/

/-- The bits of a double are its magnitude bits, below the sign bit. -/
theorem toNat_ofParts (negative : Bool) {magnitude : Nat} (h : magnitude < 2 ^ 63) :
    (ofParts negative magnitude).bits.toNat
      = (if negative then 2 ^ 63 else 0) + magnitude := by
  unfold ofParts
  rw [UInt64.toNat_ofNat']
  cases negative with
  | false =>
    simp only [Bool.false_eq_true, if_false]
    omega
  | true =>
    simp only [if_true]
    omega

/-- A double that is built of its parts has these magnitude bits. -/
theorem magnitudeBits_ofParts (negative : Bool) {magnitude : Nat} (h : magnitude < 2 ^ 63) :
    (ofParts negative magnitude).magnitudeBits = magnitude := by
  rw [magnitudeBits, toNat_ofParts negative h]
  cases negative with
  | false =>
    simp only [Bool.false_eq_true, if_false]
    omega
  | true =>
    simp only [if_true]
    omega

/-- A double that is built of its parts has this sign. -/
theorem negative_ofParts (negative : Bool) {magnitude : Nat} (h : magnitude < 2 ^ 63) :
    (ofParts negative magnitude).negative = negative := by
  rw [Double.negative, toNat_ofParts negative h]
  cases negative with
  | false =>
    simp only [Bool.false_eq_true, if_false, decide_eq_false_iff_not]
    omega
  | true =>
    simp only [if_true, decide_eq_true_eq]
    omega

/-- A finite number is no NaN. -/
theorem isNaN_of_isFinite {d : Double} (h : d.isFinite = true) : d.isNaN = false :=
  decide_eq_false (Nat.not_lt.mpr (Nat.le_of_lt (of_decide_eq_true h)))

/-- A finite number is no infinity. -/
theorem isInfinite_of_isFinite {d : Double} (h : d.isFinite = true) : d.isInfinite = false :=
  beq_false_of_ne (Nat.ne_of_lt (of_decide_eq_true h))

/-! ### Rounding a significand -/

/-- A step adds to the logarithm of a significand. -/
theorem log2_mul_two_pow {q p : Nat} (k : Nat) (hlow : 2 ^ p ≤ q) (hhigh : q < 2 ^ (p + 1)) :
    (q * 2 ^ k).log2 = p + k := by
  have hk : 0 < 2 ^ k := Nat.two_pow_pos k
  have hne : q * 2 ^ k ≠ 0 := by
    have := Nat.two_pow_pos p
    exact Nat.mul_ne_zero (by omega) (Nat.ne_of_gt hk)
  rw [Nat.log2_eq_iff hne]
  constructor
  · rw [Nat.pow_add]
    exact Nat.mul_le_mul_right _ hlow
  · rw [show p + k + 1 = p + 1 + k by omega, Nat.pow_add]
    exact Nat.mul_lt_mul_of_pos_right hhigh hk

/-- An integer is rounded to itself. -/
theorem roundHalfEven_mul (q : Nat) {den : Nat} (h : 0 < den) :
    roundHalfEven (q * den) den = q := by
  unfold roundHalfEven
  simp [Nat.mul_div_cancel _ h, h]

/-- Rounding to an integer never goes below the quotient. -/
theorem div_le_roundHalfEven (num den : Nat) : num / den ≤ roundHalfEven num den := by
  unfold roundHalfEven
  dsimp only
  split
  · exact Nat.le_refl _
  · split
    · exact Nat.le_succ _
    · exact Nat.le_add_right _ _

/-- Rounding keeps a significand of 53 bits as it is. -/
theorem nearestBits_normal {q k : Nat} (hlow : 2 ^ 52 ≤ q) (hhigh : q < 2 ^ 53)
    (hk : k ≤ 2045) : nearestBits 53 infinityBits (q * 2 ^ k) 1 = k * 2 ^ 52 + q := by
  -- a significand has 53 bits, so all further ones belong to the step
  have hstep : (q * 2 ^ k / 1).log2 + 1 - 53 = k := by
    rw [Nat.div_one, log2_mul_two_pow k hlow hhigh]
    omega
  have hbound : k * 2 ^ 52 + q ≤ infinityBits := by
    unfold infinityBits
    omega
  unfold nearestBits
  simp only [hstep, Nat.pow_eq, Nat.one_mul]
  rw [roundHalfEven_mul q (Nat.two_pow_pos k)]
  exact Nat.min_eq_left hbound

/-- The magnitude bits of a significand and a step stand for their product. -/
theorem unitsOfBits_normal {q k : Nat} (hlow : 2 ^ 52 ≤ q) (hhigh : q < 2 ^ 53) :
    unitsOfBits (k * 2 ^ 52 + q) = q * 2 ^ k := by
  have hsize : fractionSize = 2 ^ 52 := rfl
  -- the hidden bit of the significand is added to the exponent
  have hfraction : (k * 2 ^ 52 + q) % 2 ^ 52 = q - 2 ^ 52 := by omega
  have hexponent : (k * 2 ^ 52 + q) / 2 ^ 52 - 1 = k := by omega
  unfold unitsOfBits
  rw [hsize, if_neg (by omega), hfraction, hexponent, Nat.add_sub_cancel' hlow]
  rfl

/-! ### Integers -/

/-- A positive integer up to `2 ^ 53` is a significand of 53 bits and a step. -/
theorem exists_significand {m : Nat} (hpos : 0 < m) (hle : m ≤ 2 ^ 53) :
    ∃ q k, 2 ^ 52 ≤ q ∧ q < 2 ^ 53 ∧ k ≤ 1075 ∧ m * unitsPerOne = q * 2 ^ k := by
  -- the unit is a power of two that is left abstract: only that it is at least `2 ^ 52` counts
  unfold unitsPerOne
  obtain ⟨e, he, hdeep⟩ : ∃ e, e = 1074 ∧ 52 ≤ e := ⟨1074, rfl, by omega⟩
  rw [← he, Nat.pow_eq]
  rcases Nat.lt_or_eq_of_le hle with hlt | rfl
  · -- the number is shifted until it has 53 bits
    have hlow : 2 ^ m.log2 ≤ m := Nat.log2_self_le (Nat.ne_of_gt hpos)
    have hhigh : m < 2 ^ (m.log2 + 1) := Nat.lt_log2_self
    have hlog : m.log2 ≤ 52 := by
      have := (Nat.log2_lt (Nat.ne_of_gt hpos)).mpr hlt
      omega
    refine ⟨m * 2 ^ (52 - m.log2), e - (52 - m.log2), ?_, ?_, by omega, ?_⟩
    · calc 2 ^ 52 = 2 ^ m.log2 * 2 ^ (52 - m.log2) := by
            rw [← Nat.pow_add, Nat.add_sub_cancel' hlog]
        _ ≤ m * 2 ^ (52 - m.log2) := Nat.mul_le_mul_right _ hlow
    · calc m * 2 ^ (52 - m.log2) < 2 ^ (m.log2 + 1) * 2 ^ (52 - m.log2) :=
            Nat.mul_lt_mul_of_pos_right hhigh (Nat.two_pow_pos _)
        _ = 2 ^ 53 := by rw [← Nat.pow_add, show m.log2 + 1 + (52 - m.log2) = 53 by omega]
    · rw [Nat.mul_assoc, ← Nat.pow_add, Nat.add_sub_cancel' (by omega)]
  · -- the greatest one has 54 bits, the last of which is zero
    refine ⟨2 ^ 52, e + 1, Nat.le_refl _, by omega, by omega, ?_⟩
    rw [← Nat.pow_add, ← Nat.pow_add]
    congr 1
    omega

/-- **Integers up to `2 ^ 53` are doubles.** The double nearest to such an integer is finite and
has its value and its sign. -/
theorem ofInt_exact {n : Int} (h : n.natAbs ≤ 2 ^ 53) :
    (ofInt n).isFinite ∧ (ofInt n).units = n * unitsPerOne ∧
      (ofInt n).negative = decide (n < 0) := by
  unfold ofInt ofRatio
  rcases Nat.eq_zero_or_pos n.natAbs with hzero | hpos
  · obtain rfl : n = 0 := Int.natAbs_eq_zero.mp hzero
    rw [Int.natAbs_zero, Nat.zero_mul, Int.zero_mul]
    decide
  · -- as a significand and a step, the ratio is not changed by rounding
    obtain ⟨q, k, hlow, hhigh, hk, heq⟩ := exists_significand hpos h
    have hlimit : k * 2 ^ 52 + q < infinityBits := by
      unfold infinityBits
      omega
    -- as bits of a finite number, these leave the sign bit free
    have hrange : k * 2 ^ 52 + q < 2 ^ 63 := by
      unfold infinityBits at hlimit
      omega
    rw [heq, nearestBits_normal hlow hhigh (by omega)]
    refine ⟨?_, ?_, negative_ofParts _ hrange⟩
    · rw [isFinite, magnitudeBits_ofParts _ hrange]
      exact decide_eq_true hlimit
    · rw [units, magnitudeBits_ofParts _ hrange, negative_ofParts _ hrange,
        unitsOfBits_normal hlow hhigh, ← heq, Int.natCast_mul]
      by_cases hneg : n < 0
      · have hmag : -(n.natAbs : Int) = n := by omega
        rw [if_pos (decide_eq_true hneg), ← Int.neg_mul, hmag]
      · have hmag : (n.natAbs : Int) = n := by omega
        rw [if_neg (by simpa using hneg), hmag]

end DynExpr.Double
