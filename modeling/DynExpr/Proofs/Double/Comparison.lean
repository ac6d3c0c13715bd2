import DynExpr.Proofs.Double.Exact

/-!
# Equal doubles

Equality of doubles compares units. Different magnitude bits have different units
(`unitsOfBits_injective`), and so only the two zeros are equal without being the same double
(`eq_or_isZero_of_equal`).

A NaN equals nothing, itself included; on all other doubles equality is an equivalence relation.
What an integer is rounded to is never a NaN (`isNaN_ofInt`), and integers up to `2 ^ 53` are told
apart by it (`equal_ofInt_iff`).
-/

namespace DynExpr.Double

/-! ### Equality as a relation -/

/-- Doubles are equal if neither is a NaN and both have the same units. -/
theorem equal_iff {a b : Double} :
    a.equal b ↔ a.isNaN = false ∧ b.isNaN = false ∧ a.units = b.units := by
  simp only [equal, Bool.and_eq_true, Bool.not_eq_true', beq_iff_eq, and_assoc]

/-- What is no NaN equals itself. -/
theorem equal_self {a : Double} (h : a.isNaN = false) : a.equal a :=
  equal_iff.mpr ⟨h, h, rfl⟩

/-- Equality of doubles has no direction. -/
theorem equal_comm (a b : Double) : a.equal b = b.equal a := by
  rw [Bool.eq_iff_iff, equal_iff, equal_iff]
  constructor
  · rintro ⟨ha, hb, hunits⟩
    exact ⟨hb, ha, hunits.symm⟩
  · rintro ⟨hb, ha, hunits⟩
    exact ⟨ha, hb, hunits.symm⟩

/-- Doubles are equal through a third one. -/
theorem equal_trans {a b c : Double} (hab : a.equal b) (hbc : b.equal c) : a.equal c := by
  obtain ⟨ha, -, hunits⟩ := equal_iff.mp hab
  obtain ⟨-, hc, hunits'⟩ := equal_iff.mp hbc
  exact equal_iff.mpr ⟨ha, hc, hunits.trans hunits'⟩

/-! ### Units tell doubles apart -/

/-- Magnitude bits are below `2 ^ 52`, or they are a significand and a step. -/
theorem exists_significand_of_bits (m : Nat) :
    m < 2 ^ 52 ∨ ∃ q k, 2 ^ 52 ≤ q ∧ q < 2 ^ 53 ∧ m = k * 2 ^ 52 + q := by
  rcases Nat.lt_or_ge m (2 ^ 52) with h | h
  · exact .inl h
  · refine .inr ⟨2 ^ 52 + m % 2 ^ 52, m / 2 ^ 52 - 1, ?_, ?_, ?_⟩ <;> omega

/-- Below `2 ^ 52` the magnitude bits are the units. -/
theorem unitsOfBits_of_lt {m : Nat} (h : m < 2 ^ 52) : unitsOfBits m = m := by
  unfold unitsOfBits
  rw [if_pos]
  exact h

/-- Different magnitude bits have different units. -/
theorem unitsOfBits_injective {m n : Nat} (h : unitsOfBits m = unitsOfBits n) : m = n := by
  -- the units of a significand are `2 ^ 52` at least
  have hlarge : ∀ {q k : Nat}, 2 ^ 52 ≤ q → 2 ^ 52 ≤ q * 2 ^ k := fun hq =>
    Nat.le_trans hq (Nat.le_mul_of_pos_right _ (Nat.two_pow_pos _))
  rcases exists_significand_of_bits m with hm | ⟨q, k, hlow, hhigh, rfl⟩
  · rw [unitsOfBits_of_lt hm] at h
    rcases exists_significand_of_bits n with hn | ⟨q, k, hlow, hhigh, rfl⟩
    · rw [unitsOfBits_of_lt hn] at h
      exact h
    · rw [unitsOfBits_normal hlow hhigh] at h
      have := hlarge (k := k) hlow
      omega
  · rw [unitsOfBits_normal hlow hhigh] at h
    rcases exists_significand_of_bits n with hn | ⟨r, l, hlow', hhigh', rfl⟩
    · rw [unitsOfBits_of_lt hn] at h
      have := hlarge (k := k) hlow
      omega
    · rw [unitsOfBits_normal hlow' hhigh'] at h
      -- the logarithm gives the step, and then the significand is left
      have hlog := congrArg Nat.log2 h
      rw [log2_mul_two_pow k hlow hhigh, log2_mul_two_pow l hlow' hhigh'] at hlog
      obtain rfl : k = l := Nat.add_left_cancel hlog
      rw [Nat.eq_of_mul_eq_mul_right (Nat.two_pow_pos k) h]

/-- The sign does not count for the magnitude. -/
theorem natAbs_units (d : Double) : d.units.natAbs = unitsOfBits d.magnitudeBits := by
  unfold units
  split
  · rw [Int.natAbs_neg, Int.natAbs_natCast]
  · rw [Int.natAbs_natCast]

/-- The bits of a double are its magnitude bits and its sign. -/
theorem eq_of_magnitudeBits {a b : Double} (hbits : a.magnitudeBits = b.magnitudeBits)
    (hnegative : a.negative = b.negative) : a = b := by
  have ha := a.bits.toNat_lt
  have hb := b.bits.toNat_lt
  -- the sign is the highest bit, and the magnitude bits are all others
  have hnat : a.bits.toNat = b.bits.toNat := by
    unfold magnitudeBits at hbits
    unfold negative at hnegative
    rw [decide_eq_decide] at hnegative
    omega
  cases a
  cases b
  exact congrArg Double.mk (UInt64.toNat_inj.mp hnat)

/-- **Equal doubles** are the same double, or both are zeros. -/
theorem eq_or_isZero_of_equal {a b : Double} (h : a.equal b) : a = b ∨ a.isZero ∧ b.isZero := by
  obtain ⟨-, -, hunits⟩ := equal_iff.mp h
  -- the sign apart, equal units are equal bits
  have hbits : a.magnitudeBits = b.magnitudeBits := by
    apply unitsOfBits_injective
    rw [← natAbs_units, ← natAbs_units, hunits]
  by_cases hnegative : a.negative = b.negative
  · exact .inl (eq_of_magnitudeBits hbits hnegative)
  · -- units that are their own opposite are zero
    have hzero : unitsOfBits b.magnitudeBits = 0 := by
      unfold units at hunits
      rw [hbits] at hunits
      cases ha : a.negative with
      | false =>
        have hb : b.negative = true := by simpa [ha] using hnegative
        rw [ha, hb, if_neg Bool.false_ne_true, if_pos rfl] at hunits
        omega
      | true =>
        have hb : b.negative = false := by simpa [ha] using hnegative
        rw [ha, hb, if_neg Bool.false_ne_true, if_pos rfl] at hunits
        omega
    have hmagnitude : b.magnitudeBits = 0 := unitsOfBits_injective hzero
    exact .inr ⟨beq_iff_eq.mpr (hbits.trans hmagnitude), beq_iff_eq.mpr hmagnitude⟩

/-! ### Rounded integers -/

/-- Integers are not rounded to a NaN. -/
theorem isNaN_ofInt (n : Int) : (ofInt n).isNaN = false := by
  -- rounding stops at infinity
  have hbound : nearestBits 53 infinityBits (n.natAbs * unitsPerOne) 1 ≤ infinityBits :=
    Nat.min_le_right _ _
  have hrange : nearestBits 53 infinityBits (n.natAbs * unitsPerOne) 1 < 2 ^ 63 :=
    Nat.lt_of_le_of_lt hbound (by decide)
  unfold isNaN ofInt ofRatio
  rw [magnitudeBits_ofParts _ hrange, decide_eq_false_iff_not]
  exact Nat.not_lt.mpr hbound

/-- The unit is a power of two. The exponent is left abstract, since the power is not to be
computed. -/
theorem exists_unitsPerOne_eq : ∃ e, unitsPerOne = 2 ^ e := by
  unfold unitsPerOne
  generalize 1074 = e
  exact ⟨e, rfl⟩

/-- The unit is not zero. -/
theorem unitsPerOne_ne_zero : unitsPerOne ≠ 0 := by
  obtain ⟨e, he⟩ := exists_unitsPerOne_eq
  rw [he]
  exact Nat.ne_of_gt (Nat.two_pow_pos e)

/-- Integers up to `2 ^ 53` are told apart by the doubles nearest to them. -/
theorem equal_ofInt_iff {m n : Int} (hm : m.natAbs ≤ 2 ^ 53) (hn : n.natAbs ≤ 2 ^ 53) :
    (ofInt m).equal (ofInt n) ↔ m = n := by
  constructor
  · intro h
    have hunits := (equal_iff.mp h).2.2
    -- both are exact, so that their units are multiples of the unit
    rw [(ofInt_exact hm).2.1, (ofInt_exact hn).2.1] at hunits
    exact Int.eq_of_mul_eq_mul_right (Int.natCast_ne_zero.mpr unitsPerOne_ne_zero) hunits
  · rintro rfl
    exact equal_self (isNaN_ofInt m)

/-- From `2 ^ 53` on, an integer is not rounded to a double below `2 ^ 53`. -/
theorem le_magnitudeBits_ofInt {n : Int} (h : 2 ^ 53 ≤ n.natAbs) :
    0x4340000000000000 ≤ (ofInt n).magnitudeBits := by
  have hle : nearestBits 53 infinityBits (n.natAbs * unitsPerOne) 1 ≤ infinityBits :=
    Nat.min_le_right _ _
  have hrange : nearestBits 53 infinityBits (n.natAbs * unitsPerOne) 1 < 2 ^ 63 :=
    Nat.lt_of_le_of_lt hle (by decide)
  unfold ofInt ofRatio
  rw [magnitudeBits_ofParts _ hrange]
  refine Nat.le_min.mpr ⟨?_, by decide⟩
  -- the exponent of the unit is left abstract again, and the logarithm of the units with it
  unfold unitsPerOne
  obtain ⟨e, he⟩ : ∃ e, e = 1074 := ⟨1074, rfl⟩
  rw [← he, Nat.pow_eq, Nat.div_one, Nat.one_mul]
  have hpos : n.natAbs * 2 ^ e ≠ 0 :=
    Nat.mul_ne_zero (by omega) (Nat.ne_of_gt (Nat.two_pow_pos e))
  have hlog : 53 + e ≤ (n.natAbs * 2 ^ e).log2 := by
    rw [Nat.le_log2 hpos, Nat.pow_add]
    exact Nat.mul_le_mul_right _ h
  have hself := Nat.log2_self_le hpos
  generalize n.natAbs * 2 ^ e = num at hlog hself
  -- the step takes all but 53 bits, so what is rounded is `2 ^ 52` at least
  have hquotient : 2 ^ 52 ≤ num / 2 ^ (num.log2 + 1 - 53) := by
    rw [Nat.le_div_iff_mul_le (Nat.two_pow_pos _), ← Nat.pow_add,
      show 52 + (num.log2 + 1 - 53) = num.log2 by omega]
    exact hself
  have hrounded := Nat.le_trans hquotient (div_le_roundHalfEven num (2 ^ (num.log2 + 1 - 53)))
  show 0x4340000000000000 ≤
    (num.log2 + 1 - 53) * 2 ^ 52 + roundHalfEven num (2 ^ (num.log2 + 1 - 53))
  omega

/-- Only zero is rounded to a zero. -/
theorem eq_zero_of_isZero_ofInt {n : Int} (h : (ofInt n).isZero) : n = 0 := by
  have hbits : (ofInt n).magnitudeBits = 0 := beq_iff_eq.mp h
  have hsmall : n.natAbs ≤ 2 ^ 53 := by
    -- far away from zero there are no zeros
    rcases Nat.lt_or_ge n.natAbs (2 ^ 53) with hlt | hge
    · exact Nat.le_of_lt hlt
    · have := le_magnitudeBits_ofInt hge
      omega
  have hunits := natAbs_units (ofInt n)
  rw [hbits, (ofInt_exact hsmall).2.1, Int.natAbs_mul, Int.natAbs_natCast] at hunits
  rcases Nat.mul_eq_zero.mp hunits with hn | hunit
  · exact Int.natAbs_eq_zero.mp hn
  · exact absurd hunit unitsPerOne_ne_zero

/-- What an integer is rounded to equals no other double, apart from the zeros. -/
theorem ofInt_eq_of_equal {n : Int} {d : Double} (hzero : ¬ d.isZero) (h : (ofInt n).equal d) :
    ofInt n = d :=
  (eq_or_isZero_of_equal h).resolve_right fun hzeros => hzero hzeros.2

/-- Nothing but zero equals a zero. -/
theorem eq_zero_of_equal_isZero {n : Int} {d : Double} (hzero : d.isZero)
    (h : (ofInt n).equal d) : n = 0 := by
  apply eq_zero_of_isZero_ofInt
  rcases eq_or_isZero_of_equal h with heq | ⟨hn, -⟩
  · rw [heq]
    exact hzero
  · exact hn

end DynExpr.Double
