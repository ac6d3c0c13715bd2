import DynExpr.Proofs.Double.Comparison

/-!
# Ratios between midpoints

A ratio that lies between the midpoints to the two neighbours of a double is rounded to this double,
and at a midpoint it still is if the last bit of the double is zero (`Nearest`,
`Nearest.nearestBits_eq`). This is what a decimal needs to be read back.

Every double has a significand `q` below `2 ^ 53` and a step `k`, and its magnitude is `q * 2 ^ k`
units; below the normal range the step is zero (`IsSignificand`). The neighbour above is
`(q + 1) * 2 ^ k`, in the next binade, too. The neighbour below is `(q - 1) * 2 ^ k`, but for the
first double of a binade it is half as far away, and a ratio between the two is rounded with the
step of the binade below. This case apart, the ratio is rounded with the step of the double, and
what is left is that half a step is enough to round an integer (`roundHalfEven_eq`).
-/

namespace DynExpr

/-! ### Rounding to an integer -/

/-- Half a step is enough: a ratio within it is rounded to the integer, and at the end of it if the
integer is even. -/
theorem roundHalfEven_eq {num den q : Nat} (hbelow : 2 * (q * den) ≤ 2 * num + den)
    (habove : 2 * num ≤ 2 * (q * den) + den)
    (htie : 2 * (q * den) = 2 * num + den ∨ 2 * num = 2 * (q * den) + den → q % 2 = 0)
    (hden : 0 < den) : roundHalfEven num den = q := by
  have hdiv : num / den * den + num % den = num := Nat.div_add_mod' num den
  have hrest : num % den < den := Nat.mod_lt _ hden
  unfold roundHalfEven
  generalize num / den = floor at hdiv ⊢
  generalize num % den = rest at hdiv hrest ⊢
  dsimp only
  have hsucc : (floor + 1) * den = floor * den + den := Nat.add_one_mul floor den
  -- the integer is the quotient, or the next one
  have hcases : q = floor ∨ q = floor + 1 := by
    have hlow : floor ≤ q := by
      refine Nat.not_lt.mp fun hlt => ?_
      have hmul := Nat.mul_le_mul_right den (show q + 1 ≤ floor from hlt)
      have hexpand : (q + 1) * den = q * den + den := Nat.add_one_mul q den
      omega
    have hhigh : q ≤ floor + 1 := by
      refine Nat.not_lt.mp fun hlt => ?_
      have hmul := Nat.mul_le_mul_right den (show floor + 1 + 1 ≤ q from hlt)
      have hexpand : (floor + 1 + 1) * den = (floor + 1) * den + den := Nat.add_one_mul _ den
      omega
    omega
  -- in each case half a step is either not reached, or reached by an even integer
  rcases hcases with rfl | rfl
  · split
    · rfl
    · split
      · omega
      · rw [htie (.inr (by omega)), Nat.add_zero]
  · split
    · omega
    · split
      · rfl
      · have heven := htie (.inl (by omega))
        omega

/-- An integer that a ratio is rounded to is at most half a step away. -/
theorem roundHalfEven_within (num : Nat) {den : Nat} (hden : 0 < den) :
    2 * (roundHalfEven num den * den) ≤ 2 * num + den ∧
      2 * num ≤ 2 * (roundHalfEven num den * den) + den := by
  have hdiv : num / den * den + num % den = num := Nat.div_add_mod' num den
  have hrest : num % den < den := Nat.mod_lt _ hden
  unfold roundHalfEven
  generalize num / den = floor at hdiv ⊢
  generalize num % den = rest at hdiv hrest ⊢
  dsimp only
  have hsucc : (floor + 1) * den = floor * den + den := Nat.add_one_mul floor den
  -- down, up, or half a step in either direction
  split
  · omega
  · split
    · omega
    · rcases Nat.mod_two_eq_zero_or_one floor with h | h
      · rw [h, Nat.add_zero]
        omega
      · rw [h]
        omega

namespace Double

/-! ### Significands and steps -/

/-- The double with these magnitude bits has the significand `q` and the step `k`. -/
structure IsSignificand (m q k : Nat) : Prop where
  bits : m = k * 2 ^ 52 + q
  lt : q < 2 ^ 53
  low : k = 0 ∨ 2 ^ 52 ≤ q

/-- Every double has a significand and a step. -/
theorem exists_isSignificand (m : Nat) : ∃ q k, IsSignificand m q k := by
  rcases exists_significand_of_bits m with h | ⟨q, k, hlow, hhigh, rfl⟩
  · exact ⟨m, 0, by omega, by omega, .inl rfl⟩
  · exact ⟨q, k, rfl, hhigh, .inr hlow⟩

/-- The magnitude of a significand and a step. Where the significand leaves the range, the next
binade begins. -/
theorem unitsOfBits_eq {q k : Nat} (hhigh : q ≤ 2 ^ 53) (hlow : k = 0 ∨ 2 ^ 52 ≤ q) :
    unitsOfBits (k * 2 ^ 52 + q) = q * 2 ^ k := by
  rcases Nat.lt_or_eq_of_le hhigh with hlt | rfl
  · rcases Nat.lt_or_ge q (2 ^ 52) with hsmall | hlarge
    · obtain rfl : k = 0 := hlow.resolve_right (Nat.not_le.mpr hsmall)
      rw [Nat.zero_mul, Nat.zero_add, unitsOfBits_of_lt hsmall, Nat.pow_zero, Nat.mul_one]
    · exact unitsOfBits_normal hlarge hlt
  · have hnext : k * 2 ^ 52 + 2 ^ 53 = (k + 1) * 2 ^ 52 + 2 ^ 52 := by omega
    rw [hnext, unitsOfBits_normal (Nat.le_refl _) (by omega), Nat.pow_succ]
    omega

namespace IsSignificand

variable {m q k : Nat} (h : IsSignificand m q k)

include h

/-- The units of a double are its significand times its step. -/
theorem units : unitsOfBits m = q * 2 ^ k := by
  rw [h.bits]
  exact unitsOfBits_eq (Nat.le_of_lt h.lt) h.low

/-- The neighbour above is one step away. -/
theorem units_succ : unitsOfBits (m + 1) = (q + 1) * 2 ^ k := by
  rw [h.bits, Nat.add_assoc]
  exact unitsOfBits_eq h.lt (h.low.imp_right fun h => Nat.le_succ_of_le h)

/-- Inside a binade the neighbour below is one step away. -/
theorem units_pred (hpos : 0 < q) (hinside : k = 0 ∨ 2 ^ 52 < q) :
    unitsOfBits (m - 1) = (q - 1) * 2 ^ k := by
  rw [h.bits, Nat.add_sub_assoc hpos]
  exact unitsOfBits_eq (by have := h.lt; omega) (hinside.imp_right fun h => Nat.le_sub_one_of_lt h)

/-- Below the first double of a binade there is the last one of the binade before it. -/
theorem units_pred_first (hk : 0 < k) (hq : q = 2 ^ 52) :
    unitsOfBits (m - 1) = (2 ^ 53 - 1) * 2 ^ (k - 1) := by
  have hbits : m - 1 = (k - 1) * 2 ^ 52 + (2 ^ 53 - 1) := by
    rw [h.bits, hq]
    omega
  rw [hbits]
  exact unitsOfBits_eq (by omega) (.inr (by omega))

variable (den : Nat)

/-- Twice the midpoint to the neighbour above is half a step above the double. -/
theorem above_mul : (unitsOfBits m + unitsOfBits (m + 1)) * den =
    2 * (q * (2 ^ k * den)) + 2 ^ k * den := by
  have hsum : unitsOfBits m + unitsOfBits (m + 1) = (2 * q + 1) * 2 ^ k := by
    rw [h.units, h.units_succ, ← Nat.add_mul]
    congr 1
    omega
  calc (unitsOfBits m + unitsOfBits (m + 1)) * den
      = (2 * q + 1) * (2 ^ k * den) := by rw [hsum, Nat.mul_assoc]
    _ = 2 * (q * (2 ^ k * den)) + 2 ^ k * den := by rw [Nat.add_one_mul (2 * q), Nat.mul_assoc 2]

/-- Twice the midpoint to the neighbour below is half a step below the double, but for the first
double of a binade. -/
theorem below_mul (hpos : 0 < q) (hinside : k = 0 ∨ 2 ^ 52 < q) :
    (unitsOfBits m + unitsOfBits (m - 1)) * den + 2 ^ k * den = 2 * (q * (2 ^ k * den)) := by
  have hsum : unitsOfBits m + unitsOfBits (m - 1) + 2 ^ k = 2 * q * 2 ^ k := by
    rw [h.units, h.units_pred hpos hinside, ← Nat.add_mul, ← Nat.add_one_mul]
    congr 1
    omega
  calc (unitsOfBits m + unitsOfBits (m - 1)) * den + 2 ^ k * den
      = 2 * q * 2 ^ k * den := by rw [← Nat.add_mul, hsum]
    _ = 2 * (q * (2 ^ k * den)) := by rw [Nat.mul_assoc, Nat.mul_assoc 2]

end IsSignificand

/-- The units grow with the magnitude bits. -/
theorem unitsOfBits_lt_succ (m : Nat) : unitsOfBits m < unitsOfBits (m + 1) := by
  obtain ⟨q, k, hm⟩ := exists_isSignificand m
  rw [hm.units, hm.units_succ, Nat.add_one_mul]
  exact Nat.lt_add_of_pos_right (Nat.two_pow_pos k)

/-! ### Ratios between midpoints -/

/-- The ratio lies between the midpoints to the neighbours of the double with these magnitude bits,
and at a midpoint only if the last bit is zero. -/
structure Nearest (m num den : Nat) : Prop where
  below : (unitsOfBits m + unitsOfBits (m - 1)) * den ≤ 2 * num
  above : 2 * num ≤ (unitsOfBits m + unitsOfBits (m + 1)) * den
  tie : (unitsOfBits m + unitsOfBits (m - 1)) * den = 2 * num ∨
    2 * num = (unitsOfBits m + unitsOfBits (m + 1)) * den → m % 2 = 0

/-- Rounding with a given step. -/
theorem nearestBits_eq {num den k : Nat} (hhigh : num / den < 2 ^ (53 + k))
    (hlow : k = 0 ∨ 2 ^ (52 + k) ≤ num / den) :
    nearestBits 53 infinityBits num den =
      min (k * 2 ^ 52 + roundHalfEven num (2 ^ k * den)) infinityBits := by
  -- the step is that of the binade of the ratio
  have hstep : (num / den).log2 + 1 - 53 = k := by
    rcases hlow with rfl | hlow
    · have : (num / den).log2 < 53 := by
        rcases Nat.eq_zero_or_pos (num / den) with hzero | hpos
        · rw [hzero]
          decide
        · exact (Nat.log2_lt (Nat.ne_of_gt hpos)).mpr hhigh
      omega
    · have hne : num / den ≠ 0 := by
        have := Nat.two_pow_pos (52 + k)
        omega
      have := (Nat.log2_eq_iff hne).mpr ⟨hlow, by rwa [Nat.add_right_comm]⟩
      omega
  unfold nearestBits
  simp only [hstep, Nat.pow_eq]
  rw [Nat.mul_comm den]

namespace Nearest

variable {m q k num den : Nat}

/-- A ratio between the midpoints is below the next binade but one. -/
theorem div_lt (h : Nearest m num den) (hm : IsSignificand m q k) (hden : 0 < den) :
    num / den < 2 ^ (53 + k) := by
  rw [Nat.div_lt_iff_lt_mul hden, Nat.pow_add, Nat.mul_assoc]
  have habove := h.above
  rw [hm.above_mul] at habove
  have hstep : 0 < 2 ^ k * den := Nat.mul_pos (Nat.two_pow_pos k) hden
  -- the midpoint above is half a step behind a significand of 53 bits at most
  have hbound := Nat.mul_le_mul_right (2 ^ k * den) (show q + 1 ≤ 2 ^ 53 from hm.lt)
  rw [Nat.add_one_mul] at hbound
  omega

/-- In its own binade the ratio is rounded to the significand. -/
theorem roundHalfEven_eq_significand (h : Nearest m num den) (hm : IsSignificand m q k)
    (hden : 0 < den) (hlow : k = 0 ∨ 2 ^ (52 + k) ≤ num / den) :
    roundHalfEven num (2 ^ k * den) = q := by
  have hstep : 0 < 2 ^ k * den := Nat.mul_pos (Nat.two_pow_pos k) hden
  -- the last bit of the double is that of its significand
  have hparity : q % 2 = m % 2 := by
    have := hm.bits
    omega
  have habove := h.above
  have htie := h.tie
  rw [hm.above_mul, ← hparity] at htie
  rw [hm.above_mul] at habove
  by_cases hinside : 0 < q ∧ (k = 0 ∨ 2 ^ 52 < q)
  · have hbelow := h.below
    have hmidpoint := hm.below_mul den hinside.1 hinside.2
    exact roundHalfEven_eq (by omega) habove (fun heq => htie (by omega)) hstep
  · -- zero, or the first of its binade: the ratio is not below it
    have hge : q * (2 ^ k * den) ≤ num := by
      rcases Nat.eq_zero_or_pos q with rfl | hpos
      · rw [Nat.zero_mul]
        exact Nat.zero_le _
      · have hk : k ≠ 0 := fun hk => hinside ⟨hpos, .inl hk⟩
        have hq : q = 2 ^ 52 := by
          have := hm.low
          omega
        have hpow := (Nat.le_div_iff_mul_le hden).mp (hlow.resolve_left hk)
        rwa [Nat.pow_add, Nat.mul_assoc, ← hq] at hpow
    exact roundHalfEven_eq (by omega) habove (fun heq => htie (.inr (by omega))) hstep

/-- Below its own binade there is only the first double of a binade. The step is half of its own
there, and the ratio is rounded to twice the significand. -/
theorem roundHalfEven_eq_first {j : Nat} (h : Nearest m num den) (hm : IsSignificand m q (j + 1))
    (hden : 0 < den) (hnum : num < 2 ^ 53 * (2 ^ j * den)) :
    q = 2 ^ 52 ∧ 2 ^ 52 * (2 ^ j * den) ≤ num ∧ roundHalfEven num (2 ^ j * den) = 2 ^ 53 := by
  have hstep : 0 < 2 ^ j * den := Nat.mul_pos (Nat.two_pow_pos j) hden
  -- inside its binade the double would have its midpoint below too high
  have hq : q = 2 ^ 52 := by
    have hdouble : 2 ^ (j + 1) * den = 2 * (2 ^ j * den) := by
      rw [Nat.pow_succ, Nat.mul_comm (2 ^ j), Nat.mul_assoc]
    have hlow := hm.low.resolve_left (Nat.succ_ne_zero j)
    refine Nat.le_antisymm (Nat.not_lt.mp fun hlt => ?_) hlow
    have hbelow := h.below
    have hmidpoint := hm.below_mul den (by omega) (.inr hlt)
    have hmul := Nat.mul_le_mul_right (2 ^ (j + 1) * den) (show 2 ^ 52 + 1 ≤ q from hlt)
    rw [hdouble] at hmidpoint hmul
    omega
  have hbelow : (2 ^ 54 - 1) * (2 ^ j * den) ≤ 2 * num := by
    have hsum : 2 ^ 52 * 2 ^ (j + 1) + (2 ^ 53 - 1) * 2 ^ j = (2 ^ 54 - 1) * 2 ^ j := by
      rw [Nat.pow_succ]
      omega
    have hbelow := h.below
    rwa [hm.units, hm.units_pred_first (Nat.succ_pos j) hq, hq, Nat.add_sub_cancel, hsum,
      Nat.mul_assoc] at hbelow
  refine ⟨hq, by omega, roundHalfEven_eq (by omega) (by omega) (fun _ => by decide) hstep⟩

/-- **A ratio between the midpoints is rounded to the double.** -/
theorem nearestBits_eq (h : Nearest m num den) (hfinite : m < infinityBits) (hden : 0 < den) :
    nearestBits 53 infinityBits num den = m := by
  obtain ⟨q, k, hm⟩ := exists_isSignificand m
  by_cases hlow : k = 0 ∨ 2 ^ (52 + k) ≤ num / den
  · rw [Double.nearestBits_eq (h.div_lt hm hden) hlow,
      h.roundHalfEven_eq_significand hm hden hlow, ← hm.bits]
    exact Nat.min_eq_left (Nat.le_of_lt hfinite)
  · -- the ratio is in the binade before
    obtain ⟨hk, hdiv⟩ := not_or.mp hlow
    obtain ⟨j, rfl⟩ : ∃ j, k = j + 1 := Nat.exists_eq_add_one_of_ne_zero hk
    have hnum : num < 2 ^ 53 * (2 ^ j * den) := by
      have := (Nat.div_lt_iff_lt_mul hden).mp (Nat.not_le.mp hdiv)
      rwa [show 52 + (j + 1) = 53 + j by omega, Nat.pow_add, Nat.mul_assoc] at this
    obtain ⟨rfl, hge, hround⟩ := h.roundHalfEven_eq_first hm hden hnum
    have hhigh : num / den < 2 ^ (53 + j) := by
      rw [Nat.div_lt_iff_lt_mul hden, Nat.pow_add, Nat.mul_assoc]
      exact hnum
    have hlow : 2 ^ (52 + j) ≤ num / den := by
      rw [Nat.le_div_iff_mul_le hden, Nat.pow_add, Nat.mul_assoc]
      exact hge
    -- a significand of 54 bits carries into the exponent
    have hbits : m = j * 2 ^ 52 + 2 ^ 53 := by
      rw [hm.bits]
      omega
    rw [Double.nearestBits_eq hhigh (.inr hlow), hround, ← hbits]
    exact Nat.min_eq_left (Nat.le_of_lt hfinite)

/-- **A double is nearest to itself**, as any ratio. -/
theorem exact (m : Nat) {den : Nat} (hden : 0 < den) : Nearest m (unitsOfBits m * den) den := by
  have hexpand (n : Nat) :
      (unitsOfBits m + unitsOfBits n) * den = unitsOfBits m * den + unitsOfBits n * den :=
    Nat.add_mul _ _ _
  have hup : unitsOfBits m * den < unitsOfBits (m + 1) * den :=
    Nat.mul_lt_mul_of_pos_right (unitsOfBits_lt_succ m) hden
  rcases Nat.eq_zero_or_pos m with rfl | hpos
  · have hzero : unitsOfBits (0 - 1) * den = unitsOfBits 0 * den := rfl
    refine ⟨?_, ?_, fun _ => rfl⟩
    · rw [hexpand]
      omega
    · rw [hexpand]
      omega
  · have hdown : unitsOfBits (m - 1) * den < unitsOfBits m * den := by
      have := unitsOfBits_lt_succ (m - 1)
      rw [Nat.sub_add_cancel hpos] at this
      exact Nat.mul_lt_mul_of_pos_right this hden
    -- the midpoints are strictly on both sides, so that there is no tie
    refine ⟨?_, ?_, fun htie => ?_⟩
    · rw [hexpand]
      omega
    · rw [hexpand]
      omega
    · rw [hexpand, hexpand] at htie
      omega

/-- Nothing but zero is nearest to zero. -/
theorem eq_zero (h : Nearest m 0 den) (hden : 0 < den) : m = 0 := by
  have hbelow := Nat.le_zero.mp h.below
  have hunits := (Nat.add_eq_zero_iff.mp ((Nat.mul_eq_zero.mp hbelow).resolve_right (by omega))).1
  exact unitsOfBits_injective hunits

/-- **Integers lie between the midpoints of integers only.** A double with a fraction is so small
that every integer around it is a double, too. -/
theorem dvd_units {n : Nat} (h : Nearest m (n * unitsPerOne) 1) (hfinite : m < infinityBits) :
    unitsPerOne ∣ unitsOfBits m := by
  obtain ⟨q, k, hm⟩ := exists_isSignificand m
  obtain ⟨e, hunit⟩ := exists_unitsPerOne_eq
  rcases Nat.lt_or_ge k e with hk | hk
  · -- the integer has at most 53 bits, so it is the double that it is rounded to
    rcases Nat.eq_zero_or_pos n with rfl | hpos
    · rw [Nat.zero_mul] at h
      rw [h.eq_zero Nat.one_pos]
      exact Nat.dvd_zero _
    · have hlt : n * unitsPerOne < 2 ^ 53 * unitsPerOne := by
        calc n * unitsPerOne < 2 ^ (53 + k) := by
              have := h.div_lt hm Nat.one_pos
              rwa [Nat.div_one] at this
          _ ≤ 2 ^ (53 + e) := Nat.pow_le_pow_right (by omega) (by omega)
          _ = 2 ^ 53 * unitsPerOne := by rw [hunit, Nat.pow_add]
      obtain ⟨r, l, hlow, hhigh, hl, heq⟩ :=
        exists_significand hpos (Nat.le_of_lt (Nat.lt_of_mul_lt_mul_right hlt))
      have hbits := h.nearestBits_eq hfinite Nat.one_pos
      rw [heq, nearestBits_normal hlow hhigh (by omega)] at hbits
      rw [← hbits, unitsOfBits_normal hlow hhigh, ← heq]
      exact Nat.dvd_mul_left _ _
  · -- the step is a multiple of one
    rw [hm.units, hunit]
    exact Nat.dvd_mul_left_of_dvd (Nat.pow_dvd_pow 2 hk) q

end Nearest

end Double
end DynExpr
