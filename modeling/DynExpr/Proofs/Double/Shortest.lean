import DynExpr.Double.Decimal
import DynExpr.Proofs.Double.Nearest

/-!
# Shortest decimals are read back

A decimal that lies between the midpoints of a double is read as this double
(`IsDecimalOf.ofDecimal_eq`), so long as its power of ten is in the range in which reading rounds
to nearest. What the search for the shortest decimal finds is of this kind (`isDecimalOf_shortest`).

The search does find something: two multiples of the lowest power of ten that it tries are closer
together than two doubles are, and so the one nearest to a double is between its midpoints
(`candidate?_lowest`).
-/

namespace DynExpr.Double

/-! ### Decimals of a double -/

/-- The factor of a power of ten, if it is not negative. -/
def decimalFactor (exponent : Int) : Nat := if exponent < 0 then 1 else Nat.pow 10 exponent.natAbs

/-- The divisor of a power of ten, if it is negative. -/
def decimalDivisor (exponent : Int) : Nat := if exponent < 0 then Nat.pow 10 exponent.natAbs else 1

/-- The decimal `digits * 10 ^ exponent` lies between the midpoints of the double with these
magnitude bits. -/
def IsDecimalOf (m digits : Nat) (exponent : Int) : Prop :=
  Nearest m (digits * decimalFactor exponent * unitsPerOne) (decimalDivisor exponent)

/-- The divisor is not zero. -/
theorem decimalDivisor_pos (exponent : Int) : 0 < decimalDivisor exponent := by
  unfold decimalDivisor
  split
  · exact Nat.pow_pos (by omega)
  · exact Nat.one_pos

section Decimals

variable {m digits : Nat} {exponent : Int}

/-- **A decimal between the midpoints is read as the double.** -/
theorem IsDecimalOf.ofDecimal_eq (h : IsDecimalOf m digits exponent) (hfinite : m < infinityBits)
    (hlow : -324 ≤ exponent) (hhigh : exponent ≤ 309) :
    ofDecimal false digits exponent = ofParts false m := by
  unfold ofDecimal ofScaled
  split
  · next hzero =>
    -- a decimal without digits is zero, whatever the exponent is
    unfold IsDecimalOf at h
    rw [hzero, Nat.zero_mul, Nat.zero_mul] at h
    rw [h.eq_zero (decimalDivisor_pos exponent)]
  · have hbits := h.nearestBits_eq hfinite (decimalDivisor_pos exponent)
    -- the exponent is not so far out that the result is zero or infinity without rounding
    rw [if_neg (by omega), if_neg (by omega)]
    -- the power of ten is a factor or a divisor, as its sign says
    unfold decimalFactor decimalDivisor at hbits
    split
    · next hsign =>
      rw [if_neg (by omega), if_neg (by omega)] at hbits
      rw [ofRatio, hbits]
    · next hsign =>
      rw [if_pos (by omega), if_pos (by omega), Nat.mul_one] at hbits
      rw [if_pos (by omega), ofRatio, hbits]

/-! ### Candidates -/

/-- The test of a candidate: it lies between the midpoints, and at one only if the last bit of the
double is zero. Everything is in halves of units. -/
theorem isDecimalOf_iff :
    IsDecimalOf m digits exponent ↔
      (if m % 2 = 0 then
        decide ((unitsOfBits m + unitsOfBits (m - 1)) * decimalDivisor exponent
          ≤ digits * (decimalFactor exponent * (2 * unitsPerOne))) &&
        decide (digits * (decimalFactor exponent * (2 * unitsPerOne))
          ≤ (unitsOfBits m + unitsOfBits (m + 1)) * decimalDivisor exponent)
      else
        decide ((unitsOfBits m + unitsOfBits (m - 1)) * decimalDivisor exponent
          < digits * (decimalFactor exponent * (2 * unitsPerOne))) &&
        decide (digits * (decimalFactor exponent * (2 * unitsPerOne))
          < (unitsOfBits m + unitsOfBits (m + 1)) * decimalDivisor exponent)) = true := by
  unfold IsDecimalOf
  -- the unit is left abstract, since it is not to be computed
  generalize unitsPerOne = unit
  have htwice : digits * (decimalFactor exponent * (2 * unit)) =
      2 * (digits * decimalFactor exponent * unit) := by
    rw [← Nat.mul_assoc, Nat.mul_left_comm]
  rw [htwice]
  split
  · next heven =>
    rw [Bool.and_eq_true, decide_eq_true_eq, decide_eq_true_eq]
    -- an even double takes its midpoints
    exact ⟨fun h => ⟨h.below, h.above⟩, fun h => ⟨h.1, h.2, fun _ => heven⟩⟩
  · next hodd =>
    rw [Bool.and_eq_true, decide_eq_true_eq, decide_eq_true_eq]
    constructor
    · -- an odd one does not
      intro h
      exact ⟨Nat.lt_of_le_of_ne h.below fun heq => hodd (h.tie (.inl heq)),
        Nat.lt_of_le_of_ne h.above fun heq => hodd (h.tie (.inr heq))⟩
    · rintro ⟨hbelow, habove⟩
      exact ⟨Nat.le_of_lt hbelow, Nat.le_of_lt habove, fun htie =>
        absurd htie (not_or.mpr ⟨Nat.ne_of_lt hbelow, Nat.ne_of_lt habove⟩)⟩

instance : Decidable (IsDecimalOf m digits exponent) := decidable_of_iff _ isDecimalOf_iff.symm

/-- The candidate is the nearest multiple of the power of ten or the other neighbour, if it lies
between the midpoints. -/
theorem candidate?_eq (m : Nat) (exponent : Int) :
    candidate? m exponent =
      let exact := 2 * unitsOfBits m * decimalDivisor exponent
      let step := decimalFactor exponent * (2 * unitsPerOne)
      let nearest := roundHalfEven exact step
      let other := if nearest = exact / step then exact / step + 1 else exact / step
      if IsDecimalOf m nearest exponent then some nearest
      else if IsDecimalOf m other exponent then some other
      else none := by
  unfold candidate?
  exact ite_congr (propext isDecimalOf_iff.symm) (fun _ => rfl) fun _ =>
    ite_congr (propext isDecimalOf_iff.symm) (fun _ => rfl) fun _ => rfl

/-- What is chosen of two has the property that was tested. -/
theorem of_choice {p : Nat → Prop} [DecidablePred p] {a b : Nat}
    (h : (if p a then some a else if p b then some b else none) = some digits) : p digits := by
  split at h
  · next ha =>
    cases h
    exact ha
  · split at h
    · next hb =>
      cases h
      exact hb
    · cases h

/-- A candidate lies between the midpoints. -/
theorem isDecimalOf_of_candidate? (h : candidate? m exponent = some digits) :
    IsDecimalOf m digits exponent := by
  rw [candidate?_eq] at h
  exact of_choice (p := fun n => IsDecimalOf m n exponent) h

end Decimals

/-- Powers of ten reach below the unit. -/
theorem unitsPerOne_lt : unitsPerOne < decimalDivisor (-324) := by decide +kernel

/-- There is a candidate at the lowest power of ten. -/
theorem candidate?_lowest {m : Nat} (hpos : 0 < m) :
    ∃ digits, candidate? m (-324) = some digits := by
  have hunit := unitsPerOne_lt
  have hunit' : 0 < unitsPerOne := Nat.pos_of_ne_zero unitsPerOne_ne_zero
  -- the neighbours are a unit away at least
  have hdown : unitsOfBits (m - 1) < unitsOfBits m := by
    have := unitsOfBits_lt_succ (m - 1)
    rwa [Nat.sub_add_cancel hpos] at this
  have hup := unitsOfBits_lt_succ m
  have hfactor : decimalFactor (-324) = 1 := rfl
  refine ⟨_, (candidate?_eq m (-324)).trans (if_pos ?_)⟩
  unfold IsDecimalOf
  rw [hfactor, Nat.mul_one, Nat.one_mul]
  generalize unitsPerOne = unit at hunit hunit' ⊢
  generalize decimalDivisor (-324) = scale at hunit ⊢
  -- the candidate is at most half a step away from the double, and the midpoints are at least half
  -- a unit away, which is more
  have hwithin := roundHalfEven_within (2 * unitsOfBits m * scale) (show 0 < 2 * unit by omega)
  generalize roundHalfEven (2 * unitsOfBits m * scale) (2 * unit) = nearest at hwithin ⊢
  rw [Nat.mul_left_comm nearest] at hwithin
  have hbelow := Nat.mul_le_mul_right scale
    (show unitsOfBits m + unitsOfBits (m - 1) + 1 ≤ 2 * unitsOfBits m by omega)
  have habove := Nat.mul_le_mul_right scale
    (show 2 * unitsOfBits m + 1 ≤ unitsOfBits m + unitsOfBits (m + 1) by omega)
  rw [Nat.add_one_mul] at hbelow
  rw [Nat.add_one_mul (2 * unitsOfBits m)] at habove
  exact ⟨by omega, by omega, fun htie => by omega⟩

/-! ### The search -/

/-- A search that comes to an exponent with a candidate finds one. -/
theorem search_spec {m digits : Nat} {lowest : Int} (hlowest : candidate? m lowest = some digits)
    {steps : Nat} {exponent : Int} (hfrom : lowest ≤ exponent)
    (hsteps : exponent < lowest + steps) :
    candidate? m (search m steps exponent).2 = some (search m steps exponent).1 ∧
      lowest ≤ (search m steps exponent).2 ∧ (search m steps exponent).2 ≤ exponent := by
  -- the exponent comes down by one with each step, and cannot pass the lowest one
  induction steps generalizing exponent with
  | zero => omega
  | succ steps ih =>
    rw [search]
    split
    · next hfound => exact ⟨hfound, hfrom, Int.le_refl _⟩
    · next hnone =>
      -- nothing is found here, so this is not the lowest exponent yet
      have hne : exponent ≠ lowest := by
        rintro rfl
        rw [hlowest] at hnone
        cases hnone
      obtain ⟨hfound, hlow, hhigh⟩ := ih (show lowest ≤ exponent - 1 by omega) (by omega)
      exact ⟨hfound, hlow, by omega⟩

/-- **The shortest decimal of a double** lies between its midpoints. -/
theorem isDecimalOf_shortest {m : Nat} (hpos : 0 < m) :
    IsDecimalOf m (shortest m).1 (shortest m).2 ∧ -324 ≤ (shortest m).2 ∧ (shortest m).2 ≤ 309 := by
  obtain ⟨digits, hdigits⟩ := candidate?_lowest hpos
  obtain ⟨hfound, hrange⟩ := search_spec hdigits (show (-324 : Int) ≤ 309 by omega)
    (show (309 : Int) < -324 + (634 : Nat) by omega)
  exact ⟨isDecimalOf_of_candidate? hfound, hrange⟩

end DynExpr.Double
