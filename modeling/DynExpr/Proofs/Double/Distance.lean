import DynExpr.Proofs.Double.Nearest
import DynExpr.Proofs.Double.Written

/-!
# The double nearest to an integer

`Double.IsNearestTo` says in terms of distances what it means that a double is nearest to a natural
number: no other one is nearer, and of two that are equally near it is the even one. Infinity takes
part as the power of two behind the largest double, which is how a number beyond the range is
rounded to infinity.

Going up through the magnitude bits, one either comes to a double between whose midpoints a ratio
lies, or all midpoints are below it (`exists_nearest_or_above`). In the first case rounding finds
this double, which is known from `Nearest.nearestBits_eq`, and in the second case it finds infinity
(`nearestBits_eq_infinity`). So what rounding finds is nearest (`closest_nearestBits`), and the
double of a natural number is the one nearest to it (`isNearestTo_ofNat`, `IsNearestTo.eq`).
-/

namespace DynExpr

namespace Double

variable {m n num den limit : Nat} {d : Double}

/-! ### Between midpoints, or above all of them -/

/-- The units do not fall. -/
theorem unitsOfBits_mono (h : m ≤ n) : unitsOfBits m ≤ unitsOfBits n := by
  induction h with
  | refl => exact Nat.le_refl _
  | step _ ih => exact Nat.le_trans ih (Nat.le_of_lt (unitsOfBits_lt_succ _))

/-- A ratio lies above the midpoint to the neighbour below, or at this midpoint if the last bit is
zero. -/
def Above (m num den : Nat) : Prop :=
  (unitsOfBits m + unitsOfBits (m - 1)) * den ≤ 2 * num ∧
    ((unitsOfBits m + unitsOfBits (m - 1)) * den = 2 * num → m % 2 = 0)

/-- Going up to a limit, one meets the double nearest to a ratio, or the ratio is still above. -/
theorem exists_nearest_or_above (num den limit : Nat) :
    (∃ m, m < limit ∧ Nearest m num den) ∨ Above limit num den := by
  induction limit with
  | zero =>
    have hzero : (unitsOfBits 0 + unitsOfBits (0 - 1)) * den = 0 := by
      rw [Nat.zero_sub, unitsOfBits_of_lt (by decide)]
      exact Nat.zero_mul den
    exact .inr ⟨by rw [hzero]; exact Nat.zero_le _, fun _ => rfl⟩
  | succ limit ih =>
    rcases ih with ⟨m, hm, hnearest⟩ | ⟨hbelow, htie⟩
    · exact .inl ⟨m, Nat.lt_succ_of_lt hm, hnearest⟩
    -- the ratio is compared with the midpoint to the next double
    have hswap : (unitsOfBits (limit + 1) + unitsOfBits (limit + 1 - 1)) * den =
        (unitsOfBits limit + unitsOfBits (limit + 1)) * den := by
      rw [Nat.add_sub_cancel, Nat.add_comm]
    unfold Above
    rw [hswap]
    rcases Nat.lt_trichotomy (2 * num) ((unitsOfBits limit + unitsOfBits (limit + 1)) * den) with
      hlt | heq | hgt
    · refine .inl ⟨limit, Nat.lt_succ_self limit, hbelow, Nat.le_of_lt hlt, ?_⟩
      rintro (hequal | hequal)
      · exact htie hequal
      · exact absurd hequal (Nat.ne_of_lt hlt)
    · -- at the midpoint the even one of the two doubles is met
      rcases Nat.mod_two_eq_zero_or_one limit with heven | hodd
      · exact .inl ⟨limit, Nat.lt_succ_self limit, hbelow, Nat.le_of_eq heq, fun _ => heven⟩
      · exact .inr ⟨Nat.le_of_eq heq.symm, fun _ => by omega⟩
    · exact .inr ⟨Nat.le_of_lt hgt, fun hequal => absurd hequal (Nat.ne_of_lt hgt)⟩

/-- **A ratio above all midpoints is rounded to infinity.** -/
theorem nearestBits_eq_infinity (h : Above infinityBits num den) (hden : 0 < den) :
    nearestBits 53 infinityBits num den = infinityBits := by
  -- infinity is where the first significand of the next step would be
  obtain ⟨k, hk⟩ : ∃ k, infinityBits = (k + 1) * 2 ^ 52 + 2 ^ 52 := ⟨2045, by decide⟩
  have hm : IsSignificand infinityBits (2 ^ 52) (k + 1) :=
    ⟨hk, by decide, .inr (Nat.le_refl _)⟩
  have hstep : 0 < 2 ^ k * den := Nat.mul_pos (Nat.two_pow_pos k) hden
  -- the midpoint below infinity is half a step above the largest double
  have hlarge : (2 ^ 54 - 1) * (2 ^ k * den) ≤ 2 * num := by
    have hsum : 2 ^ 52 * 2 ^ (k + 1) + (2 ^ 53 - 1) * 2 ^ k = (2 ^ 54 - 1) * 2 ^ k := by
      rw [Nat.pow_succ]
      omega
    have hbelow := h.1
    rwa [hm.units, hm.units_pred_first (Nat.succ_pos k) rfl, Nat.add_sub_cancel, hsum,
      Nat.mul_assoc] at hbelow
  rcases Nat.lt_or_ge (num / den) (2 ^ (53 + k)) with hhigh | hbeyond
  · -- with the last step the significand is carried beyond its 53 bits
    have hnum : num < 2 ^ 53 * (2 ^ k * den) := by
      rwa [Nat.div_lt_iff_lt_mul hden, Nat.pow_add, Nat.mul_assoc] at hhigh
    have hlow : 2 ^ (52 + k) ≤ num / den := by
      rw [Nat.le_div_iff_mul_le hden, Nat.pow_add, Nat.mul_assoc]
      omega
    have hround : roundHalfEven num (2 ^ k * den) = 2 ^ 53 :=
      roundHalfEven_eq (by omega) (by omega) (fun _ => by decide) hstep
    rw [Double.nearestBits_eq hhigh (.inr hlow), hround, hk]
    omega
  · -- the step itself is greater than those of all doubles
    have hne : num / den ≠ 0 := by
      have := Nat.two_pow_pos (53 + k)
      omega
    have hlog : 53 + k ≤ (num / den).log2 := (Nat.le_log2 hne).mpr hbeyond
    obtain ⟨j, hj⟩ : ∃ j, (num / den).log2 = 52 + j := ⟨(num / den).log2 - 52, by omega⟩
    have hlow : 2 ^ (52 + j) ≤ num / den := hj ▸ Nat.log2_self_le hne
    have hhigh : num / den < 2 ^ (53 + j) := by
      have hlt : num / den < 2 ^ ((num / den).log2 + 1) := Nat.lt_log2_self
      rwa [hj, show 52 + j + 1 = 53 + j by omega] at hlt
    have hround : 2 ^ 52 ≤ roundHalfEven num (2 ^ j * den) := by
      refine Nat.le_trans ?_ (div_le_roundHalfEven _ _)
      rw [Nat.le_div_iff_mul_le (Nat.mul_pos (Nat.two_pow_pos j) hden), ← Nat.mul_assoc,
        ← Nat.pow_add]
      exact (Nat.le_div_iff_mul_le hden).mp hlow
    rw [Double.nearestBits_eq hhigh (.inr hlow)]
    refine Nat.min_eq_right ?_
    have hmul := Nat.mul_le_mul_right (2 ^ 52) (show k + 1 ≤ j by omega)
    omega

/-! ### Distances -/

/-- The magnitude bits are at least as near to the ratio as others, and even if both are equally
near. -/
def Closer (num den m other : Nat) : Prop :=
  ((unitsOfBits m * den : Nat) - (num : Int)).natAbs ≤
      ((unitsOfBits other * den : Nat) - (num : Int)).natAbs ∧
    (((unitsOfBits other * den : Nat) - (num : Int)).natAbs =
      ((unitsOfBits m * den : Nat) - (num : Int)).natAbs → m % 2 = 0)

/-- Above the midpoint to the neighbour below, no double below is nearer. -/
theorem Above.closer (h : Above m num den) {other : Nat} (hother : other < m) (hden : 0 < den) :
    Closer num den m other := by
  obtain ⟨hbelow, htie⟩ := h
  have hle : unitsOfBits other ≤ unitsOfBits (m - 1) := unitsOfBits_mono (by omega)
  have hlt : unitsOfBits (m - 1) < unitsOfBits m := by
    have := unitsOfBits_lt_succ (m - 1)
    rwa [Nat.sub_add_cancel (by omega)] at this
  have hmul := Nat.mul_le_mul_right den hle
  have hmul' := Nat.mul_lt_mul_of_pos_right hlt hden
  rw [Nat.add_mul] at hbelow htie
  -- both distances are those from a number above the midpoint
  unfold Closer
  constructor
  · omega
  · intro hequal
    exact htie (by omega)

/-- Between its midpoints no other double is nearer. -/
theorem Nearest.closer (h : Nearest m num den) {other : Nat} (hne : other ≠ m) (hden : 0 < den) :
    Closer num den m other := by
  -- doubles below are behind the midpoint below, and doubles above behind the one above
  rcases Nat.lt_or_gt_of_ne hne with hlt | hgt
  · have habove : Above m num den := ⟨h.below, fun hequal => h.tie (.inl hequal)⟩
    exact habove.closer hlt hden
  · have habove := h.above
    have htie := fun hequal => h.tie (.inr hequal)
    have hle : unitsOfBits (m + 1) ≤ unitsOfBits other := unitsOfBits_mono hgt
    have hmul := Nat.mul_le_mul_right den hle
    have hmul' := Nat.mul_lt_mul_of_pos_right (unitsOfBits_lt_succ m) hden
    rw [Nat.add_mul] at habove htie
    unfold Closer
    constructor
    · omega
    · intro hequal
      exact htie (by omega)

/-- **What a ratio is rounded to is nearest to it**, among all magnitude bits up to those of
infinity. -/
theorem closest_nearestBits (num : Nat) (hden : 0 < den) {other : Nat}
    (hother : other ≤ infinityBits) (hne : other ≠ nearestBits 53 infinityBits num den) :
    Closer num den (nearestBits 53 infinityBits num den) other := by
  -- what is nearest is between its midpoints, or it is infinity
  rcases exists_nearest_or_above num den infinityBits with ⟨m, hm, hnearest⟩ | habove
  · rw [hnearest.nearestBits_eq hm hden] at hne ⊢
    exact hnearest.closer hne hden
  · rw [nearestBits_eq_infinity habove hden] at hne ⊢
    exact habove.closer (Nat.lt_of_le_of_ne hother hne) hden

/-- How far a double is from a natural number, in units of `2 ^ (-1074)`. -/
def distance (d : Double) (n : Nat) : Nat := (d.units - (n * unitsPerOne : Nat)).natAbs

/-- The double is nearest to a natural number, among the numbers from zero to infinity: no other one
is nearer, and if another one is equally near, the last bit of this one is zero. Infinity counts as
the power of two that its units stand for, which is the first one behind the largest double. -/
structure IsNearestTo (d : Double) (n : Nat) : Prop where
  isMagnitude : d.IsMagnitude
  least : ∀ e : Double, e.IsMagnitude → d.distance n ≤ e.distance n
  even : ∀ e : Double, e.IsMagnitude → e ≠ d → e.distance n = d.distance n →
    d.magnitudeBits % 2 = 0

theorem IsMagnitude.magnitudeBits_le (h : d.IsMagnitude) : d.magnitudeBits ≤ infinityBits :=
  Nat.le_trans (Nat.mod_le _ _) h

theorem IsMagnitude.units_eq (h : d.IsMagnitude) : d.units = unitsOfBits d.magnitudeBits := by
  rw [units, h.negative_eq_false, if_neg Bool.false_ne_true]

theorem magnitudeBits_ofNat (n : Nat) :
    (ofNat n).magnitudeBits = nearestBits 53 infinityBits (n * unitsPerOne) 1 := by
  have hle : nearestBits 53 infinityBits (n * unitsPerOne) 1 ≤ infinityBits := Nat.min_le_right _ _
  have hrange : nearestBits 53 infinityBits (n * unitsPerOne) 1 < 2 ^ 63 :=
    Nat.lt_of_le_of_lt hle (by decide)
  rw [ofNat_eq]
  exact magnitudeBits_ofParts _ hrange

/-- **The double of a natural number is nearest to it.** -/
theorem isNearestTo_ofNat (n : Nat) : (ofNat n).IsNearestTo n := by
  have hmagnitude := isMagnitude_ofNat n
  have hcloser : ∀ e : Double, e.IsMagnitude → e ≠ ofNat n →
      Closer (n * unitsPerOne) 1 (ofNat n).magnitudeBits e.magnitudeBits := by
    intro e he hne
    rw [magnitudeBits_ofNat]
    refine closest_nearestBits _ Nat.one_pos he.magnitudeBits_le ?_
    -- other doubles without sign have other magnitude bits
    intro hbits
    rw [← magnitudeBits_ofNat] at hbits
    exact hne (eq_of_magnitudeBits hbits
      (he.negative_eq_false.trans hmagnitude.negative_eq_false.symm))
  unfold Closer at hcloser
  simp only [Nat.mul_one] at hcloser
  refine ⟨hmagnitude, ?_, ?_⟩
  · intro e he
    by_cases hne : e = ofNat n
    · exact Nat.le_of_eq (congrArg (distance · n) hne.symm)
    · rw [distance, distance, hmagnitude.units_eq, he.units_eq]
      exact (hcloser e he hne).1
  · intro e he hne hequal
    rw [distance, distance, hmagnitude.units_eq, he.units_eq] at hequal
    exact (hcloser e he hne).2 hequal

/-- Of two doubles that are nearest to the same number, neither has the smaller magnitude bits. -/
theorem IsNearestTo.magnitudeBits_not_lt {e : Double} (hd : d.IsNearestTo n)
    (he : e.IsNearestTo n) : ¬ d.magnitudeBits < e.magnitudeBits := by
  intro hlt
  have hequal : d.distance n = e.distance n :=
    Nat.le_antisymm (hd.least e he.isMagnitude) (he.least d hd.isMagnitude)
  have hne : d ≠ e := fun h => Nat.ne_of_lt hlt (congrArg magnitudeBits h)
  -- both are even, so there is a third one between them, and it is nearer than they are
  have hdeven := hd.even e he.isMagnitude hne.symm hequal.symm
  have heeven := he.even d hd.isMagnitude hne hequal
  have hebits := he.isMagnitude.magnitudeBits_le
  have hrange : d.magnitudeBits + 1 < 2 ^ 63 :=
    Nat.lt_of_le_of_lt (Nat.le_trans hlt hebits) (by decide)
  have hbits : (ofParts false (d.magnitudeBits + 1)).magnitudeBits = d.magnitudeBits + 1 :=
    magnitudeBits_ofParts false hrange
  have hbetween : (ofParts false (d.magnitudeBits + 1)).IsMagnitude :=
    isMagnitude_ofParts (Nat.le_trans hlt hebits)
  have hleast := hd.least _ hbetween
  have hlower := unitsOfBits_lt_succ d.magnitudeBits
  have hupper := unitsOfBits_mono (show d.magnitudeBits + 1 + 1 ≤ e.magnitudeBits by omega)
  have hupper' := unitsOfBits_lt_succ (d.magnitudeBits + 1)
  rw [distance, distance, hd.isMagnitude.units_eq, hbetween.units_eq, hbits] at hleast
  rw [distance, distance, hd.isMagnitude.units_eq, he.isMagnitude.units_eq] at hequal
  omega

/-- **Only one double is nearest to a natural number.** -/
theorem IsNearestTo.eq {e : Double} (hd : d.IsNearestTo n) (he : e.IsNearestTo n) : d = e := by
  have hbits : d.magnitudeBits = e.magnitudeBits := by
    have hlower := hd.magnitudeBits_not_lt he
    have hupper := he.magnitudeBits_not_lt hd
    omega
  exact eq_of_magnitudeBits hbits
    (hd.isMagnitude.negative_eq_false.trans he.isMagnitude.negative_eq_false.symm)

end Double
end DynExpr
