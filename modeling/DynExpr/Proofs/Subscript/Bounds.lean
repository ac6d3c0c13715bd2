import DynExpr.Subscript

/-!
# Resolving ranges of integers

A range of integers has a meaning of its own, on unbounded integers: the positions that it covers
(`Range.Covers`), the containers that it fits (`Range.Fits`), and the bound to blame where it does
not fit (`Range.blamed`). Resolving a range computes with 64-bit integers instead, and takes one off
a bound for it. This agrees with the meaning (`resolveBounds_of_fits`,
`resolveBounds_of_disordered`, `resolveBounds_of_not_fits`) as long as taking one off keeps the
bounds in order (`Range.StepsDown`): before the least integer comes the greatest one.

Whatever the bounds are, what is resolved lies in the container (`resolveBounds_le`) and ends behind
the last position of the range (`resolveBounds_stop`).
-/

namespace DynExpr

/-! ### What a range means -/

namespace Range

/-- The range covers a position. -/
def Covers (range : Range Int64) (position : Nat) : Prop :=
  match range.kind with
  | .closed => range.lower.toInt ≤ position ∧ position ≤ range.upper.toInt
  | .halfOpen => range.lower.toInt ≤ position ∧ position < range.upper.toInt
  | .onward => range.lower.toInt ≤ position
  | .upTo => position < range.upper.toInt
  | .through => position ≤ range.upper.toInt

/-- Covering is decided by comparing integers. -/
instance (range : Range Int64) : DecidablePred range.Covers := fun position =>
  match range with
  | ⟨.closed, lower, upper⟩ =>
    inferInstanceAs (Decidable (lower.toInt ≤ position ∧ position ≤ upper.toInt))
  | ⟨.halfOpen, lower, upper⟩ =>
    inferInstanceAs (Decidable (lower.toInt ≤ position ∧ position < upper.toInt))
  | ⟨.onward, lower, _⟩ => inferInstanceAs (Decidable (lower.toInt ≤ position))
  | ⟨.upTo, _, upper⟩ => inferInstanceAs (Decidable (position < upper.toInt))
  | ⟨.through, _, upper⟩ => inferInstanceAs (Decidable (position ≤ upper.toInt))

/-- The range has two bounds, which are out of order. -/
def Disordered (range : Range Int64) : Prop :=
  match range.kind with
  | .closed | .halfOpen => range.upper.toInt < range.lower.toInt
  | _ => False

/-- The order of the bounds is decided by comparing integers. -/
instance (range : Range Int64) : Decidable range.Disordered :=
  match range with
  | ⟨.closed, lower, upper⟩ | ⟨.halfOpen, lower, upper⟩ =>
    inferInstanceAs (Decidable (upper.toInt < lower.toInt))
  | ⟨.onward, _, _⟩ | ⟨.upTo, _, _⟩ | ⟨.through, _, _⟩ => inferInstanceAs (Decidable False)

/-- The range is one of positions in a container of `count` elements. A range up to a bound must not
be empty, and a half-open one may be. -/
def Fits (range : Range Int64) (count : Nat) : Prop :=
  match range.kind with
  | .closed =>
    0 ≤ range.lower.toInt ∧ range.lower.toInt ≤ range.upper.toInt ∧ range.upper.toInt < count
  | .halfOpen =>
    0 ≤ range.lower.toInt ∧ range.lower.toInt ≤ range.upper.toInt ∧ range.upper.toInt ≤ count
  | .onward => 0 ≤ range.lower.toInt ∧ range.lower.toInt < count
  | .upTo => 0 < range.upper.toInt ∧ range.upper.toInt ≤ count
  | .through => 0 ≤ range.upper.toInt ∧ range.upper.toInt < count

/-- Fitting is decided by comparing integers. -/
instance (range : Range Int64) (count : Nat) : Decidable (range.Fits count) :=
  match range with
  | ⟨.closed, lower, upper⟩ =>
    inferInstanceAs (Decidable (0 ≤ lower.toInt ∧ lower.toInt ≤ upper.toInt ∧ upper.toInt < count))
  | ⟨.halfOpen, lower, upper⟩ =>
    inferInstanceAs (Decidable (0 ≤ lower.toInt ∧ lower.toInt ≤ upper.toInt ∧ upper.toInt ≤ count))
  | ⟨.onward, lower, _⟩ => inferInstanceAs (Decidable (0 ≤ lower.toInt ∧ lower.toInt < count))
  | ⟨.upTo, _, upper⟩ => inferInstanceAs (Decidable (0 < upper.toInt ∧ upper.toInt ≤ count))
  | ⟨.through, _, upper⟩ => inferInstanceAs (Decidable (0 ≤ upper.toInt ∧ upper.toInt < count))

/-- The range has a lower bound that is no position of the container; that of an empty half-open
range may be the end. -/
def StartsOutside (range : Range Int64) (count : Nat) : Prop :=
  match range.kind with
  | .closed | .onward => range.lower.toInt < 0 ∨ count ≤ range.lower.toInt
  | .halfOpen =>
    range.lower.toInt < 0 ∨
      if range.lower = range.upper then count < range.lower.toInt else count ≤ range.lower.toInt
  | .upTo | .through => False

/-- Where a range starts is decided by comparing integers. -/
instance (range : Range Int64) (count : Nat) : Decidable (range.StartsOutside count) :=
  match range with
  | ⟨.closed, lower, _⟩ | ⟨.onward, lower, _⟩ =>
    inferInstanceAs (Decidable (lower.toInt < 0 ∨ count ≤ lower.toInt))
  | ⟨.halfOpen, lower, upper⟩ =>
    inferInstanceAs (Decidable (lower.toInt < 0 ∨
      if lower = upper then count < lower.toInt else count ≤ lower.toInt))
  | ⟨.upTo, _, _⟩ | ⟨.through, _, _⟩ => inferInstanceAs (Decidable False)

/-- The last position of the range in a container of `count` elements; if a range up to a bound is
empty, that bound. -/
def last (range : Range Int64) (count : Nat) : Int :=
  match range.kind with
  | .closed | .through => range.upper.toInt
  | .halfOpen => range.upper.toInt - 1
  | .upTo => if range.upper.toInt ≤ 0 then range.upper.toInt else range.upper.toInt - 1
  | .onward => count - 1

/-- The position behind the last one that is read of a container of `count` elements, if the range
resolves. The last one of a half-open range that is not empty is the 64-bit integer before the upper
bound. -/
def stop (range : Range Int64) (count : Nat) : Nat :=
  match range.kind with
  | .closed | .through => range.upper.toInt.toNat + 1
  | .halfOpen =>
    if range.lower = range.upper then range.upper.toInt.toNat
    else (range.upper - 1).toInt.toNat + 1
  | .upTo => range.upper.toInt.toNat
  | .onward => count

/-- The bound that is to blame if the range does not fit a container of `count` elements. -/
def blamed (range : Range Int64) (count : Nat) : Int :=
  if range.StartsOutside count then range.lower.toInt else range.last count

/-- The integers before the bounds are in the order of the bounds: a closed range does not begin at
the least integer, and of a half-open one both bounds are the least integer or neither is. -/
def StepsDown (range : Range Int64) : Prop :=
  match range.kind with
  | .closed => range.lower ≠ Int64.minValue
  | .halfOpen => range.lower = Int64.minValue ↔ range.upper = Int64.minValue
  | _ => True

/-- Stepping down is decided by comparing bounds. -/
instance (range : Range Int64) : Decidable range.StepsDown :=
  match range with
  | ⟨.closed, lower, _⟩ => inferInstanceAs (Decidable (lower ≠ Int64.minValue))
  | ⟨.halfOpen, lower, upper⟩ =>
    inferInstanceAs (Decidable (lower = Int64.minValue ↔ upper = Int64.minValue))
  | ⟨.onward, _, _⟩ | ⟨.upTo, _, _⟩ | ⟨.through, _, _⟩ => inferInstanceAs (Decidable True)

end Range

/-! ### The integer before a bound -/

/-- There is an integer before all but the least one. -/
theorem toInt_pred {bound : Int64} (h : bound ≠ Int64.minValue) :
    (bound - 1).toInt = bound.toInt - 1 := by
  have hlow := bound.le_toInt
  have hhigh := bound.toInt_lt
  have hne : bound.toInt ≠ -2 ^ 63 := fun heq => h (Int64.toInt_inj.mp heq)
  rw [Int64.toInt_sub, show (1 : Int64).toInt = 1 from rfl]
  -- the difference is in range, so nothing is wrapped
  exact Int.bmod_eq_of_le (by omega) (by omega)

/-- No bound that is a position is the least integer. -/
theorem ne_minValue_of_nonneg {bound : Int64} (h : 0 ≤ bound.toInt) : bound ≠ Int64.minValue := by
  rintro rfl
  exact absurd h (by decide)

/-- No bound above another one is the least integer. -/
theorem ne_minValue_of_lt {lower upper : Int64} (h : lower.toInt < upper.toInt) :
    upper ≠ Int64.minValue := by
  rintro rfl
  have hleast := lower.minValue_le_toInt
  omega

/-- There is an integer before a positive bound. -/
theorem toInt_pred_of_pos {bound : Int64} (h : 0 < bound.toInt) :
    (bound - 1).toInt = bound.toInt - 1 :=
  toInt_pred (ne_minValue_of_nonneg (by omega))

/-- Above the least integer, the integers before two bounds are in the order of the bounds. -/
theorem pred_lt_pred_iff {lower upper : Int64} (hlower : lower ≠ Int64.minValue)
    (hupper : upper ≠ Int64.minValue) : upper - 1 < lower - 1 ↔ upper.toInt < lower.toInt := by
  rw [Int64.lt_iff_toInt_lt, toInt_pred hlower, toInt_pred hupper]
  omega

/-- The bounds of a closed range are compared in the same way. -/
theorem le_pred_iff {lower upper : Int64} (hlower : lower ≠ Int64.minValue) :
    upper ≤ lower - 1 ↔ upper.toInt < lower.toInt := by
  rw [Int64.le_iff_toInt_le, toInt_pred hlower]
  omega

/-! ### Resolving -/

variable {range : Range Int64} {count : Nat}

/-- **A range out of order** is rejected as such. -/
theorem resolveBounds_of_disordered (hsteps : range.StepsDown) (h : range.Disordered) :
    resolveBounds range count = .error .disordered := by
  obtain ⟨kind, lower, upper⟩ := range
  cases kind with
  | closed =>
    simp only [Range.Disordered, Range.StepsDown] at h hsteps
    simp only [resolveBounds, if_pos ((le_pred_iff hsteps).mpr h)]
  | halfOpen =>
    simp only [Range.Disordered, Range.StepsDown] at h hsteps
    -- the lower bound is above the upper one, so there is an integer before it
    have hlower := ne_minValue_of_lt h
    simp only [resolveBounds, if_pos ((pred_lt_pred_iff hlower (mt hsteps.mpr hlower)).mpr h)]
  | onward | upTo | through => exact absurd h id

/-- The bounds of a closed range that are in order are resolved as they are. -/
theorem resolveBounds_closed {lower upper : Int64} (hlower : lower ≠ Int64.minValue)
    (hle : lower.toInt ≤ upper.toInt) :
    resolveBounds ⟨.closed, lower, upper⟩ count = resolveBetween lower upper count := by
  simp only [resolveBounds, if_neg (mt (le_pred_iff hlower).mp (Int.not_lt.mpr hle))]

/-- An empty half-open range is resolved to its bound, which may be the end of the container. -/
theorem resolveBounds_empty (bound : Int64) :
    resolveBounds ⟨.halfOpen, bound, bound⟩ count =
      if bound.toInt < 0 ∨ count < bound.toInt then .error (.outside bound)
      else .ok (bound.toInt.toNat, bound.toInt.toNat) := by
  simp only [resolveBounds, Int64.lt_irrefl, if_false, if_true]

/-- Any other half-open range is resolved up to the integer before its upper bound. -/
theorem resolveBounds_halfOpen {lower upper : Int64} (hlower : lower ≠ Int64.minValue)
    (hlt : lower.toInt < upper.toInt) :
    resolveBounds ⟨.halfOpen, lower, upper⟩ count = resolveBetween lower (upper - 1) count := by
  have horder : ¬ upper - 1 < lower - 1 :=
    mt (pred_lt_pred_iff hlower (ne_minValue_of_lt hlt)).mp (Int.not_lt.mpr (Int.le_of_lt hlt))
  have hne : upper - 1 ≠ lower - 1 := by
    intro heq
    obtain rfl := (Int64.sub_left_inj 1).mp heq
    exact Int.lt_irrefl _ hlt
  simp only [resolveBounds, if_neg horder, if_neg hne]

/-- Bounds that are positions of the container are resolved to them. -/
theorem resolveBetween_of_inside {lower upper : Int64} (hlower : 0 ≤ lower.toInt)
    (hle : lower.toInt ≤ upper.toInt) (hupper : upper.toInt < count) :
    resolveBetween lower upper count = .ok (lower.toInt.toNat, upper.toInt.toNat + 1) := by
  unfold resolveBetween
  rw [if_neg (by omega), if_neg (by omega)]

/-- **A range that fits** is resolved to the positions that it covers. -/
theorem resolveBounds_of_fits (h : range.Fits count) :
    ∃ start stop, resolveBounds range count = .ok (start, stop) ∧
      ∀ position < count, range.Covers position ↔ start ≤ position ∧ position < stop := by
  obtain ⟨kind, lower, upper⟩ := range
  -- the bounds of a range that fits are not negative, so the integers before them exist
  cases kind with
  | closed =>
    simp only [Range.Fits, Range.Covers] at h ⊢
    refine ⟨lower.toInt.toNat, upper.toInt.toNat + 1, ?_, fun position _ => by omega⟩
    rw [resolveBounds_closed (ne_minValue_of_nonneg h.1) h.2.1]
    exact resolveBetween_of_inside h.1 h.2.1 h.2.2
  | halfOpen =>
    simp only [Range.Fits, Range.Covers] at h ⊢
    by_cases heq : lower = upper
    · subst heq
      refine ⟨lower.toInt.toNat, lower.toInt.toNat, ?_, fun position _ => by omega⟩
      rw [resolveBounds_empty]
      exact if_neg (by omega)
    · have hne : lower.toInt ≠ upper.toInt := mt Int64.toInt_inj.mp heq
      have hlt : lower.toInt < upper.toInt := by omega
      have hpred := toInt_pred (ne_minValue_of_lt hlt)
      refine ⟨lower.toInt.toNat, (upper - 1).toInt.toNat + 1, ?_, fun position _ => by omega⟩
      rw [resolveBounds_halfOpen (ne_minValue_of_nonneg h.1) hlt]
      exact resolveBetween_of_inside h.1 (by omega) (by omega)
  | onward =>
    simp only [Range.Fits, Range.Covers] at h ⊢
    -- the bound that is missing is one of the container
    refine ⟨lower.toInt.toNat, count, ?_, fun position _ => by omega⟩
    simp only [resolveBounds]
    exact if_neg (by omega)
  | upTo =>
    simp only [Range.Fits, Range.Covers] at h ⊢
    refine ⟨0, upper.toInt.toNat, ?_, fun position _ => by omega⟩
    simp only [resolveBounds]
    rw [if_neg (by omega), if_neg (by omega)]
  | through =>
    simp only [Range.Fits, Range.Covers] at h ⊢
    refine ⟨0, upper.toInt.toNat + 1, ?_, fun position _ => by omega⟩
    simp only [resolveBounds]
    exact if_neg (by omega)

/-- Of two bounds in order, not both inside, the upper one is named only if the lower one is a
position of the container. -/
theorem resolveBetween_of_outside {lower upper : Int64}
    (h : ¬ (0 ≤ lower.toInt ∧ upper.toInt < count)) :
    resolveBetween lower upper count =
      .error (.outside (if lower.toInt < 0 ∨ count ≤ lower.toInt then lower else upper)) := by
  unfold resolveBetween
  -- the lower bound is checked first
  by_cases hlower : lower.toInt < 0 ∨ count ≤ lower.toInt
  · rw [if_pos hlower, if_pos hlower]
  · rw [if_neg hlower, if_neg hlower, if_pos (by omega)]

/-- **A range that does not fit** is rejected with the bound that is to blame. -/
theorem resolveBounds_of_not_fits (hsteps : range.StepsDown) (horder : ¬ range.Disordered)
    (h : ¬ range.Fits count) :
    ∃ bound, resolveBounds range count = .error (.outside bound) ∧
      bound.toInt = range.blamed count := by
  obtain ⟨kind, lower, upper⟩ := range
  -- by the checks of each shape, in their order: the first one that fails names the bound
  cases kind with
  | closed =>
    simp only [Range.Fits, Range.Disordered, Range.StepsDown] at h horder hsteps
    rw [resolveBounds_closed hsteps (Int.not_lt.mp horder)]
    -- both bounds are elements that are read, so both are checked
    refine ⟨_, resolveBetween_of_outside (by omega), ?_⟩
    simp only [Range.blamed, Range.StartsOutside, Range.last]
    -- the choice between them is made on the numbers or on their values alike
    exact apply_ite Int64.toInt _ _ _
  | halfOpen =>
    simp only [Range.Fits, Range.Disordered, Range.StepsDown] at h horder hsteps
    by_cases heq : lower = upper
    · subst heq
      -- an empty range reads no element, so its bound may be the end, and only the lower one is
      -- named
      have hoff : lower.toInt < 0 ∨ count < lower.toInt := by omega
      refine ⟨lower, ?_, ?_⟩
      · rw [resolveBounds_empty]
        exact if_pos hoff
      · simp only [Range.blamed, Range.StartsOutside, if_true]
        exact (if_pos hoff).symm
    · have hne : lower.toInt ≠ upper.toInt := mt Int64.toInt_inj.mp heq
      have hlt : lower.toInt < upper.toInt := by omega
      -- the upper bound is above the lower one, so neither is the least integer
      have hupper := ne_minValue_of_lt hlt
      have hpred := toInt_pred hupper
      rw [resolveBounds_halfOpen (mt hsteps.mp hupper) hlt]
      -- what is checked above is the last position, and it is what is blamed
      refine ⟨_, resolveBetween_of_outside (by omega), ?_⟩
      simp only [Range.blamed, Range.StartsOutside, Range.last, if_neg heq, ← hpred]
      exact apply_ite Int64.toInt _ _ _
  | onward =>
    simp only [Range.Fits] at h
    -- a range without an upper bound has only the lower one to blame
    have hoff : lower.toInt < 0 ∨ count ≤ lower.toInt := by omega
    refine ⟨lower, ?_, ?_⟩
    · simp only [resolveBounds]
      exact if_pos hoff
    · simp only [Range.blamed, Range.StartsOutside]
      exact (if_pos hoff).symm
  | upTo =>
    simp only [Range.Fits] at h
    simp only [resolveBounds, Range.blamed, Range.StartsOutside, Range.last, if_false]
    -- a bound that is not positive is named itself; from a positive one on, the last position is
    by_cases hempty : upper.toInt ≤ 0
    · exact ⟨upper, if_pos hempty, (if_pos hempty).symm⟩
    · refine ⟨upper - 1, ?_, ?_⟩
      · rw [if_neg hempty, if_pos (by omega)]
      · rw [if_neg hempty, toInt_pred_of_pos (by omega)]
  | through =>
    simp only [Range.Fits] at h
    refine ⟨upper, ?_, ?_⟩
    · simp only [resolveBounds]
      exact if_pos (by omega)
    · simp only [Range.blamed, Range.StartsOutside, Range.last]
      exact (if_neg id).symm

/-- An upper bound above the integer before a lower one is not below that one, unless the lower
bound is negative. -/
theorem le_of_pred_lt {lower upper : Int64} (h : lower - 1 < upper) (hlower : 0 ≤ lower.toInt) :
    lower.toInt ≤ upper.toInt := by
  rw [Int64.lt_iff_toInt_lt, toInt_pred (ne_minValue_of_nonneg hlower)] at h
  -- above the integer before the lower bound is at least the lower bound
  omega

/-- What is resolved of bounds in order is in order, and in the container. -/
theorem resolveBetween_le {lower upper : Int64} {start stop : Nat} (hlt : lower - 1 < upper)
    (h : resolveBetween lower upper count = .ok (start, stop)) : start ≤ stop ∧ stop ≤ count := by
  unfold resolveBetween at h
  split at h
  · exact nomatch h
  next hlower =>
    split at h
    · exact nomatch h
    · -- the lower bound is not negative here, so the guard of the order holds of the integers
      have hle := le_of_pred_lt hlt (by omega)
      cases h
      omega

/-- What is resolved ends behind the upper bound. -/
theorem resolveBetween_stop {lower upper : Int64} {start stop : Nat}
    (h : resolveBetween lower upper count = .ok (start, stop)) :
    stop = upper.toInt.toNat + 1 := by
  unfold resolveBetween at h
  split at h
  · exact nomatch h
  · split at h
    · exact nomatch h
    · cases h
      rfl

/-- **What is resolved lies in the container**, whatever the bounds are. -/
theorem resolveBounds_le {start stop : Nat} (h : resolveBounds range count = .ok (start, stop)) :
    start ≤ stop ∧ stop ≤ count := by
  obtain ⟨kind, lower, upper⟩ := range
  -- nothing is assumed of the bounds, so the order comes from the checks that were passed
  cases kind with
  | closed =>
    simp only [resolveBounds] at h
    split at h
    · exact nomatch h
    next hle => exact resolveBetween_le (Int64.not_le.mp hle) h
  | halfOpen =>
    simp only [resolveBounds] at h
    split at h
    · exact nomatch h
    next hlt =>
      split at h
      · split at h
        · exact nomatch h
        · cases h
          omega
      next hne =>
        -- past both checks the integers before the bounds are in strict order
        have hle : lower - 1 ≤ upper - 1 := Int64.not_lt.mp hlt
        exact resolveBetween_le (Int64.lt_of_le_of_ne hle (Ne.symm hne)) h
  | onward | through =>
    simp only [resolveBounds] at h
    split at h
    · exact nomatch h
    · cases h
      omega
  | upTo =>
    simp only [resolveBounds] at h
    split at h
    · exact nomatch h
    · split at h
      · exact nomatch h
      · cases h
        omega

/-- **What is resolved ends behind the last position of the range**, whatever the bounds are. -/
theorem resolveBounds_stop {start stop : Nat} (h : resolveBounds range count = .ok (start, stop)) :
    stop = range.stop count := by
  obtain ⟨kind, lower, upper⟩ := range
  -- each shape returns its bounds in one branch only
  cases kind with
  | closed =>
    simp only [resolveBounds] at h
    split at h
    · exact nomatch h
    · exact resolveBetween_stop h
  | halfOpen =>
    simp only [resolveBounds] at h
    split at h
    · exact nomatch h
    · split at h
      next heq =>
        -- an empty range ends at both of its bounds
        obtain rfl : upper = lower := (Int64.sub_left_inj 1).mp heq
        split at h
        · exact nomatch h
        · cases h
          exact (if_pos rfl).symm
      next hne =>
        have hbounds : lower ≠ upper := fun h => hne (congrArg (· - 1) h.symm)
        rw [resolveBetween_stop h]
        exact (if_neg hbounds).symm
  | onward | through =>
    simp only [resolveBounds] at h
    split at h
    · exact nomatch h
    · cases h
      rfl
  | upTo =>
    simp only [resolveBounds] at h
    split at h
    · exact nomatch h
    · split at h
      · exact nomatch h
      · cases h
        rfl

/-! ### Reading at numbers and ranges of numbers -/

/-- The sign of a number of 64 bits is that of the integer. -/
theorem int64_neg_iff {n : Int64} : n < 0 ↔ n.toInt < 0 := by
  rw [Int64.lt_iff_toInt_lt, Int64.toInt_zero]

section Reading

variable {ω : Type} [Host ω] {container : Value ω} {elements : List (Value ω)}

/-- All sequences are read alike. -/
theorem subscript_of_elements? (h : container.elements? = some elements) (symbol : Symbol)
    (index : Value ω) :
    subscript symbol container index =
      (subscriptElements symbol container elements index).mapError .error := by
  cases container with
  | array others | slice others =>
    obtain rfl := Option.some.inj h
    rfl
  | _ => exact nomatch h

/-- A sequence is read at a range through its resolved bounds. -/
theorem subscript_elements_intRange (h : container.elements? = some elements) (symbol : Symbol)
    (range : Range Int64) :
    subscript symbol container (.intRange range) =
      match resolveBounds range elements.length with
      | .ok (start, stop) => .ok (.slice ((elements.drop start).take (stop - start)))
      | .error .disordered => .error (.error (.invalidRange range.lower range.upper))
      | .error (.outside bound) =>
        .error (.error (.arrayBounds symbol (Double.ofInt bound.toInt))) := by
  rw [subscript_of_elements? h]
  simp only [subscriptElements]
  cases resolveBounds range elements.length with
  | ok resolved => rfl
  | error fault => cases fault <;> rfl

/-- A sequence is read at any number that is an integer. -/
theorem subscript_elements_number (h : container.elements? = some elements) (symbol : Symbol)
    {index : Value ω} {offset : Int64} (hinteger : index.integer? = some offset) :
    subscript symbol container index =
      match if offset.toInt < 0 then none else elements[offset.toInt.toNat]? with
      | some element => .ok element
      | none => .error (.error (.arrayBounds symbol (Double.ofInt offset.toInt))) := by
  have hnumber : ∃ number, index.number? = some number := by
    cases index with
    | int64 | uint64 | double => exact ⟨_, rfl⟩
    | _ => exact nomatch hinteger
  obtain ⟨number, hnumber⟩ := hnumber
  rw [subscript_of_elements? h]
  unfold subscriptElements
  split
  · exact nomatch hinteger
  · simp only [hnumber, hinteger, int64_neg_iff]
    split
    · rfl
    · cases elements[offset.toInt.toNat]? <;> rfl

end Reading

end DynExpr
