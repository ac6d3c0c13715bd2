import DynExpr.CommandLine
import DynExpr.Proofs.Subscript.Bounds

/-!
# Slices of sequences

A sequence that is read at a range of integers gives the elements at the positions that the range
covers, in order, or an error that names the bound to blame (`Range.sliceOf`).
`subscript_intRange` says that this is what is computed for all bounds, up to the greatest and down
to the least integer, if taking one off keeps the bounds in order; and that then a range that an
operator has made is never rejected as being out of order.

A closed range that begins at the least integer is rejected as being out of order, although an
operator makes it (`subscript_fromLeast`).
-/

namespace DynExpr

/-! ### Elements at positions -/

/-- The elements at positions from `start` up to `stop`, where the first position is `first`. -/
theorem map_filter_zipIdx {α : Type} (elements : List α) (start stop first : Nat) :
    ((elements.zipIdx first).filter fun e => decide (start ≤ e.2 ∧ e.2 < stop)).map (·.1) =
      (elements.drop (start - first)).take (stop - max start first) := by
  -- the first position goes up with each element
  induction elements generalizing first with
  | nil => simp
  | cons a rest ih =>
    rw [List.zipIdx_cons, List.filter_cons]
    rcases Nat.lt_or_ge first start with hbefore | hbegun
    · -- the position is in front of the range
      have hdrop : start - first = start - (first + 1) + 1 := by omega
      rw [if_neg (by simp; omega), ih, hdrop, List.drop_succ_cons, Nat.max_eq_left hbefore,
        Nat.max_eq_left (Nat.le_of_lt hbefore)]
    · -- from the start on nothing is dropped, and the elements are taken up to the stop
      have hdrop : start - first = 0 := by omega
      have hdrop' : start - (first + 1) = 0 := by omega
      have hmax : max start (first + 1) = first + 1 := by omega
      rw [hdrop, List.drop_zero, Nat.max_eq_right hbegun]
      rcases Nat.lt_or_ge first stop with hinside | hbehind
      · have htake : stop - first = stop - (first + 1) + 1 := by omega
        rw [if_pos (by simp; omega), List.map_cons, ih, hdrop', List.drop_zero, hmax, htake,
          List.take_succ_cons]
      · have htake : stop - first = 0 := by omega
        have htake' : stop - (first + 1) = 0 := by omega
        rw [if_neg (by simp; omega), ih, hmax, htake, htake', List.take_zero, List.take_zero]

namespace Range

/-- The elements at the positions that the range covers, in order. -/
def select {α : Type} (range : Range Int64) (elements : List α) : List α :=
  (elements.zipIdx.filter fun e => decide (range.Covers e.2)).map (·.1)

/-- The elements that a range covers are a part of the list if the positions are consecutive. -/
theorem select_eq {α : Type} {range : Range Int64} {elements : List α} {start stop : Nat}
    (h : ∀ position < elements.length, range.Covers position ↔ start ≤ position ∧ position < stop) :
    range.select elements = (elements.drop start).take (stop - start) := by
  have hcongr : elements.zipIdx.filter (fun e => decide (range.Covers e.2)) =
      elements.zipIdx.filter fun e => decide (start ≤ e.2 ∧ e.2 < stop) := by
    -- only positions of the list occur, so the assumption covers all of them
    refine List.filter_congr fun e he => ?_
    have hposition : e.2 < elements.length := by
      have := List.snd_lt_add_of_mem_zipIdx he
      omega
    exact decide_eq_decide.mpr (h e.2 hposition)
  rw [select, hcongr, map_filter_zipIdx, Nat.sub_zero, Nat.max_zero]

/-- What a sequence gives at a range of integers. -/
def sliceOf {ω : Type} (range : Range Int64) (symbol : Symbol) (elements : List (Value ω)) :
    Except (Failure ω) (Value ω) :=
  if range.Disordered then .error (.error (.invalidRange range.lower range.upper))
  else if range.Fits elements.length then .ok (.slice (range.select elements))
  else .error (.error (.arrayBounds symbol (Double.ofInt (range.blamed elements.length))))

/-! ### Ranges that operators make -/

/-- An operator makes the range of one or two bounds. -/
def IsMade (ω : Type) (range : Range Int64) : Prop :=
  (∃ (symbol : Symbol) (lower upper : Value ω),
    makeRange symbol lower upper = .ok (.intRange range)) ∨
  ∃ (symbol : Symbol) (bound : Value ω), makePartialRange symbol bound = .ok (.intRange range)

/-- A guarded result is returned if the guard does not fail. -/
theorem ite_error_eq_ok {ε α : Type} {p : Prop} [Decidable p] {e : ε} {a b : α} :
    (if p then Except.error e else .ok a) = .ok b ↔ ¬ p ∧ a = b := by
  by_cases hp : p <;> simp [hp]

/-- An operator that makes a range has compared the bounds. -/
theorem le_of_makeRange {ω : Type} {symbol : Symbol} {lower upper : Value ω} {range : Range Int64}
    (h : makeRange symbol lower upper = .ok (.intRange range)) :
    range.lower.toInt ≤ range.upper.toInt := by
  simp only [makeRange] at h
  split at h
  · exact nomatch (ite_error_eq_ok.mp h).2
  · split at h
    · obtain ⟨hordered, hrange⟩ := ite_error_eq_ok.mp h
      cases hrange
      -- a closed range rejects an upper bound below the lower one, in terms of the integers
      split at hordered
      · exact Int.not_lt.mp (mt Int64.lt_iff_toInt_lt.mpr hordered)
      · exact Int.le_of_lt (Int.not_le.mp (mt Int64.le_iff_toInt_le.mpr hordered))
    · exact nomatch h

/-- The kind of a range with one bound is that of its operator. -/
theorem kind_of_makePartialRange {ω : Type} {symbol : Symbol} {bound : Value ω}
    {range : Range Int64} (h : makePartialRange symbol bound = .ok (.intRange range)) :
    range.kind = partialRangeKind symbol := by
  simp only [makePartialRange] at h
  split at h
  · exact nomatch h
  · split at h
    · cases h
      unfold partialRange
      split <;> rfl
    · exact nomatch h

/-- **The bounds of a range that an operator makes are in order.** -/
theorem IsMade.not_disordered {ω : Type} {range : Range Int64} (h : range.IsMade ω) :
    ¬ range.Disordered := by
  unfold Disordered
  rcases h with ⟨symbol, lower, upper, hmade⟩ | ⟨symbol, bound, hmade⟩
  · have hle := le_of_makeRange hmade
    split
    · exact Int.not_lt.mpr hle
    · exact Int.not_lt.mpr hle
    · exact id
  · -- a range with one bound has no order
    have hkind : partialRangeKind symbol ≠ .closed ∧ partialRangeKind symbol ≠ .halfOpen := by
      unfold partialRangeKind
      split
      · split <;> decide
      · decide
    rw [← kind_of_makePartialRange hmade] at hkind
    split
    next hclosed => exact absurd hclosed hkind.1
    next hhalfOpen => exact absurd hhalfOpen hkind.2
    next => exact id

end Range

/-! ### Reading sequences -/

variable {ω : Type} [Host ω] {container : Value ω} {elements : List (Value ω)}

/-- **Slices are right for all bounds** of which the integers before them are in order. -/
theorem subscript_intRange (symbol : Symbol) {range : Range Int64}
    (helements : container.elements? = some elements) (hsteps : range.StepsDown) :
    subscript symbol container (.intRange range) = range.sliceOf symbol elements ∧
      (range.IsMade ω → ∀ lower upper,
        subscript symbol container (.intRange range) ≠
          .error (.error (.invalidRange lower upper))) := by
  have hslice : subscript symbol container (.intRange range) = range.sliceOf symbol elements := by
    rw [subscript_elements_intRange helements]
    unfold Range.sliceOf
    -- in the order of the checks: the order of the bounds, and then whether they fit
    by_cases horder : range.Disordered
    · rw [resolveBounds_of_disordered hsteps horder, if_pos horder]
    · rw [if_neg horder]
      by_cases hfits : range.Fits elements.length
      · obtain ⟨start, stop, hresolve, hcovers⟩ := resolveBounds_of_fits hfits
        rw [hresolve, if_pos hfits, Range.select_eq hcovers]
      · obtain ⟨bound, hresolve, hblamed⟩ := resolveBounds_of_not_fits hsteps horder hfits
        rw [hresolve, if_neg hfits, ← hblamed]
  refine ⟨hslice, fun hmade lower upper => ?_⟩
  rw [hslice, Range.sliceOf, if_neg hmade.not_disordered]
  split <;> nofun

/-! ### Slices of three numbers -/

/-- Three numbers. -/
def threeNumbers : List (Value Empty) := [.int64 10, .int64 20, .int64 30]

/-- The last two of three numbers; and the greatest integer is named, not the integer before it, if
a range that ends there is too long. -/
theorem subscript_intRange_threeNumbers :
    subscript .subscript (.slice threeNumbers) (.intRange ⟨.halfOpen, 1, 3⟩) =
        .ok (.slice [.int64 20, .int64 30]) ∧
      subscript .subscript (.array threeNumbers) (.intRange ⟨.closed, 1, Int64.maxValue⟩) =
        .error (.error (.arrayBounds .subscript (Double.ofInt 9223372036854775807))) ∧
      ∀ lower upper,
        subscript .subscript (.array threeNumbers) (.intRange ⟨.closed, 1, Int64.maxValue⟩) ≠
          .error (.error (.invalidRange lower upper)) := by
  have hslice : (Value.slice threeNumbers).elements? = some threeNumbers := rfl
  have harray : (Value.array threeNumbers).elements? = some threeNumbers := rfl
  have hshort : (⟨.halfOpen, 1, 3⟩ : Range Int64).StepsDown := by decide
  have hlong : (⟨.closed, 1, Int64.maxValue⟩ : Range Int64).StepsDown := by decide
  have hmade : (⟨.closed, 1, Int64.maxValue⟩ : Range Int64).IsMade Empty :=
    .inl ⟨.infixOp closedRangeName, .int64 1, .int64 Int64.maxValue, by rfl⟩
  refine ⟨?_, ?_, (subscript_intRange .subscript harray hlong).2 hmade⟩
  · rw [(subscript_intRange .subscript hslice hshort).1, Range.sliceOf, if_neg (by decide),
      if_pos (by decide)]
    rfl
  · rw [(subscript_intRange .subscript harray hlong).1, Range.sliceOf, if_neg (by decide),
      if_neg (by decide)]
    rfl

/-- The closed range from the least integer to one is made by an operator. Its bounds are in order,
and the lower one is to blame in any sequence; but the range is rejected as being out of order. -/
theorem subscript_fromLeast :
    let range : Range Int64 := ⟨.closed, Int64.minValue, 1⟩
    range.IsMade Empty ∧
      range.sliceOf .subscript threeNumbers =
        .error (.error (.arrayBounds .subscript (Double.ofInt (-9223372036854775808)))) ∧
      subscript .subscript (.array threeNumbers) (.intRange range) =
        .error (.error (.invalidRange Int64.minValue 1)) := by
  refine ⟨.inl ⟨.infixOp closedRangeName, .int64 Int64.minValue, .int64 1, by rfl⟩, ?_, by rfl⟩
  rw [Range.sliceOf, if_neg (by decide), if_neg (by decide)]
  rfl

end DynExpr
