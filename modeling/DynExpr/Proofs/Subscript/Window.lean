import DynExpr.CommandLine
import DynExpr.Proofs.Subscript.Bounds
import DynExpr.Proofs.Text.Characters

/-!
# Confinement to a window

A window is read at a number of a character, at a position, or at a range of either. Bounds are
checked against the window, but characters are those of the base, so that the last one that is read
may reach beyond the window. Which one that is depends on the index only
(`Substring.lastRead?`): the character at the index itself, at an included upper bound, or in front
of the end of a range of numbers. The end of it is `Substring.reach`, which is one that the window
reaches (`Substring.Reaches`): the end of the window or of a character that begins in it.

`subscript_confined` says that every outcome is an error, or a piece of the base that begins in the
window and ends with the character that is read last; bounds that are not inside the base never
come up. If no character that begins in a window ends outside of it (`Substring.KeepsCharacters`),
or if the range is one of positions without an included upper bound, then the piece ends in the
window itself.

A window that ends within a character does not keep it: the character is read as a whole
(`subscript_not_confined`), and in every such window some range of positions reveals it
(`keepsCharacters_of_confined`).
-/

namespace DynExpr

/-! ### Positions in a window -/

namespace Substring

variable {window : Substring} {number : Nat}

/-- The first character is at the start of the window. -/
theorem position_zero (window : Substring) : window.position 0 = window.start := by
  rw [position, Text.advance]

/-- The next character is at the boundary behind the position. -/
theorem position_succ (window : Substring) (number : Nat) :
    window.position (number + 1) = window.nextBoundary (window.position number) :=
  Text.advance_succ' _ _ _

/-- No character is in front of the window. -/
theorem start_le_position (window : Substring) (number : Nat) :
    window.start ≤ window.position number :=
  Text.le_advance _ _ _

/-- Characters are in the order of their numbers. -/
theorem position_mono (window : Substring) {few many : Nat} (h : few ≤ many) :
    window.position few ≤ window.position many :=
  Text.advance_mono _ _ h

/-- A character of the window begins in it. -/
theorem position_lt_stop (h : number < window.characterCount) :
    window.position number < window.stop :=
  Text.advance_lt_of_lt_characterCount window.stop_le_length h

/-- A character that begins in the window ends in the base. -/
theorem nextBoundary_le_length {position : Nat} (h : position < window.stop) :
    window.nextBoundary position ≤ window.base.length :=
  Text.nextBoundary_le_length (Nat.lt_of_lt_of_le h window.stop_le_length)

/-- Up to the number of characters, positions are in the base. -/
theorem position_le_length (h : number ≤ window.characterCount) :
    window.position number ≤ window.base.length := by
  cases number with
  | zero =>
    rw [position_zero]
    exact Nat.le_trans window.start_le_stop window.stop_le_length
  | succ number =>
    rw [position_succ]
    exact nextBoundary_le_length (position_lt_stop h)

end Substring

/-! ### Reading a window -/

variable {ω : Type}

/-- A window is cut at ends that are in order and in the base. -/
theorem cut_eq_ok {window : Substring} {start stop : Nat} (hle : start ≤ stop)
    (hstop : stop ≤ window.base.length) :
    (cut window start stop : Except (Failure ω) (Value ω)) =
      .ok (.substring ⟨window.base, start, stop, hle, hstop⟩) := by
  rw [cut, Substring.window?, dif_pos ⟨hle, hstop⟩]

/-- A text is read at a range of numbers through the resolved bounds, from the position of the first
character to the one behind the last. -/
theorem subscriptText_intRange (symbol : Symbol) (container : Value ω) (window : Substring)
    (range : Range Int64) :
    subscriptText symbol container window (.intRange range) =
      match resolveBounds range window.characterCount with
      | .ok (start, stop) => cut window (window.position start) (window.position stop)
      | .error .disordered => .error (.error (.invalidRange range.lower range.upper))
      | .error (.outside bound) => .error (.error (.stringBounds window.text bound)) := by
  simp only [subscriptText]
  cases hresolve : resolveBounds range window.characterCount with
  | error fault => cases fault <;> rfl
  | ok resolved =>
    obtain ⟨start, stop⟩ := resolved
    obtain ⟨hle, -⟩ := resolveBounds_le hresolve
    dsimp only
    split
    -- an empty range is cut at one position
    next hempty => rw [Nat.le_antisymm hle hempty]
    next hsome =>
      -- any other one is cut behind its last character, which is the position of the next one
      have hlast : stop - 1 + 1 = stop := by omega
      rw [← Substring.position_succ, hlast]

/-- A text is read at any number that is an integer. -/
theorem subscriptText_number (symbol : Symbol) (container : Value ω) (window : Substring)
    {index : Value ω} {offset : Int64} (h : index.integer? = some offset) :
    subscriptText symbol container window index =
      if offset.toInt < 0 ∨ window.characterCount ≤ offset.toInt then
        .error (.error (.stringBounds window.text offset))
      else .ok (.character (window.characterAt (window.position offset.toInt.toNat))) := by
  unfold subscriptText
  dsimp only
  split
  · exact nomatch h
  · exact nomatch h
  · exact nomatch h
  · rw [h]
    simp only [int64_neg_iff]

/-! ### Confinement -/

namespace Substring

/-- The window reaches up to the limit: it ends there, or a character does that begins in it. -/
def Reaches (window : Substring) (limit : Nat) : Prop :=
  limit = window.stop ∨
    ∃ position, window.start ≤ position ∧ position < window.stop ∧
      limit = window.nextBoundary position

/-- No character that begins in the window ends outside of it. -/
def KeepsCharacters (window : Substring) : Prop :=
  ∀ position, window.start ≤ position → position < window.stop →
    window.nextBoundary position ≤ window.stop

/-- The position of the last character that is read at an index of the window, if the index names
one: a range of positions does so with an included upper bound. -/
def lastRead? (window : Substring) (index : Value ω) : Option Nat :=
  match index with
  | .index position => some position.toNat
  | .indexRange range =>
    match range.kind with
    | .closed | .through => some range.upper.toNat
    | .halfOpen | .upTo | .onward => none
  | .intRange range =>
    match range.stop window.characterCount with
    | 0 => none
    | last + 1 => some (window.position last)
  | index => index.integer?.map fun offset => window.position offset.toInt.toNat

/-- The end of the last character that is read at an index of the window, or of the window. -/
def reach (window : Substring) (index : Value ω) : Nat :=
  match window.lastRead? index with
  | some position => window.nextBoundary position
  | none => window.stop

/-- A window that keeps its characters reaches no further than its end. -/
theorem KeepsCharacters.le_stop {window : Substring} {limit : Nat} (h : window.KeepsCharacters)
    (hlimit : window.Reaches limit) : limit ≤ window.stop := by
  rcases hlimit with rfl | ⟨position, hstart, hstop, rfl⟩
  · exact Nat.le_refl _
  · exact h position hstart hstop

/-- The outcome is an error, or a piece of the base from the start of the window to the limit. -/
def Confines (window : Substring) (limit : Nat) : Except (Failure ω) (Value ω) → Prop
  | .error (.error _) => True
  | .ok (.character text) =>
    ∃ start stop, window.start ≤ start ∧ start ≤ stop ∧ stop ≤ limit ∧
      text = window.base.extract start stop
  | .ok (.substring part) =>
    part.base = window.base ∧ window.start ≤ part.start ∧ part.stop ≤ limit
  | _ => False

/-- What is confined is confined to a wider limit. -/
theorem Confines.mono {window : Substring} {limit wider : Nat}
    {outcome : Except (Failure ω) (Value ω)} (h : window.Confines limit outcome)
    (hle : limit ≤ wider) : window.Confines wider outcome := by
  unfold Confines at h ⊢
  split
  · trivial
  · obtain ⟨start, stop, hstart, hordered, hstop, htext⟩ := h
    exact ⟨start, stop, hstart, hordered, Nat.le_trans hstop hle, htext⟩
  · exact ⟨h.1, h.2.1, Nat.le_trans h.2.2 hle⟩
  · split at h <;> simp_all

variable {window : Substring} {position : Nat}

/-- Every window reaches its end. -/
theorem reaches_stop (window : Substring) : window.Reaches window.stop := .inl rfl

/-- A window reaches the end of each character that begins in it. -/
theorem reaches_nextBoundary (hstart : window.start ≤ position) (hstop : position < window.stop) :
    window.Reaches (window.nextBoundary position) :=
  .inr ⟨position, hstart, hstop, rfl⟩

/-- A character that is read at a position in the window ends where the window reaches. -/
theorem confines_characterAt (hstart : window.start ≤ position) :
    window.Confines (window.nextBoundary position)
      (.ok (.character (window.characterAt position)) : Except (Failure ω) (Value ω)) :=
  ⟨position, window.nextBoundary position, hstart, Nat.le_of_lt (Text.lt_nextBoundary _ _),
    Nat.le_refl _, rfl⟩

/-- What is cut from the start of the window on is confined to its own end. -/
theorem confines_cut {start stop : Nat} (hstart : window.start ≤ start) (hle : start ≤ stop)
    (hstop : stop ≤ window.base.length) :
    window.Confines stop (cut window start stop : Except (Failure ω) (Value ω)) := by
  rw [cut_eq_ok hle hstop]
  exact ⟨rfl, hstart, Nat.le_refl _⟩

/-- Errors of expressions are confined to any limit. -/
theorem confines_error (window : Substring) (limit : Nat) (error : Error ω) :
    window.Confines limit (.error (.error error) : Except (Failure ω) (Value ω)) :=
  trivial

/-- Without an included upper bound a window is cut within itself. -/
theorem confines_cutBetween_halfOpen (window : Substring) (lower upper : UInt64) :
    window.Confines window.stop
      (cutBetween window false lower upper : Except (Failure ω) (Value ω)) := by
  simp only [cutBetween, Bool.not_false, Bool.true_and, Bool.false_eq_true, if_false, beq_iff_eq,
    Bool.or_eq_true, decide_eq_true_eq]
  split
  · exact confines_error _ _ _
  next hordered =>
    split
    · split
      · exact confines_error _ _ _
      next hinside =>
        -- an empty range is cut at its bound, which may be the end of the window
        have hstop := window.stop_le_length
        exact (confines_cut (by omega) (Nat.le_refl _) (by omega)).mono (by omega)
    next hsome =>
      split
      · exact confines_error _ _ _
      next hlower =>
        split
        · exact confines_error _ _ _
        next hupper =>
          -- the upper bound is checked against the end of the window, and nothing is read behind it
          have hstop := window.stop_le_length
          exact (confines_cut (by omega) (by omega) (by omega)).mono (by omega)

/-- The outcome is an error, or a piece of the base that ends where the window reaches. -/
def Contains (window : Substring) (limit : Nat) (outcome : Except (Failure ω) (Value ω)) : Prop :=
  (∃ error, outcome = .error (.error error)) ∨
    (window.Reaches limit ∧ window.Confines limit outcome)

/-- Errors of expressions are contained up to any limit. -/
theorem contains_error (window : Substring) (limit : Nat) (error : Error ω) :
    window.Contains limit (.error (.error error) : Except (Failure ω) (Value ω)) :=
  .inl ⟨error, rfl⟩

/-- What is confined to the window is contained up to its end. -/
theorem contains_of_confines {outcome : Except (Failure ω) (Value ω)}
    (h : window.Confines window.stop outcome) : window.Contains window.stop outcome :=
  .inr ⟨window.reaches_stop, h⟩

/-- With an included upper bound a window is cut where the character ends that begins there. -/
theorem contains_cutBetween_closed (window : Substring) (lower upper : UInt64) :
    window.Contains (window.nextBoundary upper.toNat)
      (cutBetween window true lower upper : Except (Failure ω) (Value ω)) := by
  simp only [cutBetween, Bool.not_true, Bool.false_and, Bool.false_eq_true, if_false, if_true,
    Bool.or_eq_true, decide_eq_true_eq]
  split
  · exact contains_error _ _ _
  next hordered =>
    split
    · exact contains_error _ _ _
    next hlower =>
      split
      · exact contains_error _ _ _
      next hupper =>
        -- both bounds begin in the window, so that the character at the upper one is in the base
        have hnext := Text.lt_nextBoundary window.base upper.toNat
        have hlength : window.nextBoundary upper.toNat ≤ window.base.length :=
          nextBoundary_le_length (by omega)
        exact .inr ⟨reaches_nextBoundary (by omega) (by omega),
          confines_cut (by omega) (Nat.le_trans (by omega) (Nat.le_of_lt hnext)) hlength⟩

/-- A range of positions is cut within the window unless its upper bound is included. -/
theorem confines_subscriptIndexRange (window : Substring) {range : Range UInt64}
    (hkind : range.kind ≠ .closed ∧ range.kind ≠ .through) :
    window.Confines window.stop
      (subscriptIndexRange window range : Except (Failure ω) (Value ω)) := by
  unfold subscriptIndexRange
  dsimp only
  split
  next hclosed => exact absurd hclosed hkind.1
  next => exact confines_cutBetween_halfOpen _ _ _
  next hthrough => exact absurd hthrough hkind.2
  -- a bound that is missing is one of the window
  all_goals
    split
    · exact confines_error _ _ _
    · exact confines_cutBetween_halfOpen _ _ _

/-- A range of positions is read up to the last character that it reads. -/
theorem contains_subscriptIndexRange (window : Substring) (range : Range UInt64) :
    window.Contains (window.reach (.indexRange range : Value ω))
      (subscriptIndexRange window range : Except (Failure ω) (Value ω)) := by
  obtain ⟨kind, lower, upper⟩ := range
  cases kind with
  | closed => exact contains_cutBetween_closed _ _ _
  | through =>
    simp only [subscriptIndexRange]
    split
    · exact contains_error _ _ _
    · exact contains_cutBetween_closed _ _ _
  | halfOpen | upTo | onward =>
    exact contains_of_confines (confines_subscriptIndexRange window ⟨nofun, nofun⟩)

/-- The character with a number begins in the window. -/
theorem contains_characterAt_position {number : Nat} (h : number < window.characterCount) :
    window.Contains (window.nextBoundary (window.position number))
      (.ok (.character (window.characterAt (window.position number))) :
        Except (Failure ω) (Value ω)) :=
  .inr ⟨reaches_nextBoundary (start_le_position _ _) (position_lt_stop h),
    confines_characterAt (start_le_position _ _)⟩

/-- The last character of a resolved range of numbers begins in the window. -/
theorem contains_cut_position {range : Range Int64} {start stop : Nat}
    (hresolve : resolveBounds range window.characterCount = .ok (start, stop)) :
    window.Contains (window.reach (.intRange range : Value ω))
      (cut window (window.position start) (window.position stop) :
        Except (Failure ω) (Value ω)) := by
  obtain ⟨hle, hcount⟩ := resolveBounds_le hresolve
  have hstop := resolveBounds_stop hresolve
  have hconfines : window.Confines (window.position stop)
      (cut window (window.position start) (window.position stop) :
        Except (Failure ω) (Value ω)) :=
    confines_cut (start_le_position _ _) (position_mono _ hle) (position_le_length hcount)
  -- a range that is not empty ends with the character in front of its end
  cases stop with
  | zero =>
    simp only [reach, lastRead?, ← hstop]
    rw [position_zero] at hconfines
    exact contains_of_confines (hconfines.mono window.start_le_stop)
  | succ last =>
    simp only [reach, lastRead?, ← hstop]
    rw [position_succ] at hconfines ⊢
    exact .inr ⟨reaches_nextBoundary (start_le_position _ _) (position_lt_stop hcount), hconfines⟩

/-- An index that is a number of a character is read last itself. -/
theorem reach_number (window : Substring) {index : Value ω} {offset : Int64}
    (h : index.integer? = some offset) :
    window.reach index = window.nextBoundary (window.position offset.toInt.toNat) := by
  have hlast : window.lastRead? index = some (window.position offset.toInt.toNat) := by
    unfold lastRead?
    split
    · exact nomatch h
    · exact nomatch h
    · exact nomatch h
    · rw [h]
      rfl
  rw [reach, hlast]

/-- A text is read up to the last character that it reads, at any index. -/
theorem contains_subscriptText (symbol : Symbol) (container : Value ω) (window : Substring)
    (index : Value ω) :
    window.Contains (window.reach index) (subscriptText symbol container window index) := by
  -- numbers are indices of characters, whatever they are stored in; the other indices have shapes
  -- of their own
  cases hinteger : index.integer? with
  | some offset =>
    rw [subscriptText_number symbol container window hinteger, reach_number window hinteger]
    split
    · exact contains_error _ _ _
    next hinside => exact contains_characterAt_position (by omega)
  | none =>
    cases index with
    | intRange range =>
      rw [subscriptText_intRange]
      split
      next hresolve => exact contains_cut_position hresolve
      all_goals exact contains_error _ _ _
    | indexRange range => exact contains_subscriptIndexRange window range
    | index position =>
      simp only [subscriptText, Bool.or_eq_true, decide_eq_true_eq]
      split
      · exact contains_error _ _ _
      next hinside =>
        exact .inr ⟨reaches_nextBoundary (by omega) (by omega), confines_characterAt (by omega)⟩
    | _ =>
      -- no other value is an index of a text
      simp only [subscriptText, hinteger]
      exact contains_error _ _ _

end Substring

/-- **A subscript stays in its window, up to the end of the last character that it reads.** Nothing
but an error of an expression is thrown, and otherwise this character begins in the window. The
piece ends in the window itself if no character that begins in the window ends outside of it, or if
the range is one of positions without an included upper bound. -/
theorem subscript_confined [Host ω] (symbol : Symbol) (window : Substring) (index : Value ω) :
    ((∃ error, subscript symbol (.substring window) index = .error (.error error)) ∨
        (window.Reaches (window.reach index) ∧
          window.Confines (window.reach index) (subscript symbol (.substring window) index))) ∧
      (window.KeepsCharacters ∨ (∃ range, index = .indexRange range ∧
          range.kind ≠ .closed ∧ range.kind ≠ .through) →
        window.Confines window.stop (subscript symbol (.substring window) index)) := by
  have hcontains := Substring.contains_subscriptText symbol (.substring window) window index
  refine ⟨hcontains, ?_⟩
  rintro (hkeeps | ⟨range, rfl, hkind⟩)
  · -- where characters are kept, no limit exceeds the window
    rcases hcontains with ⟨error, herror⟩ | ⟨hreaches, hconfines⟩
    · rw [subscript, herror]
      exact Substring.confines_error _ _ _
    · exact hconfines.mono (hkeeps.le_stop hreaches)
  · exact Substring.confines_subscriptIndexRange window hkind

/-- A window that confines every subscript keeps its characters: a range from a position to itself
gives the whole character there. -/
theorem keepsCharacters_of_confined [Host ω] (symbol : Symbol) {window : Substring}
    (hsize : window.stop ≤ UInt64.size)
    (h : ∀ index : Value ω,
      window.Confines window.stop (subscript symbol (.substring window) index)) :
    window.KeepsCharacters := by
  intro position hstart hstop
  have hposition : (UInt64.ofNat position).toNat = position :=
    UInt64.toNat_ofNat_of_lt' (Nat.lt_of_lt_of_le hstop hsize)
  have hprogress : position < window.nextBoundary position := Text.lt_nextBoundary _ _
  -- both bounds are a position in the window, so all the checks are passed
  have hread : subscript symbol (.substring window)
      (.indexRange ⟨.closed, UInt64.ofNat position, UInt64.ofNat position⟩ : Value ω) =
        cut window position (window.nextBoundary position) := by
    simp only [subscript, subscriptText, subscriptIndexRange, cutBetween, hposition]
    simp [Nat.not_lt.mpr hstart, Nat.not_le.mpr hstop]
  have hconfined := h (.indexRange ⟨.closed, UInt64.ofNat position, UInt64.ofNat position⟩)
  rw [hread, cut_eq_ok (Nat.le_of_lt hprogress) (Substring.nextBoundary_le_length hstop)]
    at hconfined
  exact hconfined.2.2

/-! ### Windows on a part of a character -/

/-- The text of one character of two bytes. -/
def twoByteText : Text := [0xc3, 0xa9]

/-- The window on the first byte of a character of two. -/
def firstByte : Substring := ⟨twoByteText, 0, 1, by decide, by decide⟩

/-- The window on the second byte of a character of two. -/
def secondByte : Substring := ⟨twoByteText, 1, 2, by decide, by decide⟩

/-- The second byte is a character of its own, and a subscript stays there. -/
theorem subscript_confined_secondByte :
    secondByte.KeepsCharacters ∧
      subscript .subscript (.substring secondByte) (.index 1 : Value Empty) =
        .ok (.character [0xa9]) ∧
      secondByte.Confines secondByte.stop
        (subscript .subscript (.substring secondByte) (.index 1 : Value Empty)) := by
  have hkeeps : secondByte.KeepsCharacters := by
    intro position hstart hstop
    -- the window has one position
    obtain rfl : position = 1 := Nat.le_antisymm (Nat.le_of_lt_succ hstop) hstart
    decide
  exact ⟨hkeeps, by rfl, (subscript_confined .subscript secondByte (.index 1)).2 (.inl hkeeps)⟩

/-- A window that ends within a character reveals the rest of it: at the number of the character, at
its position, and at ranges that include it. -/
theorem subscript_not_confined :
    subscript .subscript (.substring firstByte) (.int64 0 : Value Empty) =
        .ok (.character twoByteText) ∧
      subscript .subscript (.substring firstByte) (.index 0 : Value Empty) =
        .ok (.character twoByteText) ∧
      subscript .subscript (.substring firstByte) (.intRange ⟨.closed, 0, 0⟩ : Value Empty) =
        .ok (.substring (.whole twoByteText)) ∧
      subscript .subscript (.substring firstByte) (.indexRange ⟨.closed, 0, 0⟩ : Value Empty) =
        .ok (.substring (.whole twoByteText)) ∧
      ¬ firstByte.Confines firstByte.stop
        (.ok (.character twoByteText) : Except (Failure Empty) (Value Empty)) ∧
      ¬ firstByte.Confines firstByte.stop
        (.ok (.substring (.whole twoByteText)) : Except (Failure Empty) (Value Empty)) := by
  have hcount : firstByte.characterCount = 1 := by
    simp [Substring.characterCount, Text.characterCount, Substring.text, firstByte, twoByteText,
      Text.characters_cons, Text.characters_nil]
  have hnumber : subscript .subscript (.substring firstByte) (.int64 0 : Value Empty) =
      .ok (.character twoByteText) := by
    have hinteger : (.int64 0 : Value Empty).integer? = some 0 := rfl
    rw [subscript, subscriptText_number _ _ _ hinteger, hcount]
    refine if_neg ?_
    decide
  have hrange : subscript .subscript (.substring firstByte) (.intRange ⟨.closed, 0, 0⟩) =
      (.ok (.substring (.whole twoByteText)) : Except (Failure Empty) (Value Empty)) := by
    rw [subscript, subscriptText_intRange, hcount]
    rfl
  refine ⟨hnumber, by rfl, hrange, by rfl, ?_, fun h => absurd h.2.2 (by decide)⟩
  -- a part of the first byte is too short for two of them
  rintro ⟨start, stop, -, -, hstop, htext⟩
  have hlength : twoByteText.length = stop - start := by
    rw [htext, Text.length_extract (Nat.le_trans hstop (by decide))]
  have hshort : stop ≤ 1 := hstop
  have htwo : twoByteText.length = 2 := rfl
  omega

end DynExpr
