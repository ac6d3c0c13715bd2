import DynExpr.Text

/-!
# Walking over characters

There are two ways over a text: it is cut into its characters, or one steps from boundary to
boundary. They meet in parts of a text: the first character of a part is what the first step goes
over, up to the end of the part (`characters_extract`).

* `characters_extract_advance`: walking into a part divides its characters, and as many of them as
  steps were made lie behind.
* `exists_advance_eq_length`: a walk meets the end of the text.
* `advance_lt_of_lt_characterCount`: no character of a part begins behind its end.
-/

namespace DynExpr.Text

variable {text : Text} {start stop position steps : Nat}

/-! ### Steps -/

/-- A step moves on, wherever it begins. -/
theorem lt_nextBoundary (text : Text) (position : Nat) : position < nextBoundary text position := by
  unfold nextBoundary
  split
  · exact Nat.lt_succ_self position
  next lead hlead =>
    obtain ⟨hlength, -⟩ := List.getElem?_eq_some_iff.mp hlead
    -- the step is cut at the end, which is still ahead
    have := sequenceLength_pos lead
    omega

/-- A step from within the text stays in it. -/
theorem nextBoundary_le_length (h : position < text.length) :
    nextBoundary text position ≤ text.length := by
  unfold nextBoundary
  rw [List.getElem?_eq_getElem h]
  exact Nat.min_le_right _ _

/-- A step from the end on is one byte. -/
theorem nextBoundary_of_length_le (h : text.length ≤ position) :
    nextBoundary text position = position + 1 := by
  unfold nextBoundary
  rw [List.getElem?_eq_none h]

/-- The first step of a walk. -/
theorem advance_succ (text : Text) (start steps : Nat) :
    advance text start (steps + 1) = advance text (nextBoundary text start) steps := by
  rw [advance]
  split
  -- a walk behind the end is made at once, and one step less from one byte further
  next hbeyond =>
    rw [nextBoundary_of_length_le hbeyond]
    cases steps with
    | zero => rfl
    | succ steps =>
      rw [advance, if_pos (Nat.le_succ_of_le hbeyond)]
      omega
  next => rfl

/-- A walk in two parts. -/
theorem advance_add (text : Text) (start steps more : Nat) :
    advance text start (steps + more) = advance text (advance text start steps) more := by
  induction steps generalizing start with
  | zero => rw [Nat.zero_add, advance]
  | succ steps ih => rw [Nat.succ_add, advance_succ, ih, advance_succ]

/-- The last step of a walk. -/
theorem advance_succ' (text : Text) (start steps : Nat) :
    advance text start (steps + 1) = nextBoundary text (advance text start steps) := by
  rw [advance_add, advance_succ, advance]

/-- A walk never turns back. -/
theorem le_advance (text : Text) (start steps : Nat) : start ≤ advance text start steps := by
  induction steps with
  | zero => exact Nat.le_refl start
  | succ steps ih =>
    rw [advance_succ']
    exact Nat.le_trans ih (Nat.le_of_lt (lt_nextBoundary _ _))

/-- A longer walk does not end earlier. -/
theorem advance_mono (text : Text) (start : Nat) {few many : Nat} (h : few ≤ many) :
    advance text start few ≤ advance text start many := by
  rw [← Nat.add_sub_cancel' h, advance_add]
  exact le_advance _ _ _

/-- A walk meets the end of the text. -/
theorem exists_advance_eq_length {start : Nat} (h : start ≤ text.length) :
    ∃ steps, advance text start steps = text.length := by
  rcases Nat.eq_or_lt_of_le h with heq | hlt
  · exact ⟨0, heq⟩
  · have hprogress := lt_nextBoundary text start
    obtain ⟨steps, hsteps⟩ := exists_advance_eq_length (nextBoundary_le_length hlt)
    exact ⟨steps + 1, by rw [advance_succ, hsteps]⟩
termination_by text.length - start

/-! ### Parts of a text -/

/-- A part that ends before it begins is empty. -/
theorem extract_of_le (h : stop ≤ start) : text.extract start stop = [] := by
  rw [List.extract_eq_take_drop, Nat.sub_eq_zero_of_le h, List.take_zero]

/-- The part between the ends is the text. -/
theorem extract_whole (text : Text) : text.extract 0 text.length = text := by
  rw [List.extract_eq_take_drop, List.drop_zero, Nat.sub_zero, List.take_length]

/-- A part that is not empty begins with the byte at its start. -/
theorem extract_cons (hstart : start < stop) (hstop : stop ≤ text.length) :
    text.extract start stop = text[start] :: text.extract (start + 1) stop := by
  have hsub : stop - start = stop - (start + 1) + 1 := by omega
  -- the first byte is what is left behind the dropped ones
  rw [List.extract_eq_take_drop, List.extract_eq_take_drop, List.drop_eq_getElem_cons (by omega),
    hsub, List.take_succ_cons]

/-- A part within the text has as many bytes as positions. -/
theorem length_extract (hstop : stop ≤ text.length) :
    (text.extract start stop).length = stop - start := by
  rw [List.length_take, List.length_drop]
  omega

/-- A part without its first bytes begins later. -/
theorem drop_extract (text : Text) (start stop count : Nat) :
    (text.extract start stop).drop count = text.extract (start + count) stop := by
  rw [List.drop_take, List.drop_drop, Nat.sub_sub]

/-- The first bytes of a part end earlier. -/
theorem take_extract (text : Text) (start stop count : Nat) :
    (text.extract start stop).take count = text.extract start (min (start + count) stop) := by
  rw [List.take_take]
  congr 1
  omega

/-! ### Characters of a part -/

/-- No bytes have no characters. -/
theorem characters_nil : characters [] = [] := by rw [characters]

/-- The first byte announces how many belong to the first character. -/
theorem characters_cons (lead : UInt8) (rest : Text) :
    characters (lead :: rest) =
      (lead :: rest.take (sequenceLength lead - 1)) ::
        characters (rest.drop (sequenceLength lead - 1)) := by
  rw [characters]

/-- The first character of a part is what the first step goes over, up to the end of the part. -/
theorem characters_extract (hstart : start < stop) (hstop : stop ≤ text.length) :
    characters (text.extract start stop) =
      text.extract start (min (nextBoundary text start) stop) ::
        characters (text.extract (nextBoundary text start) stop) := by
  have hlength : start < text.length := Nat.lt_of_lt_of_le hstart hstop
  have hpos := sequenceLength_pos text[start]
  have hnext : nextBoundary text start =
      min (start + sequenceLength text[start]) text.length := by
    rw [nextBoundary, List.getElem?_eq_getElem hlength]
  have hprogress := lt_nextBoundary text start
  -- whether the step or the character is cut at the end of the text, both end at the same place in
  -- the part
  have hend : min (start + 1 + (sequenceLength text[start] - 1)) stop =
      min (nextBoundary text start) stop := by
    omega
  have hfirst : text.extract start (min (nextBoundary text start) stop) =
      text[start] :: text.extract (start + 1) (min (nextBoundary text start) stop) :=
    extract_cons (by omega) (by omega)
  rw [extract_cons hstart hstop, characters_cons, take_extract, drop_extract, hend, hfirst]
  congr 1
  · congr 1
    rcases Nat.le_total (start + sequenceLength text[start]) text.length with hinside | hbeyond
    · rw [show start + 1 + (sequenceLength text[start] - 1) = nextBoundary text start by omega]
    · -- the text ends within the character
      rw [extract_of_le (by omega), extract_of_le (by omega)]

/-- **Walking into a part divides its characters**, and as many of them as steps were made lie
behind. -/
theorem characters_extract_advance (h : advance text start steps ≤ stop)
    (hstop : stop ≤ text.length) :
    characters (text.extract start stop) =
        characters (text.extract start (advance text start steps)) ++
          characters (text.extract (advance text start steps) stop) ∧
      characterCount (text.extract start (advance text start steps)) = steps := by
  induction steps generalizing start with
  | zero =>
    rw [advance, extract_of_le (Nat.le_refl start), characterCount, characters_nil]
    exact ⟨rfl, rfl⟩
  | succ steps ih =>
    rw [advance_succ] at h ⊢
    -- the first character is the same in the part and in what is walked over
    obtain ⟨happend, hcount⟩ := ih h
    have hprogress := lt_nextBoundary text start
    have hreached := le_advance text (nextBoundary text start) steps
    have hwhole := @characters_extract text start stop (by omega) hstop
    have hwalked := @characters_extract text start (advance text (nextBoundary text start) steps)
      (by omega) (by omega)
    rw [characterCount] at hcount ⊢
    rw [hwhole, hwalked, Nat.min_eq_left (by omega), Nat.min_eq_left hreached, happend,
      List.length_cons, hcount]
    exact ⟨rfl, rfl⟩

/-- A walk that meets the end of a part counts its characters. -/
theorem characterCount_extract_of_advance_eq (h : advance text start steps = stop)
    (hstop : stop ≤ text.length) : characterCount (text.extract start stop) = steps := by
  subst h
  exact (characters_extract_advance (Nat.le_refl _) hstop).2

/-- **No character of a part begins behind its end.** The last one may reach beyond it, since steps
are made over the whole text. -/
theorem advance_lt_of_lt_characterCount (hstop : stop ≤ text.length)
    (h : steps < characterCount (text.extract start stop)) : advance text start steps < stop := by
  induction steps generalizing start with
  | zero =>
    rw [advance]
    rcases Nat.lt_or_ge start stop with hstart | hle
    · exact hstart
    · rw [extract_of_le hle, characterCount, characters_nil] at h
      exact absurd h (Nat.not_lt_zero _)
  | succ steps ih =>
    rw [advance_succ]
    -- what is left behind the first character has one character less
    refine ih ?_
    rcases Nat.lt_or_ge start stop with hstart | hle
    · rw [characterCount, characters_extract hstart hstop, List.length_cons] at h
      exact Nat.lt_of_succ_lt_succ h
    · rw [extract_of_le hle, characterCount, characters_nil] at h
      exact absurd h (Nat.not_lt_zero _)

end DynExpr.Text
