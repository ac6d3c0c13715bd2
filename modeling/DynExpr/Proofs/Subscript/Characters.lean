import DynExpr.Proofs.Subscript.Window

/-!
# Texts as arrays of characters

A text is read at numbers and ranges of numbers like the array of its characters, and so is every
part that comes of it, however often it is cut (`subscriptPath_alike`).

A text counts the characters of a window, but finds them by walking over the base. Both agree if the
walk meets the end of the window (`Substring.Aligned`). A whole text is aligned
(`Substring.aligned_whole`), and what is cut from an aligned window is aligned
(`Substring.aligned_part`), so that the steps on the text and on the array go side by side: as long
as both have succeeded, the array is that of the characters of the window (`SpellsOut`).
-/

namespace DynExpr

/-! ### Characters of a text -/

namespace Text

/-- The pieces from a position to the end of the text, cut at the boundaries. -/
def pieces (text : Text) (start : Nat) : List Text :=
  if _h : start < text.length then
    text.extract start (nextBoundary text start) :: pieces text (nextBoundary text start)
  else []
termination_by text.length - start
decreasing_by
  have := lt_nextBoundary text start
  omega

/-- The characters of a text are what lies between its boundaries. -/
theorem characters_extract_eq_pieces (text : Text) (start : Nat) :
    characters (text.extract start text.length) = pieces text start := by
  rw [pieces]
  split
  next hstart =>
    rw [characters_extract hstart (Nat.le_refl _), Nat.min_eq_left (nextBoundary_le_length hstart),
      characters_extract_eq_pieces text (nextBoundary text start)]
  next hbeyond => rw [extract_of_le (Nat.le_of_not_lt hbeyond), characters_nil]
termination_by text.length - start
decreasing_by
  have := lt_nextBoundary text start
  omega

/-- The characters of a text are its pieces from the beginning. -/
theorem characters_eq_pieces (text : Text) : characters text = pieces text 0 := by
  rw [← characters_extract_eq_pieces, extract_whole]

end Text

/-! ### Aligned windows -/

namespace Substring

variable {window : Substring} {number : Nat}

/-- Walking over the base from the start of the window meets its end. -/
def Aligned (window : Substring) : Prop := window.position window.characterCount = window.stop

/-- The text of a window is the part of its base between the ends. -/
theorem text_eq_extract (window : Substring) :
    window.text = window.base.extract window.start window.stop := rfl

/-- A walk that meets the end of the window counts its characters. -/
theorem characterCount_of_position_eq {steps : Nat} (h : window.position steps = window.stop) :
    window.characterCount = steps :=
  Text.characterCount_extract_of_advance_eq h window.stop_le_length

/-- A window is aligned if any walk from its start meets its end. -/
theorem aligned_of_position_eq {steps : Nat} (h : window.position steps = window.stop) :
    window.Aligned := by
  rw [Aligned, characterCount_of_position_eq h, h]

/-- The window on the whole of a text is aligned. -/
theorem aligned_whole (text : Text) : (whole text).Aligned := by
  -- the end of a text is a boundary, whatever its bytes are
  obtain ⟨steps, hsteps⟩ := Text.exists_advance_eq_length (Nat.zero_le text.length)
  exact aligned_of_position_eq hsteps

/-- In an aligned window no character ends behind the window. -/
theorem Aligned.position_le_stop (h : window.Aligned) (hnumber : number ≤ window.characterCount) :
    window.position number ≤ window.stop :=
  h ▸ window.position_mono hnumber

/-- Behind the first characters of a window are the characters of the rest. -/
theorem characters_drop (h : window.position number ≤ window.stop) :
    window.text.characters.drop number =
      Text.characters (window.base.extract (window.position number) window.stop) := by
  obtain ⟨happend, hcount⟩ := Text.characters_extract_advance h window.stop_le_length
  rw [text_eq_extract, happend]
  exact List.drop_left' hcount

/-- The character with a number is the one at its position. -/
theorem Aligned.getElem?_characters (h : window.Aligned)
    (hnumber : number < window.characterCount) :
    window.text.characters[number]? = some (window.characterAt (window.position number)) := by
  have hnext : Text.nextBoundary window.base (window.position number) ≤ window.stop := by
    have hsucc := h.position_le_stop hnumber
    rwa [position_succ] at hsucc
  -- the character is the first one behind as many others, and ends in the window
  have hhead := congrArg List.head? (characters_drop (h.position_le_stop (Nat.le_of_lt hnumber)))
  rw [List.head?_drop,
    Text.characters_extract (position_lt_stop hnumber) window.stop_le_length] at hhead
  rw [hhead, List.head?_cons, Nat.min_eq_left hnext]
  rfl

/-- The part from one position to another. -/
def part (window : Substring) (few many : Nat) (hle : few ≤ many)
    (hcount : many ≤ window.characterCount) : Substring :=
  ⟨window.base, window.position few, window.position many, window.position_mono hle,
    position_le_length hcount⟩

variable {few many : Nat} (hle : few ≤ many) (hcount : many ≤ window.characterCount)

/-- Walking on from a position. -/
theorem part_position_sub : (window.part few many hle hcount).position (many - few) =
    (window.part few many hle hcount).stop := by
  have hwalk := Text.advance_add window.base window.start few (many - few)
  rw [Nat.add_sub_cancel' hle] at hwalk
  exact hwalk.symm

/-- What is cut from a window between two of its characters is aligned. -/
theorem aligned_part : (window.part few many hle hcount).Aligned :=
  aligned_of_position_eq (part_position_sub hle hcount)

/-- **A part of an aligned window has the characters with its numbers.** -/
theorem Aligned.characters_part (h : window.Aligned) :
    (window.part few many hle hcount).text.characters =
      (window.text.characters.drop few).take (many - few) := by
  -- the walk to `many` goes on from `few`, so the characters are divided at both
  have hpart : window.position many ≤ window.stop := h.position_le_stop hcount
  have hfew : window.position few ≤ window.stop := Nat.le_trans (window.position_mono hle) hpart
  have hstop : Text.advance window.base (window.position few) (many - few) = window.position many :=
    part_position_sub hle hcount
  obtain ⟨happend, hpieces⟩ :=
    Text.characters_extract_advance (hstop ▸ hpart) window.stop_le_length
  rw [hstop] at happend hpieces
  rw [characters_drop hfew, happend]
  exact (List.take_left' hpieces).symm

end Substring

/-! ### Texts and arrays side by side -/

section Reading

variable {ω : Type}

/-- The characters of a text as values, cut at its boundaries. -/
def Value.characters (text : Text) : List (Value ω) := (text.pieces 0).map .character

/-- The characters as values are those of the text. -/
theorem Value.characters_eq (text : Text) :
    (Value.characters text : List (Value ω)) = text.characters.map .character := by
  rw [Value.characters, Text.characters_eq_pieces]

/-- The window that a value is, if it is a text. -/
def Value.window? : Value ω → Option Substring
  | .string text => some (.whole text)
  | .substring window => some window
  | _ => none

/-- The same error of a text and of a sequence: the bounds of a range are out of order, or a number
lies outside. -/
inductive FailsAlike (symbol : Symbol) : Error ω → Error ω → Prop
  | disordered (lower upper : Int64) :
    FailsAlike symbol (.invalidRange lower upper) (.invalidRange lower upper)
  | outside (text : Text) (bound : Int64) :
    FailsAlike symbol (.stringBounds text bound) (.arrayBounds symbol (Double.ofInt bound.toInt))

/-- The same outcome of a text and of a sequence: a window, as the slice of its characters, a
character, or an error. -/
inductive Alike (symbol : Symbol) :
    Except (Failure ω) (Value ω) → Except (Failure ω) (Value ω) → Prop
  | slice (part : Substring) (aligned : part.Aligned) :
    Alike symbol (.ok (.substring part)) (.ok (.slice (Value.characters part.text)))
  | character (text : Text) : Alike symbol (.ok (.character text)) (.ok (.character text))
  | fails (ofText ofSequence : Error ω) (alike : FailsAlike symbol ofText ofSequence) :
    Alike symbol (.error (.error ofText)) (.error (.error ofSequence))

/-- A text and the sequence of its characters. -/
structure SpellsOut (container sequence : Value ω) (window : Substring) : Prop where
  window_eq : container.window? = some window
  aligned : window.Aligned
  elements_eq : sequence.elements? = some (Value.characters window.text)

/-- A string and the array of its characters. -/
theorem spellsOut_string (text : Text) :
    SpellsOut (.string text : Value ω) (.array (Value.characters text)) (.whole text) :=
  ⟨rfl, Substring.aligned_whole text, by
    rw [Substring.text_eq_extract]
    exact congrArg (fun spelled => some (Value.characters spelled)) (Text.extract_whole text).symm⟩

/-- An aligned part and the slice of its characters. -/
theorem spellsOut_part {part : Substring} (h : part.Aligned) :
    SpellsOut (.substring part : Value ω) (.slice (Value.characters part.text)) part :=
  ⟨rfl, h, rfl⟩

variable [Host ω] {container sequence : Value ω} {window : Substring}

/-- All texts are read alike. -/
theorem subscript_of_window? (h : container.window? = some window) (symbol : Symbol)
    (index : Value ω) :
    subscript symbol container index = subscriptText symbol container window index := by
  cases container with
  | string | substring =>
    obtain rfl := Option.some.inj h
    rfl
  | _ => exact nomatch h

namespace SpellsOut

/-- A range gives a part and the slice of its characters, or the same error. -/
theorem step_range (h : SpellsOut container sequence window) (symbol : Symbol)
    (range : Range Int64) :
    (∃ part : Substring, part.Aligned ∧
        subscript symbol container (.intRange range) = .ok (.substring part) ∧
        subscript symbol sequence (.intRange range) =
          .ok (.slice (Value.characters part.text))) ∨
      ∃ ofText ofSequence, FailsAlike symbol ofText ofSequence ∧
        subscript symbol container (.intRange range) = .error (.error ofText) ∧
        subscript symbol sequence (.intRange range) = .error (.error ofSequence) := by
  have hlength : (Value.characters window.text : List (Value ω)).length =
      window.characterCount := by
    rw [Value.characters_eq, List.length_map]
    rfl
  -- both count alike, so that the bounds are resolved alike
  rw [subscript_of_window? h.window_eq, subscriptText_intRange,
    subscript_elements_intRange h.elements_eq, hlength]
  cases hresolve : resolveBounds range window.characterCount with
  | ok resolved =>
    obtain ⟨start, stop⟩ := resolved
    obtain ⟨hle, hcount⟩ := resolveBounds_le hresolve
    -- both ends are positions of characters, so what is cut off is aligned again
    refine .inl ⟨window.part start stop hle hcount, Substring.aligned_part hle hcount, ?_, ?_⟩
    · exact cut_eq_ok (window.position_mono hle) (Substring.position_le_length hcount)
    · simp only [Value.characters_eq]
      rw [h.aligned.characters_part hle hcount, List.map_take, List.map_drop]
  -- an error of the bounds is the same, but each container names it in its own way
  | error fault =>
    cases fault with
    | disordered => exact .inr ⟨_, _, .disordered range.lower range.upper, rfl, rfl⟩
    | outside bound => exact .inr ⟨_, _, .outside window.text bound, rfl, rfl⟩

/-- A number gives the same character, or the same error. -/
theorem step_number (h : SpellsOut container sequence window) (symbol : Symbol)
    {index : Value ω} {offset : Int64} (hinteger : index.integer? = some offset) :
    Alike symbol (subscript symbol container index) (subscript symbol sequence index) := by
  rw [subscript_of_window? h.window_eq, subscriptText_number _ _ _ hinteger,
    subscript_elements_number h.elements_eq symbol hinteger, Value.characters_eq,
    List.getElem?_map]
  by_cases hinside : offset.toInt < 0 ∨ window.characterCount ≤ offset.toInt
  · -- outside of the window there is no character
    have hnone : (if offset.toInt < 0 then none
        else window.text.characters[offset.toInt.toNat]?.map .character) =
          (none : Option (Value ω)) := by
      split
      · rfl
      · rw [List.getElem?_eq_none, Option.map_none]
        show window.characterCount ≤ _
        omega
    rw [if_pos hinside, hnone]
    exact .fails _ _ (.outside window.text offset)
  · have hcharacter := h.aligned.getElem?_characters
      (show offset.toInt.toNat < window.characterCount by omega)
    rw [if_neg hinside, if_neg (by omega), hcharacter]
    exact .character _

/-- A range or a number gives the same outcome of both. -/
theorem step_alike (h : SpellsOut container sequence window) (symbol : Symbol) {index : Value ω}
    (hindex : (∃ range, index = .intRange range) ∨ ∃ offset, index.integer? = some offset) :
    Alike symbol (subscript symbol container index) (subscript symbol sequence index) := by
  rcases hindex with ⟨range, rfl⟩ | ⟨offset, hinteger⟩
  · rcases h.step_range symbol range with
      ⟨part, haligned, htext, hsequence⟩ | ⟨ofText, ofSequence, halike, htext, hsequence⟩
    · rw [htext, hsequence]
      exact .slice part haligned
    · rw [htext, hsequence]
      exact .fails _ _ halike
  · exact h.step_number symbol hinteger

end SpellsOut

/-! ### Paths -/

/-- Reads a container at one index after the other. -/
def subscriptPath (symbol : Symbol) (container : Value ω) (path : List (Value ω)) :
    Except (Failure ω) (Value ω) :=
  path.foldlM (subscript symbol) container

/-- A path gives the same outcome of both. -/
theorem SpellsOut.run_alike (h : SpellsOut container sequence window) (symbol : Symbol)
    (ranges : List (Range Int64)) {index : Value ω}
    (hindex : (∃ range, index = .intRange range) ∨ ∃ offset, index.integer? = some offset) :
    Alike symbol (subscriptPath symbol container (ranges.map .intRange ++ [index]))
      (subscriptPath symbol sequence (ranges.map .intRange ++ [index])) := by
  -- after each slice the rest of the path is followed from the part and its characters
  induction ranges generalizing container sequence window with
  | nil =>
    simp only [subscriptPath, List.map_nil, List.nil_append, List.foldlM_cons, List.foldlM_nil,
      bind_pure]
    exact h.step_alike symbol hindex
  | cons range ranges ih =>
    simp only [subscriptPath, List.map_cons, List.cons_append, List.foldlM_cons] at ih ⊢
    rcases h.step_range symbol range with
      ⟨part, haligned, htext, hsequence⟩ | ⟨ofText, ofSequence, halike, htext, hsequence⟩
    · rw [htext, hsequence]
      exact ih (spellsOut_part haligned)
    · rw [htext, hsequence]
      -- an error ends both paths
      exact .fails _ _ halike

/-- **A text is read like the array of its characters**, through any number of slices and at a last
range or number. -/
theorem subscriptPath_alike (symbol : Symbol) (text : Text) (ranges : List (Range Int64))
    {index : Value ω}
    (hindex : (∃ range, index = .intRange range) ∨ ∃ offset, index.integer? = some offset) :
    Alike symbol (subscriptPath symbol (.string text) (ranges.map .intRange ++ [index]))
      (subscriptPath symbol (.array (Value.characters text)) (ranges.map .intRange ++ [index])) :=
  (spellsOut_string text).run_alike symbol ranges hindex

end Reading

/-! ### A text of broken characters -/

/-- The letter `a`, the letter `é`, a continuation byte, a byte that begins no character, and two of
the three bytes of a character. -/
def brokenText : Text := [0x61, 0xc3, 0xa9, 0x80, 0xff, 0xe2, 0x82]

/-- A path of two slices and a number selects the broken character at the end, as in the array. -/
theorem subscriptPath_alike_brokenText :
    let ranges : List (Range Int64) := [⟨.closed, 1, 4⟩, ⟨.halfOpen, 1, 4⟩]
    let path : List (Value Empty) := ranges.map .intRange ++ [.int64 2]
    subscriptPath .subscript (.array (Value.characters brokenText)) path =
        .ok (.character [0xe2, 0x82]) ∧
      Alike .subscript (subscriptPath .subscript (.string brokenText) path)
        (subscriptPath .subscript (.array (Value.characters brokenText)) path) := by
  have hcharacters : (Value.characters brokenText : List (Value Empty)) =
      [[0x61], [0xc3, 0xa9], [0x80], [0xff], [0xe2, 0x82]].map .character := by
    rw [Value.characters_eq]
    simp [brokenText, Text.characters_cons, Text.characters_nil, Text.sequenceLength]
  refine ⟨?_, subscriptPath_alike .subscript brokenText _ (.inr ⟨2, rfl⟩)⟩
  rw [hcharacters]
  rfl

end DynExpr
