import DynExpr.Proofs.Text.Characters
import Mathlib.Logic.Function.Iterate
import Mathlib.Order.Monotone.Basic

/-!
# A text between its boundaries

Stepping from the start of a text meets its boundaries, one after the other, and goes on byte by
byte behind the end. What lies between a boundary of the text and the next one is a segment.

* `advance_eq_iterate`: a walk is a number of single steps, so that the position of a character is
  the boundary with its number.
* `advance_characterCount`: the walk meets the end of the text after as many steps as there are
  characters, and on the way it goes over one character with each step
  (`segments_eq_characters`).
* `sequenceLength_utf8EncodeChar`: the first byte of an encoded code point announces the length of
  the encoding. So encodings in a row fall into just these characters
  (`characters_flatMap_utf8EncodeChar`).

`boundaries_partition` puts this together. Positions are natural numbers, which do not wrap around
however far a walk goes behind the end.
-/

namespace DynExpr.Text

variable {text : Text} {start steps : Nat}

/-! ### Boundaries -/

/-- The position that is reached from the start of a text in the given number of steps. -/
def boundary (text : Text) (number : Nat) : Nat := (nextBoundary text)^[number] 0

/-- The next boundary is a step behind the last one. -/
theorem boundary_succ (text : Text) (number : Nat) :
    text.boundary (number + 1) = nextBoundary text (text.boundary number) :=
  Function.iterate_succ_apply' _ _ _

/-- Boundaries are in strict order, also behind the end. -/
theorem strictMono_boundary (text : Text) : StrictMono text.boundary := by
  refine strictMono_nat_of_lt_succ fun number => ?_
  -- each boundary is a step behind the one before it
  rw [boundary_succ]
  exact lt_nextBoundary text (text.boundary number)

/-- A walk is a number of single steps, also where it takes those behind the end together. -/
theorem advance_eq_iterate (text : Text) (start steps : Nat) :
    advance text start steps = (nextBoundary text)^[steps] start := by
  induction steps generalizing start with
  | zero => rw [advance, Function.iterate_zero_apply]
  -- the first step is taken off at both ends
  | succ steps ih => rw [advance_succ, ih, Function.iterate_succ_apply]

/-- The position of a character is the boundary with its number. -/
theorem characterIndex_eq_boundary (text : Text) (number : Nat) :
    text.characterIndex number = text.boundary number :=
  advance_eq_iterate text 0 number

/-- From the end on, every step is one byte. -/
theorem advance_of_length_le (h : text.length ≤ start) (steps : Nat) :
    advance text start steps = start + steps := by
  cases steps with
  | zero => rw [advance, Nat.add_zero]
  | succ steps => rw [advance, if_pos h]

/-- **There are as many characters as steps to the end.** -/
theorem advance_characterCount (text : Text) :
    advance text 0 text.characterCount = text.length := by
  obtain ⟨steps, hsteps⟩ := exists_advance_eq_length (Nat.zero_le text.length)
  -- some number of steps meets the end, and it is the number of characters
  have hcount := characterCount_extract_of_advance_eq hsteps (Nat.le_refl _)
  rw [extract_whole] at hcount
  rw [hcount, hsteps]

/-! ### Segments -/

/-- The bytes from the boundary with the given number to the next one. -/
def segment (text : Text) (number : Nat) : Text :=
  text.extract (text.boundary number) (text.boundary (number + 1))

/-- The segments of a text, in order. -/
def segments (text : Text) : List Text := (List.range text.characterCount).map text.segment

/-- The steps to the end of a text go over the characters of what is left, one each. -/
theorem characters_extract_of_iterate_eq (h : (nextBoundary text)^[steps] start = text.length) :
    characters (text.extract start text.length) =
      (List.range steps).map fun number =>
        text.extract ((nextBoundary text)^[number] start)
          ((nextBoundary text)^[number + 1] start) := by
  induction steps generalizing start with
  | zero =>
    rw [Function.iterate_zero_apply] at h
    rw [extract_of_le (Nat.le_of_eq h.symm), characters_nil, List.range_zero, List.map_nil]
  | succ steps ih =>
    rw [Function.iterate_succ_apply] at h
    have hprogress := lt_nextBoundary text start
    -- the walk never turns back, so its first step is still within the text
    have hnext : nextBoundary text start ≤ text.length := by
      rw [← h, ← advance_eq_iterate]
      exact le_advance _ _ _
    rw [characters_extract (Nat.lt_of_lt_of_le hprogress hnext) (Nat.le_refl _),
      Nat.min_eq_left hnext, ih h, List.range_succ_eq_map, List.map_cons, List.map_map]
    rfl

/-- **The segments are the characters.** -/
theorem segments_eq_characters (text : Text) : text.segments = text.characters := by
  have hreached := advance_characterCount text
  rw [advance_eq_iterate] at hreached
  have hcharacters := characters_extract_of_iterate_eq hreached
  rw [extract_whole] at hcharacters
  exact hcharacters.symm

/-- The characters put together are the text. -/
theorem flatten_characters (text : Text) : text.characters.flatten = text := by
  fun_induction characters text with
  | case1 => rfl
  | case2 lead rest ih => rw [List.flatten_cons, ih, List.cons_append, List.take_append_drop]

/-! ### Encoded code points -/

/-- The announced length in terms of the value of the byte. -/
theorem sequenceLength_ofNat {lead : Nat} (h : lead < 256) :
    sequenceLength (UInt8.ofNat lead) =
      if lead < 0xC0 then 1 else if lead < 0xE0 then 2 else if lead < 0xF0 then 3
      else if lead < 0xF8 then 4 else 1 := by
  simp only [sequenceLength, UInt8.lt_iff_toNat_lt, UInt8.toNat_ofNat_of_lt' h]
  rfl

/-- The first byte of an encoded code point announces the length of the encoding. -/
theorem sequenceLength_utf8EncodeChar (point : Char) :
    ∃ lead rest, String.utf8EncodeChar point = lead :: rest ∧
      sequenceLength lead = rest.length + 1 := by
  -- one case for each of the four lengths, by the size of the code point
  unfold String.utf8EncodeChar
  dsimp only
  split
  · refine ⟨_, _, rfl, ?_⟩
    rw [sequenceLength_ofNat (by omega), if_pos (by omega)]
    rfl
  split
  · refine ⟨_, _, rfl, ?_⟩
    rw [sequenceLength_ofNat (by omega), if_neg (by omega), if_pos (by omega)]
    rfl
  split
  · refine ⟨_, _, rfl, ?_⟩
    rw [sequenceLength_ofNat (by omega), if_neg (by omega), if_neg (by omega), if_pos (by omega)]
    rfl
  · refine ⟨_, _, rfl, ?_⟩
    rw [sequenceLength_ofNat (by omega), if_neg (by omega), if_neg (by omega), if_neg (by omega),
      if_pos (by omega)]
    rfl

/-- **The characters of encoded code points are their encodings.** -/
theorem characters_flatMap_utf8EncodeChar (points : List Char) :
    characters (points.flatMap String.utf8EncodeChar) = points.map String.utf8EncodeChar := by
  induction points with
  | nil => rw [List.flatMap_nil, characters_nil, List.map_nil]
  | cons point points ih =>
    obtain ⟨lead, rest, hencoding, hlength⟩ := sequenceLength_utf8EncodeChar point
    -- the first character takes as many bytes as the encoding has and leaves the other encodings
    rw [List.flatMap_cons, List.map_cons, hencoding, List.cons_append, characters_cons, hlength,
      Nat.add_sub_cancel, List.take_left, List.drop_left, ih]

/-- A valid text falls into the encodings of its code points. -/
theorem segments_of_isValidUTF8 (hvalid : text.toByteArray.IsValidUTF8) :
    text.segments =
      (String.ofByteArray text.toByteArray hvalid).toList.map String.utf8EncodeChar := by
  have hencode : (String.ofByteArray text.toByteArray hvalid).toList.utf8Encode =
      text.toByteArray := String.utf8Encode_toList
  -- encoding what was decoded gives the text back
  have htext : (String.ofByteArray text.toByteArray hvalid).toList.flatMap
      String.utf8EncodeChar = text := List.toByteArray_inj.mp hencode
  have hcharacters := characters_flatMap_utf8EncodeChar
    (String.ofByteArray text.toByteArray hvalid).toList
  rw [htext] at hcharacters
  rw [segments_eq_characters, hcharacters]

/-! ### The partition -/

/-- **Its boundaries divide a text into its characters.**

* Every step moves on, and as many steps as there are characters meet the end of the text. So the
  end is not met before, and the segments put together are the text.
* The position of a character is the boundary with its number. Behind the last character every
  number is one byte further.
* The segments of a text that is valid UTF-8 are the encodings of its code points, in order. -/
theorem boundaries_partition (text : Text) :
    StrictMono text.boundary ∧
    text.boundary text.characterCount = text.length ∧
    text.segments.flatten = text ∧
    (∀ number, text.characterIndex number = text.boundary number) ∧
    (∀ number, text.characterCount ≤ number →
      text.characterIndex number = text.length + (number - text.characterCount)) ∧
    ∀ hvalid : text.toByteArray.IsValidUTF8, text.segments =
      (String.ofByteArray text.toByteArray hvalid).toList.map String.utf8EncodeChar := by
  refine ⟨strictMono_boundary text, ?_, ?_, characterIndex_eq_boundary text,
    fun number hbeyond => ?_, segments_of_isValidUTF8⟩
  · rw [← characterIndex_eq_boundary]
    exact advance_characterCount text
  · rw [segments_eq_characters, flatten_characters]
  · -- the walk to the end is made first, and the rest of it byte by byte
    obtain ⟨more, rfl⟩ := Nat.exists_eq_add_of_le hbeyond
    rw [characterIndex, advance_add, advance_characterCount, advance_of_length_le (Nat.le_refl _),
      Nat.add_sub_cancel_left]

/-- Four code points whose encodings have all four lengths. -/
theorem boundaries_partition_fourLengths :
    let text := utf8 "aé€😀"
    text.toByteArray.IsValidUTF8 ∧ text.characterCount = 4 ∧
      text.segments = [utf8 "a", utf8 "é", utf8 "€", utf8 "😀"] ∧ text.characterIndex 7 = 13 := by
  intro text
  have hvalid : text.toByteArray.IsValidUTF8 := .intro "aé€😀".toList (by decide)
  have hcount : text.characterCount = 4 := by cbv
  have hpoints : String.ofByteArray text.toByteArray hvalid = "aé€😀" := rfl
  obtain ⟨-, -, -, -, hbeyond, hsegments⟩ := boundaries_partition text
  refine ⟨hvalid, hcount, ?_, ?_⟩
  · rw [hsegments hvalid, hpoints]
    decide
  · rw [hbeyond 7 (by rw [hcount]; decide), hcount]
    decide

end DynExpr.Text
