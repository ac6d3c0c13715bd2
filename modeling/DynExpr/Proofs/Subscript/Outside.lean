import DynExpr.CommandLine
import DynExpr.Proofs.Text.Characters
import Mathlib.Algebra.Group.Nat.Defs

/-!
# Positions outside a window

The error of a position outside a window tells where the position is, as a number of characters from
the start of the window. In front of the window the number is negative (`characterOffset_of_lt`).
Behind it there are the characters of the base up to the position, and beyond the base one for each
byte (`Substring.charactersTo`), which are at least as many as in the window
(`characterCount_le_charactersTo`).

A number is reported as a signed integer of 64 bits, and positions are unsigned. From `2 ^ 63` on
the characters up to a position are no such integer, and the number that is reported is negative, as
if the position were in front of the window (`windowBounds_side`).
-/

namespace DynExpr

/-! ### Counting characters -/

namespace Text

/-- Every character has a byte. -/
theorem characterCount_le_length (text : Text) : characterCount text ≤ text.length := by
  unfold characterCount
  -- by the recursion of `characters`, which takes at least one byte for each character
  induction text using characters.induct with
  | case1 =>
    rw [characters_nil]
    exact Nat.le_refl _
  | case2 lead rest ih =>
    rw [characters_cons, List.length_cons, List.length_cons]
    rw [List.length_drop] at ih
    omega

/-- A part that is not empty has a character. -/
theorem characterCount_extract_pos {text : Text} {start stop : Nat} (hstart : start < stop)
    (hstop : stop ≤ text.length) :
    0 < characterCount (text.extract start stop) := by
  rw [characterCount, characters_extract hstart hstop]
  exact Nat.succ_pos _

/-- A longer part does not have fewer characters, even if the shorter one ends within a
character. -/
theorem characterCount_extract_mono {text : Text} {start stop beyond : Nat} (hle : stop ≤ beyond)
    (hbeyond : beyond ≤ text.length) :
    characterCount (text.extract start stop) ≤ characterCount (text.extract start beyond) := by
  rcases Nat.lt_or_ge start stop with hstart | hempty
  · -- both parts begin with a character at the start, which ends early in the shorter one
    have hprogress := lt_nextBoundary text start
    have hrest : characterCount (text.extract (nextBoundary text start) stop) ≤
        characterCount (text.extract (nextBoundary text start) beyond) :=
      characterCount_extract_mono hle hbeyond
    unfold characterCount at hrest ⊢
    rw [characters_extract hstart (Nat.le_trans hle hbeyond),
      characters_extract (Nat.lt_of_lt_of_le hstart hle) hbeyond]
    -- the end of the first character may be behind the shorter part, which is then used up
    exact Nat.succ_le_succ hrest
  · rw [extract_of_le hempty, characterCount, characters_nil]
    exact Nat.zero_le _
termination_by text.length - start

/-- The bytes of a text from a position on, at most as many as given; a position beyond the end is
not accepted. -/
def part? (text : Text) (start length : Nat) : Option Text :=
  if start ≤ text.length then some ((text.drop start).take length) else none

/-- A part is taken at a position that the text has, the end included. -/
theorem part?_eq {text : Text} {start : Nat} (h : start ≤ text.length) (length : Nat) :
    text.part? start length = some ((text.drop start).take length) :=
  if_pos h

end Text

/-! ### Offsets -/

namespace Substring

variable {window : Substring} {position : UInt64}

/-- The number of the character at a position, where a part of the base is taken only at a position
that it has. -/
def characterOffset? (window : Substring) (position : UInt64) : Option Int64 :=
  let index := position.toNat
  if window.start ≤ index then do
    let inside ← Text.part? window.base window.start (min index window.base.length - window.start)
    let beyond := UInt64.ofNat (index - window.base.length)
    return Int64.ofInt (Text.characterCount inside) + beyond.toInt64
  else do
    let before ← Text.part? window.base index (window.start - index)
    return Int64.ofInt (-Text.characterCount before)

/-- A window starts in its base or at the end of it. -/
theorem start_le_length (window : Substring) : window.start ≤ window.base.length :=
  Nat.le_trans window.start_le_stop window.stop_le_length

/-- **No part is taken beyond the base**, wherever the position is. -/
theorem characterOffset?_eq (window : Substring) (position : UInt64) :
    window.characterOffset? position = some (window.characterOffset position) := by
  have hstart := window.start_le_length
  unfold characterOffset? characterOffset
  dsimp only
  split
  · -- a part behind the start of the window begins there, which is in the base
    rw [Text.part?_eq hstart]
    rfl
  next hbefore =>
    -- a part in front of it begins at the position, which is in front of the end of the base
    rw [Text.part?_eq (by omega)]
    rfl

/-- How many characters lie between the start of a window and a position that is not in front of it:
those of the base, and beyond the base one for each byte. -/
def charactersTo (window : Substring) (index : Nat) : Nat :=
  Text.characterCount (window.base.extract window.start (min index window.base.length)) +
    (index - window.base.length)

/-- There are no more characters than bytes. -/
theorem charactersTo_le (window : Substring) (index : Nat) : window.charactersTo index ≤ index := by
  have hinside := Text.characterCount_le_length
    (window.base.extract window.start (min index window.base.length))
  rw [Text.length_extract (Nat.min_le_right _ _)] at hinside
  -- inside the base there is a byte for each character, and behind it one for one
  unfold charactersTo
  omega

/-- Up to the end of the window and beyond there are at least the characters of the window. -/
theorem characterCount_le_charactersTo {index : Nat} (h : window.stop ≤ index) :
    window.characterCount ≤ window.charactersTo index := by
  have hwindow : window.characterCount ≤
      Text.characterCount (window.base.extract window.start (min index window.base.length)) :=
    Text.characterCount_extract_mono (Nat.le_min.mpr ⟨h, window.stop_le_length⟩)
      (Nat.min_le_right _ _)
  exact Nat.le_trans hwindow (Nat.le_add_right _ _)

/-- Not in front of the window, the offset is the wrapped number of the characters up to the
position. -/
theorem characterOffset_of_le (h : window.start ≤ position.toNat) :
    window.characterOffset position = Int64.ofInt (window.charactersTo position.toNat) := by
  unfold characterOffset charactersTo
  dsimp only
  -- the two numbers are wrapped each, which is the same as wrapping their sum
  rw [if_pos h, Int.natCast_add, Int64.ofInt_add, UInt64.toInt64_ofNat', ← Int64.ofInt_eq_ofNat]

/-- In front of the window, the offset is the negated number of the characters in between. -/
theorem characterOffset_of_lt (h : position.toNat < window.start) :
    window.characterOffset position =
      Int64.ofInt (-Text.characterCount (window.base.extract position.toNat window.start)) := by
  unfold characterOffset
  dsimp only
  rw [if_neg (Nat.not_le.mpr h)]

/-- In front of a window the offset is negative. -/
theorem characterOffset_neg (hsize : window.base.length < 2 ^ 63)
    (h : position.toNat < window.start) : (window.characterOffset position).toInt < 0 := by
  have hlength := window.start_le_length
  have hpos := Text.characterCount_extract_pos h hlength
  have hle := Text.characterCount_le_length (window.base.extract position.toNat window.start)
  -- there are characters in between, and no more than the base has bytes
  rw [Text.length_extract hlength] at hle
  rw [characterOffset_of_lt h, Int64.toInt_ofInt_of_le (by omega) (by omega)]
  omega

/-- The offset is the number of the characters up to the position as long as this is an integer of
64 bits, and negative otherwise. -/
theorem characterOffset_toInt (h : window.start ≤ position.toNat) :
    (window.charactersTo position.toNat < 2 ^ 63 →
      (window.characterOffset position).toInt = window.charactersTo position.toNat) ∧
    (2 ^ 63 ≤ window.charactersTo position.toNat →
      (window.characterOffset position).toInt < 0) := by
  rw [characterOffset_of_le h]
  refine ⟨?_, ?_⟩
  · intro hrange
    exact Int64.toInt_ofInt_of_le (by omega) (by omega)
  · -- a position has 64 bits, so the number is wrapped once
    intro hrange
    have hposition := position.toNat_lt
    have hle := window.charactersTo_le position.toNat
    have hsize : Int64.size = 2 ^ 64 := rfl
    rw [Int64.toInt_ofInt, Int.bmod_def, hsize]
    split
    · omega
    · omega

end Substring

/-! ### The error -/

variable {ω : Type}

/-- **The offset of a position outside a window is on its side**, unless there are `2 ^ 63`
characters or more between the start of the window and a position behind it. In this case it is
negative. The base is cut only at positions that it has, so there is no other outcome. -/
theorem windowBounds_side (window : Substring) (position : UInt64)
    (hsize : window.base.length < 2 ^ 63) :
    ∃ offset : Int64,
      window.characterOffset? position = some offset ∧
      (Error.windowBounds window position : Error ω) = .stringBounds window.text offset ∧
      (position.toNat < window.start → offset.toInt < 0) ∧
      (window.stop ≤ position.toNat →
        (window.charactersTo position.toNat < 2 ^ 63 → window.characterCount ≤ offset.toInt) ∧
        (2 ^ 63 ≤ window.charactersTo position.toNat → offset.toInt < 0)) := by
  refine ⟨window.characterOffset position, window.characterOffset?_eq position, rfl,
    Substring.characterOffset_neg hsize, ?_⟩
  intro hstop
  obtain ⟨hinside, hwrapped⟩ :=
    Substring.characterOffset_toInt (Nat.le_trans window.start_le_stop hstop)
  refine ⟨?_, hwrapped⟩
  intro hrange
  -- the characters of the window are among those up to the position
  have hcount := Substring.characterCount_le_charactersTo hstop
  rw [hinside hrange]
  omega

/-! ### Positions behind the base -/

/-- A window of the text `aéb` that begins within the character of two bytes. -/
def brokenStart : Substring := ⟨[0x61, 0xc3, 0xa9, 0x62], 2, 4, by decide, by decide⟩

/-- The text `abc`. -/
def threeLetters : Substring := .whole [0x61, 0x62, 0x63]

/-- The second byte of the character of two bytes counts as a character, the letter as another one,
and so does each byte behind the base. -/
theorem characterCount_brokenStart :
    brokenStart.characterCount = 2 ∧ brokenStart.charactersTo 6 = 4 := by
  simp [Substring.characterCount, Substring.charactersTo, Text.characterCount, Substring.text,
    brokenStart, Text.characters_cons, Text.characters_nil, Text.sequenceLength]

/-- Up to the last position there are as many characters as positions before it. -/
theorem characterCount_threeLetters :
    threeLetters.characterCount = 3 ∧
      threeLetters.charactersTo 0xFFFFFFFFFFFFFFFF = 2 ^ 64 - 1 := by
  simp [Substring.characterCount, Substring.charactersTo, Text.characterCount, Substring.text,
    threeLetters, Substring.whole, Text.characters_cons, Text.characters_nil, Text.sequenceLength]

/-- The two characters of the window, and one for each of the two bytes behind it. -/
theorem windowBounds_side_brokenStart :
    brokenStart.stop ≤ (6 : UInt64).toNat ∧ brokenStart.base.length < 2 ^ 63 ∧
      ∃ offset : Int64,
        (Error.windowBounds brokenStart 6 : Error Empty) = .stringBounds brokenStart.text offset ∧
        brokenStart.characterCount ≤ offset.toInt := by
  have hstop : brokenStart.stop ≤ (6 : UInt64).toNat := by decide
  have hsize : brokenStart.base.length < 2 ^ 63 := by decide
  obtain ⟨offset, -, herror, -, hbehind⟩ := windowBounds_side brokenStart 6 hsize
  have hrange : brokenStart.charactersTo (6 : UInt64).toNat < 2 ^ 63 := by
    rw [show (6 : UInt64).toNat = 6 from rfl, characterCount_brokenStart.2]
    decide
  exact ⟨hstop, hsize, offset, herror, (hbehind hstop).1 hrange⟩

/-- The last of all positions is reported as the character in front of the text. -/
theorem windowBounds_wrapped :
    threeLetters.stop ≤ (0xFFFFFFFFFFFFFFFF : UInt64).toNat ∧
      threeLetters.characterCount = 3 ∧
      (Error.windowBounds threeLetters 0xFFFFFFFFFFFFFFFF : Error Empty) =
        .stringBounds (utf8 "abc") (-1) ∧
      subscript .subscript (.string (utf8 "abc")) (.index 0xFFFFFFFFFFFFFFFF : Value Empty) =
        .error (.error (.stringBounds (utf8 "abc") (-1))) := by
  have htext : utf8 "abc" = threeLetters.base := by decide
  have hoffset : threeLetters.characterOffset 0xFFFFFFFFFFFFFFFF = -1 := by
    have hposition : (0xFFFFFFFFFFFFFFFF : UInt64).toNat = 0xFFFFFFFFFFFFFFFF := rfl
    rw [Substring.characterOffset_of_le (Nat.zero_le _), hposition, characterCount_threeLetters.2]
    decide
  have herror : (Error.windowBounds threeLetters 0xFFFFFFFFFFFFFFFF : Error Empty) =
      .stringBounds threeLetters.base (-1) := by
    rw [Error.windowBounds, hoffset]
    rfl
  refine ⟨by decide, characterCount_threeLetters.1, ?_, ?_⟩
  · rw [htext, herror]
  · -- a text is read like the window that is the whole of it
    rw [htext, ← herror]
    rfl

end DynExpr
