/-!
# Texts

Every text of the language — a source line, a name, the contents of a string value, a
message — is a sequence of bytes. Bytes are *meant* to be UTF-8, but no operation requires
it: positions, windows and orders are positions, windows and orders of bytes, and a text
that is not valid UTF-8 passes through unharmed.

* `Text` is the type of byte sequences, `utf8` writes a literal as one.
* `Text.compare` is the lexicographic order of unsigned bytes.
* `decimalText` and `integerText` write numbers in base ten.
* `Text.digitsValue` reads a run of digits of any base up to sixteen.
-/

namespace DynExpr

/-- A text is a sequence of bytes. -/
abbrev Text := List UInt8

/-- The UTF-8 bytes of a literal. -/
def utf8 (s : String) : Text := s.toUTF8.data.toList

namespace Text

/-! ### Order -/

/-- Texts are ordered by their first differing byte; a proper beginning comes first. -/
def compare : Text → Text → Ordering
  | [], [] => .eq
  | [], _ :: _ => .lt
  | _ :: _, [] => .gt
  | a :: s, b :: t => if a < b then .lt else if b < a then .gt else compare s t

/-! ### Classes of bytes -/

/-- The six blanks of ASCII: space, tab, line feed, vertical tab, form feed, return. -/
def isBlank (b : UInt8) : Bool := b == 32 || (9 ≤ b && b ≤ 13)

/-- A decimal digit. -/
def isDigit (b : UInt8) : Bool := 48 ≤ b && b ≤ 57

/-- An ASCII letter. -/
def isLetter (b : UInt8) : Bool := (65 ≤ b && b ≤ 90) || (97 ≤ b && b ≤ 122)

/-- A hexadecimal digit of either case. -/
def isHexDigit (b : UInt8) : Bool := isDigit b || (65 ≤ b && b ≤ 70) || (97 ≤ b && b ≤ 102)

/-- The value of a hexadecimal digit; other bytes count as zero. -/
def hexDigitValue (b : UInt8) : Nat :=
  if isDigit b then b.toNat - 48
  else if 97 ≤ b && b ≤ 102 then b.toNat - 87
  else if 65 ≤ b && b ≤ 70 then b.toNat - 55
  else 0

/-- The number that a run of digits denotes in the given base, most significant first. -/
def digitsValue (base : Nat) (digits : Text) : Nat :=
  digits.foldl (fun value digit => value * base + hexDigitValue digit) 0

/-- The letter `b` in lower case; other bytes are kept. -/
def toLower (b : UInt8) : UInt8 := if 65 ≤ b && b ≤ 90 then b + 32 else b

/-! ### Cutting -/

/-- What a reader of zero-terminated text sees: everything before the first zero byte. -/
def beforeZero (s : Text) : Text := s.takeWhile (· != 0)

/-- The contents of a text that begins and ends with the same quote, apostrophe or double. -/
def unquoted? (s : Text) : Option Text :=
  match s with
  | [] => none
  | quote :: rest =>
    if (quote == 39 || quote == 34) && rest.getLast? == some quote then some rest.dropLast
    else none

/-- Joins texts with a separator between neighbours. -/
def join (separator : Text) : List Text → Text
  | [] => []
  | [s] => s
  | s :: t :: rest => s ++ separator ++ join separator (t :: rest)

end Text

/-! ### Numbers in base ten -/

/-- The decimal digits of a natural number. -/
def decimalText (n : Nat) : Text := (Nat.toDigits 10 n).map Char.toUInt8

/-- An integer in base ten, with a minus sign if it is negative. -/
def integerText (n : Int) : Text :=
  if n < 0 then 45 :: decimalText n.natAbs else decimalText n.natAbs

end DynExpr

/-!
## Characters of a text

A character starts at every boundary and reaches to the next one. Its length is read off
its first byte alone, and the end of the text cuts the last character short: so every byte
sequence falls into characters, a stray continuation byte being a character by itself, and
on valid UTF-8 the characters are the encodings of its code points.

* `Text.nextBoundary` steps from one boundary to the next. Beyond the end each byte counts
  as a character.
* `Text.characters` cuts a text at its boundaries, `Text.characterCount` counts the pieces.
* `Text.characterIndex` is the position of the character with a given number.
-/

namespace DynExpr.Text

/-- The length that the first byte of a character announces; a byte that can start none
announces one. -/
def sequenceLength (lead : UInt8) : Nat :=
  if lead < 0xC0 then 1
  else if lead < 0xE0 then 2
  else if lead < 0xF0 then 3
  else if lead < 0xF8 then 4
  else 1

theorem sequenceLength_pos (lead : UInt8) : 0 < sequenceLength lead := by
  unfold sequenceLength
  repeat' split
  all_goals decide

/-- The boundary after `position`: the announced length further on, at most the end of the
text. At or beyond the end it is the next position. -/
def nextBoundary (text : Text) (position : Nat) : Nat :=
  match text[position]? with
  | none => position + 1
  | some lead => min (position + sequenceLength lead) text.length

/-- The characters of a text, in order. -/
def characters (text : Text) : List Text :=
  match text with
  | [] => []
  | lead :: rest =>
    (lead :: rest.take (sequenceLength lead - 1)) ::
      characters (rest.drop (sequenceLength lead - 1))
termination_by text.length
decreasing_by simp only [List.length_drop, List.length_cons]; omega

/-- The number of characters of a text. -/
def characterCount (text : Text) : Nat := text.characters.length

/-- The position reached from `start` in the given number of steps. From the end on all of them
are steps of one byte, and taken together. -/
def advance (text : Text) (start : Nat) : Nat → Nat
  | 0 => start
  | steps + 1 =>
    if text.length ≤ start then start + (steps + 1)
    else advance text (nextBoundary text start) steps

/-- The position of the character with the given number. -/
def characterIndex (text : Text) (number : Nat) : Nat := advance text 0 number

end DynExpr.Text

/-!
## Quoted texts

A string literal is written between apostrophes. Six bytes are escaped: the backslash, the
apostrophe, line feed, tab, return and zero; all others stand for themselves.

* `Text.quoted` writes a literal, `Text.unescape` says what byte an escape stands for.
-/

namespace DynExpr.Text

/-- How one byte is written inside a literal. -/
def escape (b : UInt8) : Text :=
  if b == 92 then utf8 "\\\\"
  else if b == 39 then utf8 "\\'"
  else if b == 10 then utf8 "\\n"
  else if b == 9 then utf8 "\\t"
  else if b == 13 then utf8 "\\r"
  else if b == 0 then utf8 "\\0"
  else [b]

/-- The byte that a backslash and `b` stand for: a control byte for `n`, `t`, `r` and `0`,
otherwise `b` itself. -/
def unescape (b : UInt8) : UInt8 :=
  if b == 110 then 10
  else if b == 116 then 9
  else if b == 114 then 13
  else if b == 48 then 0
  else b

/-- A text as a literal between apostrophes. -/
def quoted (text : Text) : Text := 39 :: (text.flatMap escape ++ [39])

end DynExpr.Text
