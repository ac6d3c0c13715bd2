import DynExpr.Double
import DynExpr.Text

/-!
# Doubles as text

Numbers are read from numerals, and written with the fewest digits that are read back.

* `Double.ofText?` reads a whole text, and `Double.text` writes a number.
-/

/-!
## Reading numbers

A decimal fraction `m * 10 ^ e` is an exact ratio, so reading it is one rounding; only a numeral
that has one bit more than a significand and lies below the normal range is cut twice. Exponents
may have any number of digits: far outside the range of doubles the answer, an infinity or a
zero, is known before any power is taken, and in between the powers stay small.

* `Double.ofDecimal` and `Double.ofBinary` round `m * 10 ^ e` and `m * 2 ^ e`.
* `Double.ofNumeral` is the rounding of numerals, and says where it differs from rounding to
  nearest.
* `Double.ofDigits` reads the parts of a decimal literal.
* `Double.ofText?` reads a whole text as a number: decimal or hexadecimal, with or without
  fraction and exponent, an infinity or a NaN with an optional payload.
-/

namespace DynExpr.Double

/-- The double that a numeral of `num / den` units is read as: the nearest one, unless the numeral
has exactly 54 significant bits and lies below the normal range. Such a numeral is cut to 53 bits
and then to whole units, and the second cut no longer sees the bit that the first one took away;
so the nearest double of what is left of it is taken. The bit is noticed as the last one only if
it lies at most `places` binary places below the unit. -/
def ofNumeral (places : Nat) (negative : Bool) (num den : Nat) : Double :=
  let whole := num / den
  let below := 54 - (if whole = 0 then 0 else whole.log2 + 1)
  let scaled := num * Nat.pow 2 below
  if 2 ≤ below ∧ below ≤ places ∧ scaled % den = 0 ∧ scaled / den % 2 = 1 then
    ofRatio negative (scaled / den - 1) (Nat.pow 2 below)
  else ofRatio negative num den

/-- The double that the numeral `mantissa * base ^ exponent` is read as, for a base of at least
two. Beyond `2 ^ 1100` it is an infinity, and below `2 ^ (-1200)` it is a zero. With fewer than 1076
places after the point no numeral reaches below half a unit. -/
def ofScaled (base places : Nat) (negative : Bool) (mantissa : Nat) (exponent : Int) : Double :=
  if mantissa = 0 then ofParts negative 0
  else if 1100 < exponent then infinity negative
  else if exponent < -(1200 + mantissa.log2 : Int) then ofParts negative 0
  else if 0 ≤ exponent then
    ofRatio negative (mantissa * Nat.pow base exponent.natAbs * unitsPerOne) 1
  else if -1076 < exponent then
    ofRatio negative (mantissa * unitsPerOne) (Nat.pow base exponent.natAbs)
  else ofNumeral places negative (mantissa * unitsPerOne) (Nat.pow base exponent.natAbs)

/-- The double that the numeral `mantissa * 10 ^ exponent` is read as. Only 1076 of its places are
taken bit by bit, and the last of that many bits lies two places below the unit. -/
def ofDecimal : Bool → Nat → Int → Double := ofScaled 10 2

/-- The double that the numeral `mantissa * 2 ^ exponent` is read as. -/
def ofBinary : Bool → Nat → Int → Double := ofScaled 2 54

/-- The number whose decimal digits are `whole` before the point and `fraction` after it,
times ten to the `exponent`. -/
def ofDigits (negative : Bool) (whole fraction : Text) (exponent : Int) : Double :=
  ofDecimal negative (Text.digitsValue 10 (whole ++ fraction)) (exponent - fraction.length)

/-! ### Whole texts -/

/-- Reads an optional sign: whether it was a minus, and what follows. -/
def takeSign : Text → Bool × Text
  | 45 :: rest => (true, rest)
  | 43 :: rest => (false, rest)
  | s => (false, s)

/-- Reads what may follow the digits of a number: nothing, or an exponent after the given
letter in either case, with an optional sign and at least one decimal digit. -/
def exponent? (letter : UInt8) : Text → Option Int
  | [] => some 0
  | b :: rest =>
    let (negative, digits) := takeSign rest
    if Text.toLower b == letter && !digits.isEmpty && digits.all Text.isDigit then
      let value : Int := Text.digitsValue 10 digits
      some (if negative then -value else value)
    else none

/-- Splits digits with an optional point into those before it, those after it, and what
follows. There is at least one digit. -/
def pointed? (isDigit : UInt8 → Bool) (s : Text) : Option (Text × Text × Text) :=
  let whole := s.takeWhile isDigit
  let (fraction, rest) := match s.dropWhile isDigit with
    | 46 :: rest => (rest.takeWhile isDigit, rest.dropWhile isDigit)
    | rest => ([], rest)
  if whole.isEmpty && fraction.isEmpty then none else some (whole, fraction, rest)

/-- A decimal number without sign. -/
def unsignedDecimal? (negative : Bool) (s : Text) : Option Double := do
  let (whole, fraction, rest) ← pointed? Text.isDigit s
  let exponent ← exponent? 101 rest
  return ofDigits negative whole fraction exponent

/-- A hexadecimal number without sign and without its leading `0x`; its exponent counts
powers of two. -/
def unsignedHex? (negative : Bool) (s : Text) : Option Double := do
  let (whole, fraction, rest) ← pointed? Text.isHexDigit s
  let exponent ← exponent? 112 rest
  return ofBinary negative (Text.digitsValue 16 (whole ++ fraction))
    (exponent - 4 * fraction.length)

/-- A NaN payload as a number: decimal, octal after a zero, hexadecimal after `0x`, and at
most `2 ^ 64 - 1`. -/
def payload? (s : Text) : Option Nat :=
  let read (base : Nat) (isDigit : UInt8 → Bool) (digits : Text) : Option Nat :=
    if digits.all isDigit then some (min (Text.digitsValue base digits) 0xFFFFFFFFFFFFFFFF)
    else none
  match s with
  | 48 :: x :: rest =>
    if Text.toLower x == 120 then
      (if rest.isEmpty then none else read 16 Text.isHexDigit rest)
    else read 8 (fun b => 48 ≤ b && b ≤ 55) (x :: rest)
  | _ => read 10 Text.isDigit s

/-- The number of payloads of a quiet NaN: two to the power 51. -/
def payloadSize : Nat := 0x8000000000000

/-- A quiet NaN whose payload is the low 51 bits of a number. -/
def nanWithPayload (negative : Bool) (payload : Nat) : Double :=
  ofParts negative (infinityBits + payloadSize + payload % payloadSize)

/-- An infinity or a NaN by name, in any case. A NaN may name its payload in parentheses:
letters, digits and underscores, of no effect unless they are a number. -/
def named? (negative : Bool) (s : Text) : Option Double :=
  let name := s.map Text.toLower
  if name = utf8 "inf" ∨ name = utf8 "infinity" then some (infinity negative)
  else if name = utf8 "nan" then some (nanWithPayload negative 0)
  else if name.take 4 = utf8 "nan(" ∧ s.getLast? = some 41 then
    let inner := (s.drop 4).dropLast
    -- 95 is the underscore
    if inner.all (fun b => Text.isDigit b || Text.isLetter b || b == 95) then
      some (nanWithPayload negative ((payload? inner).getD 0))
    else none
  else none

/-- A whole text as a number, blanks in front and a sign allowed. -/
def ofText? (s : Text) : Option Double :=
  let (negative, body) := takeSign (s.dropWhile Text.isBlank)
  match body with
  -- `0x` in either case
  | 48 :: x :: rest =>
    if Text.toLower x == 120 then unsignedHex? negative rest else unsignedDecimal? negative body
  | _ => unsignedDecimal? negative body <|> named? negative body

/-!
## Shortest decimals

A decimal reads back as a double when it lies between the midpoints to the double's two
neighbours, a midpoint included exactly when the double's last bit is zero. Among those
decimals the shortest are the multiples of the largest possible power of ten, and of these
the nearest to the double is chosen.

* `Double.candidate?` looks for a multiple of one power of ten: if any lies between the
  midpoints, one of the two neighbours of the double does.
* `Double.shortest` is the digits and the power of ten of the shortest decimal.
-/

/-- The multiple of `10 ^ exponent` that lies nearest to the double with the given magnitude
bits, if it reads back as that double. Everything is compared in halves of units, multiplied
by `10 ^ (-exponent)` if the exponent is negative. -/
def candidate? (magnitude : Nat) (exponent : Int) : Option Nat :=
  let value := unitsOfBits magnitude
  let below := value + unitsOfBits (magnitude - 1)
  let above := value + unitsOfBits (magnitude + 1)
  let scale := if exponent < 0 then Nat.pow 10 exponent.natAbs else 1
  let step := (if exponent < 0 then 1 else Nat.pow 10 exponent.natAbs) * (2 * unitsPerOne)
  let reads (digits : Nat) : Bool :=
    if magnitude % 2 = 0 then below * scale ≤ digits * step && digits * step ≤ above * scale
    else below * scale < digits * step && digits * step < above * scale
  let exact := 2 * value * scale
  let floor := exact / step
  let nearest := roundHalfEven exact step
  let other := if nearest = floor then floor + 1 else floor
  if reads nearest then some nearest else if reads other then some other else none

/-- The first candidate at or below an exponent. -/
def search (magnitude : Nat) : Nat → Int → Nat × Int
  | 0, exponent => (0, exponent)
  | steps + 1, exponent =>
    match candidate? magnitude exponent with
    | some digits => (digits, exponent)
    | none => search magnitude steps (exponent - 1)

/-- Digits and power of ten of the shortest decimal that reads back as the finite positive
double with the given magnitude bits. Powers range from that of the largest double to that of
the smallest. -/
def shortest (magnitude : Nat) : Nat × Int := search magnitude 634 309

/-!
## Written numbers

* An integral number below `9.2e18` is written as an integer, a zero without its sign.
* Any other finite number is written with the fewest digits that read back, in positional or
  scientific notation, whichever is shorter, positional if both are equally long. An exponent
  has a sign and at least two digits. Positional notation of a large number is exact.
* Infinities are `inf` and `-inf`; a NaN of any sign and payload is `nan`.
-/

/-- The first magnitude, in units, that is not written as a plain integer. -/
def plainLimit : Nat := 9200000000000000000 * unitsPerOne

/-- A power of ten behind the letter `e`: a sign and at least two digits. -/
def exponentText (exponent : Int) : Text :=
  let digits := decimalText exponent.natAbs
  101 :: (if exponent < 0 then 45 else 43) :: (if digits.length < 2 then 48 :: digits else digits)

/-- Scientific notation of `digits * 10 ^ exponent`: one digit before the point. -/
def scientificText (digits : Text) (exponent : Int) : Text :=
  let lead := digits.take 1
  let rest := digits.drop 1
  lead ++ (if rest.isEmpty then [] else 46 :: rest) ++ exponentText (exponent + rest.length)

/-- Positional notation of `digits * 10 ^ (-places)` for at least one place. -/
def fractionText (digits : Text) (places : Nat) : Text :=
  if places < digits.length then
    digits.take (digits.length - places) ++ 46 :: digits.drop (digits.length - places)
  else utf8 "0." ++ List.replicate (places - digits.length) 48 ++ digits

/-- Positional notation of `digits * 10 ^ exponent` is at most as long as scientific
notation. -/
def isPositional (length : Nat) (exponent : Int) : Bool :=
  if length = 1 then -3 ≤ exponent && exponent ≤ 4
  else -(length + 3 : Int) ≤ exponent && exponent ≤ 5

/-- The shortest text of the finite positive number with the given magnitude bits. -/
def shortestText (magnitude : Nat) : Text :=
  let (value, exponent) := shortest magnitude
  let digits := decimalText value
  if isPositional digits.length exponent then
    if exponent < 0 then fractionText digits exponent.natAbs
    else decimalText (unitsOfBits magnitude / unitsPerOne)
  else scientificText digits exponent

/-- The text of a number. -/
def text (d : Double) : Text :=
  if d.isNaN then utf8 "nan"
  else if d.isInfinite then (if d.negative then utf8 "-inf" else utf8 "inf")
  else if d.isIntegral && unitsOfBits d.magnitudeBits < plainLimit then
    integerText (d.units.tdiv unitsPerOne)
  else if d.negative then 45 :: shortestText d.magnitudeBits
  else shortestText d.magnitudeBits

end DynExpr.Double
