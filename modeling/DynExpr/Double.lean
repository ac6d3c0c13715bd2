/-!
# Binary double precision

A `Double` is a 64-bit pattern of IEEE 754 binary64: a sign, an exponent of eleven bits and
a fraction of fifty-two. Keeping the bits, and not an abstract number, keeps what the bits
can carry beside a number: the payload of a NaN and the sign of a zero.

Every finite double is an integer multiple of the smallest positive one, `2 ^ (-1074)`. So
the exact value of a double is an *integer*, `Double.units`, and all arithmetic can be done
exactly on integers before one rounding at the end. An infinity has the units that the next
binade would start with, so that comparing units also orders the infinities.

* `Double.units` is the value in units of `2 ^ (-1074)`.
* `Double.equal`, `Double.less`, `Double.lessOrEqual` compare numbers; a NaN compares with
  nothing, and the two zeros are equal.
* `Double.neg` and `Double.abs` act on the sign bit alone, of NaNs too.
-/

namespace DynExpr

/-- A number of binary double precision, as its bits. -/
structure Double where
  bits : UInt64
deriving DecidableEq

namespace Double

/-! ### Parts -/

/-- The bits below the sign: an order-preserving code of the magnitude. -/
def magnitudeBits (d : Double) : Nat := d.bits.toNat % 0x8000000000000000

/-- The sign bit. -/
def negative (d : Double) : Bool := 0x8000000000000000 ≤ d.bits.toNat

/-- The magnitude bits of an infinity: above those of every finite number and below those of
every NaN. -/
def infinityBits : Nat := 0x7FF0000000000000

/-- Builds a double from its sign and its magnitude bits. -/
def ofParts (negative : Bool) (magnitude : Nat) : Double :=
  ⟨UInt64.ofNat (if negative then 0x8000000000000000 + magnitude else magnitude)⟩

/-- The pattern is no number. -/
def isNaN (d : Double) : Bool := infinityBits < d.magnitudeBits

/-- The pattern is an infinity of either sign. -/
def isInfinite (d : Double) : Bool := d.magnitudeBits == infinityBits

/-- The pattern is a finite number. -/
def isFinite (d : Double) : Bool := d.magnitudeBits < infinityBits

/-- The pattern is a zero of either sign. -/
def isZero (d : Double) : Bool := d.magnitudeBits == 0

/-- The number of fractions: two to the power 52. -/
def fractionSize : Nat := 0x10000000000000

/-- The magnitude that magnitude bits stand for, in units of `2 ^ (-1074)`: below `2 ^ 52`
the bits are the magnitude, above it they are a fraction with a hidden bit, scaled by the
exponent. -/
def unitsOfBits (magnitude : Nat) : Nat :=
  if magnitude < fractionSize then magnitude
  else (fractionSize + magnitude % fractionSize) * Nat.pow 2 (magnitude / fractionSize - 1)

/-- The number of units of `2 ^ (-1074)` in one. -/
def unitsPerOne : Nat := Nat.pow 2 1074

/-- The value in units of `2 ^ (-1074)`. -/
def units (d : Double) : Int :=
  if d.negative then -(unitsOfBits d.magnitudeBits : Int) else unitsOfBits d.magnitudeBits

/-! ### Constants -/

/-- Positive zero. -/
def zero : Double := ⟨0⟩

/-- The number one. -/
def one : Double := ⟨0x3FF0000000000000⟩

/-- The double nearest to the circle's ratio. -/
def pi : Double := ⟨0x400921FB54442D18⟩

/-- An infinity of the given sign. -/
def infinity (negative : Bool) : Double := ofParts negative infinityBits

/-- The NaN that an invalid operation yields: quiet, negative and without payload. -/
def invalid : Double := ⟨0xFFF8000000000000⟩

/-- A NaN made quiet; its sign and payload are kept. -/
def quiet (d : Double) : Double := ⟨d.bits ||| 0x0008000000000000⟩

/-- One for true, zero for false. -/
def ofBool (flag : Bool) : Double := if flag then one else zero

/-! ### Sign -/

/-- Flips the sign bit. -/
def neg (d : Double) : Double := ⟨d.bits ^^^ 0x8000000000000000⟩

/-- Clears the sign bit. -/
def abs (d : Double) : Double := ⟨d.bits &&& 0x7FFFFFFFFFFFFFFF⟩

/-! ### Comparison -/

/-- Numeric equality: false if either side is a NaN. -/
def equal (a b : Double) : Bool := !a.isNaN && !b.isNaN && a.units == b.units

/-- Numeric order: false if either side is a NaN. -/
def less (a b : Double) : Bool := !a.isNaN && !b.isNaN && a.units < b.units

/-- Numeric order or equality: false if either side is a NaN. -/
def lessOrEqual (a b : Double) : Bool := !a.isNaN && !b.isNaN && a.units ≤ b.units

end Double

/-!
## Rounding to nearest

An exact result is a ratio of natural numbers in units of the smallest positive number of a
binary format. It is rounded to the nearest member of the format, a tie going to the even
neighbour, and to infinity beyond the largest.

The encoding makes this short: with the exponent step `k` and the rounded significand `m`,
the magnitude bits are `k * 2 ^ (p - 1) + m`, for subnormal numbers and for a significand
that rounding carried up to the next power of two alike.

* `roundHalfEven` rounds a ratio to an integer.
* `nearestBits` rounds a ratio to the magnitude bits of a format.
* `Double.ofRatio`, `Double.ofInt` and `Double.singleBits` are its instances.
-/

/-- The integer nearest to `num / den`, the even one of two that are equally near. -/
def roundHalfEven (num den : Nat) : Nat :=
  let floor := num / den
  let rest := num % den
  if 2 * rest < den then floor
  else if den < 2 * rest then floor + 1
  else floor + floor % 2

/-- The magnitude bits nearest to `num / den` units of a format whose significands have
`precision` bits, at most the bits of its infinity. -/
def nearestBits (precision infinity num den : Nat) : Nat :=
  let step := (num / den).log2 + 1 - precision
  min (step * Nat.pow 2 (precision - 1) + roundHalfEven num (den * Nat.pow 2 step)) infinity

namespace Double

/-- The double nearest to `num / den` units of `2 ^ (-1074)`, with the given sign. -/
def ofRatio (negative : Bool) (num den : Nat) : Double :=
  ofParts negative (nearestBits 53 infinityBits num den)

/-- The double nearest to an integer. -/
def ofInt (n : Int) : Double := ofRatio (n < 0) (n.natAbs * unitsPerOne) 1

/-- The double nearest to a natural number. -/
def ofNat (n : Nat) : Double := ofInt n

/-! ### Single precision -/

/-- The bits of the number of single precision nearest to `num / den` units of
`2 ^ (-149)`, with the given sign. -/
def singleOfRatio (negative : Bool) (num den : Nat) : UInt32 :=
  let magnitude := nearestBits 24 0x7F800000 num den
  UInt32.ofNat (if negative then 0x80000000 + magnitude else magnitude)

/-- The bits of the number of single precision nearest to an integer. -/
def singleOfInt (n : Int) : UInt32 := singleOfRatio (n < 0) (n.natAbs * Nat.pow 2 149) 1

/-- The bits of the number of single precision nearest to a double; a NaN stays one. -/
def singleBits (d : Double) : UInt32 :=
  if d.isNaN then 0x7FC00000
  else singleOfRatio d.negative (unitsOfBits d.magnitudeBits) (Nat.pow 2 925)

end Double

end DynExpr

/-!
## Arithmetic of doubles

Each operation computes its exact result on integers and rounds once. Where an operand is a
NaN, the result is that operand made quiet, so that sign and payload survive; of two NaNs the
first one wins, but in a product the second. An operation without a result, such as `0 / 0`,
yields `Double.invalid`.
-/

namespace DynExpr.Double

/-- The magnitude in units of `2 ^ (-1074)`. -/
def size (d : Double) : Nat := unitsOfBits d.magnitudeBits

/-- Passes NaNs through an operation on numbers: the first NaN wins. -/
def onNumbers (operation : Double → Double → Double) (a b : Double) : Double :=
  if a.isNaN then a.quiet else if b.isNaN then b.quiet else operation a b

/-- A sum. An exact zero is negative only if both operands are negative. -/
def add : Double → Double → Double := onNumbers fun a b =>
  if a.isInfinite then (if b.isInfinite && a.negative != b.negative then invalid else a)
  else if b.isInfinite then b
  else
    let sum := a.units + b.units
    if sum = 0 then ofParts (a.negative && b.negative) 0
    else ofRatio (sum < 0) sum.natAbs 1

/-- A difference: the sum with the opposite. -/
def sub : Double → Double → Double := onNumbers fun a b => add a b.neg

/-- A product. Of two NaNs the second one wins. -/
def mul (a b : Double) : Double :=
  onNumbers (fun b a =>
    let negative := a.negative != b.negative
    if a.isInfinite || b.isInfinite then
      (if a.isZero || b.isZero then invalid else infinity negative)
    else ofRatio negative (a.size * b.size) unitsPerOne) b a

/-- A quotient; a number other than zero over zero is an infinity. -/
def div : Double → Double → Double := onNumbers fun a b =>
  let negative := a.negative != b.negative
  if a.isInfinite then (if b.isInfinite then invalid else infinity negative)
  else if b.isInfinite then ofParts negative 0
  else if b.isZero then (if a.isZero then invalid else infinity negative)
  else ofRatio negative (a.size * unitsPerOne) b.size

/-- The remainder of the division cut toward zero, with the sign of the dividend. -/
def remainder : Double → Double → Double := onNumbers fun a b =>
  if a.isInfinite || b.isZero then invalid
  else if b.isInfinite then a
  else ofRatio a.negative (a.size % b.size) 1

/-- The square root. The root of the exact radicand is cut to an integer that has hundreds of
bits more than a significand; one further bit tells whether anything was cut off, which is
all that rounding can ask. -/
def sqrt (d : Double) : Double :=
  if d.isNaN then d.quiet
  else if d.isZero then d
  else if d.negative then invalid
  else if d.isInfinite then d
  else
    let radicand := d.size * unitsPerOne
    let root := radicand.sqrt
    ofRatio false (2 * root + (if root * root < radicand then 1 else 0)) 2

/-!
## Integers among the doubles

* `Double.integerPart?` is the exact integer part of a finite double, cut toward zero.
* `Double.truncate`, `Double.floor`, `Double.ceiling` and `Double.round` are the neighbouring
  integral doubles; the sign is kept even when the result is zero, and `round` sends a half
  away from zero.
-/

/-- The integer part of a finite double, cut toward zero. -/
def integerPart? (d : Double) : Option Int :=
  if d.isFinite then some (d.units.tdiv unitsPerOne) else none

/-- The double is finite and has no fractional part. -/
def isIntegral (d : Double) : Bool :=
  d.isFinite && unitsOfBits d.magnitudeBits % unitsPerOne == 0

/-- Replaces a finite double by an integer chosen from its units, keeping the sign. An
infinity stays as it is and a NaN becomes quiet. -/
def mapToInteger (choose : Int → Int) (d : Double) : Double :=
  if d.isNaN then d.quiet
  else if d.isInfinite then d
  else ofRatio d.negative ((choose d.units).natAbs * unitsPerOne) 1

/-- The integral double next toward zero. -/
def truncate (d : Double) : Double := mapToInteger (·.tdiv unitsPerOne) d

/-- The greatest integral double not above. -/
def floor (d : Double) : Double := mapToInteger (·.fdiv unitsPerOne) d

/-- The least integral double not below. -/
def ceiling (d : Double) : Double := mapToInteger (fun u => -((-u).fdiv unitsPerOne)) d

/-- The nearest integral double, a half going away from zero. -/
def round (d : Double) : Double :=
  mapToInteger (fun u => (2 * u.natAbs + unitsPerOne) / (2 * unitsPerOne)) d

/-!
## Elementary functions

Trigonometric and exponential functions are the machine's. Only numbers are handed to it: a
NaN operand is answered here, quiet and with its payload, and a NaN that the machine answers
is `Double.invalid`.
-/

/-- The machine's number with these bits. -/
def toMachine (d : Double) : Float := Float.ofBits d.bits

/-- The bits of a machine number. -/
def ofMachine (x : Float) : Double := if x.isNaN then invalid else ⟨x.toBits⟩

/-- A function of the machine at one number. -/
def elementary (f : Float → Float) (d : Double) : Double :=
  if d.isNaN then d.quiet else ofMachine (f d.toMachine)

/-- The sine. -/
def sin : Double → Double := elementary Float.sin
/-- The cosine. -/
def cos : Double → Double := elementary Float.cos
/-- The tangent. -/
def tan : Double → Double := elementary Float.tan
/-- The cotangent, as the reciprocal of the tangent. -/
def cotan (d : Double) : Double := div one d.tan
/-- The inverse sine. -/
def asin : Double → Double := elementary Float.asin
/-- The inverse cosine. -/
def acos : Double → Double := elementary Float.acos
/-- The inverse tangent. -/
def atan : Double → Double := elementary Float.atan
/-- The natural logarithm. -/
def log : Double → Double := elementary Float.log
/-- The exponential function. -/
def exp : Double → Double := elementary Float.exp

/-- A signalling NaN: one whose quiet bit is clear. -/
def isSignalling (d : Double) : Bool := d.isNaN && d.quiet != d

/-- A finite double is an odd integer. -/
def isOddInteger (d : Double) : Bool :=
  d.isIntegral && unitsOfBits d.magnitudeBits / unitsPerOne % 2 == 1

/-- A power. One to any power and any number to the power zero is one, whatever the other
operand is, a signalling NaN excepted. An odd power keeps the sign of its base apart and gives it
to the result by a change of sign, so that of a negative NaN comes a positive one. -/
def pow (a b : Double) : Double :=
  if a == one && !b.isSignalling then one
  else if b.isZero && !a.isSignalling then one
  else if a.isNaN && a.negative && b.isOddInteger then a.quiet.neg
  else onNumbers (fun a b => ofMachine (Float.pow a.toMachine b.toMachine)) a b

/-- The angle of the point with ordinate `y` and abscissa `x`; of two NaNs the abscissa
wins. -/
def atan2 (y x : Double) : Double :=
  if x.isNaN then x.quiet
  else if y.isNaN then y.quiet
  else ofMachine (Float.atan2 y.toMachine x.toMachine)

end DynExpr.Double
