import DynExpr.Double
import DynExpr.Failure
import DynExpr.Value.Equality

/-!
# Meanings of values for operators

Operators look at values through three coercions: the number for arithmetic, where a truth
value counts as one or zero; the integer for ranges and indices, where it does not; and the
text of strings and windows.

* `Value.numeric?`, `Value.integer?` and `Value.text?` are these coercions.
* `add` adds numbers and joins texts and sequences.
* `equalValues` is structural equality where the values can be compared, and an error where
  they cannot.
* `makeRange` and `makePartialRange` build ranges from bounds.
-/

namespace DynExpr

variable {ω : Type}

namespace Value

/-- The number of a value for arithmetic. -/
def numeric? : Value ω → Option Double
  | bool flag => some (Double.ofBool flag)
  | v => v.number?.map Number.toDouble

/-- The magnitude up to which a double has an integer part for ranges and indices. -/
def integerLimit : Int := 9200000000000000000

/-- The integer of a number for ranges and indices: a double is cut toward zero, and a number
out of range has none. -/
def integer? : Value ω → Option Int64
  | int64 n => some n
  | uint64 n => if n.toNat < 0x8000000000000000 then some n.toInt64 else none
  | double x =>
    match x.integerPart? with
    | some n => if -integerLimit ≤ n ∧ n ≤ integerLimit then some (Int64.ofInt n) else none
    | none => none
  | _ => none

/-- The value is a slice. -/
def isSlice : Value ω → Bool
  | slice _ => true
  | _ => false

end Value

/-! ### Sums -/

/-- Adds two values. In this order: two doubles are added; a text is joined with the text of
any other value but nil, on either side; two sequences are joined, to a slice if either is
one; two numeric values are added as doubles. -/
def add [Host ω] (symbol : Symbol) (a b : Value ω) : Except (Error ω) (Value ω) :=
  let mismatch : Except (Error ω) (Value ω) := .error (.typeMismatch symbol [a, b])
  match a, b with
  | .double x, .double y => .ok (.double (x.add y))
  | a, b =>
    match a.text?, b.text? with
    | some s, _ => if b.isNil then mismatch else .ok (.string (s ++ b.describe))
    | none, some t => if a.isNil then mismatch else .ok (.string (a.describe ++ t))
    | none, none =>
      match a.elements?, b.elements? with
      | some xs, some ys =>
        .ok (if a.isSlice || b.isSlice then .slice (xs ++ ys) else .array (xs ++ ys))
      | _, _ =>
        match a.numeric?, b.numeric? with
        | some x, some y => .ok (.double (x.add y))
        | _, _ => mismatch

/-! ### Equality -/

/-- The classes of values within which values are compared. -/
inductive Category
  | nil
  | number
  | boolean
  | text
  | character
  | index
  | intRange
  | indexRange
  | sequence
  | dictionary
  | tuple
  | object
deriving DecidableEq

/-- The class of a value. -/
def Value.category : Value ω → Category
  | .nil | .null => .nil
  | .double _ | .int64 _ | .uint64 _ => .number
  | .bool _ => .boolean
  | .string _ | .substring _ => .text
  | .character _ => .character
  | .index _ => .index
  | .intRange _ => .intRange
  | .indexRange _ => .indexRange
  | .array _ | .slice _ => .sequence
  | .dictionary _ _ => .dictionary
  | .tuple _ => .tuple
  | .object _ => .object

/-- The class is one of single values, not of containers. -/
def Category.isScalar : Category → Bool
  | .sequence | .dictionary | .tuple => false
  | _ => true

/-- Tuples can be compared if they have from two to six elements; all else can. -/
def Value.hasComparableSize : Value ω → Bool
  | .tuple elements => 2 ≤ elements.length && elements.length ≤ 6
  | _ => true

/-- Structural equality of values that can be compared. Nil can be compared with everything.
Other values must support structural comparison; single values of different classes are
unequal, and a container can only be compared with one of its class. -/
def equalValues [Host ω] (symbol : Symbol) (a b : Value ω) : Except (Error ω) Bool :=
  let mismatch : Except (Error ω) Bool := .error (.typeMismatch symbol [a, b])
  if a.isNil || b.isNil then .ok (a.isNil && b.isNil)
  else if !a.isHashable || !b.isHashable then mismatch
  else if a.category ≠ b.category then
    if a.category.isScalar && b.category.isScalar then .ok false else mismatch
  else if !a.hasComparableSize || !b.hasComparableSize then mismatch
  else .ok (a.equal b)

/-! ### Ranges -/

/-- The name of the operator of closed ranges. -/
def closedRangeName : Text := utf8 "..."

/-- The name of the operator of half-open ranges. -/
def halfOpenRangeName : Text := utf8 "..<"

/-- The range between two integers or two positions. The bounds must be in order, and those of
a half-open range must differ. -/
def makeRange (symbol : Symbol) (lower upper : Value ω) : Except (Error ω) (Value ω) :=
  let closed := symbol.name == closedRangeName
  let kind := if closed then RangeKind.closed else .halfOpen
  let mismatch : Except (Error ω) (Value ω) := .error (.typeMismatch symbol [lower, upper])
  match lower, upper with
  | .index low, .index high =>
    if (if closed then high < low else high ≤ low) then .error (.invalidIndexRange low high)
    else .ok (.indexRange ⟨kind, low, high⟩)
  | lower, upper =>
    match lower.integer?, upper.integer? with
    | some low, some high =>
      if (if closed then high < low else high ≤ low) then .error (.invalidRange low high)
      else .ok (.intRange ⟨kind, low, high⟩)
    | _, _ => mismatch

/-- The shape of the range that a symbol builds from one bound: a prefix operator makes it the
upper one, excluded or included, and any other symbol the lower one. -/
def partialRangeKind : Symbol → RangeKind
  | .prefixOp name => if name = halfOpenRangeName then .upTo else .through
  | _ => .onward

/-- A range with one bound; the other is zero and without meaning. -/
def partialRange {β : Type} (zero : β) (kind : RangeKind) (bound : β) : Range β :=
  if kind = .onward then ⟨kind, bound, zero⟩ else ⟨kind, zero, bound⟩

/-- The range with one integer or position as its bound. -/
def makePartialRange (symbol : Symbol) (bound : Value ω) : Except (Error ω) (Value ω) :=
  let kind := partialRangeKind symbol
  match bound with
  | .index offset => .ok (.indexRange (partialRange 0 kind offset))
  | bound =>
    match bound.integer? with
    | some n => .ok (.intRange (partialRange 0 kind n))
    | none => .error (.typeMismatch symbol [bound])

end DynExpr
