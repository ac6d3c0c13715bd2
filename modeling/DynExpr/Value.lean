import DynExpr.Double.Decimal

/-!
# Values

What an expression computes with. A value says itself what it is, and nothing is known about
it before: nil, truth values, three representations of numbers, texts and windows into texts,
characters and positions, ranges, arrays and their slices, dictionaries, tuples, and objects
of the host, of which only the operations of `Host` are known.

* `Value.isNil`, `Value.number?`, `Value.text?`, `Value.elements?` and `Value.entries?` are the
  views through which operations look at a value. Strings and windows are both texts, arrays
  and slices are both sequences.
* `Value.typeName` is the name of a value's type in messages.
* `Value.isHashable` says whether a value supports structural comparison.
-/

namespace DynExpr

/-! ### The host's part -/

/-- What the host provides: the operations of its objects, and the hash functions of the
basic types, about which nothing is assumed. `isEqual` compares two hashable objects and
`isSame` is the identity of objects. -/
class Host (ω : Type) where
  typeName : ω → Text
  describe : ω → Text
  isHashable : ω → Bool
  isEqual : ω → ω → Bool
  isSame : ω → ω → Bool
  hash : ω → UInt64
  hashDouble : Double → UInt64
  hashText : Text → UInt64
  hashBool : Bool → UInt64
  hashInteger : Int64 → UInt64
  hashIndex : UInt64 → UInt64

/-! ### Windows and ranges -/

/-- A window into a text: the bytes of `base` from `start` up to `stop`. Positions in the
window are positions in the base. -/
structure Substring where
  base : Text
  start : Nat
  stop : Nat
  start_le_stop : start ≤ stop
  stop_le_length : stop ≤ base.length
deriving DecidableEq

namespace Substring

/-- The window of given bounds, if they are in order and inside the base. -/
def window? (base : Text) (start stop : Nat) : Option Substring :=
  if h : start ≤ stop ∧ stop ≤ base.length then some ⟨base, start, stop, h.1, h.2⟩ else none

/-- The window that is the whole text. -/
def whole (text : Text) : Substring := ⟨text, 0, text.length, Nat.zero_le _, Nat.le_refl _⟩

/-- The bytes in the window. -/
def text (s : Substring) : Text := (s.base.drop s.start).take (s.stop - s.start)

end Substring

/-- The five shapes of a range: with both bounds, the upper one included or not, and with one
bound: a lower one, an excluded upper one, an included upper one. -/
inductive RangeKind
  | closed
  | halfOpen
  | onward
  | upTo
  | through
deriving DecidableEq

/-- A range. The bound that a shape does not have is without meaning. -/
structure Range (β : Type) where
  kind : RangeKind
  lower : β
  upper : β
deriving DecidableEq

/-- What the keys of a dictionary are. -/
inductive KeyKind
  | number
  | string
  | boolean
  | any
deriving DecidableEq

/-! ### Values -/

/-- A value, with objects of the host type `ω`. -/
inductive Value (ω : Type)
  | nil
  | null
  | bool (flag : Bool)
  | double (number : Double)
  | int64 (number : Int64)
  | uint64 (number : UInt64)
  | string (text : Text)
  | substring (window : Substring)
  | character (text : Text)
  | index (offset : UInt64)
  | intRange (range : Range Int64)
  | indexRange (range : Range UInt64)
  | array (elements : List (Value ω))
  | slice (elements : List (Value ω))
  | dictionary (keys : KeyKind) (entries : List (Value ω × Value ω))
  | tuple (elements : List (Value ω))
  | object (object : ω)

/-! ### Numbers -/

/-- A number in one of its three representations. -/
inductive Number
  | double (value : Double)
  | int64 (value : Int64)
  | uint64 (value : UInt64)
deriving DecidableEq

namespace Number

/-- The double nearest to a number. -/
def toDouble : Number → Double
  | double value => value
  | int64 value => Double.ofInt value.toInt
  | uint64 value => Double.ofNat value.toNat

/-- The integer that a number is represented as, if it is represented as one. -/
def integer? : Number → Option Int
  | double _ => none
  | int64 value => some value.toInt
  | uint64 value => some value.toNat

/-- Numbers are equal if they have the same value. Integers are compared exactly; where a
double takes part, an integer is first rounded to a double. -/
def equal (a b : Number) : Bool :=
  match a.integer?, b.integer? with
  | some m, some n => m == n
  | _, _ => a.toDouble.equal b.toDouble

end Number

namespace Value

variable {ω : Type}

/-! ### Views -/

/-- The value is nil, or the null of the host, which behaves like nil. -/
def isNil : Value ω → Bool
  | nil | null => true
  | _ => false

/-- The number that a value is. A truth value is none. -/
def number? : Value ω → Option Number
  | double x => some (.double x)
  | int64 n => some (.int64 n)
  | uint64 n => some (.uint64 n)
  | _ => none

/-- The text that a value is: a string or a window. -/
def text? : Value ω → Option Text
  | string text => some text
  | substring window => some window.text
  | _ => none

/-- The elements of an array or a slice. -/
def elements? : Value ω → Option (List (Value ω))
  | array elements => some elements
  | slice elements => some elements
  | _ => none

/-- The entries of a dictionary. -/
def entries? : Value ω → Option (List (Value ω × Value ω))
  | dictionary _ entries => some entries
  | _ => none

/-! ### Types -/

/-- The name of a range type, given the name of the type of its bounds. -/
def rangeTypeName (kind : RangeKind) (bound : Text) : Text :=
  (match kind with
  | .closed => utf8 "ClosedRange<"
  | .halfOpen => utf8 "Range<"
  | .onward => utf8 "PartialRangeFrom<"
  | .upTo => utf8 "PartialRangeUpTo<"
  | .through => utf8 "PartialRangeThrough<") ++ bound ++ utf8 ">"

/-- The name of a value's type. -/
def typeName [Host ω] : Value ω → Text
  | nil => utf8 "nil"
  | null => utf8 "Null"
  | bool _ => utf8 "Bool"
  | double _ => utf8 "Double"
  | int64 _ => utf8 "Int64"
  | uint64 _ => utf8 "UInt64"
  | string _ => utf8 "String"
  | substring _ => utf8 "Substring"
  | character _ => utf8 "Character"
  | index _ => utf8 "String.Index"
  | intRange range => rangeTypeName range.kind (utf8 "Int")
  | indexRange range => rangeTypeName range.kind (utf8 "String.Index")
  | array _ => utf8 "Array"
  | slice _ => utf8 "ArraySlice"
  | dictionary _ _ => utf8 "Dictionary"
  | tuple _ => utf8 "Tuple"
  | object o => Host.typeName o

/-! ### Hashability -/

mutual
/-- The value supports structural comparison: no object in it, other than inside a key, lacks
it. -/
def isHashable [Host ω] : Value ω → Bool
  | array elements => allHashable elements
  | slice elements => allHashable elements
  | tuple elements => allHashable elements
  | dictionary _ entries => allValuesHashable entries
  | object o => Host.isHashable o
  | _ => true

/-- All values of a list support structural comparison. -/
def allHashable [Host ω] : List (Value ω) → Bool
  | [] => true
  | v :: rest => isHashable v && allHashable rest

/-- All values of a dictionary support structural comparison. -/
def allValuesHashable [Host ω] : List (Value ω × Value ω) → Bool
  | [] => true
  | (_, v) :: rest => isHashable v && allValuesHashable rest
end

end Value

end DynExpr

/-!
## Values as text

A value by itself is written plainly: a string is its contents. Inside a container texts and
characters stand in double quotes, without escapes, so that they can be told from other
elements.

* `Value.describe` is the text of a value.
-/

namespace DynExpr.Value

variable {ω : Type}

/-- The text of a position in a string. -/
def indexText (offset : UInt64) : Text :=
  utf8 "String.Index(" ++ decimalText offset.toNat ++ utf8 ")"

/-- The text of a range, given the text of its bounds. -/
def rangeText {β : Type} (boundText : β → Text) (range : Range β) : Text :=
  match range.kind with
  | .closed => boundText range.lower ++ utf8 "..." ++ boundText range.upper
  | .halfOpen => boundText range.lower ++ utf8 "..<" ++ boundText range.upper
  | .onward => boundText range.lower ++ utf8 "..."
  | .upTo => utf8 "..<" ++ boundText range.upper
  | .through => utf8 "..." ++ boundText range.upper

/-- Whether a value is put in quotes inside a container. -/
def isQuoted : Value ω → Bool
  | string _ | substring _ | character _ => true
  | _ => false

/-- A text as an element of a container. -/
def elementText (v : Value ω) (text : Text) : Text :=
  if v.isQuoted then 34 :: (text ++ [34]) else text

mutual
/-- The text of a value. -/
def describe [Host ω] : Value ω → Text
  | nil | null => utf8 "nil"
  | bool flag => if flag then utf8 "true" else utf8 "false"
  | double x => x.text
  | int64 n => integerText n.toInt
  | uint64 n => decimalText n.toNat
  | string text => text
  | substring window => window.text
  | character text => text
  | index offset => indexText offset
  | intRange range => rangeText (fun n => integerText n.toInt) range
  | indexRange range => rangeText indexText range
  | array elements => utf8 "[" ++ Text.join (utf8 ", ") (describeAll elements) ++ utf8 "]"
  | slice elements => utf8 "[" ++ Text.join (utf8 ", ") (describeAll elements) ++ utf8 "]"
  | dictionary _ entries =>
    if entries.isEmpty then utf8 "[:]"
    else utf8 "[" ++ Text.join (utf8 ", ") (describeEntries entries) ++ utf8 "]"
  | tuple elements => utf8 "(" ++ Text.join (utf8 ", ") (describeAll elements) ++ utf8 ")"
  | object o => Host.describe o

/-- The texts of the elements of a container. -/
def describeAll [Host ω] : List (Value ω) → List Text
  | [] => []
  | v :: rest => elementText v v.describe :: describeAll rest

/-- The texts of the entries of a dictionary. -/
def describeEntries [Host ω] : List (Value ω × Value ω) → List Text
  | [] => []
  | (k, v) :: rest =>
    (elementText k k.describe ++ utf8 ": " ++ elementText v v.describe) :: describeEntries rest
end

end DynExpr.Value
