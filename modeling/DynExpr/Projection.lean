import DynExpr.Failure
import DynExpr.Value.Coercion

/-!
# Results of a wanted type

The host asks for a result of some type. A value *casts* to a type if it is of that type, or is
a number of another representation that the type can hold; a fraction is cut toward zero. Where
a value does not cast, some types take more: an optional type takes nil, a text type takes the
description of any value but nil, a truth value takes a number, and a number takes a truth value.

* `Target` is the wanted type, `Projected` a result.
* `Target.cast?` is the strict cast, which elements of arrays always need.
* `Target.project` is the whole conversion.
-/

namespace DynExpr

variable {ω : Type}

/-- An integer type of the host. -/
structure IntegerType where
  signed : Bool
  width : Nat
deriving DecidableEq

namespace IntegerType

/-- The least integer of the type. -/
def least (type : IntegerType) : Int :=
  if type.signed then -(Nat.pow 2 (type.width - 1) : Int) else 0

/-- The integer after the greatest one of the type. -/
def limit (type : IntegerType) : Int :=
  Nat.pow 2 (if type.signed then type.width - 1 else type.width)

/-- The integer is one of the type. -/
def holds (type : IntegerType) (n : Int) : Bool := type.least ≤ n && n < type.limit

/-- The name of the type. -/
def name (type : IntegerType) : Text :=
  (if type.signed then utf8 "Int" else utf8 "UInt") ++ decimalText type.width

end IntegerType

/-- A type that the host wants a result to be of. Objects are wanted as those that a test
accepts. -/
inductive Target (ω : Type)
  | value
  | bool
  | double
  | single
  | integer (type : IntegerType)
  | string
  | substring
  | character
  | index
  | intRange
  | indexRange
  | slice
  | dictionary
  | tuple
  | values
  | array (element : Target ω)
  | optional (inner : Target ω)
  | object (accepts : ω → Bool)

/-- A result of a wanted type. Single precision is given by its bits. -/
inductive Projected (ω : Type)
  | value (value : Value ω)
  | bool (flag : Bool)
  | double (number : Double)
  | single (bits : UInt32)
  | integer (n : Int)
  | text (text : Text)
  | values (elements : List (Value ω))
  | array (elements : List (Projected ω))
  | absent
  | present (inner : Projected ω)

namespace Target

/-- The name of a type in messages. -/
def name : Target ω → Text
  | value => utf8 "Value"
  | bool => utf8 "Bool"
  | double => utf8 "Double"
  | single => utf8 "Float"
  | integer type => type.name
  | string => utf8 "String"
  | substring => utf8 "Substring"
  | character => utf8 "Character"
  | index => utf8 "String.Index"
  | intRange => utf8 "Range<Int>"
  | indexRange => utf8 "Range<String.Index>"
  | slice => utf8 "ArraySlice"
  | dictionary => utf8 "Dictionary"
  | tuple => utf8 "Tuple"
  | values => utf8 "Array"
  | array element => utf8 "Array<" ++ element.name ++ utf8 ">"
  | optional inner => inner.name
  | object _ => utf8 "Object"

/-- The integer that a double is cut to, if the type holds it. The double is compared with the
limits of the type as doubles. -/
def castDouble? (type : IntegerType) (x : Double) : Option Int :=
  let truncated := x.truncate
  if !truncated.isFinite || truncated.less (.ofInt type.least) ||
      (Double.ofInt type.limit).lessOrEqual truncated then none
  else truncated.integerPart?

/-- The integer that a number is or is cut to, if the type holds it. -/
def castInteger? (type : IntegerType) : Number → Option Int
  | .double x => castDouble? type x
  | .int64 n => if type.holds n.toInt then some n.toInt else none
  | .uint64 n => if type.holds n.toNat then some (n.toNat : Int) else none

/-- The bits of the number of single precision nearest to a number. -/
def castSingle : Number → UInt32
  | .double x => x.singleBits
  | .int64 n => Double.singleOfInt n.toInt
  | .uint64 n => Double.singleOfInt n.toNat

/-- The strict cast of a value to a type. An array casts if all its elements do. -/
def cast? (target : Target ω) (v : Value ω) : Option (Projected ω) :=
  match target with
  | value => some (.value v)
  | bool => match v with | .bool flag => some (.bool flag) | _ => none
  | double => v.number?.map fun number => .double number.toDouble
  | single => v.number?.map fun number => .single (castSingle number)
  | integer type => (v.number?.bind (castInteger? type)).map .integer
  | string => v.text?.map .text
  | substring =>
    match v with
    | .substring _ => some (.value v)
    | .string text => some (.value (.substring (.whole text)))
    | _ => none
  | character => match v with | .character _ => some (.value v) | _ => none
  | index => match v with | .index _ => some (.value v) | _ => none
  | intRange => match v with | .intRange _ => some (.value v) | _ => none
  | indexRange => match v with | .indexRange _ => some (.value v) | _ => none
  | slice => v.elements?.map fun elements => .value (.slice elements)
  | dictionary => match v with | .dictionary _ _ => some (.value v) | _ => none
  | tuple => match v with | .tuple _ => some (.value v) | _ => none
  | values => v.elements?.map .values
  | array element => (v.elements?.bind fun elements => elements.mapM element.cast?).map .array
  | optional inner => if v.isNil then some .absent else (inner.cast? v).map .present
  | object accepts =>
    match v with
    | .object o => if accepts o then some (.value v) else none
    | _ => none

/-- What some types take besides the values that cast to them. -/
def convert? [Host ω] (target : Target ω) (v : Value ω) : Option (Projected ω) :=
  if v.isNil then none
  else
    match target, v with
    | string, v => some (.text v.describe)
    | substring, v => some (.value (.substring (.whole v.describe)))
    | bool, v => v.number?.map fun number =>
        .bool (match number with
          | .double x => !x.equal .zero
          | .int64 n => n != 0
          | .uint64 n => n != 0)
    | double, .bool flag => some (.double (Double.ofBool flag))
    | single, .bool flag => some (.single (Double.ofBool flag).singleBits)
    | integer _, .bool flag => some (.integer (if flag then 1 else 0))
    | _, _ => none

/-- Converts a value to a type. -/
def project [Host ω] (target : Target ω) (v : Value ω) : Except (Failure ω) (Projected ω) :=
  match target with
  | optional inner => if v.isNil then .ok .absent else (inner.project v).map .present
  | target =>
    match target.cast? v with
    | some result => .ok result
    | none =>
      match target.convert? v with
      | some result => .ok result
      | none => .error (.error (.resultTypeMismatch target.name v))

end Target

end DynExpr
