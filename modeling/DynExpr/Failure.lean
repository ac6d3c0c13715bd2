import DynExpr.Symbol
import DynExpr.Token
import DynExpr.Value

/-!
# Failures

An error says what went wrong with which symbol and which values; its wording follows from
that. Besides errors, an evaluation can end with an exception of the host.

* `Error` is the cause, `Error.message` its wording, `Error.symbol?` and `Error.values` what it
  is about.
* `Failure` is an error or an exception. `Failure.missingOperand` is the answer of an operator
  that is applied to fewer operands than it reads.
-/

namespace DynExpr

/-- What went wrong in reading or evaluating an expression. -/
inductive Error (ω : Type)
  | unexpectedToken (token : Text)
  | undefinedSymbol (symbol : Symbol)
  | arityMismatch (symbol : Symbol)
  | typeMismatch (symbol : Symbol) (arguments : List (Value ω))
  | arrayBounds (symbol : Symbol) (index : Double)
  | stringBounds (text : Text) (offset : Int64)
  | invalidRange (lower upper : Int64)
  | invalidIndexRange (lower upper : UInt64)
  | illegalSubscript (symbol : Symbol) (value : Value ω)
  | resultTypeMismatch (typeName : Text) (value : Value ω)
  | message (text : Text)

/-- The kinds of errors. -/
inductive ErrorKind
  | unexpectedToken
  | undefinedSymbol
  | arityMismatch
  | typeMismatch
  | arrayBounds
  | stringBounds
  | invalidRange
  | illegalSubscript
  | resultTypeMismatch
  | message
deriving DecidableEq

namespace Error

variable {ω : Type}

/-- The kind of an error. -/
def kind : Error ω → ErrorKind
  | unexpectedToken _ => .unexpectedToken
  | undefinedSymbol _ => .undefinedSymbol
  | arityMismatch _ => .arityMismatch
  | typeMismatch _ _ => .typeMismatch
  | arrayBounds _ _ => .arrayBounds
  | stringBounds _ _ => .stringBounds
  | invalidRange _ _ => .invalidRange
  | invalidIndexRange _ _ => .invalidRange
  | illegalSubscript _ _ => .illegalSubscript
  | resultTypeMismatch _ _ => .resultTypeMismatch
  | message _ => .message

/-- The symbol that an error is about. -/
def symbol? : Error ω → Option Symbol
  | undefinedSymbol symbol => some symbol
  | arityMismatch symbol => some symbol
  | typeMismatch symbol _ => some symbol
  | arrayBounds symbol _ => some symbol
  | illegalSubscript symbol _ => some symbol
  | _ => none

/-- The values that an error is about. -/
def values : Error ω → List (Value ω)
  | typeMismatch _ arguments => arguments
  | arrayBounds _ index => [.double index]
  | stringBounds text offset => [.string text, .int64 offset]
  | invalidRange lower upper => [.int64 lower, .int64 upper]
  | invalidIndexRange lower upper => [.index lower, .index upper]
  | illegalSubscript _ value => [value]
  | resultTypeMismatch _ value => [value]
  | _ => []

/-! ### Wording -/

/-- The type of a value as messages name it; null counts as nil. -/
def typeText [Host ω] (value : Value ω) : Text :=
  if value.isNil then utf8 "nil" else value.typeName

/-- A symbol in angle quotes. -/
def symbolText (symbol : Symbol) : Text := utf8 "«" ++ symbol.describe ++ utf8 "»"

/-- The wording for arguments that a symbol cannot be applied to. A subscript blames the
index, an equality of two values of one type asks for comparable values, and all else lists
the types of the arguments. -/
def typeMismatchText (symbol : Symbol) (types : List Text) : Text :=
  let general : Text :=
    match types with
    | [type] =>
      utf8 "Аргумент типа " ++ type ++ utf8 " несовместим с символом " ++ symbolText symbol
    | types =>
      utf8 "Аргументы типов (" ++ Text.join (utf8 ", ") types ++
        utf8 ") несовместимы с символом " ++ symbolText symbol
  match symbol, types with
  | .array name, type :: rest =>
    utf8 "Попытка индексации " ++ Symbol.escapeName name ++
      utf8 " индексом несовместимого типа " ++ rest.getLastD type
  | .infixOp name, [first, second] =>
    if name = Symbol.brackets then
      utf8 "Попытка индексации значения типа " ++ first ++
        utf8 " индексом несовместимого типа " ++ second
    else if (name = utf8 "==" ∨ name = utf8 "!=") ∧ first = second then
      utf8 "Аргументы символа " ++ symbolText symbol ++
        utf8 " должны поддерживать структурное сравнение (Hashable)"
    else general
  | _, _ => general

/-- The wording for a range whose bounds, given as texts, are out of order. -/
def invalidRangeText (exceeds : Bool) (lower upper : Text) : Text :=
  utf8 "Невозможно построить диапазон: верхняя граница " ++ upper ++ utf8 " " ++
    (if exceeds then utf8 "<" else utf8 "<=") ++ utf8 " нижней границы " ++ lower

/-- The wording of an error. -/
def text [Host ω] : Error ω → Text
  | unexpectedToken token =>
    if token.isEmpty then utf8 "Пустое выражение"
    else utf8 "Неожиданный токен «" ++ token ++ utf8 "»"
  | undefinedSymbol symbol => utf8 "Неопределённый символ: " ++ symbol.describe
  | arityMismatch symbol =>
    utf8 "Неверное число аргументов: " ++ symbol.describe ++ utf8 " ожидает " ++
      symbol.arity.describe
  | typeMismatch symbol arguments => typeMismatchText symbol (arguments.map typeText)
  | arrayBounds symbol index =>
    utf8 "Индекс " ++ index.text ++ utf8 " вне границ для символа " ++ symbolText symbol
  | stringBounds text offset =>
    utf8 "Индекс символа " ++ integerText offset.toInt ++ utf8 " вне границ строки " ++
      Text.quoted text
  | invalidRange lower upper =>
    invalidRangeText (upper < lower) (integerText lower.toInt) (integerText upper.toInt)
  | invalidIndexRange lower upper =>
    invalidRangeText (upper < lower) (Value.indexText lower) (Value.indexText upper)
  | illegalSubscript symbol value =>
    utf8 "Попытка индексации значения " ++
      (if symbol = .subscript then value.describe else symbol.escaped) ++
      utf8 " типа " ++ typeText value
  | resultTypeMismatch typeName value =>
    utf8 "Тип результата " ++ typeText value ++ utf8 " несовместим с ожидаемым типом " ++ typeName
  | message text => text

/-- Two errors count as equal if their kinds agree and their wordings do up to the first zero
byte. -/
def equal [Host ω] (a b : Error ω) : Bool :=
  a.kind == b.kind && Text.beforeZero a.text == Text.beforeZero b.text

end Error

/-! ### Exceptions of the host -/

/-- The kinds of exceptions that are not errors of an expression. -/
inductive ExceptionKind
  | outOfRange
  | invalidArgument
  | logic
  | runtime
deriving DecidableEq

/-- How an evaluation fails. -/
inductive Failure (ω : Type)
  | error (error : Error ω)
  | exception (kind : ExceptionKind) (text : Text)
  | missingOperand

namespace Failure

variable {ω : Type}

/-- The wording of a failure, up to its first zero byte. -/
def text [Host ω] : Failure ω → Text
  | error e => Text.beforeZero e.text
  | exception _ text => Text.beforeZero text
  | missingOperand => []

/-- The failure of reading an expression. -/
def ofSyntaxFault (fault : SyntaxFault) : Failure ω := error (.unexpectedToken fault.token)

/-- The failure of building a window whose bounds are not inside its base. -/
def badWindow : Failure ω :=
  exception .outOfRange (utf8 "Границы подстроки вне исходной строки")

/-- The failure of building a dictionary with a key that is not of its kind. -/
def badKey [Host ω] (key : Value ω) : Failure ω :=
  exception .invalidArgument
    (utf8 "Ключ типа " ++ key.typeName ++ utf8 " несовместим с типом ключей словаря")

end Failure

end DynExpr
