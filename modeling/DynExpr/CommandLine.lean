import DynExpr.Double.Decimal
import DynExpr.Expression

/-!
# Arguments of the program

* an argument that begins with no dash, or is a dash alone, names the input, once;
* `-o` is followed by the path of a report;
* `-D` is followed by a constant, a name and a value with an equals sign between them;
* `--no-optimize`, `--pure` and `--no-bool` choose how expressions are compiled.

`CommandLine.parse` reads all arguments, up to the first one that is wrong.
-/

namespace DynExpr

/-- The host of the program has no objects of its own. -/
instance : Host Empty where
  typeName := nofun
  describe := nofun
  isHashable := nofun
  isEqual := nofun
  isSame := nofun
  hash := nofun
  hashDouble x := x.bits
  hashText text :=
    text.foldl (fun seed b => (seed ^^^ b.toUInt64) * (1099511628211 : UInt64)) 14695981039346656037
  hashBool flag := if flag then 1 else 0
  hashInteger n := n.toUInt64
  hashIndex n := n

/-- The arguments of a run. -/
structure CommandLine where
  input : Text
  output : Option Text
  constants : List (Text × Value Empty)
  options : Options

namespace CommandLine

/-- The name of the standard input. -/
def standardInput : Text := utf8 "-"

/-- A run without arguments. -/
def initial : CommandLine := ⟨standardInput, none, [], .standard⟩

/-- The value of a constant: a truth value or nil by name, a number if the whole text is one, a
text without its quotes, or the text itself. -/
def constantValue (text : Text) : Value Empty :=
  if text = utf8 "true" then .bool true
  else if text = utf8 "false" then .bool false
  else if text = utf8 "nil" then .nil
  else
    match Double.ofText? text with
    | some number => .double number
    | none => .string ((Text.unquoted? text).getD text)

/-- Splits the text of a constant at its first equals sign; the name must not be empty. -/
def splitConstant? (text : Text) : Option (Text × Text) :=
  let name := text.takeWhile (· != 61)
  match text.dropWhile (· != 61) with
  | _ :: value => if name.isEmpty then none else some (name, value)
  | [] => none

/-- The argument names an input. -/
def isInputName (argument : Text) : Bool :=
  argument == standardInput || argument.head?.any (· != 45)

/-- What is wrong with an argument. -/
inductive Fault
  | missingValue (argument : Text)
  | badConstant (text : Text)
  | unknown (argument : Text)

/-- The wording of a fault. -/
def Fault.text : Fault → Text
  | missingValue argument => utf8 "Не указано значение для " ++ argument
  | badConstant text => utf8 "Константа должна иметь вид имя=значение: " ++ text
  | unknown argument => utf8 "Неизвестный аргумент: " ++ argument

/-- Reads arguments into a command line, given whether the input has been named already. -/
def read (line : CommandLine) (inputNamed : Bool) : List Text → Except Fault CommandLine
  | [] => .ok line
  | argument :: rest =>
    if argument = utf8 "-o" then
      match rest with
      | [] => .error (.missingValue argument)
      | path :: rest => read { line with output := some path } inputNamed rest
    else if argument = utf8 "-D" then
      match rest with
      | [] => .error (.missingValue argument)
      | text :: rest =>
        match splitConstant? text with
        | none => .error (.badConstant text)
        | some (name, value) =>
          read { line with constants := (name, constantValue value) :: line.constants } inputNamed
            rest
    else if argument = utf8 "--no-optimize" then
      read { line with options := { line.options with unfolded := true } } inputNamed rest
    else if argument = utf8 "--pure" then
      read { line with options := { line.options with pureSymbols := true } } inputNamed rest
    else if argument = utf8 "--no-bool" then
      read { line with options := { line.options with logic := false } } inputNamed rest
    else if !inputNamed && isInputName argument then read { line with input := argument } true rest
    else .error (.unknown argument)

/-- Reads all arguments. -/
def parse (arguments : List Text) : Except Fault CommandLine := read initial false arguments

/-- The first argument asks for help. -/
def asksForHelp (arguments : List Text) : Bool :=
  match arguments with
  | [] => false
  | first :: _ => first == utf8 "-h" || first == utf8 "--help"

end CommandLine

end DynExpr
