import DynExpr.Expression
import DynExpr.Failure
import DynExpr.Report.FileTree

/-!
# Reports

A report is a list of records, one for each line of the input. It is written into a file as a table
of comma-separated values, and shown on the terminal.

* `Record` is what became of one line.
* `Csv.create` and `Csv.append` write the table.
* `Console.record` and `Console.summary` are what is shown.
-/

/-!
## Records of evaluated lines

A report has one record for each line of its input: the number of the line, its text, the
text of the result if there is one, a status and a message.
-/

namespace DynExpr

/-- What became of one line. -/
structure Record where
  line : Nat
  expression : Text
  value : Option Text
  status : Text
  message : Text
deriving DecidableEq

namespace Record

/-- The status of a line with a result. -/
def successStatus : Text := utf8 "success"

/-- The status of a line without a result. -/
def errorStatus : Text := utf8 "error"

/-- The record of a line with a result. -/
def success (line : Nat) (expression value : Text) : Record :=
  ⟨line, expression, some value, successStatus, []⟩

/-- The record of a line without a result. -/
def failure (line : Nat) (expression message : Text) : Record :=
  ⟨line, expression, none, errorStatus, message⟩

end Record

end DynExpr

/-!
## Reports as comma-separated values

A report is a table with a heading and one line for each record. The texts that come from
outside stand in double quotes, a double quote among them written twice, so that they may hold
commas and line breaks. An absent result is an empty field without quotes.

* `Csv.contents` is the whole table of a list of records.
* `Csv.create` begins a table in a file, `Csv.append` adds records to it.
-/

namespace DynExpr.Csv

/-- A text as a quoted field. -/
def quoted (field : Text) : Text :=
  34 :: (field.flatMap (fun b => if b == 34 then [34, 34] else [b]) ++ [34])

/-- The heading of a table. -/
def heading : Text := utf8 "line,expression,status,result,message\n"

/-- The line of a record. -/
def line (record : Record) : Text :=
  decimalText record.line ++ utf8 "," ++ quoted record.expression ++ utf8 "," ++ record.status ++
    utf8 "," ++ (match record.value with
      | some value => quoted value
      | none => []) ++ utf8 "," ++ quoted record.message ++ utf8 "\n"

/-- The lines of records. -/
def lines (records : List Record) : Text := records.flatMap line

/-- The table of records. -/
def contents (records : List Record) : Text := heading ++ lines records

/-- The wording for a file that cannot be written. -/
def unwritableText (path : Text) : Text :=
  utf8 "Не удалось открыть файл для записи CSV: " ++ path

/-- Begins an empty table in a file. -/
def create {ω : Type} (tree : FileTree) (path : Text) : Except (Failure ω) FileTree :=
  if tree.isWritable path then .ok (tree.write path heading)
  else .error (.exception .runtime (unwritableText path))

/-- Adds records to the table in a file. -/
def append {ω : Type} (tree : FileTree) (path : Text) (records : List Record) :
    Except (Failure ω) FileTree :=
  if tree.isWritable path then
    .ok (tree.write path ((tree.read? path).getD [] ++ lines records))
  else .error (.exception .runtime (unwritableText path))

end DynExpr.Csv

/-!
## Output on a terminal

The program greets with its modes, writes a line for each record and ends with a summary.
Colours are escape sequences of the terminal, each ended by a reset.
-/

namespace DynExpr.Console

/-! ### Colours -/

/-- Ends all colours. -/
def reset : Text := utf8 "\x1b[0m"
/-- Bold. -/
def bold : Text := utf8 "\x1b[1m"
/-- Red. -/
def red : Text := utf8 "\x1b[31m"
/-- Green. -/
def green : Text := utf8 "\x1b[32m"
/-- Yellow. -/
def yellow : Text := utf8 "\x1b[33m"
/-- Cyan. -/
def cyan : Text := utf8 "\x1b[36m"
/-- Gray. -/
def gray : Text := utf8 "\x1b[90m"

/-! ### Messages -/

/-- The name and version that the program gives itself. -/
def programTitle : Text := utf8 "anyexpr 1.0"

/-- The modes of an evaluation. -/
def modes (options : Options) : Text :=
  (if options.logic then utf8 "логика" else utf8 "без логики") ++
    (if options.pureSymbols then utf8 ", чистые символы" else []) ++
    (if options.unfolded then utf8 ", без оптимизации" else utf8 ", свёртка констант")

/-- The greeting. -/
def header (options : Options) : Text :=
  bold ++ cyan ++ utf8 "\n" ++ programTitle ++ utf8 ": вычисление выражений над значениями\n" ++
    reset ++ gray ++ utf8 "режим: " ++ modes options ++ reset ++ utf8 "\n\n"

/-- One option in the help, padded to a column. -/
def optionHelp (option description : Text) : Text :=
  utf8 "  " ++ cyan ++ option ++ reset ++ List.replicate (15 - option.length) 32 ++ description ++
    utf8 "\n"

/-- The help. -/
def usage : Text :=
  bold ++ utf8 "Использование:" ++ reset ++
    utf8 " anyexpr [файл|-] [-o результат.csv] [-D имя=значение]... [--no-optimize] [--pure] [--no-bool]\n\n" ++
    optionHelp (utf8 "-o") (utf8 "запись результатов в CSV") ++
    optionHelp (utf8 "-D") (utf8 "константа (число, true, false, nil или строка)") ++
    optionHelp (utf8 "--no-optimize") (utf8 "не сворачивать константы") ++
    optionHelp (utf8 "--pure") (utf8 "пользовательские символы считаются чистыми") ++
    optionHelp (utf8 "--no-bool") (utf8 "без логических операторов и сравнений") ++ utf8 "\n"

/-- The line of a record. -/
def record (record : Record) : Text :=
  utf8 "  " ++ gray ++ utf8 "[" ++ decimalText record.line ++ utf8 "]" ++ reset ++ utf8 " " ++
    record.expression ++
    (match record.value with
    | some value => utf8 " " ++ green ++ utf8 "✓ " ++ bold ++ value
    | none => utf8 " " ++ red ++ utf8 "✗ " ++ record.message) ++ reset ++ utf8 "\n"

/-- The heading of the records. -/
def recordsHeading : Text := bold ++ utf8 "Обработка выражений:\n" ++ reset

/-- The summary of a run: how many lines it had, how many of them succeeded and failed, how
many milliseconds it took, and where the report is. -/
def summary (lines succeeded failed : Nat) (milliseconds : Text) (path : Option Text) : Text :=
  let row (label colour value : Text) : Text := label ++ colour ++ value ++ reset ++ utf8 "\n"
  utf8 "\n" ++ bold ++ utf8 "Статистика:\n" ++ reset ++
    row (utf8 "  Всего строк:  ") cyan (decimalText lines) ++
    row (utf8 "  Успешно:      ") green (decimalText succeeded) ++
    row (utf8 "  С ошибками:   ") red (decimalText failed) ++
    row (utf8 "  Время:        ") cyan (milliseconds ++ utf8 " мс") ++
    (match path with
    | some path => row (utf8 "  Результаты:   ") yellow path
    | none => []) ++ utf8 "\n"

/-- The message that the program ends with if it cannot run. -/
def fault (message : Text) : Text :=
  red ++ bold ++ utf8 "✗ Ошибка: " ++ reset ++ red ++ message ++ reset ++ utf8 "\n\n"

end DynExpr.Console
