import DynExpr.CommandLine
import DynExpr.Report

/-!
# A run of the program

Every line of the input is an expression by itself: it is compiled with the constants of the
command line and evaluated. A line that fails becomes a record with its message, and the run
goes on.

* `evaluateLine` is the record of one line.
* `Session.run` is the run over a whole input, `runProgram` the program on a tree of files.
-/

namespace DynExpr

/-- The lines of a text. A line break at the end begins no further line. -/
def splitLines : Text → List Text
  | [] => []
  | b :: rest =>
    if b == 10 then [] :: splitLines rest
    else
      match splitLines rest with
      | line :: others => (b :: line) :: others
      | [] => [[b]]

/-- A line of nothing but spaces, tabs and returns. -/
def isBlankLine (line : Text) : Bool := line.all fun b => b == 32 || b == 9 || b == 13

/-- The text of the result of an expression, or the failure of reading or evaluating it. -/
def evaluateText (options : Options) (constants : List (Text × Value Empty)) (line : Text) :
    Except (Failure Empty) Text :=
  match parse line with
  | .error fault => .error (.ofSyntaxFault fault)
  | .ok node =>
    let lookup : HostLookup Unit Empty :=
      .ofTables options (fun name => constants.lookup name) fun _ => none
    let (expression, machine) := compile options lookup node ()
    (expression.run machine).1.map Value.describe

/-- The record of one line. -/
def evaluateLine (commandLine : CommandLine) (number : Nat) (line : Text) : Record :=
  if isBlankLine line then .failure number line (utf8 "Пустая строка")
  else
    match evaluateText commandLine.options commandLine.constants line with
    | .ok value => .success number line value
    | .error failure => .failure number line failure.text

/-- The records of lines, numbered from a number on. -/
def evaluateLines (commandLine : CommandLine) (number : Nat) : List Text → List Record
  | [] => []
  | line :: rest =>
    evaluateLine commandLine number line :: evaluateLines commandLine (number + 1) rest

/-- What a run leaves behind: its exit code, its output, its complaints, and the report if one
was begun. -/
structure Session where
  code : Nat
  output : Text
  complaint : Text
  report : Option Text

namespace Session

/-- A run that could not begin. -/
def failed (output message : Text) : Session :=
  ⟨1, output, Console.fault (Text.beforeZero message), none⟩

/-- The wording for an input that cannot be opened. -/
def unreadableText (path : Text) : Text :=
  utf8 "Не удалось открыть входной файл: " ++ path

/-- A run that ended, given its records and how many milliseconds it took. -/
def ended (commandLine : CommandLine) (records : List Record) (milliseconds : Text) : Session :=
  let succeeded := records.countP fun record => record.status == Record.successStatus
  let failures := records.length - succeeded
  { code := if failures = 0 then 0 else 1
    output := Console.header commandLine.options ++ Console.recordsHeading ++
      records.flatMap Console.record ++
      Console.summary records.length succeeded failures milliseconds commandLine.output
    complaint := []
    report := commandLine.output.map fun _ => Csv.contents records }

/-- What keeps a run from beginning: an input that cannot be opened, or else a report that cannot
be written. -/
def obstacle? (commandLine : CommandLine) (readable writable : Bool) : Option Text :=
  if !readable then some (unreadableText commandLine.input)
  else
    match commandLine.output with
    | some path => if writable then none else some (Csv.unwritableText path)
    | none => none

/-- The records of an input. -/
def records (commandLine : CommandLine) (input : Text) : List Record :=
  evaluateLines commandLine 1 (splitLines input)

/-- A run over an input, given its contents unless it cannot be opened, whether the report can be
written, and how many milliseconds the run takes. -/
def run (commandLine : CommandLine) (input : Option Text) (writable : Bool) (milliseconds : Text) :
    Session :=
  match obstacle? commandLine input.isSome writable with
  | some message => failed (Console.header commandLine.options) message
  | none => ended commandLine (records commandLine (input.getD [])) milliseconds

/-- The help. -/
def help : Session := ⟨0, Console.header .standard ++ Console.usage, [], none⟩

end Session

/-- The program on a tree of files: what it leaves behind, and the files afterwards. Arguments
are zero-terminated. -/
def runProgram (arguments : List Text) (standardInput : Text) (tree : FileTree)
    (milliseconds : Text) : Session × FileTree :=
  let arguments := arguments.map Text.beforeZero
  if CommandLine.asksForHelp arguments then (.help, tree)
  else
    match CommandLine.parse arguments with
    | .error fault => (.failed [] fault.text, tree)
    | .ok commandLine =>
      let input :=
        if commandLine.input = CommandLine.standardInput then some standardInput
        else (tree.withStandardInput standardInput).read? commandLine.input
      let writable := commandLine.output.any tree.isWritable
      let session := Session.run commandLine input writable milliseconds
      match commandLine.output, session.report with
      | some path, some report => (session, tree.write path report)
      | _, _ => (session, tree)

end DynExpr
