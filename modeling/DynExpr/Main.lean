import DynExpr.Session

/-!
# The program

Reads its arguments and its input, runs, and writes what the run leaves behind. The input is
opened before the report, so that a missing input leaves the report untouched.
-/

namespace DynExpr.Program

/-- The bytes of a text. -/
def bytes (text : Text) : ByteArray := ⟨text.toArray⟩

/-- The text of bytes. -/
def ofBytes (bytes : ByteArray) : Text := bytes.data.toList

/-- A text as the name of a file. -/
def fileName (path : Text) : String := (String.fromUTF8? (bytes path)).getD ""

/-- All that a handle has to read; nothing if it turns out not to be readable. -/
def readAll (handle : IO.FS.Handle) : IO Text := do
  try
    return ofBytes (← handle.readBinToEnd)
  catch _ =>
    return []

/-- The contents of the input, unless it cannot be opened. -/
def readInput (commandLine : CommandLine) : IO (Option Text) := do
  if commandLine.input = CommandLine.standardInput then
    let stdin ← IO.getStdin
    return some (ofBytes (← stdin.readBinToEnd))
  else
    try
      let handle ← IO.FS.Handle.mk (fileName commandLine.input) .read
      return some (← readAll handle)
    catch _ =>
      return none

/-- Creates an empty report if one is wanted, and tells whether that succeeded. -/
def createReport (commandLine : CommandLine) : IO Bool := do
  match commandLine.output with
  | none => return false
  | some path =>
    try
      let _ ← IO.FS.Handle.mk (fileName path) .write
      return true
    catch _ =>
      return false

/-- Writes what a run leaves behind and yields its exit code. -/
def finish (output : Option Text) (session : Session) : IO UInt32 := do
  match output, session.report with
  | some path, some report => IO.FS.writeBinFile (fileName path) (bytes report)
  | _, _ => pure ()
  (← IO.getStdout).write (bytes session.output)
  (← IO.getStderr).write (bytes session.complaint)
  return UInt32.ofNat session.code

/-- Runs with the given arguments. -/
def run (arguments : List Text) : IO UInt32 := do
  if CommandLine.asksForHelp arguments then finish none .help
  else
    match CommandLine.parse arguments with
    | .error fault => finish none (.failed [] fault.text)
    | .ok commandLine =>
      let input ← readInput commandLine
      let writable ← if input.isSome then createReport commandLine else pure false
      match Session.obstacle? commandLine input.isSome writable with
      | some message => finish none (.failed (Console.header commandLine.options) message)
      | none =>
        let start ← IO.monoMsNow
        let records ← IO.lazyPure fun _ => Session.records commandLine (input.getD [])
        let stop ← IO.monoMsNow
        finish commandLine.output (.ended commandLine records (decimalText (stop - start)))

end DynExpr.Program

/-- The entry point of the program. -/
def main (arguments : List String) : IO UInt32 :=
  DynExpr.Program.run (arguments.map DynExpr.utf8)
