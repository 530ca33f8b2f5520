import QuboReduction.Command.Arguments

/-!
# The program

The program reads the file of a command, does what the command does with its text, and ends with the
exit code of the command. It ends with the code two when the arguments make no sense.
-/

open QuboReduction

/-- The cause of an error with a number, which some functions of the system negate. -/
def fileErrorOfCode (code : UInt32) (e : IO.Error) : FileError :=
  let positive := if code < 0x80000000 then code else 0 - code
  (FileError.ofCode? positive.toNat).getD (.other (toString e))

/-- Why a file cannot be read or written. -/
def fileErrorOf (e : IO.Error) : FileError :=
  match e with
  | .noFileOrDirectory _ code _ => fileErrorOfCode code e
  | .permissionDenied _ code _ => fileErrorOfCode code e
  | .inappropriateType _ code _ => fileErrorOfCode code e
  | .invalidArgument _ code _ => fileErrorOfCode code e
  | .userError _ => .notText
  | e => .other (toString e)

/-- Prints what a command prints. -/
def printOutput (output : Output) : IO UInt32 := do
  IO.print output.stdout
  output.stderr.forM fun line => IO.eprintln line
  pure (UInt32.ofNat output.exitCode)

/-- Does what a command does once its file is read. -/
def perform : Action → IO UInt32
  | .print output => printOutput output
  | .save path text saved failed => do
    match ← (IO.FS.writeFile path text).toBaseIO with
    | .ok () => printOutput saved
    | .error e => printOutput (failed (fileErrorOf e))

/-- Runs the command that the arguments ask for. -/
def main (args : List String) : IO UInt32 := do
  match Command.ofArguments? args with
  | none =>
    IO.eprintln "usage: show FILE | check FILE | convert FILE | interpret FILE VALUE..."
    pure 2
  | some command =>
    let source := match ← (IO.FS.readFile command.file).toBaseIO with
      | .ok text => Except.ok text
      | .error e => Except.error (fileErrorOf e)
    perform (command.action source)
