import LoxLexer.CommandLine.Outcome

/-!
# The command line

Reads the arguments and the named file, and writes the outcome of the command. Refused arguments
are answered with the two forms of a command.
-/
namespace LoxLexer.CommandLine

/-- The number of a system error, which may also be given with its sign turned. -/
def errorNumber (code : UInt32) : Nat :=
  min code.toNat (0 - code).toNat

def describe (code : UInt32) (description : String) : String :=
  description.capitalize ++ " (os error " ++ toString (errorNumber code) ++ ")"

def ReadFailure.ofError : IO.Error → ReadFailure
  | .noFileOrDirectory .. => notFound
  | .inappropriateType _ code description =>
    match errorNumber code with
    | 20 => notDirectory
    | 21 => isDirectory
    | _ => other (describe code description)
  | .permissionDenied _ code description => other (describe code description)
  | .invalidArgument _ code description => other (describe code description)
  | .resourceExhausted _ code description => other (describe code description)
  | .hardwareFault code description => other (describe code description)
  | .otherError code description => other (describe code description)
  | e => other e.toString

def readSource (file : String) : IO (Except ReadFailure String) := do
  match ← (IO.FS.readBinFile file).toBaseIO with
  | .error e => return .error (.ofError e)
  | .ok bytes =>
    match String.fromUTF8? bytes with
    | some source => return .ok source
    | none => return .error .notUtf8

def Command.file? : Command → Option String
  | version => none
  | tokenize file _ => some file
  | check file => some file

def usage : String :=
  lines
    ["usage: sharlox tokenize <FILE> [--format text|json]", "       sharlox check <FILE>",
      "       sharlox --version"]

def finish (outcome : Outcome) : IO UInt32 := do
  (← IO.getStdout).putStr outcome.stdout
  (← IO.getStderr).putStr outcome.stderr
  return outcome.exitCode.toUInt32

def runArguments (args : List String) : IO UInt32 := do
  match Command.ofArguments? args with
  | none => finish ⟨2, "", usage⟩
  | some command =>
    match command.file? with
    | none => finish (command.run fun _ => .error .notFound)
    | some file =>
      let contents ← readSource file
      finish (command.run fun _ => contents)

end LoxLexer.CommandLine

def main (args : List String) : IO UInt32 :=
  LoxLexer.CommandLine.runArguments args
