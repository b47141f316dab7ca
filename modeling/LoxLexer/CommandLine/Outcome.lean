import LoxLexer.CommandLine.Arguments
import LoxLexer.Report.Encoding

/-!
# Outcomes of commands

A command ends with an exit code and what it wrote to the two output streams. Reading the file is
given: it yields a text or a cause of failure. Lexical errors give one exit code, a file that
cannot be read another.
-/
namespace LoxLexer.CommandLine

inductive ReadFailure
  | notFound
  | notDirectory
  | isDirectory
  | notUtf8
  | other (description : String)
deriving DecidableEq, Repr

def ReadFailure.message : ReadFailure → String
  | notFound => "No such file or directory (os error 2)"
  | notDirectory => "Not a directory (os error 20)"
  | isDirectory => "Is a directory (os error 21)"
  | notUtf8 => "stream did not contain valid UTF-8"
  | other description => description

structure Outcome where
  exitCode : Nat
  stdout : String
  stderr : String
deriving DecidableEq, Repr

/-- Each text on a line of its own. -/
def lines (texts : List String) : String :=
  String.join (texts.map fun t => t ++ "\n")

def exitCode (r : Lexing) : Nat :=
  if r.hadError then 65 else 0

def reports (r : Lexing) : List String :=
  r.errors.map LexError.report

/-- A file that cannot be read ends a command, after what it has already written. -/
def unreadable (stdout file : String) (failure : ReadFailure) : Outcome :=
  ⟨1, stdout, lines ["Error: could not read " ++ file ++ ": " ++ failure.message]⟩

def tokenize (file : String) (format : Format) : Except ReadFailure String → Outcome
  | .error failure => unreadable "" file failure
  | .ok source =>
    let r := lex source
    match format with
    | .text => ⟨exitCode r, lines (r.tokens.map Token.text), lines (reports r)⟩
    | .json => ⟨exitCode r, lines [(Report.ofLexing file r).text], ""⟩

/-- The closing line of a check; the end of input does not count as a token. -/
def verdict (r : Lexing) : String :=
  if r.hadError then "❌ " ++ toString r.errors.length ++ " lexical error(s)"
  else "✅ No errors found (" ++ toString (r.tokens.length - 1) ++ " tokens)"

def check (file : String) : Except ReadFailure String → Outcome
  | .error failure => unreadable (lines ["Checking: " ++ file]) file failure
  | .ok source =>
    let r := lex source
    ⟨exitCode r, lines ["Checking: " ++ file, verdict r], lines (reports r)⟩

def version : String :=
  "sharlox 0.1.0"

def Command.run (read : String → Except ReadFailure String) : Command → Outcome
  | .version => ⟨0, lines [CommandLine.version], ""⟩
  | .tokenize file format => CommandLine.tokenize file format (read file)
  | .check file => CommandLine.check file (read file)

end LoxLexer.CommandLine
