import LoxLexer.CommandLine.Outcome
import LoxLexer.Proofs.Report.Counts

/-!
# Commands on one file

A file can be printed as tokens, printed as a report or only checked. The three commands end alike,
and what the other two print can be read from the report. A file that cannot be read ends all three
in the same way.
-/
namespace LoxLexer

/-- The line that tells a user of a diagnostic. -/
def Diagnostic.line (d : Diagnostic) : String :=
  "[line " ++ toString d.location.line ++ "] Error: " ++ d.message

namespace CommandLine

/-- The number that ends a check: of the errors if there are any, of the tokens otherwise. -/
def closing (r : Report) : String :=
  if r.diagnostics = [] then "✅ No errors found (" ++ toString r.stats.tokenCount ++ " tokens)"
  else "❌ " ++ toString r.stats.errorCount ++ " lexical error(s)"

variable {read : String → Except ReadFailure String} {file source : String} {failure : ReadFailure}

end CommandLine

end LoxLexer
