import LoxLexer.Lexing.Basic

/-!
# Reports

A report on one source file holds its tokens, a diagnostic for each error and a few counts. It is
made from a lexing and the name of the file; the lexing may also be put together by hand.
-/
namespace LoxLexer

inductive Severity
  | error
deriving DecidableEq, Repr

def Severity.name : Severity → String
  | error => "error"

def Severity.all : List Severity :=
  [error]

structure Location where
  file : String
  line : Nat
  column : Nat
deriving DecidableEq, Repr

structure Diagnostic where
  code : String
  severity : Severity
  message : String
  location : Location
deriving DecidableEq, Repr

/-- Where an error starts in a file, with its code and message. -/
def LexError.diagnostic (file : String) (e : LexError) : Diagnostic :=
  ⟨e.code, .error, e.message, ⟨file, e.span.line, e.span.column⟩⟩

/-- The tokens other than the end of input, those of them that are reserved words, the errors, and
the line on which the last token stands. -/
structure Stats where
  tokenCount : Nat
  keywordCount : Nat
  errorCount : Nat
  lineCount : Nat
deriving DecidableEq, Repr

def Lexing.tokenCount (r : Lexing) : Nat :=
  r.tokens.countP fun t => t.kind != .eof

def Lexing.keywordCount (r : Lexing) : Nat :=
  r.tokens.countP fun t => t.kind.isKeyword

/-- The line of the last token; without any token, the first line. -/
def Lexing.finalLine (r : Lexing) : Nat :=
  match r.tokens.getLast? with
  | some t => t.line
  | none => 1

def Lexing.stats (r : Lexing) : Stats :=
  ⟨r.tokenCount, r.keywordCount, r.errors.length, r.finalLine⟩

structure Report where
  success : Bool
  sourceFile : String
  tokens : List Token
  diagnostics : List Diagnostic
  stats : Stats
deriving DecidableEq, Repr

def Report.ofLexing (file : String) (r : Lexing) : Report where
  success := !r.hadError
  sourceFile := file
  tokens := r.tokens
  diagnostics := r.errors.map (LexError.diagnostic file)
  stats := r.stats

end LoxLexer
