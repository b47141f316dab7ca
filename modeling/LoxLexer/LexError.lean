import LoxLexer.Source.Span

/-!
# Lexical errors

Two things can go wrong: a character begins no lexeme, or a string is never closed. Each has a
stable code, a message, and a one-line report that names the line where it starts.
-/
namespace LoxLexer

namespace LexError

inductive Cause
  | unexpectedCharacter (ch : Char)
  | unterminatedString
deriving DecidableEq, Repr

def Cause.code : Cause → String
  | unexpectedCharacter _ => "E0001"
  | unterminatedString => "E0002"

def Cause.message : Cause → String
  | unexpectedCharacter ch => "Unexpected character: " ++ ch.toString
  | unterminatedString => "Unterminated string."

end LexError

structure LexError where
  cause : LexError.Cause
  span : Span
deriving DecidableEq, Repr

namespace LexError

def line (e : LexError) : Nat :=
  e.span.line

def code (e : LexError) : String :=
  e.cause.code

def message (e : LexError) : String :=
  e.cause.message

/-- The line and the message, as shown to a user. -/
def report (e : LexError) : String :=
  "[line " ++ toString e.line ++ "] Error: " ++ e.message

end LexError

end LoxLexer
