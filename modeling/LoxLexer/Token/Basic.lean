import LoxLexer.Source.Span
import LoxLexer.Token.Kind

/-!
# Tokens

A token is a kind, the source text it was read from, the value it carries and where it stands.
-/
namespace LoxLexer

/-- A number carries its canonical decimal text, a string the text between its quotes. -/
inductive Literal
  | number (text : String)
  | string (text : String)
deriving DecidableEq, Repr

def Literal.text : Literal → String
  | number text => text
  | string text => text

structure Token where
  kind : Kind
  lexeme : String
  literal : Option Literal
  span : Span
deriving DecidableEq, Repr

namespace Token

/-- The end of the input: an empty lexeme and no literal. -/
def eof (span : Span) : Token :=
  ⟨.eof, "", none, span⟩

def line (t : Token) : Nat :=
  t.span.line

/-- Kind, lexeme and literal with one space between, and `null` for no literal. -/
def text (t : Token) : String :=
  t.kind.name ++ " " ++ t.lexeme ++ " " ++
    match t.literal with
    | none => "null"
    | some l => l.text

end Token

end LoxLexer
