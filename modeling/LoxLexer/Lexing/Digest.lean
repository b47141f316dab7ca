import LoxLexer.Lexing.Basic

/-!
# Digests of a growing text

A digest tells a few facts of a lexing: how many tokens and errors, the last of each, and where
the input ends. It is taken of every prefix and of every suffix of a text, to see how a lexing
changes with the text.
-/
namespace LoxLexer

structure Digest where
  tokenCount : Nat
  lastToken : Option String
  lastReport : Option String
  errorCount : Nat
  stop : Position
deriving DecidableEq, Repr

def digest (cs : List Char) : Digest :=
  let r := lexChars cs
  { tokenCount := r.tokens.length
    lastToken := r.tokens.dropLast.getLast?.map Token.text
    lastReport := r.errors.getLast?.map LexError.report
    errorCount := r.errors.length
    stop := Position.origin.after cs }

/-- From the empty prefix to the whole text, one character longer each time. -/
def prefixDigests (cs : List Char) : List Digest :=
  (List.range (cs.length + 1)).map fun n => digest (cs.take n)

/-- From the whole text to the empty suffix, one character shorter each time. -/
def suffixDigests (cs : List Char) : List Digest :=
  (List.range (cs.length + 1)).map fun n => digest (cs.drop n)

end LoxLexer
