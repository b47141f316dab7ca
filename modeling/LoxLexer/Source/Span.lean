import LoxLexer.Source.Position

/-!
# Spans of a source text

A span is a half-open range of byte offsets with the line and column where it starts. A span made
by hand may end before it starts; it then has no length.
-/
namespace LoxLexer

structure Span where
  start : Nat
  stop : Nat
  line : Nat
  column : Nat
deriving DecidableEq, Repr, Inhabited

namespace Span

/-- The text read between two positions. -/
def between (p q : Position) : Span :=
  ⟨p.offset, q.offset, p.line, p.column⟩

/-- The empty span at a position. -/
def point (p : Position) : Span :=
  between p p

def isEmpty (s : Span) : Bool :=
  s.start == s.stop

inductive LengthError
  | stopBeforeStart
deriving DecidableEq, Repr

def LengthError.message : LengthError → String
  | stopBeforeStart => "attempt to subtract with overflow"

/-- The number of bytes covered. -/
def length (s : Span) : Except LengthError Nat :=
  if s.stop < s.start then .error .stopBeforeStart else .ok (s.stop - s.start)

/-- A span between two positions is as long as the text read from one to the other. -/
theorem length_between_after (p : Position) (cs : List Char) :
    (between p (p.after cs)).length = .ok (byteLength cs) := by
  simp [between, Position.after_eq, length]

end Span

end LoxLexer
