import LoxLexer.Lexing.Log
import LoxLexer.Source.Slice

/-!
# A machine with a cursor

A machine holds a text and counts up to some largest count. A table gives its characters with the
byte offsets at which they start; a cursor moves over the table by index, one character at a time,
and keeps the line, the column and where the current piece began. What has been read since is cut
out of the text by byte offsets. Tokens and errors are kept apart, but there is one log, and
whatever adds a token or an error writes its record. A run ends in a fault where a count would grow
beyond the largest one or fall below zero, and where a cut does not fall between two characters.
-/
namespace LoxLexer

inductive Fault
  | overflow
  | underflow
  | badSlice
deriving DecidableEq, Repr

/-- The difference of two counts. -/
def Fault.sub (a b : Nat) : Except Fault Nat :=
  if b ≤ a then .ok (a - b) else .error .underflow

/-- A word of `w` bits counts up to `2 ^ w - 1`. -/
structure Machine where
  maxCount : Nat
  text : List Char
deriving DecidableEq, Repr

/-- Where the machine is in its table and where the current piece began, with the lines and columns
of both, what was found before, and what was logged. -/
structure Cursor where
  start : Nat
  startLine : Nat
  startColumn : Nat
  pos : Nat
  line : Nat
  column : Nat
  tokens : List Token
  errors : List LexError
  log : List LogRecord
deriving DecidableEq, Repr

namespace Cursor

def origin : Cursor :=
  ⟨0, 1, 1, 0, 1, 1, [], [], []⟩

/-- A new piece begins where the cursor stands. -/
def mark (s : Cursor) : Cursor :=
  { s with start := s.pos, startLine := s.line, startColumn := s.column }

end Cursor

/-- Characters with the byte offsets at which they start, the first one at `offset`. -/
def charsFrom (offset : Nat) : List Char → List (Nat × Char)
  | [] => []
  | c :: cs => (offset, c) :: charsFrom (offset + c.utf8Size) cs

theorem charsFrom_append (offset : Nat) (cs ds : List Char) :
    charsFrom offset (cs ++ ds) = charsFrom offset cs ++ charsFrom (offset + byteLength cs) ds := by
  induction cs generalizing offset with
  | nil => rfl
  | cons c cs ih => simp [charsFrom, ih, Nat.add_assoc]

@[simp] theorem length_charsFrom (offset : Nat) (cs : List Char) :
    (charsFrom offset cs).length = cs.length := by
  induction cs generalizing offset with
  | nil => rfl
  | cons c cs ih => simp [charsFrom, ih]

namespace Machine

variable (m : Machine)

/-- The sum of two counts. -/
def add (a b : Nat) : Except Fault Nat :=
  if a + b ≤ m.maxCount then .ok (a + b) else .error .overflow

def table : List (Nat × Char) :=
  charsFrom 0 m.text

/-- The character under the cursor. -/
def peek (s : Cursor) : Option Char :=
  m.table[s.pos]?.map (·.2)

/-- The character after the one under the cursor. -/
def peekNext (s : Cursor) : Except Fault (Option Char) := do
  let next ← m.add s.pos 1
  return m.table[next]?.map (·.2)

def atEnd (s : Cursor) : Bool :=
  m.table.length ≤ s.pos

/-- Moves behind the character under the cursor and returns it. -/
def advance (s : Cursor) : Except Fault (Option Char × Cursor) :=
  match m.peek s with
  | none => return (none, s)
  | some c => do
    let pos ← m.add s.pos 1
    if c = '\n' then
      let line ← m.add s.line 1
      return (some c, { s with pos := pos, line := line, column := 1 })
    else
      let column ← m.add s.column 1
      return (some c, { s with pos := pos, column := column })

/-- Moves behind the character under the cursor if it is `c`. -/
def accept (c : Char) (s : Cursor) : Except Fault (Bool × Cursor) :=
  if m.peek s = some c then do
    let (_, s) ← m.advance s
    return (true, s)
  else return (false, s)

/-- Where a character of the table starts, and behind the last one the length of the text. -/
def byteOffset (i : Nat) : Nat :=
  match m.table[i]? with
  | some (offset, _) => offset
  | none => byteLength m.text

/-- The span from where the current piece began up to the cursor. -/
def span (s : Cursor) : Span :=
  ⟨m.byteOffset s.start, m.byteOffset s.pos, s.startLine, s.startColumn⟩

/-- The text from one character of the table up to another. -/
def slice (i j : Nat) : Except Fault (List Char) :=
  let bytes : Span := ⟨m.byteOffset i, m.byteOffset j, 0, 0⟩
  match bytes.slice? m.text with
  | some cs => .ok cs
  | none => .error .badSlice

/-- What was read since the current piece began. -/
def lexeme (s : Cursor) : Except Fault (List Char) :=
  m.slice s.start s.pos

/-- What was read since then, without its first and its last character. -/
def inside (s : Cursor) : Except Fault (List Char) := do
  let first ← m.add s.start 1
  let last ← Fault.sub s.pos 1
  m.slice first last

def addToken (kind : Kind) (literal : Option Literal) (s : Cursor) : Except Fault Cursor := do
  let lexeme ← m.lexeme s
  let token : Token := ⟨kind, String.ofList lexeme, literal, m.span s⟩
  return { s with tokens := s.tokens ++ [token], log := s.log ++ [token.logRecord] }

def addError (cause : LexError.Cause) (s : Cursor) : Cursor :=
  let error : LexError := ⟨cause, m.span s⟩
  { s with errors := s.errors ++ [error], log := s.log ++ [error.logRecord] }

end Machine

/-- A computation goes on only where the one before it has ended without a fault. -/
theorem Fault.ok_of_bind {α β : Type} {x : Except Fault α} {f : α → Except Fault β} {b : β}
    (h : x >>= f = .ok b) : ∃ a, x = .ok a ∧ f a = .ok b := by
  cases x with
  | error e => cases h
  | ok a => exact ⟨a, rfl, h⟩

namespace Machine

variable {m : Machine} {s t : Cursor} {c : Char}

theorem pos_lt_of_peek (h : m.peek s = some c) : s.pos < m.table.length := by
  obtain ⟨x, hx, _⟩ := Option.map_eq_some_iff.1 h
  exact (List.getElem?_eq_some_iff.1 hx).1

theorem eq_add_of_add {a b n : Nat} (h : m.add a b = .ok n) : n = a + b := by
  unfold add at h
  split at h
  · cases h
    rfl
  · cases h

theorem advance_eq_none (h : m.peek s = none) : m.advance s = .ok (none, s) := by
  rw [advance, h]
  rfl

/-- Past a character everything stays but the place of the cursor. -/
theorem eq_of_advance {o : Option Char} (hpeek : m.peek s = some c)
    (h : m.advance s = .ok (o, t)) : o = some c ∧ t =
      if c = '\n' then { s with pos := s.pos + 1, line := s.line + 1, column := 1 }
      else { s with pos := s.pos + 1, column := s.column + 1 } := by
  rw [advance, hpeek] at h
  obtain ⟨pos, hpos, h⟩ := Fault.ok_of_bind h
  obtain rfl := eq_add_of_add hpos
  split at h
  · obtain ⟨line, hline, h⟩ := Fault.ok_of_bind h
    obtain rfl := eq_add_of_add hline
    cases h
    exact ⟨rfl, (if_pos ‹_›).symm⟩
  · obtain ⟨column, hcolumn, h⟩ := Fault.ok_of_bind h
    obtain rfl := eq_add_of_add hcolumn
    cases h
    exact ⟨rfl, (if_neg ‹_›).symm⟩

theorem pos_of_advance {o : Option Char} (hpeek : m.peek s = some c)
    (h : m.advance s = .ok (o, t)) : t.pos = s.pos + 1 := by
  rw [(eq_of_advance hpeek h).2]
  split <;> rfl

end Machine

end LoxLexer
