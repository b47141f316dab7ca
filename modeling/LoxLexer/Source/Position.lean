/-!
# Positions in a source text

A position is the byte offset, the line and the column reached by reading some characters.
Only a line feed ends a line; every other character, a carriage return and a tab included, moves
one column on. The position after a text is also described without reading it from left to
right, by its length in bytes, its number of line feeds and its last line.
-/
namespace LoxLexer

/-- Offsets count UTF-8 bytes from 0; lines and columns count from 1, columns in characters. -/
structure Position where
  offset : Nat
  line : Nat
  column : Nat
deriving DecidableEq, Repr, Inhabited

namespace Position

def origin : Position := ⟨0, 1, 1⟩

def step (p : Position) (c : Char) : Position :=
  if c = '\n' then ⟨p.offset + c.utf8Size, p.line + 1, 1⟩
  else ⟨p.offset + c.utf8Size, p.line, p.column + 1⟩

/-- The position reached from `p` by reading `cs`. -/
def after (p : Position) (cs : List Char) : Position :=
  cs.foldl step p

@[simp] theorem after_nil (p : Position) : p.after [] = p := rfl

@[simp] theorem after_cons (p : Position) (c : Char) (cs : List Char) :
    p.after (c :: cs) = (p.step c).after cs := rfl

@[simp] theorem after_append (p : Position) (cs ds : List Char) :
    p.after (cs ++ ds) = (p.after cs).after ds := by
  simp [after]

end Position

/-- The length of a text in UTF-8 bytes. -/
def byteLength : List Char → Nat
  | [] => 0
  | c :: cs => c.utf8Size + byteLength cs

/-- The line on which the character after `cs` stands. -/
def lineAt (cs : List Char) : Nat :=
  1 + cs.count '\n'

/-- The part of `cs` after its last line feed. -/
def lastLine : List Char → List Char
  | [] => []
  | c :: cs => if '\n' ∈ c :: cs then lastLine cs else c :: cs

/-- The column at which the character after `cs` stands. -/
def columnAt (cs : List Char) : Nat :=
  1 + (lastLine cs).length

@[simp] theorem byteLength_nil : byteLength [] = 0 := rfl

@[simp] theorem byteLength_cons (c : Char) (cs : List Char) :
    byteLength (c :: cs) = c.utf8Size + byteLength cs := rfl

@[simp] theorem byteLength_append (cs ds : List Char) :
    byteLength (cs ++ ds) = byteLength cs + byteLength ds := by
  induction cs with
  | nil => simp
  | cons c cs ih => simp [ih, Nat.add_assoc]

theorem lastLine_of_not_mem {cs : List Char} (h : '\n' ∉ cs) : lastLine cs = cs := by
  cases cs with
  | nil => rfl
  | cons c cs => rw [lastLine, if_neg h]

namespace Position

/-- Reading `cs` moves the offset by its bytes and the line by its line feeds. -/
theorem after_eq (p : Position) (cs : List Char) :
    p.after cs =
      ⟨p.offset + byteLength cs, p.line + cs.count '\n',
        if '\n' ∈ cs then columnAt cs else p.column + cs.length⟩ := by
  induction cs generalizing p with
  | nil => simp
  | cons c cs ih =>
    rw [after_cons, ih]
    by_cases hc : c = '\n'
    · subst hc
      by_cases hm : '\n' ∈ cs
      · simp [step, hm, columnAt, lastLine, Nat.add_assoc, Nat.add_comm 1]
      · simp [step, hm, columnAt, lastLine, lastLine_of_not_mem hm, Nat.add_assoc, Nat.add_comm 1]
    · have hc' : ¬ '\n' = c := fun h => hc h.symm
      by_cases hm : '\n' ∈ cs
      · simp [step, hm, hc, columnAt, lastLine, Nat.add_assoc]
      · simp [step, hm, hc, hc', Nat.add_assoc, Nat.add_comm 1]

theorem origin_after (cs : List Char) :
    origin.after cs = ⟨byteLength cs, lineAt cs, columnAt cs⟩ := by
  rw [after_eq]
  by_cases hm : '\n' ∈ cs
  · simp [origin, lineAt, hm]
  · simp [origin, lineAt, hm, columnAt, lastLine_of_not_mem hm]

end Position

end LoxLexer
