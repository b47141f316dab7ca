import LoxLexer.Machine.Basic

/-!
# Runs of the machine

The machine reads one piece after another until its cursor is at the end. The first character of a
piece decides how reading goes on. Every step of a loop moves the cursor on, so every loop ends.
Behind the last piece the tokens get their end of input and the log a record of the counts.
-/
namespace LoxLexer

namespace Machine

variable (m : Machine)

/-- Moves behind the characters that satisfy `p`. -/
def skipWhile (p : Char → Bool) (s : Cursor) : Except Fault Cursor :=
  match _hpeek : m.peek s with
  | none => .ok s
  | some c =>
    if p c then
      match _hadvance : m.advance s with
      | .error fault => .error fault
      | .ok (_, t) => skipWhile p t
    else .ok s
termination_by m.table.length - s.pos
decreasing_by
  have inside := pos_lt_of_peek ‹m.peek s = some c›
  have moved := pos_of_advance ‹m.peek s = some c› ‹_›
  omega

/-- Reads the digits of a number; a point belongs to it only when a digit follows the point. -/
def readDigits (s : Cursor) : Except Fault Cursor := do
  let s ← m.skipWhile Char.isDigit s
  if m.peek s = some '.' then
    let next ← m.peekNext s
    if next.any Char.isDigit then
      let (_, s) ← m.advance s
      m.skipWhile Char.isDigit s
    else return s
  else return s

def readNumber (s : Cursor) : Except Fault Cursor := do
  let s ← m.readDigits s
  let digits ← m.lexeme s
  m.addToken .number (some (.number (String.ofList (Decimal.canonical digits)))) s

def readWord (s : Cursor) : Except Fault Cursor := do
  let s ← m.skipWhile isWordPart s
  let word ← m.lexeme s
  m.addToken (((Keyword.ofText? word).map Kind.keyword).getD .identifier) none s

/-- Reads a string behind its opening quote; the two quotes are not part of its value. -/
def readString (s : Cursor) : Except Fault Cursor := do
  let s ← m.skipWhile (· != '"') s
  if m.atEnd s then return m.addError .unterminatedString s
  else
    let (_, s) ← m.advance s
    let value ← m.inside s
    m.addToken .string (some (.string (String.ofList value))) s

def readPunctuator (p : Punctuator) (s : Cursor) : Except Fault Cursor :=
  match p.withEqual? with
  | none => m.addToken (.punctuator p) none s
  | some q => do
    let (found, s) ← m.accept '=' s
    m.addToken (.punctuator (if found then q else p)) none s

/-- Reads the piece that `c` begins, with the cursor behind `c`. -/
def readPiece (c : Char) (s : Cursor) : Except Fault Cursor :=
  if isBlank c then return s
  else if c = '/' ∧ m.peek s = some '/' then m.skipWhile (· != '\n') s
  else if c.isDigit then m.readNumber s
  else if isWordStart c then m.readWord s
  else if c = '"' then m.readString s
  else
    match Punctuator.ofChar? c with
    | some p => m.readPunctuator p s
    | none => return m.addError (.unexpectedCharacter c) s

def scanToken (s : Cursor) : Except Fault Cursor := do
  let (c, s) ← m.advance s
  match c with
  | none => return s
  | some c => m.readPiece c s

end Machine

namespace Machine

variable {m : Machine} {s t : Cursor}

theorem skipWhile_eq_bind {p : Char → Bool} {c : Char} (hpeek : m.peek s = some c)
    (hp : p c = true) : m.skipWhile p s = m.advance s >>= fun r => m.skipWhile p r.2 := by
  rw [skipWhile]
  split
  · simp_all
  · rename_i d hd
    obtain rfl : d = c := Option.some.inj (hd.symm.trans hpeek)
    rw [if_pos hp]
    split <;> simp_all [bind, Except.bind]

theorem skipWhile_eq_self {p : Char → Bool} (h : ∀ c ∈ m.peek s, p c = false) :
    m.skipWhile p s = .ok s := by
  rw [skipWhile]
  split
  · rfl
  · rename_i c hc
    rw [if_neg (by simp [h c hc])]

theorem pos_le_advance {o : Option Char} (h : m.advance s = .ok (o, t)) : s.pos ≤ t.pos := by
  cases hpeek : m.peek s with
  | none =>
    cases (advance_eq_none hpeek).symm.trans h
    exact Nat.le_refl _
  | some c => exact pos_of_advance hpeek h ▸ Nat.le_succ _

theorem pos_addToken {kind : Kind} {literal : Option Literal}
    (h : m.addToken kind literal s = .ok t) : t.pos = s.pos := by
  obtain ⟨lexeme, _, h⟩ := Fault.ok_of_bind h
  cases h
  rfl

/-- What reading a character, adding a token and adding an error all keep is kept by whatever is
made of them. -/
structure Kept (m : Machine) (P : Cursor → Prop) : Prop where
  advance : ∀ {s t : Cursor} {o : Option Char}, P s → m.advance s = .ok (o, t) → P t
  addToken : ∀ {s t : Cursor} {kind : Kind} {literal : Option Literal},
    P s → m.addToken kind literal s = .ok t → P t
  addError : ∀ {s : Cursor} (cause : LexError.Cause), P s → P (m.addError cause s)

namespace Kept

variable {P : Cursor → Prop} (kept : m.Kept P) (hs : P s)

include kept hs

theorem skipWhile {p : Char → Bool} (h : m.skipWhile p s = .ok t) : P t := by
  fun_induction Machine.skipWhile m p s with
  | case1 s hpeek =>
    cases h
    exact hs
  | case2 s c hpeek hp fault hadvance => cases h
  | case3 s c hpeek hp o u hadvance ih => exact ih (kept.advance hs hadvance) h
  | case4 s c hpeek hp =>
    cases h
    exact hs

theorem readDigits (h : m.readDigits s = .ok t) : P t := by
  obtain ⟨u, hu, h⟩ := Fault.ok_of_bind h
  have whole := kept.skipWhile hs hu
  split at h
  · obtain ⟨next, _, h⟩ := Fault.ok_of_bind h
    split at h
    · obtain ⟨⟨o, v⟩, hv, h⟩ := Fault.ok_of_bind h
      exact kept.skipWhile (kept.advance whole hv) h
    · cases h
      exact whole
  · cases h
    exact whole

theorem readNumber (h : m.readNumber s = .ok t) : P t := by
  obtain ⟨u, hu, h⟩ := Fault.ok_of_bind h
  obtain ⟨digits, _, h⟩ := Fault.ok_of_bind h
  exact kept.addToken (kept.readDigits hs hu) h

theorem readWord (h : m.readWord s = .ok t) : P t := by
  obtain ⟨u, hu, h⟩ := Fault.ok_of_bind h
  obtain ⟨word, _, h⟩ := Fault.ok_of_bind h
  exact kept.addToken (kept.skipWhile hs hu) h

theorem readString (h : m.readString s = .ok t) : P t := by
  obtain ⟨u, hu, h⟩ := Fault.ok_of_bind h
  have body := kept.skipWhile hs hu
  split at h
  · cases h
    exact kept.addError _ body
  · obtain ⟨⟨o, v⟩, hv, h⟩ := Fault.ok_of_bind h
    obtain ⟨value, _, h⟩ := Fault.ok_of_bind h
    exact kept.addToken (kept.advance body hv) h

theorem accept {c : Char} {found : Bool} (h : m.accept c s = .ok (found, t)) : P t := by
  unfold Machine.accept at h
  split at h
  · obtain ⟨⟨o, u⟩, hu, h⟩ := Fault.ok_of_bind h
    cases h
    exact kept.advance hs hu
  · cases h
    exact hs

theorem readPunctuator {p : Punctuator} (h : m.readPunctuator p s = .ok t) : P t := by
  unfold Machine.readPunctuator at h
  split at h
  · exact kept.addToken hs h
  · obtain ⟨⟨found, u⟩, hu, h⟩ := Fault.ok_of_bind h
    exact kept.addToken (kept.accept hs hu) h

theorem readPiece {c : Char} (h : m.readPiece c s = .ok t) : P t := by
  unfold Machine.readPiece at h
  split at h
  · cases h
    exact hs
  split at h
  · exact kept.skipWhile hs h
  split at h
  · exact kept.readNumber hs h
  split at h
  · exact kept.readWord hs h
  split at h
  · exact kept.readString hs h
  split at h
  · exact kept.readPunctuator hs h
  · cases h
    exact kept.addError _ hs

theorem scanToken (h : m.scanToken s = .ok t) : P t := by
  obtain ⟨⟨o, u⟩, hu, h⟩ := Fault.ok_of_bind h
  have behind := kept.advance hs hu
  cases o with
  | none =>
    cases h
    exact behind
  | some c => exact kept.readPiece behind h

end Kept

/-- The cursor never goes back. -/
theorem kept_pos (n : Nat) : m.Kept fun t => n ≤ t.pos where
  advance hs h := Nat.le_trans hs (pos_le_advance h)
  addToken hs h := by rwa [pos_addToken h]
  addError _ hs := hs

/-- In front of a character, reading a piece moves the cursor on. -/
theorem pos_lt_scanToken (inside : s.pos < m.table.length) (h : m.scanToken s = .ok t) :
    s.pos < t.pos := by
  obtain ⟨c, hpeek⟩ : ∃ c, m.peek s = some c := by
    rw [peek, List.getElem?_eq_getElem inside]
    exact ⟨_, rfl⟩
  obtain ⟨⟨o, u⟩, hu, h⟩ := Fault.ok_of_bind h
  have moved := pos_of_advance hpeek hu
  apply Nat.lt_of_succ_le
  rw [← Nat.add_one, ← moved]
  cases o with
  | none =>
    cases h
    exact Nat.le_refl _
  | some d => exact (kept_pos u.pos).readPiece (Nat.le_refl _) h

variable (m)

/-- Reads piece after piece up to the end of the text. -/
def scan (s : Cursor) : Except Fault Cursor :=
  if _hend : m.atEnd s then .ok s
  else
    match _hscan : m.scanToken s.mark with
    | .error fault => .error fault
    | .ok t => scan t
termination_by m.table.length - s.pos
decreasing_by
  have inside : s.pos < m.table.length := by simpa [atEnd] using ‹¬ m.atEnd s = true›
  have moved : s.pos < t.pos := pos_lt_scanToken (s := s.mark) inside ‹_›
  omega

variable {m}

theorem scan_eq_self (h : m.atEnd s = true) : m.scan s = .ok s := by
  rw [scan, dif_pos h]

theorem scan_eq_bind (h : m.atEnd s = false) : m.scan s = m.scanToken s.mark >>= m.scan := by
  rw [scan, dif_neg (by simp [h])]
  split <;> simp_all [bind, Except.bind]

variable (m)

/-- Adds the end of input, which is not logged itself, and logs how much was found. -/
def finish (s : Cursor) : Cursor :=
  let stop := byteLength m.text
  let tokens := s.tokens ++ [Token.eof ⟨stop, stop, s.line, s.column⟩]
  let counts := LogRecord.summary tokens.length s.line s.errors.length
  { s with tokens := tokens, log := s.log ++ [counts] }

/-- Reads the whole text. -/
def run : Except Fault Cursor := do
  let s ← m.scan Cursor.origin
  return m.finish s

def lexing : Except Fault Lexing := do
  let s ← m.run
  return ⟨s.tokens, s.errors⟩

/-- What a run logs, as far as a verbosity allows. -/
def log (v : Verbosity) : Except Fault (List LogRecord) := do
  let s ← m.run
  return s.log.filter fun x => v.allows x.level

end Machine

/-- How many tokens a check reports: all but the end of input. -/
def Lexing.countRead (r : Lexing) : Except Fault Nat :=
  Fault.sub r.tokens.length 1

end LoxLexer
