import LoxLexer.Json.Quoted

/-!
# The symbols of a JSON text

A JSON text is brackets, commas, colons and scalar values with blanks between them. Only four
characters are blank. Words are `null`, `true` and `false`; a number has no leading zero, and
digits on both sides of its point. Whether brackets match is not asked here.
-/
namespace LoxLexer.Json

inductive Symbol
  | openArray
  | closeArray
  | openObject
  | closeObject
  | comma
  | colon
  | null
  | bool (b : Bool)
  | nat (n : Nat)
  | number (text : String)
  | string (text : Option String)
deriving DecidableEq, Repr

namespace Symbol

def isSpace (c : Char) : Bool :=
  c == ' ' || c == '\n' || c == '\r' || c == '\t'

def ofWord? (word : List Char) : Option Symbol :=
  if word = ['n', 'u', 'l', 'l'] then some null
  else if word = ['t', 'r', 'u', 'e'] then some (bool true)
  else if word = ['f', 'a', 'l', 's', 'e'] then some (bool false)
  else none

def isNumberPart (c : Char) : Bool :=
  c.isDigit || c == '-' || c == '+' || c == '.' || c == 'e' || c == 'E'

def natOfDigits (digits : List Char) : Nat :=
  digits.foldl (fun n c => 10 * n + (c.toNat - 48)) 0

/-- Digits without a leading zero, or the digit zero. -/
def isWhole (digits : List Char) : Bool :=
  digits != [] && (digits == ['0'] || digits.head? != some '0')

/-- Nothing, or an exponent: its letter, an optional sign and digits. -/
def isExponent : List Char → Bool
  | [] => true
  | e :: rest =>
    let digits :=
      match rest with
      | '+' :: digits => digits
      | '-' :: digits => digits
      | digits => digits
    (e == 'e' || e == 'E') && digits != [] && digits.all Char.isDigit

/-- What may follow the whole part: a fraction, an exponent, both or nothing. -/
def isScale : List Char → Bool
  | '.' :: rest => rest.takeWhile Char.isDigit != [] && isExponent (rest.dropWhile Char.isDigit)
  | rest => isExponent rest

/-- A run of characters as a number; only digits alone are a natural number. -/
def ofNumber? (run : List Char) : Option Symbol :=
  let unsigned := if run.head? = some '-' then run.tail else run
  let whole := unsigned.takeWhile Char.isDigit
  if isWhole whole && isScale (unsigned.dropWhile Char.isDigit) then
    if whole = run then some (nat (natOfDigits run)) else some (number (String.ofList run))
  else none

/-- The symbol that `c` begins when `cs` follows it, and what is left of `cs` after it. -/
def first? (c : Char) (cs : List Char) : Option (Symbol × List Char) :=
  if c = '[' then some (openArray, cs)
  else if c = ']' then some (closeArray, cs)
  else if c = '\x7b' then some (openObject, cs)
  else if c = '\x7d' then some (closeObject, cs)
  else if c = ',' then some (comma, cs)
  else if c = ':' then some (colon, cs)
  else if c = '"' then
    (readQuoted? cs).map fun r => (string ((joinUnits? r.1).map String.ofList), r.2)
  else if c.isAlpha then
    (ofWord? (c :: cs.takeWhile Char.isAlpha)).map fun s => (s, cs.dropWhile Char.isAlpha)
  else if c.isDigit || c == '-' then
    (ofNumber? (c :: cs.takeWhile isNumberPart)).map fun s => (s, cs.dropWhile isNumberPart)
  else none

theorem first?_length_le {c : Char} {cs : List Char} {r : Symbol × List Char}
    (h : first? c cs = some r) : r.2.length ≤ cs.length := by
  have dropped (p : Char → Bool) : (cs.dropWhile p).length ≤ cs.length :=
    (List.dropWhile_suffix p).length_le
  unfold first? at h
  iterate 6
    split at h
    · cases h
      exact Nat.le_refl _
  split at h
  · obtain ⟨q, hq, rfl⟩ := Option.map_eq_some_iff.1 h
    exact Nat.le_of_lt (readQuoted?_length_lt hq)
  split at h
  · obtain ⟨s, _, rfl⟩ := Option.map_eq_some_iff.1 h
    exact dropped _
  split at h
  · obtain ⟨s, _, rfl⟩ := Option.map_eq_some_iff.1 h
    exact dropped _
  · cases h

end Symbol

private def symbolsOnto (done : List Symbol) : List Char → Option (List Symbol)
  | [] => some done.reverse
  | c :: cs =>
    if Symbol.isSpace c then symbolsOnto done cs
    else
      match _h : Symbol.first? c cs with
      | some (s, rest) => symbolsOnto (s :: done) rest
      | none => none
termination_by cs => cs.length
decreasing_by
  · exact Nat.lt_succ_self _
  · exact Nat.lt_succ_of_le (Symbol.first?_length_le _h)

/-- The symbols of a text, unless something in it begins none. -/
def symbols? (cs : List Char) : Option (List Symbol) :=
  symbolsOnto [] cs

private theorem symbolsOnto_eq (done : List Symbol) (cs : List Char) :
    symbolsOnto done cs = (symbols? cs).map (done.reverse ++ ·) := by
  have step (done more : List Symbol) (cs : List Char) :
      symbolsOnto (done ++ more) cs = (symbolsOnto done cs).map (more.reverse ++ ·) := by
    fun_induction symbolsOnto done cs with
    | case1 done => simp [symbolsOnto]
    | case2 done c cs space ih => rw [symbolsOnto, if_pos space, ih]
    | case3 done c cs space s rest h ih =>
      rw [symbolsOnto, if_neg space]
      split <;> simp_all
    | case4 done c cs space h =>
      rw [symbolsOnto, if_neg space]
      split <;> simp_all
  simpa [symbols?] using step [] done cs

@[simp] theorem symbols?_nil : symbols? [] = some [] := by
  simp [symbols?, symbolsOnto]

theorem symbols?_space {c : Char} (cs : List Char) (h : Symbol.isSpace c = true) :
    symbols? (c :: cs) = symbols? cs := by
  rw [symbols?, symbolsOnto, if_pos h]
  rfl

theorem symbols?_cons {c : Char} (cs : List Char) (h : Symbol.isSpace c = false) :
    symbols? (c :: cs) =
      match Symbol.first? c cs with
      | some (s, rest) => (symbols? rest).map (s :: ·)
      | none => none := by
  rw [symbols?, symbolsOnto, if_neg (by simp [h])]
  split <;> simp_all [symbolsOnto_eq [_]]

end LoxLexer.Json
