import LoxLexer.Json.Basic

/-!
# Quoted strings

A quoted string is read character by character up to its closing quote. An escaped code of a
surrogate is kept as a half; halves then join in pairs, and a half without its partner leaves the
string without a text.
-/
namespace LoxLexer.Json

/-- A character of a string, or an escaped half of a surrogate pair. -/
inductive CodeUnit
  | scalar (c : Char)
  | surrogate (code : Nat)
deriving DecidableEq, Repr

def hexValue? (c : Char) : Option Nat :=
  if c.isDigit then some (c.toNat - 48)
  else if 'a' ≤ c ∧ c ≤ 'f' then some (c.toNat - 87)
  else if 'A' ≤ c ∧ c ≤ 'F' then some (c.toNat - 55)
  else none

def codeUnit (code : Nat) : CodeUnit :=
  if 0xD800 ≤ code ∧ code < 0xE000 then .surrogate code else .scalar (Char.ofNat code)

/-- The code unit with four hexadecimal digits. -/
def codeUnit? (a b c d : Char) : Option CodeUnit := do
  let a ← hexValue? a
  let b ← hexValue? b
  let c ← hexValue? c
  let d ← hexValue? d
  return codeUnit (((a * 16 + b) * 16 + c) * 16 + d)

/-- The characters that stand for themselves or for a control character after a backslash. -/
def escaped? : Char → Option Char
  | '"' => some '"'
  | '\\' => some '\\'
  | '/' => some '/'
  | 'b' => some '\x08'
  | 'f' => some '\x0c'
  | 'n' => some '\n'
  | 'r' => some '\r'
  | 't' => some '\t'
  | _ => none

private def readQuotedOnto (done : List CodeUnit) :
    List Char → Option (List CodeUnit × List Char)
  | '"' :: rest => some (done.reverse, rest)
  | '\\' :: 'u' :: a :: b :: c :: d :: rest =>
    match codeUnit? a b c d with
    | some unit => readQuotedOnto (unit :: done) rest
    | none => none
  | '\\' :: c :: rest =>
    match escaped? c with
    | some c => readQuotedOnto (.scalar c :: done) rest
    | none => none
  | c :: rest => if c.toNat < 0x20 then none else readQuotedOnto (.scalar c :: done) rest
  | [] => none

/-- The code units up to the closing quote and what follows it; the opening quote is gone. -/
def readQuoted? (cs : List Char) : Option (List CodeUnit × List Char) :=
  readQuotedOnto [] cs

private theorem readQuotedOnto_eq (done : List CodeUnit) (cs : List Char) :
    readQuotedOnto done cs =
      (readQuoted? cs).map fun r => (done.reverse ++ r.1, r.2) := by
  have step (done more : List CodeUnit) (cs : List Char) :
      readQuotedOnto (done ++ more) cs =
        (readQuotedOnto done cs).map fun r => (more.reverse ++ r.1, r.2) := by
    fun_induction readQuotedOnto done cs with
    | case1 => simp [readQuotedOnto]
    | case2 done a b c d rest unit h ih => simpa [readQuotedOnto, h] using ih
    | case3 done a b c d rest h => simp [readQuotedOnto, h]
    | case4 done c rest short e h ih =>
      rw [readQuotedOnto.eq_3 _ _ _ short, h]
      exact ih
    | case5 done c rest short h =>
      rw [readQuotedOnto.eq_3 _ _ _ short, h]
      rfl
    | case6 done c rest quote code slash control =>
      rw [readQuotedOnto.eq_4 _ _ _ quote code slash, if_pos control]
      rfl
    | case7 done c rest quote code slash control ih =>
      rw [readQuotedOnto.eq_4 _ _ _ quote code slash, if_neg control]
      exact ih
    | case8 => simp [readQuotedOnto]
  simpa [readQuoted?] using step [] done cs

@[simp] theorem readQuoted?_nil : readQuoted? [] = none := by
  simp [readQuoted?, readQuotedOnto]

@[simp] theorem readQuoted?_close (rest : List Char) :
    readQuoted? ('"' :: rest) = some ([], rest) := by
  simp [readQuoted?, readQuotedOnto]

theorem readQuoted?_plain {c : Char} (rest : List Char) (quote : c ≠ '"') (slash : c ≠ '\\')
    (control : 0x20 ≤ c.toNat) :
    readQuoted? (c :: rest) = (readQuoted? rest).map fun r => (.scalar c :: r.1, r.2) := by
  rw [readQuoted?, readQuotedOnto.eq_4, readQuotedOnto_eq, if_neg (by omega)]
  · simp
  all_goals simp_all

theorem readQuoted?_escaped {c e : Char} (rest : List Char) (h : escaped? c = some e) :
    readQuoted? ('\\' :: c :: rest) =
      (readQuoted? rest).map fun r => (.scalar e :: r.1, r.2) := by
  rw [readQuoted?, readQuotedOnto.eq_3, h]
  · simp [readQuotedOnto_eq]
  · rintro a b c d rest rfl
    simp [escaped?] at h

theorem readQuoted?_code {a b c d : Char} {unit : CodeUnit} (rest : List Char)
    (h : codeUnit? a b c d = some unit) :
    readQuoted? ('\\' :: 'u' :: a :: b :: c :: d :: rest) =
      (readQuoted? rest).map fun r => (unit :: r.1, r.2) := by
  rw [readQuoted?, readQuotedOnto, h]
  simp [readQuotedOnto_eq]

theorem readQuoted?_length_lt {cs : List Char} {r : List CodeUnit × List Char}
    (h : readQuoted? cs = some r) : r.2.length < cs.length := by
  have shorter (done : List CodeUnit) (cs : List Char) {r : List CodeUnit × List Char}
      (h : readQuotedOnto done cs = some r) : r.2.length < cs.length := by
    fun_induction readQuotedOnto done cs <;> simp_all <;> grind
  exact shorter [] cs h

private def joinUnitsOnto (done : List Char) : List CodeUnit → Option (List Char)
  | [] => some done.reverse
  | .scalar c :: units => joinUnitsOnto (c :: done) units
  | .surrogate high :: .surrogate low :: units =>
    if high < 0xDC00 ∧ 0xDC00 ≤ low then
      joinUnitsOnto
        (Char.ofNat (0x10000 + (high - 0xD800) * 0x400 + (low - 0xDC00)) :: done) units
    else none
  | .surrogate _ :: _ => none

/-- The characters that code units stand for, unless half of a pair stands alone. -/
def joinUnits? (units : List CodeUnit) : Option (List Char) :=
  joinUnitsOnto [] units

/-- Text without surrogates joins to itself. -/
theorem joinUnits?_scalar (cs : List Char) : joinUnits? (cs.map .scalar) = some cs := by
  have onto (done cs : List Char) :
      joinUnitsOnto done (cs.map .scalar) = some (done.reverse ++ cs) := by
    induction cs generalizing done <;> simp_all [joinUnitsOnto]
  exact onto [] cs

end LoxLexer.Json
