import LoxLexer.Lexeme.Basic
import LoxLexer.Text.Blank

/-!
# Pieces of a source text

A source text is read piece by piece: a blank, a line comment, a lexeme, a character that starts
nothing, or a quote that is never closed. Reading a piece looks only at the text in front of it.
It returns the piece and the rest, which together are that text again. The rest is shorter, so
reading ends. Which of several possible first pieces is the longest is not asked here.
-/
namespace LoxLexer

/-- A comment holds what follows its slashes; an open string holds what follows its quote. -/
inductive Piece
  | blank (c : Char)
  | comment (body : List Char)
  | lexeme (l : Lexeme)
  | unexpected (c : Char)
  | openString (body : List Char)
deriving DecidableEq, Repr

namespace Piece

def text : Piece → List Char
  | blank c => [c]
  | comment body => '/' :: '/' :: body
  | lexeme l => l.text
  | unexpected c => [c]
  | openString body => '"' :: body

/-- What each sort of piece may hold; an unexpected character begins none of the others. -/
def Valid : Piece → Prop
  | blank c => isBlank c = true
  | comment body => '\n' ∉ body
  | lexeme l => l.Valid
  | unexpected c =>
    isBlank c = false ∧ c.isDigit = false ∧ isWordStart c = false ∧ c ≠ '"' ∧
      Punctuator.ofChar? c = none
  | openString body => '"' ∉ body

theorem text_ne_nil {p : Piece} (h : p.Valid) : p.text ≠ [] := by
  cases p with
  | lexeme l => exact Lexeme.text_ne_nil h
  | _ => simp [text]

/-- The digits in front, and a point with more digits if a digit follows the point. -/
def firstNumber (cs : List Char) : Decimal × List Char :=
  match cs.dropWhile Char.isDigit with
  | '.' :: d :: rest =>
    if d.isDigit then
      (⟨cs.takeWhile Char.isDigit, some ((d :: rest).takeWhile Char.isDigit)⟩,
        (d :: rest).dropWhile Char.isDigit)
    else (⟨cs.takeWhile Char.isDigit, none⟩, '.' :: d :: rest)
  | rest => (⟨cs.takeWhile Char.isDigit, none⟩, rest)

/-- What a quote begins when `cs` follows it; a string may run over several lines. -/
def firstString (cs : List Char) : Piece × List Char :=
  match cs.dropWhile (· != '"') with
  | [] => (openString cs, [])
  | _ :: rest => (lexeme (.string (cs.takeWhile (· != '"'))), rest)

/-- An operator takes an equals sign directly after it when there is such an operator. -/
def firstPunctuator (p : Punctuator) (cs : List Char) : Punctuator × List Char :=
  match p.withEqual?, cs with
  | some q, '=' :: rest => (q, rest)
  | _, _ => (p, cs)

/-- The piece that `c` begins when `cs` follows it, and what is left of `cs` after it. -/
def first (c : Char) (cs : List Char) : Piece × List Char :=
  if isBlank c then (blank c, cs)
  else if c.isDigit then
    (lexeme (.number (firstNumber (c :: cs)).1), (firstNumber (c :: cs)).2)
  else if isWordStart c then
    (lexeme (.word ((c :: cs).takeWhile isWordPart)), (c :: cs).dropWhile isWordPart)
  else if c = '"' then firstString cs
  else if c = '/' ∧ cs.head? = some '/' then
    (comment (cs.tail.takeWhile (· != '\n')), cs.tail.dropWhile (· != '\n'))
  else
    match Punctuator.ofChar? c with
    | some p => (lexeme (.punctuator (firstPunctuator p cs).1), (firstPunctuator p cs).2)
    | none => (unexpected c, cs)

theorem firstNumber_text (cs : List Char) :
    (firstNumber cs).1.text ++ (firstNumber cs).2 = cs := by
  have whole := List.takeWhile_append_dropWhile (p := Char.isDigit) (l := cs)
  unfold firstNumber
  split
  · rename_i d rest h
    rw [h] at whole
    split
    · simp [Decimal.text, List.takeWhile_append_dropWhile, whole]
    · simp [Decimal.text, whole]
  · simp [Decimal.text, whole]

theorem firstString_text (cs : List Char) :
    (firstString cs).1.text ++ (firstString cs).2 = '"' :: cs := by
  have whole := List.takeWhile_append_dropWhile (p := (· != '"')) (l := cs)
  have quote := List.head?_dropWhile_not (· != '"') cs
  unfold firstString
  cases h : cs.dropWhile (· != '"') with
  | nil => simp [text]
  | cons d rest =>
    simp only [h, List.head?_cons, bne_eq_false_iff_eq] at quote
    rw [h, quote] at whole
    simpa [text, Lexeme.text] using whole

theorem firstPunctuator_text (p : Punctuator) (cs : List Char) :
    (firstPunctuator p cs).1.text ++ (firstPunctuator p cs).2 = p.text ++ cs := by
  unfold firstPunctuator
  split
  · rename_i q rest h
    simp [Punctuator.text_of_withEqual? h]
  · rfl

/-- Nothing is lost: the first piece and the rest are the text that was read. -/
theorem first_text (c : Char) (cs : List Char) :
    (first c cs).1.text ++ (first c cs).2 = c :: cs := by
  unfold first
  split
  · rfl
  split
  · simpa [text, Lexeme.text] using firstNumber_text (c :: cs)
  split
  · simp [text, Lexeme.text, List.takeWhile_append_dropWhile]
  split
  · rename_i h
    simpa [h] using firstString_text cs
  split
  · rename_i h
    obtain ⟨rfl, h⟩ := h
    obtain ⟨rest, rfl⟩ : ∃ rest, cs = '/' :: rest := by
      cases cs with
      | nil => simp at h
      | cons d rest => exact ⟨rest, by simpa using h⟩
    simp [text, List.takeWhile_append_dropWhile]
  · split
    · rename_i p h
      simpa [text, Lexeme.text, Punctuator.text_of_ofChar? h] using firstPunctuator_text p cs
    · rfl

private theorem all_takeWhile (p : Char → Bool) (cs : List Char) :
    ∀ c ∈ cs.takeWhile p, p c = true :=
  List.all_eq_true.1 List.all_takeWhile

theorem firstNumber_valid {c : Char} (h : c.isDigit = true) (cs : List Char) :
    (Lexeme.number (firstNumber (c :: cs)).1).Valid := by
  have whole : IsDigits ((c :: cs).takeWhile Char.isDigit) :=
    ⟨by simp [h], all_takeWhile _ _⟩
  unfold firstNumber
  split
  · rename_i d rest _
    split
    · rename_i hd
      refine ⟨whole, fun digits hs => ?_⟩
      cases hs
      exact ⟨by simp [hd], all_takeWhile _ _⟩
    · exact ⟨whole, by simp⟩
  · exact ⟨whole, by simp⟩

theorem firstString_valid (cs : List Char) : (firstString cs).1.Valid := by
  have body : '"' ∉ cs.takeWhile (· != '"') := fun h => by
    simpa using all_takeWhile _ _ _ h
  unfold firstString
  cases h : cs.dropWhile (· != '"') with
  | nil =>
    have whole := List.takeWhile_append_dropWhile (p := (· != '"')) (l := cs)
    rw [h, List.append_nil] at whole
    exact whole ▸ body
  | cons d rest => exact body

theorem first_valid (c : Char) (cs : List Char) : (first c cs).1.Valid := by
  unfold first
  split
  · assumption
  split
  · exact firstNumber_valid ‹_› cs
  split
  · rename_i h
    simp only [Valid, Lexeme.Valid, List.takeWhile_cons, isWordPart_of_isWordStart h, if_true]
    exact ⟨h, all_takeWhile _ _⟩
  split
  · exact firstString_valid cs
  split
  · exact fun h => by simpa using all_takeWhile _ _ _ h
  · split
    · trivial
    · simp_all [Valid]

/-- Every piece takes at least one character. -/
theorem first_text_ne_nil (c : Char) (cs : List Char) : (first c cs).1.text ≠ [] :=
  text_ne_nil (first_valid c cs)

theorem first_length_lt (c : Char) (cs : List Char) :
    (first c cs).2.length < (c :: cs).length := by
  have whole := congrArg List.length (first_text c cs)
  have used := List.length_pos_iff.2 (first_text_ne_nil c cs)
  rw [List.length_append] at whole
  omega

end Piece

end LoxLexer
