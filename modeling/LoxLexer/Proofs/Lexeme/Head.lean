import LoxLexer.Proofs.Lexeme.Pattern

/-!
# How lexemes begin

The first character of a valid lexeme tells numbers and words from each other and from all else, and
the equals sign, the slash and the point tell which punctuators they begin. The kind of a lexeme
tells as much.
-/
namespace LoxLexer

/-- The kinds of words: identifiers and reserved words. -/
def Kind.IsWord (k : Kind) : Prop :=
  k = .identifier ∨ k.isKeyword = true

theorem Opening.ofChar_eq_digit_iff {c : Char} : ofChar c = digit ↔ c.isDigit = true := by
  unfold ofChar
  split
  · simp_all
  · split
    · simp_all
    · split <;> simp_all

theorem isWordPart_iff_opening {c : Char} :
    isWordPart c = true ↔ Opening.ofChar c = .digit ∨ Opening.ofChar c = .letter := by
  rw [isWordPart_eq, Opening.ofChar]
  cases c.isDigit <;> cases isWordStart c <;> simp
  split <;> simp

namespace Lexeme

variable {l : Lexeme} {c : Char}

theorem kind_eq_number_iff : l.kind = .number ↔ l.pattern = .number := by
  cases l with
  | word letters => cases h : Keyword.ofText? letters <;> simp [kind, pattern, h]
  | _ => simp [kind, pattern]

theorem exists_number_of_kind (h : l.kind = .number) : ∃ d, l = number d := by
  cases l with
  | number d => exact ⟨d, rfl⟩
  | _ => exact absurd (kind_eq_number_iff.1 h) (by simp [pattern])

theorem kind_isWord_iff : l.kind.IsWord ↔ l.pattern = .word := by
  cases l with
  | word letters =>
    cases h : Keyword.ofText? letters <;> simp [kind, pattern, h, Kind.IsWord, Kind.isKeyword]
  | _ => simp [kind, pattern, Kind.IsWord, Kind.isKeyword]

theorem head_opening (valid : l.Valid) (h : l.text.head? = some c) :
    Opening.ofChar c = l.pattern.opening := by
  obtain ⟨d, cs, htext, hd⟩ := (matches_text valid).opening
  rw [htext] at h
  cases h
  exact hd

theorem head_isDigit_iff (valid : l.Valid) (h : l.text.head? = some c) :
    c.isDigit = true ↔ l.kind = .number := by
  rw [kind_eq_number_iff, ← Opening.ofChar_eq_digit_iff, head_opening valid h]
  cases l <;> simp [pattern, Pattern.opening]

theorem head_isWordPart_iff (valid : l.Valid) (h : l.text.head? = some c) :
    isWordPart c = true ↔ l.kind.IsWord ∨ l.kind = .number := by
  rw [kind_eq_number_iff, kind_isWord_iff, isWordPart_iff_opening, head_opening valid h]
  cases l <;> simp [pattern, Pattern.opening]

/-- Only a punctuator begins with a character of the operators. -/
theorem exists_punctuator_of_head (valid : l.Valid) (h : l.text.head? = some c)
    (hc : Opening.ofChar c = .operator) : ∃ p, l = .punctuator p := by
  have opens := (head_opening valid h).symm.trans hc
  cases l with
  | punctuator p => exact ⟨p, rfl⟩
  | number d => cases opens
  | string body => cases opens
  | word letters => cases opens

theorem head_eq_equal_iff (valid : l.Valid) :
    l.text.head? = some '=' ↔ ∃ q ∈ [Punctuator.equal, .equalEqual], l.kind = .punctuator q := by
  constructor
  · intro h
    obtain ⟨p, rfl⟩ := exists_punctuator_of_head valid h (by decide)
    refine ⟨p, ?_, rfl⟩
    cases p <;> first | exact absurd h (by decide) | decide
  · rintro ⟨q, hq, hk⟩
    obtain rfl := kind_eq_punctuator_iff.1 hk
    cases q <;> first | exact absurd hq (by decide) | rfl

theorem head_eq_slash_iff (valid : l.Valid) :
    l.text.head? = some '/' ↔ l.kind = .punctuator .slash := by
  constructor
  · intro h
    obtain ⟨p, rfl⟩ := exists_punctuator_of_head valid h (by decide)
    rw [Punctuator.eq_slash_of_head h]
    rfl
  · intro hk
    obtain rfl := kind_eq_punctuator_iff.1 hk
    rfl

theorem eq_dot_of_head (valid : l.Valid) (h : l.text.head? = some '.') : l = .punctuator .dot := by
  obtain ⟨p, rfl⟩ := exists_punctuator_of_head valid h (by decide)
  cases p <;> first | rfl | exact absurd h (by decide)

theorem head?_text_append {next : Lexeme} (valid : next.Valid) (rest : List Char) :
    (next.text ++ rest).head? = next.text.head? := by
  obtain ⟨c, cs, htext⟩ := List.exists_cons_of_ne_nil (text_ne_nil valid)
  rw [htext]
  rfl

/-- No character of a class begins a lexeme when the class is told by something that fails of it. -/
theorem forall_head_false_iff {next : Lexeme} {p : Char → Bool} {told : Prop} (valid : next.Valid)
    (h : ∀ c, next.text.head? = some c → (p c = true ↔ told)) (rest : List Char) :
    (∀ c ∈ (next.text ++ rest).head?, p c = false) ↔ ¬ told := by
  obtain ⟨c, cs, htext⟩ := List.exists_cons_of_ne_nil (text_ne_nil valid)
  have hc : next.text.head? = some c := by rw [htext]; rfl
  rw [head?_text_append valid, hc, ← h c hc]
  simp

end Lexeme

end LoxLexer
