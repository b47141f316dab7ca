import LoxLexer.Proofs.Piece.Stops

/-!
# The patterns of the language

A pattern says which whole texts are numbers, strings, words, punctuators or line comments, without
saying how they are found. A pattern and the text that it matches decide the kind and the literal.
Among the patterns, only its own matches a valid lexeme.
-/
namespace LoxLexer

inductive Pattern
  | number
  | string
  | word
  | punctuator (p : Punctuator)
  | comment
deriving DecidableEq, Repr

namespace Pattern

/-- The whole of `cs` has the shape of the pattern. -/
def Matches : Pattern → List Char → Prop
  | number, cs =>
    IsDigits cs ∨ ∃ whole digits, IsDigits whole ∧ IsDigits digits ∧ cs = whole ++ '.' :: digits
  | string, cs => ∃ body, '"' ∉ body ∧ cs = '"' :: body ++ ['"']
  | word, cs => IsWord cs
  | punctuator p, cs => cs = p.text
  | comment, cs => ∃ body, '\n' ∉ body ∧ cs = '/' :: '/' :: body

/-- The kind and the literal of a token that is read from `cs` by the pattern. A word is reserved
only as a whole and in its own case; a comment makes no token. -/
def Classifies : Pattern → List Char → Kind → Option Literal → Prop
  | number, cs, kind, literal =>
    kind = .number ∧ literal = some (.number (String.ofList (Decimal.canonical cs)))
  | string, cs, kind, literal =>
    kind = .string ∧ ∃ body, cs = '"' :: body ++ ['"'] ∧
      literal = some (.string (String.ofList body))
  | word, cs, kind, literal =>
    literal = none ∧ ((∃ k : Keyword, cs = k.text ∧ kind = .keyword k) ∨
      (∀ k : Keyword, cs ≠ k.text) ∧ kind = .identifier)
  | punctuator p, _, kind, literal => kind = .punctuator p ∧ literal = none
  | comment, _, _, _ => False

end Pattern

/-- First characters, as they tell the patterns apart. -/
inductive Opening
  | digit
  | letter
  | quote
  | operator
deriving DecidableEq, Repr

def Opening.ofChar (c : Char) : Opening :=
  if c.isDigit then digit else if isWordStart c then letter else if c = '"' then quote else operator

def Pattern.opening : Pattern → Opening
  | number => .digit
  | string => .quote
  | word => .letter
  | punctuator _ => .operator
  | comment => .operator

theorem toNat_of_isWordStart {c : Char} (h : isWordStart c = true) :
    (65 ≤ c.toNat ∧ c.toNat ≤ 90) ∨ (97 ≤ c.toNat ∧ c.toNat ≤ 122) ∨ c = '_' := by
  change (decide (65 ≤ c.val ∧ c.val ≤ 90) ||
    (decide (97 ≤ c.val) && decide (c.val ≤ 122)) || c == '_') = true at h
  simp only [Bool.or_eq_true, Bool.and_eq_true, decide_eq_true_eq, UInt32.le_iff_toNat_le,
    beq_iff_eq, or_assoc] at h
  exact h

theorem isWordStart_of_isDigit {c : Char} (h : c.isDigit = true) : isWordStart c = false := by
  obtain ⟨_, hmax⟩ := Char.isDigit_iff_toNat.1 h
  change c.toNat ≤ 57 at hmax
  rw [Bool.eq_false_iff]
  intro hw
  rcases toNat_of_isWordStart hw with hupper | hlower | rfl
  · omega
  · omega
  · exact absurd h (by decide)

theorem isWordPart_eq (c : Char) : isWordPart c = (c.isDigit || isWordStart c) := by
  simp [isWordPart, isWordStart, Char.isAlphanum, Bool.or_assoc, Bool.or_left_comm]

theorem isWordPart_of_isDigit {c : Char} (h : c.isDigit = true) : isWordPart c = true := by
  rw [isWordPart_eq, h, Bool.true_or]

theorem IsDigits.opening {cs : List Char} (h : IsDigits cs) :
    ∃ c rest, cs = c :: rest ∧ Opening.ofChar c = .digit := by
  obtain ⟨c, rest, rfl⟩ := List.exists_cons_of_ne_nil h.1
  exact ⟨c, rest, rfl, if_pos (h.2 c List.mem_cons_self)⟩

namespace Punctuator

theorem text_opening (p : Punctuator) :
    ∃ c cs, p.text = c :: cs ∧ Opening.ofChar c = .operator := by
  cases p <;> exact ⟨_, _, rfl, by decide⟩

/-- A punctuator of two characters ends in an equals sign. -/
theorem text_of_two {p : Punctuator} (h : 1 < p.text.length) : ∃ c, p.text = [c, '='] := by
  cases p <;> first | exact ⟨_, rfl⟩ | exact absurd h (by decide)

theorem ofChar?_of_head {p : Punctuator} {c : Char} (h : p.text.head? = some c) :
    (ofChar? c).isSome = true := by
  cases p <;> cases h <;> rfl

theorem eq_slash_of_head {p : Punctuator} (h : p.text.head? = some '/') : p = slash := by
  cases p <;> first | rfl | exact absurd h (by decide)

end Punctuator

namespace Pattern

variable {p q : Pattern} {cs : List Char}

/-- The first character of a match tells its pattern, among those that open alike. -/
theorem Matches.opening (h : p.Matches cs) :
    ∃ c rest, cs = c :: rest ∧ Opening.ofChar c = p.opening := by
  cases p with
  | number =>
    rcases h with h | ⟨whole, digits, h, _, rfl⟩
    · exact IsDigits.opening h
    · obtain ⟨c, rest, rfl, hc⟩ := IsDigits.opening h
      exact ⟨c, rest ++ '.' :: digits, rfl, hc⟩
  | string =>
    obtain ⟨body, _, rfl⟩ := h
    exact ⟨'"', body ++ ['"'], rfl, by decide⟩
  | word =>
    cases cs with
    | nil => exact h.elim
    | cons c rest =>
      refine ⟨c, rest, rfl, ?_⟩
      have hdigit : ¬ c.isDigit = true := fun hd => by simpa [h.1] using isWordStart_of_isDigit hd
      rw [Opening.ofChar, if_neg hdigit, if_pos h.1]
      rfl
  | punctuator p =>
    obtain ⟨c, rest, htext, hc⟩ := p.text_opening
    exact ⟨c, rest, h.trans htext, hc⟩
  | comment =>
    obtain ⟨body, _, rfl⟩ := h
    exact ⟨'/', '/' :: body, rfl, by decide⟩

/-- Matches at the start of one text open alike. -/
theorem Matches.opening_eq {xs ys zs : List Char} (hp : p.Matches xs) (hq : q.Matches ys)
    (hx : xs <+: zs) (hy : ys <+: zs) : p.opening = q.opening := by
  obtain ⟨c, xs, rfl, hc⟩ := hp.opening
  obtain ⟨d, ys, rfl, hd⟩ := hq.opening
  obtain ⟨_, rfl⟩ := hx
  obtain ⟨_, h⟩ := hy
  obtain ⟨rfl, _⟩ := List.cons.inj h
  rw [← hc, ← hd]

/-- No pattern matches where an unexpected character stands. -/
theorem Matches.head_ne_unexpected {c : Char} (h : q.Matches cs)
    (valid : (Piece.unexpected c).Valid) : cs.head? ≠ some c := by
  obtain ⟨d, rest, rfl, hd⟩ := h.opening
  intro hc
  cases hc
  obtain ⟨_, hdigit, hword, hquote, hoperator⟩ := valid
  rw [Opening.ofChar, if_neg (by simp [hdigit]), if_neg (by simp [hword]), if_neg hquote] at hd
  cases q with
  | number => cases hd
  | string => cases hd
  | word => cases hd
  | punctuator p =>
    have hp : p.text.head? = some c := by rw [← (h : c :: rest = p.text)]; rfl
    simpa [hoperator] using Punctuator.ofChar?_of_head hp
  | comment =>
    obtain ⟨body, _, hbody⟩ := h
    obtain ⟨rfl, _⟩ := List.cons.inj hbody
    exact absurd hoperator (by decide)

end Pattern

theorem Punctuator.text_injective {p q : Punctuator} (h : p.text = q.text) : p = q := by
  have table : ∀ p ∈ all, ∀ q ∈ all, p.text = q.text → p = q := by decide
  exact table p p.mem_all q q.mem_all h

theorem isWordPart_of_isWord {cs : List Char} (h : IsWord cs) : ∀ c ∈ cs, isWordPart c = true := by
  cases cs with
  | nil => simp
  | cons c cs =>
    intro d hd
    rcases List.mem_cons.1 hd with rfl | hd
    · exact isWordPart_of_isWordStart h.1
    · exact h.2 d hd

namespace Lexeme

/-- The pattern that a lexeme is an instance of. -/
def pattern : Lexeme → Pattern
  | punctuator p => .punctuator p
  | number _ => .number
  | string _ => .string
  | word _ => .word

variable {l : Lexeme} {q : Pattern}

theorem matches_text (h : l.Valid) : l.pattern.Matches l.text := by
  cases l with
  | punctuator p => rfl
  | number d =>
    obtain ⟨whole, _ | digits⟩ := d
    · exact .inl h.1
    · exact .inr ⟨whole, digits, h.1, h.2 digits rfl, rfl⟩
  | string body => exact ⟨body, h, rfl⟩
  | word letters => exact h

theorem kind_eq_punctuator_iff {p : Punctuator} : l.kind = .punctuator p ↔ l = .punctuator p := by
  cases l with
  | word letters => cases h : Keyword.ofText? letters <;> simp [kind, h]
  | _ => simp [kind]

/-- Only its own pattern matches a valid lexeme. -/
theorem eq_pattern_of_matches (h : l.Valid) (hq : q.Matches l.text) : q = l.pattern := by
  have opens := hq.opening_eq (matches_text h) (List.prefix_refl _) (List.prefix_refl _)
  cases l with
  | punctuator p =>
    cases q with
    | punctuator q => rw [Punctuator.text_injective hq]; rfl
    | comment =>
      obtain ⟨body, _, htext⟩ := hq
      obtain rfl : p = .slash := Punctuator.eq_slash_of_head (congrArg List.head? htext)
      cases htext
    | number => cases opens
    | string => cases opens
    | word => cases opens
  | number d => cases q <;> first | rfl | cases opens
  | string body => cases q <;> first | rfl | cases opens
  | word letters => cases q <;> first | rfl | cases opens

/-- The kind and the literal of a valid lexeme are those of its pattern. -/
theorem classifies_text (h : l.Valid) : l.pattern.Classifies l.text l.kind l.literal := by
  cases l with
  | punctuator p => exact ⟨rfl, rfl⟩
  | number d =>
    refine ⟨rfl, ?_⟩
    have point : '.' ∉ d.whole := fun hm => absurd (h.1.2 '.' hm) (by decide)
    change _ = some (Literal.number (String.ofList (Decimal.ofText d.text).normalize.text))
    rw [Decimal.ofText_text point]
    rfl
  | string body => exact ⟨rfl, body, rfl, rfl⟩
  | word letters =>
    refine ⟨rfl, ?_⟩
    change (∃ k, letters = Keyword.text k ∧ kind (word letters) = .keyword k) ∨
      (∀ k, letters ≠ Keyword.text k) ∧ kind (word letters) = .identifier
    cases hk : Keyword.ofText? letters with
    | none =>
      refine .inr ⟨?_, by rw [kind, hk]⟩
      intro k hletters
      rw [Keyword.ofText?_eq_some_iff.2 hletters] at hk
      cases hk
    | some k => exact .inl ⟨k, Keyword.ofText?_eq_some_iff.1 hk, by rw [kind, hk]⟩

end Lexeme

end LoxLexer
