import LoxLexer.Decimal
import LoxLexer.Token.Basic

/-!
# Lexemes

A lexeme is what a token is read from, by its shape: a punctuator, a number, a quoted string or a
word. Its kind and its literal depend on nothing else.
-/
namespace LoxLexer

inductive Lexeme
  | punctuator (p : Punctuator)
  | number (d : Decimal)
  | string (body : List Char)
  | word (letters : List Char)
deriving DecidableEq, Repr

def isWordStart (c : Char) : Bool :=
  c.isAlpha || c == '_'

def isWordPart (c : Char) : Bool :=
  c.isAlphanum || c == '_'

theorem isWordPart_of_isWordStart {c : Char} (h : isWordStart c = true) : isWordPart c = true := by
  simp only [isWordStart, isWordPart, Char.isAlphanum, Bool.or_eq_true] at h ⊢
  rcases h with h | h
  · exact .inl (.inl h)
  · exact .inr h

/-- The texts that a number may have around its point: one ASCII digit or more. -/
def IsDigits (cs : List Char) : Prop :=
  cs ≠ [] ∧ ∀ c ∈ cs, c.isDigit = true

def IsWord : List Char → Prop
  | [] => False
  | c :: cs => isWordStart c = true ∧ ∀ d ∈ cs, isWordPart d = true

namespace Lexeme

def text : Lexeme → List Char
  | punctuator p => p.text
  | number d => d.text
  | string body => '"' :: body ++ ['"']
  | word letters => letters

def kind : Lexeme → Kind
  | punctuator p => .punctuator p
  | number _ => .number
  | string _ => .string
  | word letters =>
    match Keyword.ofText? letters with
    | some k => .keyword k
    | none => .identifier

def literal : Lexeme → Option Literal
  | number d => some (.number (String.ofList d.normalize.text))
  | string body => some (.string (String.ofList body))
  | _ => none

/-- The shapes that the language allows, whatever stands around them. -/
def Valid : Lexeme → Prop
  | punctuator _ => True
  | number d => IsDigits d.whole ∧ ∀ digits, d.fraction = some digits → IsDigits digits
  | string body => '"' ∉ body
  | word letters => IsWord letters

theorem kind_ne_eof (l : Lexeme) : l.kind ≠ .eof := by
  cases l with
  | word letters => cases h : Keyword.ofText? letters <;> simp [kind, h]
  | _ => simp [kind]

theorem text_ne_nil {l : Lexeme} (h : l.Valid) : l.text ≠ [] := by
  cases l with
  | punctuator p => cases p <;> simp [text, Punctuator.text]
  | number d =>
    obtain ⟨whole, _ | digits⟩ := d
    · exact h.1.1
    · simp [text, Decimal.text]
  | string body => simp [text]
  | word letters =>
    cases letters with
    | nil => exact h.elim
    | cons c cs => simp [text]

end Lexeme

end LoxLexer
