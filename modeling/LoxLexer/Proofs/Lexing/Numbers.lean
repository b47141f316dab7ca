import LoxLexer.Proofs.Lexeme.Head
import LoxLexer.Proofs.Lexeme.Numeral
import LoxLexer.Proofs.Lexing.Reading

/-!
# The literals of numbers

The literal of a number is the normal form of its lexeme. It has the digits in front of the point as
they were written and the same value, and it is itself read as a number with that literal. Numbers
with different digits in front of the point keep different literals even if their values are equal.
-/
namespace LoxLexer

namespace Numeral

/-- `c` is the normal form of the number `x`, and is read as a number that is its own literal. -/
structure IsNormalForm (c x : List Char) : Prop where
  point : ∃ front back, IsDigits front ∧ IsDigits back ∧ c = front ++ '.' :: back
  whole : whole c = whole x
  value : value c = value x
  fraction : fraction c = ['0'] ∨ (fraction c).getLast? ≠ some '0'
  reads : (lex (String.ofList c)).Reads
    [⟨.number, String.ofList c, some (.number (String.ofList c))⟩]

variable {x y : List Char}

theorem matches_canonical (h : Pattern.number.Matches x) :
    Pattern.number.Matches (Decimal.canonical x) := by
  obtain ⟨d, valid, rfl⟩ := Decimal.exists_of_matches h
  rw [Decimal.canonical_text valid]
  exact Lexeme.matches_text (l := .number d.normalize) (Decimal.normalize_valid valid)

theorem whole_canonical (h : Pattern.number.Matches x) :
    whole (Decimal.canonical x) = whole x := by
  obtain ⟨d, valid, rfl⟩ := Decimal.exists_of_matches h
  rw [Decimal.canonical_text valid, Decimal.whole_text (Decimal.normalize_valid valid),
    Decimal.whole_text valid, Decimal.whole_normalize]

theorem value_canonical (h : Pattern.number.Matches x) :
    value (Decimal.canonical x) = value x := by
  obtain ⟨d, valid, rfl⟩ := Decimal.exists_of_matches h
  rw [Decimal.canonical_text valid, Decimal.value_normalize valid]

/-- Numbers have the same canonical form when they have the same digits in front of the point and
the same value, and only then. -/
theorem canonical_eq_iff (hx : Pattern.number.Matches x) (hy : Pattern.number.Matches y) :
    Decimal.canonical x = Decimal.canonical y ↔ whole x = whole y ∧ value x = value y := by
  constructor
  · intro h
    rw [← whole_canonical hx, ← whole_canonical hy, ← value_canonical hx, ← value_canonical hy, h]
    exact ⟨rfl, rfl⟩
  · rintro ⟨same, value⟩
    obtain ⟨d, validd, rfl⟩ := Decimal.exists_of_matches hx
    obtain ⟨e, valide, rfl⟩ := Decimal.exists_of_matches hy
    rw [Decimal.whole_text validd, Decimal.whole_text valide] at same
    rw [Decimal.canonical_text validd, Decimal.canonical_text valide,
      Decimal.normalize_eq_of_value validd valide same value]

theorem fraction_canonical (h : Pattern.number.Matches x) :
    fraction (Decimal.canonical x) = ['0'] ∨
      (fraction (Decimal.canonical x)).getLast? ≠ some '0' := by
  obtain ⟨d, valid, rfl⟩ := Decimal.exists_of_matches h
  rw [Decimal.canonical_text valid, Decimal.fraction_text (Decimal.normalize_valid valid)]
  obtain ⟨digits, hd, htrim⟩ := d.exists_normalize
  rw [hd]
  rcases htrim with ⟨_, rfl⟩ | ⟨rfl, _⟩
  · exact .inl rfl
  · exact .inr (getLast?_trimZeros _)

theorem point_canonical (h : Pattern.number.Matches x) :
    ∃ front back, IsDigits front ∧ IsDigits back ∧ Decimal.canonical x = front ++ '.' :: back := by
  obtain ⟨d, valid, rfl⟩ := Decimal.exists_of_matches h
  obtain ⟨digits, hd, _⟩ := d.exists_normalize
  have normal := Decimal.normalize_valid valid
  rw [Decimal.canonical_text valid, hd]
  rw [hd] at normal
  exact ⟨d.whole, digits, normal.1, normal.2 digits rfl, rfl⟩

/-- The canonical form of a number is the lexeme of a number that is its own literal. -/
theorem valid_canonical (h : Pattern.number.Matches x) :
    Meaning.Valid ⟨.number, String.ofList (Decimal.canonical x),
      some (.number (String.ofList (Decimal.canonical x)))⟩ := by
  refine ⟨.number, ?_, rfl, ?_⟩
  · rw [String.toList_ofList]
    exact matches_canonical h
  · rw [String.toList_ofList, Decimal.canonical_canonical]

theorem isNormalForm_canonical (h : Pattern.number.Matches x) :
    IsNormalForm (Decimal.canonical x) x := by
  have read := reads_alone_iff.2 (valid_canonical h)
  exact ⟨point_canonical h, whole_canonical h, value_canonical h, fraction_canonical h, read⟩

end Numeral

/-- The lexeme of a number token is a number, and its literal the canonical form. -/
theorem literal_of_number {cs : List Char} {t : Token} (h : t ∈ (lexChars cs).tokens)
    (hk : t.kind = .number) : Pattern.number.Matches t.lexeme.toList ∧
      t.literal = some (.number (String.ofList (Decimal.canonical t.lexeme.toList))) := by
  rcases mem_tokens_lexChars.1 h with ⟨before, l, rest, hcut, rfl⟩ | rfl
  · obtain ⟨d, rfl⟩ := Lexeme.exists_number_of_kind hk
    have valid : (Lexeme.number d).Valid := hcut.valid
    rw [Lexeme.token, String.toList_ofList]
    exact ⟨Lexeme.matches_text valid, (Lexeme.classifies_text valid).2⟩
  · cases hk

open Numeral

/-- Every number has a normal form, and it is the literal of the number's token. -/
theorem numbers_normal :
    (∀ x, Pattern.number.Matches x → IsNormalForm (Decimal.canonical x) x) ∧
    (∀ x y, Pattern.number.Matches x → Pattern.number.Matches y →
      (Decimal.canonical x = Decimal.canonical y ↔ whole x = whole y ∧ value x = value y)) ∧
    (∀ source : String, ∀ t ∈ (lex source).tokens, t.kind = .number →
      Pattern.number.Matches t.lexeme.toList ∧
        ∃ text, t.literal = some (.number text) ∧ IsNormalForm text.toList t.lexeme.toList) ∧
    ∀ source source' : String, ∀ t ∈ (lex source).tokens, ∀ t' ∈ (lex source').tokens,
      t.kind = .number → t'.kind = .number →
        (t.literal = t'.literal ↔ whole t.lexeme.toList = whole t'.lexeme.toList ∧
          value t.lexeme.toList = value t'.lexeme.toList) := by
  refine ⟨fun x => isNormalForm_canonical, fun x y => canonical_eq_iff, ?_, ?_⟩
  · intro source t ht hk
    obtain ⟨number, literal⟩ := literal_of_number ht hk
    refine ⟨number, _, literal, ?_⟩
    rw [String.toList_ofList]
    exact isNormalForm_canonical number
  · intro source source' t ht t' ht' hk hk'
    obtain ⟨number, literal⟩ := literal_of_number ht hk
    obtain ⟨number', literal'⟩ := literal_of_number ht' hk'
    rw [literal, literal', ← canonical_eq_iff number number', Option.some_inj,
      Literal.number.injEq, String.ofList_inj]

/-- Zeros in front, in the middle and at the end: only those at the end go. -/
theorem numbers_normal_zeros :
    let x := "007.0500".toList
    let y := "007.05".toList
    let t : Token := ⟨.number, "007.0500", some (.number "007.05"), ⟨0, 8, 1, 1⟩⟩
    Pattern.number.Matches x ∧ Pattern.number.Matches y ∧ IsNormalForm y x ∧
      (whole x = whole y ∧ value x = value y) ∧ t ∈ (lex "007.0500").tokens ∧
      ∃ text, t.literal = some (.number text) ∧ IsNormalForm text.toList t.lexeme.toList := by
  intro x y t
  have hx : Pattern.number.Matches x :=
    .inr ⟨"007".toList, "0500".toList, by decide, by decide, rfl⟩
  have hy : Pattern.number.Matches y :=
    .inr ⟨"007".toList, "05".toList, by decide, by decide, rfl⟩
  have hcut : cut "007.0500".toList =
      [.lexeme (.number ⟨"007".toList, some "0500".toList⟩)] := cut_eq_iff.2 (by decide)
  have ht : t ∈ (lex "007.0500").tokens := by
    rw [lex, lexChars, items, hcut]
    decide
  have normal : IsNormalForm y x := numbers_normal.1 x hx
  have same : whole x = whole y ∧ value x = value y :=
    (numbers_normal.2.1 x y hx hy).1 (by decide)
  exact ⟨hx, hy, normal, same, ht, (numbers_normal.2.2.1 "007.0500" t ht rfl).2⟩

end LoxLexer
