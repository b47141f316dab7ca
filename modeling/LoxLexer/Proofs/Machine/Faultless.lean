import LoxLexer.Proofs.Machine.Simulation
import LoxLexer.Proofs.Report.Counts

/-!
# Runs without a fault

A source of at most half as many bytes as can be counted is lexed without a fault: no count leaves
its range, and every cut falls between two characters. The result is the lexing of the source. Its
spans have the lengths of the texts they cover, and at least the end of input is among its tokens.
-/
namespace LoxLexer

namespace Machine

/-- Without a fault, a run returns the lexing of its text. -/
theorem lexing_eq {m : Machine} (room : m.Roomy) : m.lexing = .ok (lexChars m.text) := by
  obtain ⟨s, run, tokens, errors, _⟩ := exists_run room
  rw [lexing, run]
  change Except.ok (Lexing.mk s.tokens s.errors) = _
  rw [tokens, errors]

end Machine

namespace Lexing

/-- Every token, the end of input included, and every error covers a text of the span's length. -/
theorem length_lexChars {cs : List Char} {s : Span}
    (h : s ∈ (lexChars cs).tokens.map Token.span ++ (lexChars cs).errors.map LexError.span) :
    ∃ text, s.slice? cs = some text ∧ s.length = .ok (byteLength text) := by
  obtain ⟨before, text, rest, rfl, rfl⟩ : ∃ before text rest, cs = before ++ text ++ rest ∧
      s = Span.ofText before text := by
    rcases List.mem_append.1 h with h | h
    · obtain ⟨t, ht, rfl⟩ := List.mem_map.1 h
      rcases mem_tokens_lexChars.1 ht with ⟨before, l, rest, hcut, rfl⟩ | rfl
      · exact ⟨before, l.text, rest, hcut.text_eq, rfl⟩
      · exact ⟨cs, [], [], by simp, endToken_span cs⟩
    · obtain ⟨e, he, rfl⟩ := List.mem_map.1 h
      rcases mem_errors_lexChars.1 he with ⟨before, c, rest, hcut, rfl⟩ |
        ⟨before, body, rest, hcut, rfl⟩
      · exact ⟨before, [c], rest, hcut.text_eq, rfl⟩
      · exact ⟨before, '"' :: body, rest, hcut.text_eq, rfl⟩
  refine ⟨text, Span.slice?_between _ _ _, ?_⟩
  rw [Span.ofText, Position.after_append]
  exact Span.length_between_after _ _

theorem countRead_lexChars (cs : List Char) :
    (lexChars cs).countRead = .ok (lexChars cs).tokenCount := by
  rw [countRead, ← tokenCount_add_one, Fault.sub, if_pos (Nat.le_add_left _ _), Nat.add_sub_cancel]

end Lexing

/-- No step of a run on a source ends in a fault, and neither does measuring its spans or counting
its tokens. Strings keep to the bound: none is longer than the largest count with a sign, which is
half of the largest count without one. -/
theorem lex_faultless {maxCount : Nat} {source : String} (h : source.utf8ByteSize ≤ maxCount / 2) :
    (Machine.mk maxCount source.toList).lexing = .ok (lex source) ∧
    (∀ s ∈ (lex source).tokens.map Token.span ++ (lex source).errors.map LexError.span,
      ∃ text, s.slice? source.toList = some text ∧ s.length = .ok (byteLength text)) ∧
    (lex source).countRead = .ok (lex source).tokenCount := by
  refine ⟨Machine.lexing_eq (Machine.roomy_of_utf8ByteSize h), ?_, Lexing.countRead_lexChars _⟩
  intro s hs
  exact Lexing.length_lexChars hs

/-- Quotes with nothing or a long character between them, and a quote that stays open. -/
theorem lex_faultless_quotes :
    "\"\"é\"😀\"1.5.\"".utf8ByteSize ≤ (UInt64.size - 1) / 2 ∧
      (Machine.mk (UInt64.size - 1) "\"\"é\"😀\"1.5.\"".toList).lexing =
        .ok (lex "\"\"é\"😀\"1.5.\"") := by
  have h : "\"\"é\"😀\"1.5.\"".utf8ByteSize ≤ (UInt64.size - 1) / 2 := by decide
  exact ⟨h, (lex_faultless h).1⟩

end LoxLexer
