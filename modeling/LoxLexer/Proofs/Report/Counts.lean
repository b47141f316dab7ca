import LoxLexer.Proofs.Lexing.Placement
import LoxLexer.Report.Basic

/-!
# Counts of a report

The end of input is one token, so the tokens that were read are all but one, and the last token
stands on the last line.
-/
namespace LoxLexer.Lexing

theorem tokenCount_add_one (cs : List Char) :
    (lexChars cs).tokenCount + 1 = (lexChars cs).tokens.length := by
  rw [tokenCount, List.countP_eq_length_filter]
  change (lexChars cs).readTokens.length + 1 = _
  rw [readTokens_lexChars, tokens_lexChars, List.length_append, List.length_singleton]

theorem finalLine_lexChars (cs : List Char) : (lexChars cs).finalLine = 1 + cs.count '\n' := by
  have last : (lexChars cs).tokens.getLast? = some (endToken cs) := List.getLast?_concat
  rw [finalLine, last]
  change (endToken cs).span.line = _
  rw [endToken_span, Span.ofText_eq]
  rfl

end LoxLexer.Lexing
