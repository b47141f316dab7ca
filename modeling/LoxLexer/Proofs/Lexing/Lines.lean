import LoxLexer.Proofs.Lexing.Reading
import LoxLexer.Proofs.Lexing.Shift
import LoxLexer.Proofs.Piece.Extension

/-!
# Lexing line by line

A line feed cuts the lexing of a text in two, unless a string is open at it. The text in front is
lexed as if it stood alone, whatever it ends in, and the text behind it as if it were a source of
its own that was moved down.
-/
namespace LoxLexer

theorem closed_of_errors {cs : List Char}
    (h : ∀ e ∈ (lexChars cs).errors, e.cause ≠ .unterminatedString) :
    ∀ p ∈ cut cs, ∀ body, p ≠ .openString body := by
  rintro p hp body rfl
  obtain ⟨ps, qs, hcut⟩ := List.append_of_mem hp
  have between : CutBetween cs (ps.flatMap Piece.text) (.openString body)
      (qs.flatMap Piece.text) := ⟨ps, qs, hcut, rfl, rfl⟩
  exact h _ (mem_errors_lexChars.2 (.inr ⟨_, body, _, between, rfl⟩)) rfl

/-- Without an open string, a text is cut in front of a line feed as if it stood alone. -/
theorem cut_append_newline {as : List Char} (closed : ∀ p ∈ cut as, ∀ body, p ≠ .openString body)
    (bs : List Char) : cut (as ++ '\n' :: bs) = cut as ++ .blank '\n' :: cut bs := by
  have fit : Fit ('\n' :: bs) (cut as) := by
    apply (fit_cut as).append_of_head
    · rintro _ ⟨⟩
      decide
    · intro p hp
      exact Piece.stops_newline (closed p (List.mem_of_getLast? hp))
  have read := fit.cut_append
  rw [cut_text, cut_of_first (Piece.first_blank isBlank_newline)] at read
  exact read

/-- Behind a line feed, reading goes on at the beginning of a line. -/
theorem origin_after_newline (as : List Char) : (Position.origin.after as).after ['\n'] =
    Position.origin.shift (byteLength as + 1) (lineAt as) := by
  have size : '\n'.utf8Size = 1 := rfl
  rw [Position.origin_after]
  simp [Position.step, Position.shift, Position.origin, size, Nat.add_comm 1]

/-- The items behind a line feed are those of the text behind it, moved down. -/
theorem items_append_newline {as : List Char}
    (closed : ∀ p ∈ cut as, ∀ body, p ≠ .openString body) (bs : List Char) :
    items (as ++ '\n' :: bs) =
      items as ++ (items bs).map (Item.shift (byteLength as + 1) (lineAt as)) := by
  rw [items, cut_append_newline closed, itemsOfPieces_append, cut_text, itemsOfPieces_cons]
  change _ ++ ([] ++ itemsOfPieces ((Position.origin.after as).after ['\n']) (cut bs)) = _
  rw [origin_after_newline, itemsOfPieces_shift]
  rfl

theorem endToken_append_newline (as bs : List Char) : endToken (as ++ '\n' :: bs) =
    (endToken bs).shift (byteLength as + 1) (lineAt as) := by
  have place : Position.origin.after (as ++ '\n' :: bs) =
      (Position.origin.after bs).shift (byteLength as + 1) (lineAt as) := by
    rw [← Position.after_shift, ← origin_after_newline, ← Position.after_append,
      ← Position.after_append]
    rfl
  rw [endToken, place]
  rfl

/-- A source with a line feed in it is lexed in front of it and behind it apart. -/
theorem lex_append_newline (a b : String)
    (closed : ∀ e ∈ (lex a).errors, e.cause ≠ .unterminatedString) :
    ∃ last, (lex a).tokens.getLast? = some last ∧ last.kind = .eof ∧
      (lex (a ++ "\n" ++ b)).tokens = (lex a).readTokens ++
        (lex b).tokens.map (Token.shift (a.utf8ByteSize + 1) last.line) ∧
      (lex (a ++ "\n" ++ b)).errors = (lex a).errors ++
        (lex b).errors.map (LexError.shift (a.utf8ByteSize + 1) last.line) := by
  have text : (a ++ "\n" ++ b).toList = a.toList ++ '\n' :: b.toList := by simp
  have whole := items_append_newline (closed_of_errors closed) b.toList
  have line : (endToken a.toList).line = lineAt a.toList := by
    rw [Token.line, endToken_span, Span.ofText_eq]
  refine ⟨endToken a.toList, List.getLast?_concat, rfl, ?_, ?_⟩
  · rw [lex, lex, lex, tokens_lexChars, tokens_lexChars, Lexing.readTokens_lexChars, text, whole,
      line, List.filterMap_append, filterMap_token?_shift, endToken_append_newline,
      ← byteLength_toList, List.map_append, List.append_assoc]
    rfl
  · rw [lex, lex, lex, errors_lexChars, errors_lexChars, errors_lexChars, text, whole, line,
      List.filterMap_append, filterMap_error?_shift, ← byteLength_toList]

/-- A point at the end of a line, and a digit at the beginning of the next one. -/
theorem lex_append_newline_open_point :
    (∀ e ∈ (lex "@1.").errors, e.cause ≠ .unterminatedString) ∧
      ∃ last, (lex "@1.").tokens.getLast? = some last ∧ last.kind = .eof ∧
        (lex ("@1." ++ "\n" ++ "5\"")).tokens = (lex "@1.").readTokens ++
          (lex "5\"").tokens.map (Token.shift ("@1.".utf8ByteSize + 1) last.line) ∧
        (lex ("@1." ++ "\n" ++ "5\"")).errors = (lex "@1.").errors ++
          (lex "5\"").errors.map (LexError.shift ("@1.".utf8ByteSize + 1) last.line) := by
  have hcut : cut "@1.".toList = [.unexpected '@', .lexeme (.number ⟨['1'], none⟩),
      .lexeme (.punctuator .dot)] := cut_eq_iff.2 (by decide)
  have closed : ∀ e ∈ (lex "@1.").errors, e.cause ≠ .unterminatedString := by
    rw [lex, lexChars, items, hcut]
    decide
  exact ⟨closed, lex_append_newline "@1." "5\"" closed⟩

end LoxLexer
