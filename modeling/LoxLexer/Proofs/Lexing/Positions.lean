import LoxLexer.Proofs.Lexing.Placement

/-!
# Lines and columns of tokens and errors

The line and the column of a span are those of the text before its start, counted from the origin:
nothing that was read in between has a say in them. Later items stand at later positions. A string
stands at its opening quote, closed or not.
-/
namespace LoxLexer

/-- The last line of a text is what follows its last line feed, or all of it. -/
theorem exists_eq_append_lastLine (cs : List Char) :
    ∃ lines, cs = lines ++ lastLine cs ∧ '\n' ∉ lastLine cs ∧
      (lines = [] ∨ lines.getLast? = some '\n') := by
  induction cs with
  | nil => exact ⟨[], rfl, by simp [lastLine], .inl rfl⟩
  | cons c cs ih =>
    by_cases hm : '\n' ∈ c :: cs
    · rw [lastLine, if_pos hm]
      obtain ⟨lines, htext, hline, hlast⟩ := ih
      refine ⟨c :: lines, congrArg (c :: ·) htext, hline, ?_⟩
      rcases hlast with rfl | hlast
      · have hc : c = '\n' := by
          rcases List.mem_cons.1 hm with h | h
          · exact h.symm
          · rw [List.nil_append] at htext
            exact (hline (by rwa [← htext])).elim
        right
        rw [hc]
        rfl
      · right
        rw [List.getLast?_cons, hlast]
        rfl
    · rw [lastLine, if_neg hm]
      exact ⟨[], rfl, hm, .inl rfl⟩

namespace Span

/-- The span starts after `before`, on the line and at the column where `before` ends. -/
structure StartsAfter (s : Span) (before : List Char) : Prop where
  start : s.start = byteLength before
  line : s.line = 1 + before.count '\n'
  column : ∃ lines line, before = lines ++ line ∧ '\n' ∉ line ∧
    (lines = [] ∨ lines.getLast? = some '\n') ∧ s.column = 1 + line.length

theorem startsAfter_ofText (before text : List Char) :
    (ofText before text).StartsAfter before := by
  rw [ofText_eq]
  refine ⟨rfl, rfl, ?_⟩
  obtain ⟨lines, htext, hline, hlast⟩ := exists_eq_append_lastLine before
  exact ⟨lines, lastLine before, htext, hline, hlast, rfl⟩

end Span

theorem Lexeme.text_of_kind_string {l : Lexeme} (h : l.kind = .string) :
    l.text.head? = some '"' := by
  cases l with
  | string body => rfl
  | punctuator p => simp [kind] at h
  | number d => simp [kind] at h
  | word letters => cases hk : Keyword.ofText? letters <;> simp [kind, hk] at h

namespace Lexing

/-- Every token and every error stands where its line and its column say, the end of input
included, and the positions rise from one to the next. -/
structure Positioned (r : Lexing) (source : String) : Prop where
  tokens : ∀ t ∈ r.tokens, ∃ before rest, source.toList = before ++ rest ∧
    t.span.StartsAfter before ∧ (t.kind = .string → rest.head? = some '"')
  errors : ∀ e ∈ r.errors, ∃ before rest, source.toList = before ++ rest ∧
    e.span.StartsAfter before ∧ (e.cause = .unterminatedString → rest.head? = some '"')
  rise : ∃ last, r.tokens.getLast? = some last ∧ last.kind = .eof ∧
    last.span.line = 1 + source.toList.count '\n' ∧
    (r.spans ++ [last.span]).Pairwise fun s t => Above (s.line, s.column) (t.line, t.column)

theorem token_positioned {cs : List Char} {t : Token} (h : t ∈ (lexChars cs).tokens) :
    ∃ before rest, cs = before ++ rest ∧ t.span.StartsAfter before ∧
      (t.kind = .string → rest.head? = some '"') := by
  rcases mem_tokens_lexChars.1 h with ⟨before, l, rest, hcut, rfl⟩ | rfl
  · refine ⟨before, l.text ++ rest, ?_, Span.startsAfter_ofText _ _, ?_⟩
    · rw [← List.append_assoc]
      exact hcut.text_eq
    · intro hk
      rw [List.head?_append, Lexeme.text_of_kind_string hk]
      rfl
  · refine ⟨cs, [], by simp, ?_, fun hk => by cases hk⟩
    rw [endToken_span]
    exact Span.startsAfter_ofText _ _

theorem error_positioned {cs : List Char} {e : LexError} (h : e ∈ (lexChars cs).errors) :
    ∃ before rest, cs = before ++ rest ∧ e.span.StartsAfter before ∧
      (e.cause = .unterminatedString → rest.head? = some '"') := by
  rcases mem_errors_lexChars.1 h with ⟨before, c, rest, hcut, rfl⟩ | ⟨before, body, rest, hcut, rfl⟩
  · refine ⟨before, c :: rest, ?_, Span.startsAfter_ofText _ _, fun hc => by cases hc⟩
    rw [hcut.text_eq]
    simp [Piece.text]
  · refine ⟨before, '"' :: (body ++ rest), ?_, Span.startsAfter_ofText _ _, fun _ => rfl⟩
    rw [hcut.text_eq]
    simp [Piece.text]

/-- The items stand at rising positions, and the end of the text after them all. -/
theorem spans_above (cs : List Char) :
    ((lexChars cs).spans ++ [Span.ofText cs []]).Pairwise fun s t =>
      Above (s.line, s.column) (t.line, t.column) := by
  rw [spans_lexChars, List.pairwise_append, List.pairwise_map]
  refine ⟨(items_precede cs).imp Span.Precedes.above, List.pairwise_singleton _ _, ?_⟩
  intro s hs t ht
  obtain ⟨x, hx, rfl⟩ := List.mem_map.1 hs
  rw [List.mem_singleton.1 ht]
  exact (items_precede_end hx).above

end Lexing

/-- The position law holds of every source, whatever stands before a token or an error. -/
theorem lex_positioned (source : String) : (lex source).Positioned source where
  tokens t ht := Lexing.token_positioned ht
  errors e he := Lexing.error_positioned he
  rise := by
    refine ⟨endToken source.toList, List.getLast?_concat, rfl, ?_, ?_⟩
    · rw [endToken_span, Span.ofText_eq]
      rfl
    · rw [endToken_span]
      exact Lexing.spans_above source.toList

end LoxLexer
