import LoxLexer.Proofs.Lexing.Correspondence
import LoxLexer.Proofs.Piece.Fit

/-!
# Lexing again from an item

Nothing but the text from an item on decides what is read there and later. Lexed as a source of its
own, that text leaves the item and all later ones behind, with offsets, lines and columns counted
from where it starts; columns only up to the first line feed.
-/
namespace LoxLexer

/-- `s'` is `s` as it is seen from where `mark` starts. -/
structure Span.SeenFrom (mark s s' : Span) : Prop where
  start : s.start = mark.start + s'.start
  stop : s.stop = mark.start + s'.stop
  line : s.line + 1 = mark.line + s'.line
  column : if s.line = mark.line then s.column + 1 = mark.column + s'.column
    else s.column = s'.column

/-- A text behind `before` is seen from the end of `before` as if it stood alone. -/
theorem Span.seenFrom_ofText {mark : Span} {before : List Char}
    (hstart : mark.start = byteLength before) (hline : mark.line = lineAt before)
    (hcolumn : mark.column = columnAt before) (cs ds : List Char) :
    mark.SeenFrom (ofText (before ++ cs) ds) (ofText cs ds) := by
  rw [ofText_eq, ofText_eq, byteLength_append, lineAt_append, columnAt_append, ← hstart, ← hline,
    ← hcolumn]
  refine ⟨rfl, Nat.add_assoc _ _ _, ?_, ?_⟩
  · simp only [lineAt]
    omega
  · by_cases hm : '\n' ∈ cs
    · have := List.count_pos_iff.2 hm
      rw [if_neg (by simp only; omega)]
      exact if_pos hm
    · have line := List.count_eq_zero.2 hm
      rw [if_pos (by simp [line])]
      simp only [if_neg hm, columnAt, lastLine_of_not_mem hm]
      omega

/-- The pieces behind a boundary are cut from the text behind it alone. -/
theorem cut_behind {cs : List Char} {ps qs : List Piece} (h : cut cs = ps ++ qs) :
    cut (qs.flatMap Piece.text) = qs := by
  have fit := fit_cut cs
  rw [h, fit_append] at fit
  exact cut_eq_iff.2 ⟨fit.2, rfl⟩

/-- Every token and every error starts at a boundary of the cut, the end of the input included. -/
theorem exists_cut_of_span {cs : List Char} {s : Span}
    (h : (∃ t ∈ (lexChars cs).tokens, t.span = s) ∨ ∃ e ∈ (lexChars cs).errors, e.span = s) :
    ∃ ps qs, cut cs = ps ++ qs ∧ s.start = byteLength (ps.flatMap Piece.text) ∧
      s.line = lineAt (ps.flatMap Piece.text) ∧ s.column = columnAt (ps.flatMap Piece.text) := by
  rcases h with ⟨t, ht, rfl⟩ | ⟨e, he, rfl⟩
  · rw [tokens_lexChars, List.mem_append, List.mem_singleton] at ht
    rcases ht with ht | rfl
    · exact exists_cut_of_mem_items (mem_filterMap_token.1 ht)
    · refine ⟨cut cs, [], (List.append_nil _).symm, ?_⟩
      rw [endToken_span, Span.ofText_eq, cut_text]
      exact ⟨rfl, rfl, rfl⟩
  · exact exists_cut_of_mem_items (mem_filterMap_error.1 he)

/-- Lexed again from any token or error on, a source leaves exactly the tokens and the errors from
there on behind, seen from there. -/
theorem lex_restart (source : String) (s : Span)
    (h : (∃ t ∈ (lex source).tokens, t.span = s) ∨ ∃ e ∈ (lex source).errors, e.span = s) :
    ∃ before rest : String, source = before ++ rest ∧ before.utf8ByteSize = s.start ∧
      List.Forall₂ (Token.Alike s.SeenFrom)
        ((lex source).tokens.filter fun t => s.start ≤ t.span.start) (lex rest).tokens ∧
      List.Forall₂ (LexError.Alike s.SeenFrom)
        ((lex source).errors.filter fun e => s.start ≤ e.span.start) (lex rest).errors := by
  obtain ⟨ps, qs, hcut, hstart, hline, hcolumn⟩ := exists_cut_of_span h
  have seen : ∀ cs ds, s.SeenFrom (Span.ofText (ps.flatMap Piece.text ++ cs) ds)
      (Span.ofText ([] ++ cs) ds) := Span.seenFrom_ofText hstart hline hcolumn
  have text := text_of_cut hcut
  refine ⟨String.ofList (ps.flatMap Piece.text), String.ofList (qs.flatMap Piece.text), ?_, ?_, ?_,
    ?_⟩
  · rw [← String.ofList_append, ← text, String.ofList_toList]
  · rw [← byteLength_toList, String.toList_ofList, hstart]
  · have whole := tokens_alike seen qs (qs.flatMap Piece.text)
    rw [← text] at whole
    rw [lex, lex, String.toList_ofList, hstart, filter_tokens_of_cut hcut, tokens_lexChars, items,
      cut_behind hcut]
    exact whole
  · rw [lex, lex, String.toList_ofList, hstart, filter_errors_of_cut hcut, errors_lexChars, items,
      cut_behind hcut]
    exact Item.Alike.filterMap_error? (itemsOfPieces_alike seen qs)

/-- From an unexpected character on, a name on its line moves to the left and one below stays. -/
theorem lex_restart_unexpected :
    let s : Span := ⟨2, 3, 1, 3⟩
    (∃ e ∈ (lex "x @y\n z").errors, e.span = s) ∧
      ∃ before rest : String, "x @y\n z" = before ++ rest ∧ before.utf8ByteSize = s.start ∧
        List.Forall₂ (Token.Alike s.SeenFrom)
          ((lex "x @y\n z").tokens.filter fun t => s.start ≤ t.span.start) (lex rest).tokens ∧
        List.Forall₂ (LexError.Alike s.SeenFrom)
          ((lex "x @y\n z").errors.filter fun e => s.start ≤ e.span.start) (lex rest).errors := by
  intro s
  have hcut : cut "x @y\n z".toList = [.lexeme (.word ['x']), .blank ' ', .unexpected '@',
      .lexeme (.word ['y']), .blank '\n', .blank ' ', .lexeme (.word ['z'])] :=
    cut_eq_iff.2 (by decide)
  have found : ∃ e ∈ (lex "x @y\n z").errors, e.span = s := by
    rw [lex, lexChars, items, hcut]
    decide
  exact ⟨found, lex_restart "x @y\n z" s (.inr found)⟩

end LoxLexer
