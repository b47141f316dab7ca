import LoxLexer.Proofs.Lexeme.Meaning
import LoxLexer.Proofs.Lexing.Acceptance
import LoxLexer.Proofs.Piece.Fit

/-!
# What a text reads as

A text reads as a list of meanings when there is no error and its tokens, wherever they stand, have
these meanings and the end of the input after them. The meanings depend on the pieces of the cut
alone.
-/
namespace LoxLexer

/-- Without an error, the tokens mean `ms`, and the end of the input comes after them. -/
structure Lexing.Reads (r : Lexing) (ms : List Meaning) : Prop where
  errors : r.errors = []
  meanings : r.tokens.map Token.meaning = ms ++ [.eof]

def Piece.lexeme? : Piece → Option Lexeme
  | lexeme l => some l
  | _ => none

/-- Pieces mean the same wherever they are placed. -/
theorem meanings_itemsOfPieces (p : Position) (ps : List Piece) :
    ((itemsOfPieces p ps).filterMap Item.token?).map Token.meaning =
      (ps.filterMap Piece.lexeme?).map Lexeme.meaning := by
  induction ps generalizing p with
  | nil => simp [itemsOfPieces]
  | cons piece ps ih =>
    rw [itemsOfPieces_cons, List.filterMap_append, List.map_append, ih, List.filterMap_cons]
    cases piece <;> simp [Piece.item?, Piece.lexeme?, Item.token?, Lexeme.meaning_token]

theorem meanings_lexChars (cs : List Char) :
    (lexChars cs).tokens.map Token.meaning =
      ((cut cs).filterMap Piece.lexeme?).map Lexeme.meaning ++ [.eof] := by
  rw [← meanings_itemsOfPieces Position.origin, tokens_lexChars, List.map_append]
  rfl

theorem errors_lexChars_eq_nil {cs : List Char} :
    (lexChars cs).errors = [] ↔ ∀ p ∈ cut cs, p.Sound := by
  rw [← hadError_eq_false_iff, Lexing.hadError, Bool.not_eq_false', List.isEmpty_iff]

/-- Pieces that are all lexemes read as what these mean. -/
theorem reads_of_cut {cs : List Char} {ls : List Lexeme} (h : cut cs = ls.map Piece.lexeme) :
    (lexChars cs).Reads (ls.map Lexeme.meaning) where
  errors := by
    rw [errors_lexChars_eq_nil, h]
    intro p hp
    obtain ⟨l, _, rfl⟩ := List.mem_map.1 hp
    trivial
  meanings := by
    rw [meanings_lexChars, h, List.filterMap_map]
    congr 2
    exact List.filterMap_some

/-- Lexemes are never longer than the pieces that they are among. -/
theorem length_lexemes_le (ps : List Piece) :
    ((ps.filterMap Piece.lexeme?).flatMap Lexeme.text).length ≤
      (ps.flatMap Piece.text).length := by
  induction ps with
  | nil => simp
  | cons p ps ih =>
    rw [List.filterMap_cons, List.flatMap_cons, List.length_append]
    cases p with
    | lexeme l =>
      change (l.text ++ _).length ≤ _
      rw [List.length_append]
      exact Nat.add_le_add_left ih _
    | _ => exact Nat.le_trans ih (Nat.le_add_left _ _)

/-- Pieces whose lexemes make the whole text are all lexemes. -/
theorem eq_map_lexeme {ps : List Piece} (nonempty : ∀ p ∈ ps, p.text ≠ [])
    (h : (ps.flatMap Piece.text).length ≤
      ((ps.filterMap Piece.lexeme?).flatMap Lexeme.text).length) :
    ps = (ps.filterMap Piece.lexeme?).map Piece.lexeme := by
  induction ps with
  | nil => rfl
  | cons p ps ih =>
    obtain ⟨hp, hps⟩ := List.forall_mem_cons.1 nonempty
    have shorter := length_lexemes_le ps
    have used := List.length_pos_iff.2 hp
    rw [List.flatMap_cons, List.length_append, List.filterMap_cons] at h
    cases p with
    | lexeme l =>
      change _ ≤ (l.text ++ _).length at h
      rw [List.length_append] at h
      exact congrArg (Piece.lexeme l :: ·) (ih hps (Nat.le_of_add_le_add_left h))
    | _ =>
      -- A piece that is no lexeme would take some of the text away from them.
      simp only [Piece.lexeme?] at h
      omega

theorem valid_of_mem_lexemes {cs : List Char} {l : Lexeme}
    (h : l ∈ (cut cs).filterMap Piece.lexeme?) : l.Valid := by
  obtain ⟨p, hp, hl⟩ := List.mem_filterMap.1 h
  cases p <;> cases hl
  obtain ⟨before, after, hcut⟩ := List.append_of_mem hp
  exact (valid_stops_of_cut hcut).1

/-- Lexemes side by side are read back exactly when they fit. -/
theorem reads_iff_fit {ls : List Lexeme} (valid : ∀ l ∈ ls, l.Valid) :
    (lexChars (ls.flatMap Lexeme.text)).Reads (ls.map Lexeme.meaning) ↔
      Fit [] (ls.map Piece.lexeme) := by
  constructor
  · intro h
    have same := h.meanings
    rw [meanings_lexChars] at same
    have lexemes : (cut (ls.flatMap Lexeme.text)).filterMap Piece.lexeme? = ls :=
      map_meaning_injective (fun l => valid_of_mem_lexemes) valid (List.append_cancel_right same)
    have pieces : cut (ls.flatMap Lexeme.text) = ls.map Piece.lexeme := by
      have whole := eq_map_lexeme fun p hp => text_ne_nil_of_mem_cut (ls.flatMap Lexeme.text) hp
      rw [cut_text, lexemes] at whole
      exact whole (Nat.le_refl _)
    rw [← pieces]
    exact fit_cut _
  · intro fit
    apply reads_of_cut
    rw [cut_eq_iff, List.flatMap_map]
    exact ⟨fit, rfl⟩

/-- A token is read back from its lexeme alone exactly when it is valid. -/
theorem reads_alone_iff {m : Meaning} : (lex m.lexeme).Reads [m] ↔ m.Valid := by
  constructor
  · intro h
    have same := h.meanings
    rw [lex, meanings_lexChars] at same
    obtain ⟨l, ls, hls, hm, _⟩ := List.map_eq_cons_iff.1 (List.append_cancel_right same)
    rw [← hm]
    exact Lexeme.meaning_valid (valid_of_mem_lexemes (hls ▸ List.mem_cons_self))
  · intro h
    obtain ⟨l, valid, rfl⟩ := h.exists_lexeme
    have fit : Fit [] ([l].map Piece.lexeme) :=
      ⟨valid, Lexeme.stops_of_blank (by simp), trivial⟩
    have read := (reads_iff_fit (by simpa using valid)).2 fit
    rwa [List.flatMap_singleton, ← l.toList_meaning] at read

end LoxLexer
