import Mathlib.Data.List.Forall2
import LoxLexer.Proofs.Lexeme.Meaning
import LoxLexer.Proofs.Lexing.Boundary

/-!
# Items that correspond

Two tokens correspond when they mean the same, and two errors when they have the same cause, with
spans in a given relation. The same pieces, placed after two positions, leave items behind that
correspond one to one, in any relation that holds between the spans of every text read after both.
-/
namespace LoxLexer

variable {R : Span → Span → Prop}

structure Token.Alike (R : Span → Span → Prop) (t t' : Token) : Prop where
  meaning : t.meaning = t'.meaning
  span : R t.span t'.span

structure LexError.Alike (R : Span → Span → Prop) (e e' : LexError) : Prop where
  cause : e.cause = e'.cause
  span : R e.span e'.span

namespace Item

inductive Alike (R : Span → Span → Prop) : Item → Item → Prop
  | token {t t' : Token} : t.Alike R t' → Alike R (token t) (token t')
  | error {e e' : LexError} : e.Alike R e' → Alike R (error e) (error e')

variable {xs ys : List Item}

theorem Alike.filterMap_token? (h : List.Forall₂ (Alike R) xs ys) :
    List.Forall₂ (Token.Alike R) (xs.filterMap token?) (ys.filterMap token?) := by
  refine List.rel_filterMap ?_ h
  rintro _ _ (⟨h⟩ | _)
  · exact .some h
  · exact .none

theorem Alike.filterMap_error? (h : List.Forall₂ (Alike R) xs ys) :
    List.Forall₂ (LexError.Alike R) (xs.filterMap error?) (ys.filterMap error?) := by
  refine List.rel_filterMap ?_ h
  rintro _ _ (_ | ⟨h⟩)
  · exact .none
  · exact .some h

end Item

/-- What one piece leaves behind at two spans. -/
theorem Piece.item?_alike (p : Piece) {s s' : Span} (h : R s s') :
    List.Forall₂ (Item.Alike R) (p.item? s).toList (p.item? s').toList := by
  cases p with
  | blank c => exact .nil
  | comment body => exact .nil
  | lexeme l => exact .cons (.token ⟨rfl, h⟩) .nil
  | unexpected c => exact .cons (.error ⟨rfl, h⟩) .nil
  | openString body => exact .cons (.error ⟨rfl, h⟩) .nil

/-- The same pieces leave corresponding items behind after two texts. -/
theorem itemsOfPieces_alike {before before' : List Char}
    (h : ∀ cs ds, R (Span.ofText (before ++ cs) ds) (Span.ofText (before' ++ cs) ds))
    (ps : List Piece) :
    List.Forall₂ (Item.Alike R) (itemsOfPieces (Position.origin.after before) ps)
      (itemsOfPieces (Position.origin.after before') ps) := by
  induction ps generalizing before before' with
  | nil => simp [itemsOfPieces]
  | cons piece ps ih =>
    rw [itemsOfPieces_after_cons, itemsOfPieces_after_cons]
    refine List.rel_append (piece.item?_alike ?_) (ih ?_)
    · simpa using h [] piece.text
    · intro cs ds
      rw [List.append_assoc, List.append_assoc]
      exact h (piece.text ++ cs) ds

/-- So do the tokens, with the end of the input after them. -/
theorem tokens_alike {before before' : List Char}
    (h : ∀ cs ds, R (Span.ofText (before ++ cs) ds) (Span.ofText (before' ++ cs) ds))
    (ps : List Piece) (rest : List Char) :
    List.Forall₂ (Token.Alike R)
      ((itemsOfPieces (Position.origin.after before) ps).filterMap Item.token? ++
        [endToken (before ++ rest)])
      ((itemsOfPieces (Position.origin.after before') ps).filterMap Item.token? ++
        [endToken (before' ++ rest)]) := by
  refine List.rel_append (Item.Alike.filterMap_token? (itemsOfPieces_alike h ps)) ?_
  refine .cons ⟨rfl, ?_⟩ .nil
  rw [endToken_span, endToken_span]
  exact h rest []

end LoxLexer
