import LoxLexer.Proofs.Lexing.Placement

/-!
# Moving a text down

A text that starts some bytes later and some lines further down, at the beginning of a line, leaves
the same items behind, moved by as much. Their columns stay.
-/
namespace LoxLexer

def Position.shift (bytes lines : Nat) (p : Position) : Position :=
  ⟨p.offset + bytes, p.line + lines, p.column⟩

def Span.shift (bytes lines : Nat) (s : Span) : Span :=
  ⟨s.start + bytes, s.stop + bytes, s.line + lines, s.column⟩

def Token.shift (bytes lines : Nat) (t : Token) : Token :=
  { t with span := t.span.shift bytes lines }

def LexError.shift (bytes lines : Nat) (e : LexError) : LexError :=
  { e with span := e.span.shift bytes lines }

def Item.shift (bytes lines : Nat) : Item → Item
  | token t => token (t.shift bytes lines)
  | error e => error (e.shift bytes lines)

variable {bytes lines : Nat}

theorem Position.after_shift (p : Position) (cs : List Char) :
    (p.shift bytes lines).after cs = (p.after cs).shift bytes lines := by
  simp [after_eq, shift, Nat.add_right_comm]

theorem Piece.item?_shift (piece : Piece) (span : Span) :
    piece.item? (span.shift bytes lines) = (piece.item? span).map (Item.shift bytes lines) := by
  cases piece <;> rfl

theorem itemsOfPieces_shift (p : Position) (ps : List Piece) :
    itemsOfPieces (p.shift bytes lines) ps =
      (itemsOfPieces p ps).map (Item.shift bytes lines) := by
  induction ps generalizing p with
  | nil => simp [itemsOfPieces]
  | cons piece ps ih =>
    have moved : Span.between (p.shift bytes lines) ((p.shift bytes lines).after piece.text) =
        (Span.between p (p.after piece.text)).shift bytes lines := by
      rw [Position.after_shift]
      rfl
    rw [itemsOfPieces_cons, itemsOfPieces_cons, moved, Piece.item?_shift, Position.after_shift, ih,
      List.map_append]
    cases piece.item? (Span.between p (p.after piece.text)) <;> rfl

theorem filterMap_token?_shift (xs : List Item) :
    (xs.map (Item.shift bytes lines)).filterMap Item.token? =
      (xs.filterMap Item.token?).map (Token.shift bytes lines) := by
  rw [List.filterMap_map, List.map_filterMap]
  congr 1
  funext x
  cases x <;> rfl

theorem filterMap_error?_shift (xs : List Item) :
    (xs.map (Item.shift bytes lines)).filterMap Item.error? =
      (xs.filterMap Item.error?).map (LexError.shift bytes lines) := by
  rw [List.filterMap_map, List.map_filterMap]
  congr 1
  funext x
  cases x <;> rfl

end LoxLexer
