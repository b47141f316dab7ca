import LoxLexer.LexError
import LoxLexer.Piece.Cut

/-!
# Lexing a source text

The pieces of a text are placed one after the other from the origin, and each lexeme becomes a
token, each faulty piece an error. Blanks and comments leave nothing. An error never stops the
lexing: the tokens always end with one end-of-input token at the position after the whole text.
-/
namespace LoxLexer

/-- A token or an error, in the order in which they are met. -/
inductive Item
  | token (t : Token)
  | error (e : LexError)
deriving DecidableEq, Repr

namespace Item

def span : Item → Span
  | token t => t.span
  | error e => e.span

def token? : Item → Option Token
  | token t => some t
  | error _ => none

def error? : Item → Option LexError
  | token _ => none
  | error e => some e

end Item

def Lexeme.token (l : Lexeme) (span : Span) : Token :=
  ⟨l.kind, String.ofList l.text, l.literal, span⟩

/-- What a piece at `span` leaves behind. -/
def Piece.item? (span : Span) : Piece → Option Item
  | blank _ => none
  | comment _ => none
  | lexeme l => some (.token (l.token span))
  | unexpected c => some (.error ⟨.unexpectedCharacter c, span⟩)
  | openString _ => some (.error ⟨.unterminatedString, span⟩)

/-- Each piece with the span it covers when the first one starts at `p`. -/
def place (p : Position) (pieces : List Piece) : List (Piece × Span) :=
  pieces.zipWith (fun piece q => (piece, Span.between q (q.after piece.text)))
    (pieces.scanl (fun q piece => q.after piece.text) p)

@[simp] theorem place_nil (p : Position) : place p [] = [] := by
  simp [place]

@[simp] theorem place_cons (p : Position) (piece : Piece) (pieces : List Piece) :
    place p (piece :: pieces) =
      (piece, Span.between p (p.after piece.text)) :: place (p.after piece.text) pieces := by
  simp [place]

def itemsOfPieces (p : Position) (pieces : List Piece) : List Item :=
  (place p pieces).filterMap fun x => x.1.item? x.2

/-- The tokens and errors of a text, in source order and without the end of input. -/
def items (cs : List Char) : List Item :=
  itemsOfPieces Position.origin (cut cs)

structure Lexing where
  tokens : List Token
  errors : List LexError
deriving DecidableEq, Repr

def Lexing.hadError (r : Lexing) : Bool :=
  !r.errors.isEmpty

/-- The end-of-input token of a text. -/
def endToken (cs : List Char) : Token :=
  Token.eof (Span.point (Position.origin.after cs))

/-- Tokens and errors apart, each in order, with a last token after all others. -/
def Lexing.ofItems (items : List Item) (last : Token) : Lexing where
  tokens := items.filterMap Item.token? ++ [last]
  errors := items.filterMap Item.error?

def lexChars (cs : List Char) : Lexing :=
  Lexing.ofItems (items cs) (endToken cs)

def lex (source : String) : Lexing :=
  lexChars source.toList

end LoxLexer
