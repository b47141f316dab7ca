import Mathlib.Algebra.GroupWithZero.Nat
import Mathlib.Tactic.ByContra
import LoxLexer.Proofs.Lexing.Continuation
import LoxLexer.Proofs.Lexing.Correspondence
import LoxLexer.Proofs.Piece.Extension

/-!
# Recovery from unexpected characters

An unexpected character is read as a blank is: alone. With a space in the place of each, a source
has the same tokens and the same open string, at the same lines and columns, and no unexpected
character is left. Offsets shrink by the bytes that spaces save.
-/
namespace LoxLexer

variable {cs cs' rest rest' : List Char} {ps qs : List Piece} {p : Piece}

/-- The bytes that a reported character takes beyond the one byte of a space. -/
def LexError.Cause.surplus : Cause → Nat
  | unexpectedCharacter ch => ch.utf8Size - 1
  | unterminatedString => 0

namespace Lexing

/-- Of a text that stands at byte `n`, every character is kept but those reported as unexpected,
which give way to spaces. -/
def blankOutFrom (r : Lexing) (n : Nat) : List Char → List Char
  | [] => []
  | c :: cs =>
    (if r.unexpected.any fun e => e.span.start = n then ' ' else c) ::
      r.blankOutFrom (n + c.utf8Size) cs

/-- The source with a space in the place of each unexpected character. -/
def blankOut (r : Lexing) (source : String) : String :=
  String.ofList (r.blankOutFrom 0 source.toList)

/-- The bytes that all reported characters before byte `n` take beyond those of spaces. -/
def surplus (r : Lexing) (n : Nat) : Nat :=
  ((r.errors.filter fun e => e.span.start < n).map fun e => e.cause.surplus).sum

end Lexing

/-- `s'` is `s` once the unexpected characters of `r` are spaces. -/
structure Span.Recovered (r : Lexing) (s s' : Span) : Prop where
  start : s.start = s'.start + r.surplus s.start
  stop : s.stop = s'.stop + r.surplus s.stop
  line : s.line = s'.line
  column : s.column = s'.column

/-- `r'` is `r` without its unexpected characters: no other token or error comes, goes or changes
its line or column. -/
structure Lexing.Recovered (r r' : Lexing) : Prop where
  unexpected : r'.unexpected = []
  tokens : List.Forall₂ (Token.Alike (Span.Recovered r)) r.tokens r'.tokens
  unterminated : List.Forall₂ (LexError.Alike (Span.Recovered r)) r.unterminated r'.unterminated

/-- The second text has spaces in the place of some characters of the first. -/
def Blanked (cs cs' : List Char) : Prop :=
  List.Forall₂ (fun c c' => c' = c ∨ c ≠ '\n' ∧ c' = ' ') cs cs'

namespace Blanked

theorem refl (cs : List Char) : Blanked cs cs :=
  List.forall₂_same.2 fun _ _ => .inl rfl

theorem append (h : Blanked cs cs') (hrest : Blanked rest rest') :
    Blanked (cs ++ rest) (cs' ++ rest') :=
  List.rel_append h hrest

theorem head {c' : Char} (h : Blanked rest rest') (hc : rest'.head? = some c') :
    c' = ' ' ∨ rest.head? = some c' := by
  cases h with
  | nil => cases hc
  | cons h _ =>
    cases hc
    rcases h with rfl | ⟨_, rfl⟩
    · exact .inr rfl
    · exact .inl rfl

/-- Line feeds stay where they are, so every place is on its line and at its column as before. -/
theorem after (h : Blanked cs cs') {p p' : Position} (line : p.line = p'.line)
    (column : p.column = p'.column) :
    (p.after cs).line = (p'.after cs').line ∧ (p.after cs).column = (p'.after cs').column := by
  induction h generalizing p p' with
  | nil => exact ⟨line, column⟩
  | @cons c c' cs cs' hc _ ih =>
    rw [Position.after_cons, Position.after_cons]
    rcases hc with rfl | ⟨hne, rfl⟩
    · by_cases hnl : c' = '\n'
      · exact ih (by simp [Position.step, hnl, line]) (by simp [Position.step, hnl])
      · exact ih (by simp [Position.step, hnl, line]) (by simp [Position.step, hnl, column])
    · exact ih (by simp [Position.step, hne, line]) (by simp [Position.step, hne, column])

theorem lineAt_eq (h : Blanked cs cs') : lineAt cs = lineAt cs' := by
  have read := (h.after (p := Position.origin) rfl rfl).1
  rwa [Position.origin_after, Position.origin_after] at read

theorem columnAt_eq (h : Blanked cs cs') : columnAt cs = columnAt cs' := by
  have read := (h.after (p := Position.origin) rfl rfl).2
  rwa [Position.origin_after, Position.origin_after] at read

end Blanked

namespace Piece

/-- An unexpected character becomes a space; all other pieces stay. -/
def blanked : Piece → Piece
  | unexpected _ => blank ' '
  | p => p

theorem blanked_valid (h : p.Valid) : p.blanked.Valid := by
  cases p with
  | unexpected c => exact (rfl : isBlank ' ' = true)
  | _ => exact h

theorem blanked_text (h : p.Valid) : Blanked p.text p.blanked.text := by
  cases p with
  | unexpected c =>
    have hne : c ≠ '\n' := by
      rintro rfl
      cases h.1
    exact .cons (.inr ⟨hne, rfl⟩) .nil
  | _ => exact .refl _

/-- A piece stops at spaces wherever it stops at other characters. -/
theorem Stops.blanked (h : p.Stops rest) (hrest : Blanked rest rest') :
    p.blanked.Stops rest' := by
  have head {q : Char → Bool} (hq : ∀ c ∈ rest.head?, q c = false) (hspace : q ' ' = false) :
      ∀ c ∈ rest'.head?, q c = false := by
    intro c hc
    rcases hrest.head hc with rfl | hc
    · exact hspace
    · exact hq c hc
  cases p with
  | blank c => trivial
  | unexpected c => trivial
  | comment body =>
    cases hrest with
    | nil => exact h
    | cons hc _ =>
      obtain rfl := h _ rfl
      rcases hc with rfl | ⟨hne, _⟩
      · exact h
      · exact absurd rfl hne
  | openString body =>
    obtain rfl : rest = [] := h
    cases hrest
    rfl
  | lexeme l =>
    cases l with
    | string body => trivial
    | word letters => exact head h (by decide)
    | punctuator q =>
      refine ⟨fun hq he => ?_, fun hq he => ?_⟩
      · rcases hrest.head he with heq | he
        · cases heq
        · exact h.1 hq he
      · rcases hrest.head he with heq | he
        · cases heq
        · exact h.2 hq he
    | number d =>
      refine ⟨head h.1 (by decide), ?_⟩
      rintro hnone c cs rfl
      obtain ⟨point, _, hpoint, digits, rfl⟩ := List.forall₂_cons_right_iff.1 hrest
      obtain ⟨digit, _, hdigit, _, rfl⟩ := List.forall₂_cons_right_iff.1 digits
      rcases hpoint with rfl | ⟨_, heq⟩
      · rcases hdigit with rfl | ⟨_, rfl⟩
        · exact h.2 hnone c _ rfl
        · rfl
      · cases heq

end Piece

/-- The text of some pieces, with a space for each unexpected character. -/
def blankedText (ps : List Piece) : List Char :=
  (ps.map Piece.blanked).flatMap Piece.text

@[simp] theorem blankedText_nil : blankedText [] = [] := rfl

@[simp] theorem blankedText_cons (p : Piece) (ps : List Piece) :
    blankedText (p :: ps) = p.blanked.text ++ blankedText ps := rfl

@[simp] theorem blankedText_append (ps qs : List Piece) :
    blankedText (ps ++ qs) = blankedText ps ++ blankedText qs := by
  simp [blankedText]

theorem blanked_blankedText (h : ∀ p ∈ ps, p.Valid) :
    Blanked (ps.flatMap Piece.text) (blankedText ps) := by
  induction ps with
  | nil => exact .refl []
  | cons p ps ih =>
    obtain ⟨valid, h⟩ := List.forall_mem_cons.1 h
    exact (Piece.blanked_text valid).append (ih h)

/-- Pieces that fit still fit with spaces for the unexpected characters. -/
theorem Fit.blanked (h : Fit [] ps) : Fit [] (ps.map Piece.blanked) := by
  induction ps with
  | nil => trivial
  | cons p ps ih =>
    obtain ⟨valid, stops, tail⟩ := h
    rw [List.append_nil] at stops
    refine ⟨Piece.blanked_valid valid, ?_, ih tail⟩
    rw [List.append_nil]
    exact stops.blanked (blanked_blankedText tail.valid)

theorem cut_blankedText (cs : List Char) :
    cut (blankedText (cut cs)) = (cut cs).map Piece.blanked :=
  cut_eq_iff.2 ⟨(fit_cut cs).blanked, rfl⟩

theorem valid_of_cut (h : cut cs = ps ++ qs) : (∀ p ∈ ps, p.Valid) ∧ ∀ p ∈ qs, p.Valid := by
  have valid := (fit_cut cs).valid
  rw [h] at valid
  exact List.forall_mem_append.1 valid

namespace Lexing

variable {r : Lexing} {n : Nat}

theorem blankOutFrom_append (cs ds : List Char) : r.blankOutFrom n (cs ++ ds) =
    r.blankOutFrom n cs ++ r.blankOutFrom (n + byteLength cs) ds := by
  induction cs generalizing n with
  | nil => rfl
  | cons c cs ih =>
    rw [List.cons_append, blankOutFrom, ih, blankOutFrom, byteLength_cons, Nat.add_assoc]
    rfl

/-- A text in which no unexpected character starts is kept. -/
theorem blankOutFrom_eq_self (h : ∀ e ∈ r.unexpected, n ≤ e.span.start →
    n + byteLength cs ≤ e.span.start) : r.blankOutFrom n cs = cs := by
  induction cs generalizing n with
  | nil => rfl
  | cons c cs ih =>
    have pos := c.utf8Size_pos
    have none : ¬ (r.unexpected.any fun e => e.span.start = n) = true := by
      rw [List.any_eq_true]
      rintro ⟨e, he, hstart⟩
      have := h e he (Nat.le_of_eq (of_decide_eq_true hstart).symm)
      rw [of_decide_eq_true hstart, byteLength_cons] at this
      omega
    rw [blankOutFrom, if_neg none, ih]
    intro e he hle
    have := h e he (by omega)
    rw [byteLength_cons] at this
    omega

end Lexing

/-- An unexpected character that starts within a piece is that piece. -/
theorem eq_unexpected_of_start {e : LexError} (h : cut cs = ps ++ p :: qs)
    (he : e ∈ (lexChars cs).unexpected) (hle : byteLength (ps.flatMap Piece.text) ≤ e.span.start)
    (hlt : e.span.start < byteLength (ps.flatMap Piece.text) + byteLength p.text) :
    ∃ c, p = .unexpected c := by
  obtain ⟨he, hcause⟩ := List.mem_filter.1 he
  have further := h.trans (List.append_cons ps p qs)
  rw [errors_of_cut further, List.mem_append, itemsOfPieces_concat, List.filterMap_append,
    List.mem_append] at he
  rcases he with (he | he) | he
  · have := stop_le_of_cut h (mem_filterMap_error.1 he)
    simp only [Item.span] at this
    omega
  · cases p with
    | unexpected c => exact ⟨c, rfl⟩
    | openString body =>
      cases List.mem_singleton.1 he
      cases hcause
    | _ => cases he
  · have := le_start_of_cut further (mem_filterMap_error.1 he)
    rw [List.flatMap_append, List.flatMap_singleton, byteLength_append] at this
    simp only [Item.span] at this
    omega

/-- The reported characters of a text are its unexpected pieces. -/
theorem blankOutFrom_of_cut (h : cut cs = ps ++ qs) :
    (lexChars cs).blankOutFrom (byteLength (ps.flatMap Piece.text)) (qs.flatMap Piece.text) =
      blankedText qs := by
  -- The boundary moves behind one piece after another, so the pieces in front are generalized.
  induction qs generalizing ps with
  | nil => rfl
  | cons p qs ih =>
    have further := h.trans (List.append_cons ps p qs)
    have later := ih further
    rw [List.flatMap_append, List.flatMap_singleton, byteLength_append] at later
    rw [List.flatMap_cons, Lexing.blankOutFrom_append, later, blankedText_cons]
    congr 1
    by_cases hp : ∃ c, p = .unexpected c
    · obtain ⟨c, rfl⟩ := hp
      have found : ((lexChars cs).unexpected.any fun e =>
          e.span.start = byteLength (ps.flatMap Piece.text)) = true := by
        rw [List.any_eq_true]
        refine ⟨⟨.unexpectedCharacter c, Span.ofText (ps.flatMap Piece.text) [c]⟩, ?_, ?_⟩
        · exact List.mem_filter.2
            ⟨mem_errors_lexChars.2 (.inl ⟨_, c, _, ⟨ps, qs, h, rfl, rfl⟩, rfl⟩), rfl⟩
        · simp [Span.ofText_eq]
      rw [Piece.text, Lexing.blankOutFrom, if_pos found]
      rfl
    · have kept : p.blanked = p := by
        cases p with
        | unexpected c => exact absurd ⟨c, rfl⟩ hp
        | _ => rfl
      rw [kept]
      apply Lexing.blankOutFrom_eq_self
      intro e he hle
      by_contra hlt
      exact hp (eq_unexpected_of_start h he hle (Nat.not_le.1 hlt))

theorem toList_blankOut (source : String) :
    ((lex source).blankOut source).toList = blankedText (cut source.toList) := by
  have whole := @blankOutFrom_of_cut _ [] _ (List.nil_append (cut source.toList)).symm
  rw [cut_text] at whole
  rw [Lexing.blankOut, String.toList_ofList]
  exact whole

theorem Piece.byteLength_text (p : Piece) (start : Position) :
    byteLength p.text = byteLength p.blanked.text +
      ((((p.item? (Span.between start (start.after p.text))).toList.filterMap Item.error?).map
        fun e => e.cause.surplus).sum) := by
  cases p with
  | unexpected c =>
    have pos := c.utf8Size_pos
    have space : ' '.utf8Size = 1 := rfl
    change c.utf8Size + 0 = ' '.utf8Size + 0 + (c.utf8Size - 1 + 0)
    omega
  | _ => rfl

/-- What is saved on some pieces is the surplus of their errors. -/
theorem byteLength_eq_add_surplus (start : Position) (ps : List Piece) :
    byteLength (ps.flatMap Piece.text) = byteLength (blankedText ps) +
      (((itemsOfPieces start ps).filterMap Item.error?).map fun e => e.cause.surplus).sum := by
  induction ps generalizing start with
  | nil => simp [itemsOfPieces]
  | cons p ps ih =>
    rw [itemsOfPieces_cons, List.filterMap_append, List.map_append, List.sum_append,
      List.flatMap_cons, byteLength_append, p.byteLength_text start, ih (start.after p.text),
      blankedText_cons, byteLength_append]
    omega

theorem byteLength_of_cut (h : cut cs = ps ++ qs) : byteLength (ps.flatMap Piece.text) =
    byteLength (blankedText ps) + (lexChars cs).surplus (byteLength (ps.flatMap Piece.text)) := by
  rw [Lexing.surplus, filter_errors_before_of_cut h]
  exact byteLength_eq_add_surplus Position.origin ps

/-- A piece that stays is recovered where it stands. -/
theorem recovered_of_cut (h : cut cs = ps ++ p :: qs) (kept : p.blanked = p) :
    (Span.ofText (ps.flatMap Piece.text) p.text).Recovered (lexChars cs)
      (Span.ofText (blankedText ps) p.text) := by
  have further := h.trans (List.append_cons ps p qs)
  have stop := byteLength_of_cut further
  rw [List.flatMap_append, List.flatMap_singleton, blankedText_append, blankedText_cons, kept,
    blankedText_nil, List.append_nil, byteLength_append, byteLength_append] at stop
  have same := blanked_blankedText (valid_of_cut h).1
  rw [Span.ofText_eq, Span.ofText_eq]
  exact ⟨byteLength_of_cut h, stop, same.lineAt_eq, same.columnAt_eq⟩

/-- Every item but an unexpected character. -/
def Item.isExpected : Item → Bool
  | token _ => true
  | error e => !e.cause.isUnexpected

theorem items_recovered (h : cut cs = ps ++ qs) :
    List.Forall₂ (Item.Alike (Span.Recovered (lexChars cs)))
      ((itemsOfPieces (Position.origin.after (ps.flatMap Piece.text)) qs).filter Item.isExpected)
      (itemsOfPieces (Position.origin.after (blankedText ps)) (qs.map Piece.blanked)) := by
  induction qs generalizing ps with
  | nil => simp [itemsOfPieces]
  | cons p qs ih =>
    have further := h.trans (List.append_cons ps p qs)
    have later := ih further
    rw [List.flatMap_append, List.flatMap_singleton, blankedText_append, blankedText_cons,
      blankedText_nil, List.append_nil] at later
    rw [List.map_cons, itemsOfPieces_after_cons, itemsOfPieces_after_cons, List.filter_append]
    refine List.rel_append ?_ later
    cases p with
    | blank c => exact .nil
    | comment body => exact .nil
    | unexpected c => exact .nil
    | lexeme l => exact .cons (.token ⟨rfl, recovered_of_cut h rfl⟩) .nil
    | openString body => exact .cons (.error ⟨rfl, recovered_of_cut h rfl⟩) .nil

theorem filterMap_token?_isExpected (xs : List Item) :
    (xs.filter Item.isExpected).filterMap Item.token? = xs.filterMap Item.token? := by
  rw [List.filterMap_filter]
  congr 1
  funext x
  cases x with
  | token t => rfl
  | error e => simp [Item.token?]

theorem filterMap_error?_isExpected (xs : List Item) :
    (xs.filter Item.isExpected).filterMap Item.error? =
      (xs.filterMap Item.error?).filter fun e => e.cause = .unterminatedString := by
  rw [List.filterMap_filter, List.filter_filterMap]
  congr 1
  funext x
  cases x with
  | token t => rfl
  | error e =>
    obtain ⟨cause, span⟩ := e
    cases cause <;> rfl

/-- No piece of a text with spaces for its unexpected characters is an unexpected one. -/
theorem cause_of_mem_errors_blankedText {e : LexError}
    (h : e ∈ (lexChars (blankedText (cut cs))).errors) : e.cause = .unterminatedString := by
  rcases mem_errors_lexChars.1 h with ⟨_, c, _, ⟨ps, qs, hcut, -⟩, -⟩ | ⟨_, _, _, _, rfl⟩
  · have mem : Piece.unexpected c ∈ (cut cs).map Piece.blanked := by
      rw [← cut_blankedText, hcut]
      simp
    obtain ⟨p, _, hp⟩ := List.mem_map.1 mem
    cases p <;> cases hp
  · rfl

/-- The end of the input is recovered too. -/
theorem endToken_recovered (cs : List Char) :
    (endToken cs).Alike (Span.Recovered (lexChars cs)) (endToken (blankedText (cut cs))) := by
  have stop := byteLength_of_cut (List.append_nil (cut cs)).symm
  have same := blanked_blankedText (fit_cut cs).valid
  rw [cut_text] at stop same
  refine ⟨rfl, ?_⟩
  rw [endToken_span, endToken_span, Span.ofText_eq, Span.ofText_eq]
  exact ⟨stop, stop, same.lineAt_eq, same.columnAt_eq⟩

/-- With a space for each of its unexpected characters, a source has the same tokens and the same
open string, and no other error. -/
theorem lex_blankOut (source : String) :
    (lex source).Recovered (lex ((lex source).blankOut source)) := by
  have lexed : lex ((lex source).blankOut source) =
      lexChars (blankedText (cut source.toList)) := congrArg lexChars (toList_blankOut source)
  have causes : ∀ e ∈ (lexChars (blankedText (cut source.toList))).errors,
      e.cause = .unterminatedString := fun e => cause_of_mem_errors_blankedText
  have recovered := items_recovered (List.nil_append (cut source.toList)).symm
  have found : itemsOfPieces (Position.origin.after (blankedText []))
      ((cut source.toList).map Piece.blanked) = items (blankedText (cut source.toList)) := by
    rw [items, cut_blankedText]
    rfl
  rw [found] at recovered
  rw [lexed]
  constructor
  · rw [Lexing.unexpected, List.filter_eq_nil_iff]
    intro e he hcause
    rw [causes e he] at hcause
    cases hcause
  · have tokens := Item.Alike.filterMap_token? recovered
    rw [filterMap_token?_isExpected] at tokens
    exact List.rel_append tokens (.cons (endToken_recovered source.toList) .nil)
  · have errors := Item.Alike.filterMap_error? recovered
    rw [filterMap_error?_isExpected] at errors
    rw [Lexing.unterminated, Lexing.unterminated,
      List.filter_eq_self.2 fun e he => decide_eq_true (causes e he)]
    exact errors

end LoxLexer
