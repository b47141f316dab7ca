import Mathlib.Data.List.Induction
import LoxLexer.Proofs.Lexeme.Head
import LoxLexer.Proofs.Lexing.Reading
import LoxLexer.Proofs.Piece.Extension

/-!
# Texts that go on

What may change when more text is put after a source. A token that ends before the end of the source
stays, at the same index and the same place, but for one: a number without a fraction, with nothing
but a point after it, becomes longer when a digit follows. The unexpected characters stay errors,
and stay in front of all errors that are new.
-/
namespace LoxLexer

variable {cs rest : List Char} {ps qs : List Piece} {p : Piece}

/-- A piece that stops with more text after it is still cut there, with all pieces before it. -/
theorem fit_of_stops (hcut : cut cs = ps ++ p :: qs)
    (hpoint : p.text ++ qs.flatMap Piece.text ≠ ['.'])
    (stops : p.Stops (qs.flatMap Piece.text ++ rest)) :
    Fit (qs.flatMap Piece.text ++ rest) (ps ++ [p]) := by
  have valid := (valid_stops_of_cut hcut).1
  have nonempty : p.text ++ qs.flatMap Piece.text ≠ [] :=
    List.append_ne_nil_of_left_ne_nil (Piece.text_ne_nil valid) _
  have whole := fit_cut cs
  rw [hcut, fit_append, List.append_nil] at whole
  have longer : Fit (p.text ++ qs.flatMap Piece.text ++ rest) ps := whole.1.append nonempty hpoint
  refine fit_append.2 ⟨?_, valid, stops, trivial⟩
  simpa using longer

/-- The items up to such a piece are the same with more text after the source. -/
theorem items_append_of_stops (hcut : cut cs = ps ++ p :: qs)
    (hpoint : p.text ++ qs.flatMap Piece.text ≠ ['.'])
    (stops : p.Stops (qs.flatMap Piece.text ++ rest)) :
    itemsOfPieces Position.origin (ps ++ [p]) <+: items (cs ++ rest) := by
  have read := (fit_of_stops hcut hpoint stops).cut_append
  have htext : (ps ++ [p]).flatMap Piece.text ++ (qs.flatMap Piece.text ++ rest) = cs ++ rest := by
    rw [← cut_text cs, hcut]
    simp
  rw [items, ← htext, read, itemsOfPieces_append _ (ps ++ [p])]
  exact List.prefix_append _ _

theorem getElem?_of_append {α : Type} {xs ys zs : List α} {x : α} {i : Nat}
    (h : (xs ++ ys)[i]? = some x) (hx : x ∉ ys) (hz : xs <+: zs) : zs[i]? = some x := by
  obtain ⟨ys', rfl⟩ := hz
  rw [List.getElem?_append] at h ⊢
  split at h
  · rwa [if_pos ‹_›]
  · exact absurd (List.mem_of_getElem? h) hx

variable {before : List Char} {l : Lexeme}

/-- A token is among those of the pieces up to its own, and not among the later ones. -/
theorem tokens_split (hcut : cut cs = ps ++ .lexeme l :: qs) :
    ∃ later, (lexChars cs).tokens =
      (itemsOfPieces Position.origin (ps ++ [.lexeme l])).filterMap Item.token? ++ later ∧
        l.token (Span.ofText (ps.flatMap Piece.text) l.text) ∉ later := by
  have tokens := tokens_of_cut (hcut.trans (List.append_cons ps (.lexeme l) qs))
  refine ⟨_, tokens, ?_⟩
  have order := tokens_lexChars_precede cs
  rw [tokens, List.pairwise_append] at order
  intro hlater
  have own : l.token (Span.ofText (ps.flatMap Piece.text) l.text) ∈
      (itemsOfPieces Position.origin (ps ++ [.lexeme l])).filterMap Item.token? := by
    rw [itemsOfPieces_concat, List.filterMap_append]
    exact List.mem_append_right _ List.mem_cons_self
  exact Nat.lt_irrefl _ (order.2.2 _ own _ hlater).start_lt_start

/-- A token with some text after it stays when more text follows, exactly when it still stops. -/
theorem token_append_iff {i : Nat} {more : List Char} (hcut : CutBetween cs before (.lexeme l) rest)
    (hrest : rest ≠ [])
    (h : (lexChars cs).tokens[i]? = some (l.token (Span.ofText before l.text))) :
    (lexChars (cs ++ more)).tokens[i]? = some (l.token (Span.ofText before l.text)) ↔
      l.Stops (rest ++ more) := by
  constructor
  · intro h'
    rcases mem_tokens_lexChars.1 (List.mem_of_getElem? h') with
      ⟨before', l', rest', hcut', heq⟩ | hend
    · obtain rfl := Lexeme.meaning_injective hcut.valid hcut'.valid (congrArg Token.meaning heq)
      have start : byteLength before = byteLength before' := by
        have := congrArg (Span.start ∘ Token.span) heq
        simpa [Lexeme.token, Span.ofText_eq] using this
      have whole : before ++ (l.text ++ (rest ++ more)) = before' ++ (l.text ++ rest') := by
        have := hcut'.text_eq
        rw [hcut.text_eq] at this
        simpa [Piece.text] using this
      obtain rfl := prefix_eq_of_byteLength whole start
      rw [List.append_cancel_left (List.append_cancel_left whole)]
      exact hcut'.stops
    · exact absurd (congrArg Token.kind hend) l.kind_ne_eof
  · intro stops
    obtain ⟨ps, qs, hpieces, rfl, rfl⟩ := hcut
    obtain ⟨later, tokens, hlater⟩ := tokens_split hpieces
    have hpoint : l.text ++ qs.flatMap Piece.text ≠ ['.'] := by
      intro he
      rcases List.append_eq_singleton_iff.1 he with ⟨he, _⟩ | ⟨_, he⟩
      · exact Lexeme.text_ne_nil (valid_stops_of_cut hpieces).1 he
      · exact hrest he
    have shared := items_append_of_stops (p := .lexeme l) hpieces hpoint stops
    rw [tokens] at h
    apply getElem?_of_append h hlater
    rw [tokens_lexChars]
    exact (shared.filterMap _).trans (List.prefix_append _ _)

/-- A lexeme with some text after it stops as before when that text goes on, unless a digit comes
after a number and a last point. -/
theorem Lexeme.stops_append_iff {l : Lexeme} {more : List Char} (valid : l.Valid)
    (stops : l.Stops rest) (hrest : rest ≠ []) :
    l.Stops (rest ++ more) ↔
      ¬ ((l.kind = .number ∧ '.' ∉ l.text ∧ rest = ['.']) ∧
        ∃ c ∈ more.head?, c.isDigit = true) := by
  by_cases final : l.kind = .number ∧ '.' ∉ l.text ∧ rest = ['.']
  · rw [and_iff_right final]
    obtain ⟨hkind, hwhole, rfl⟩ := final
    obtain ⟨d, rfl⟩ := exists_number_of_kind hkind
    have hnone := (point_not_mem_text_iff valid).1 hwhole
    constructor
    · rintro ⟨_, hpoint⟩ ⟨c, hc, hdigit⟩
      obtain ⟨cs, rfl⟩ := List.head?_eq_some_iff.1 hc
      rw [hpoint hnone c cs rfl] at hdigit
      cases hdigit
    · intro h
      refine ⟨stops.1, ?_⟩
      rintro _ c cs he
      rw [Bool.eq_false_iff]
      intro hdigit
      refine h ⟨c, ?_, hdigit⟩
      have tail : more = c :: cs := (List.cons.inj he).2
      rw [tail]
      rfl
  · refine iff_of_true ?_ fun h => final h.1
    refine Piece.Stops.append (p := .lexeme l) stops hrest ?_
    rintro d ⟨⟩ hnone hpoint
    exact final ⟨rfl, (point_not_mem_text_iff valid).2 hnone, hpoint⟩

def LexError.Cause.isUnexpected : Cause → Bool
  | unexpectedCharacter _ => true
  | unterminatedString => false

/-- The errors about unexpected characters. -/
def Lexing.unexpected (r : Lexing) : List LexError :=
  r.errors.filter fun e => e.cause.isUnexpected

/-- The errors about strings that are not closed. -/
def Lexing.unterminated (r : Lexing) : List LexError :=
  r.errors.filter fun e => e.cause = .unterminatedString

theorem isUnexpected_of_closed (start : Position) (closed : ∀ body, Piece.openString body ∉ ps) :
    ∀ e ∈ (itemsOfPieces start ps).filterMap Item.error?, e.cause.isUnexpected = true := by
  induction ps generalizing start with
  | nil => simp [itemsOfPieces]
  | cons p ps ih =>
    have later := ih (start.after p.text) fun body h => closed body (List.mem_cons_of_mem _ h)
    rw [itemsOfPieces_cons, List.filterMap_append]
    intro e he
    rcases List.mem_append.1 he with he | he
    · cases p with
      | unexpected c => cases List.mem_singleton.1 he; rfl
      | openString body => exact absurd List.mem_cons_self (closed body)
      | _ => cases he
    · exact later e he

/-- An open string is the last piece of a text. -/
theorem openString_not_mem (hcut : cut cs = ps ++ p :: qs) (body : List Char) :
    Piece.openString body ∉ ps := by
  intro h
  obtain ⟨before, after, rfl⟩ := List.append_of_mem h
  rw [List.append_assoc, List.cons_append] at hcut
  have stops : (after ++ p :: qs).flatMap Piece.text = [] := (valid_stops_of_cut hcut).2
  have nil := List.flatMap_eq_nil_iff.1 stops p (by simp)
  exact text_ne_nil_of_mem_cut cs (hcut ▸ by simp) nil

/-- The unexpected characters among some first pieces are the first errors of every longer text. -/
theorem unexpected_prefix {more : List Char} (hcut : cut cs = ps ++ qs) :
    ((itemsOfPieces Position.origin ps).filterMap Item.error?).filter
      (fun e => e.cause.isUnexpected) <+: (lexChars (cs ++ more)).errors := by
  -- Going back from the last piece, the first unexpected character met has all others before it.
  induction ps using List.reverseRecOn generalizing qs with
  | nil => exact List.nil_prefix
  | append_singleton ps p ih =>
    rw [List.append_assoc] at hcut
    have earlier := ih hcut
    rw [itemsOfPieces_concat, List.filterMap_append, List.filter_append]
    cases p with
    | unexpected c =>
      have valid := (valid_stops_of_cut hcut).1
      have hpoint : [c] ++ qs.flatMap Piece.text ≠ ['.'] := by
        intro he
        obtain rfl : c = '.' := (List.cons.inj he).1
        exact absurd valid (by decide)
      have shared : itemsOfPieces Position.origin (ps ++ [.unexpected c]) <+: items (cs ++ more) :=
        items_append_of_stops hcut hpoint trivial
      rw [List.filter_eq_self.2 (isUnexpected_of_closed _ (openString_not_mem hcut))]
      rw [itemsOfPieces_concat] at shared
      have errors := shared.filterMap Item.error?
      rwa [List.filterMap_append] at errors
    | _ =>
      change _ ++ [] <+: _
      rwa [List.append_nil]

/-- A number without a point, and nothing but a point after it in the source. -/
structure Token.BeforeFinalPoint (t : Token) (source : String) : Prop where
  whole : t.kind = .number ∧ '.' ∉ t.lexeme.toList
  point : dropBytes? t.span.stop source.toList = some ['.']

theorem Lexeme.stop_token (l : Lexeme) (before : List Char) :
    (l.token (Span.ofText before l.text)).span.stop = byteLength (before ++ l.text) := by
  simp [token, Span.ofText_eq]

theorem beforeFinalPoint_iff {source : String}
    (hcut : CutBetween source.toList before (.lexeme l) rest) :
    (l.token (Span.ofText before l.text)).BeforeFinalPoint source ↔
      l.kind = .number ∧ '.' ∉ l.text ∧ rest = ['.'] := by
  have behind : dropBytes? (byteLength (before ++ l.text)) source.toList = some rest := by
    rw [hcut.text_eq]
    exact dropBytes?_append _ _
  have lexeme : (l.token (Span.ofText before l.text)).lexeme.toList = l.text :=
    String.toList_ofList
  constructor
  · rintro ⟨⟨hkind, hwhole⟩, hpoint⟩
    rw [l.stop_token, behind] at hpoint
    exact ⟨hkind, lexeme ▸ hwhole, Option.some.inj hpoint⟩
  · rintro ⟨hkind, hwhole, rfl⟩
    exact ⟨⟨hkind, lexeme.symm ▸ hwhole⟩, by rw [l.stop_token, behind]⟩

/-- Tokens that end before the source does stay when it goes on, but for a number in front of the
last point when a digit comes next. Unexpected characters stay the first errors. -/
theorem lex_append_stable (a b : String) :
    (∀ (i : Nat) t, (lex a).tokens[i]? = some t → t.span.stop < a.utf8ByteSize →
      ((lex (a ++ b)).tokens[i]? = some t ↔
        ¬ (t.BeforeFinalPoint a ∧ ∃ c ∈ b.toList.head?, c.isDigit = true))) ∧
    (lex a).unexpected <+: (lex (a ++ b)).errors := by
  rw [lex, lex, String.toList_append]
  constructor
  · intro i t ht hstop
    rw [← byteLength_toList] at hstop
    rcases mem_tokens_lexChars.1 (List.mem_of_getElem? ht) with ⟨before, l, rest, hcut, rfl⟩ | rfl
    · have hrest : rest ≠ [] := by
        rintro rfl
        rw [l.stop_token, hcut.text_eq, List.append_nil] at hstop
        exact Nat.lt_irrefl _ hstop
      rw [token_append_iff hcut hrest ht, beforeFinalPoint_iff hcut]
      exact Lexeme.stops_append_iff hcut.valid hcut.stops hrest
    · rw [endToken_span, Span.ofText_eq] at hstop
      exact absurd hstop (Nat.lt_irrefl _)
  · exact unexpected_prefix (List.append_nil _).symm

/-- A digit after a last point is taken into the number in front of it, and nothing else changes. -/
theorem lex_append_stable_final_point :
    let x : Token := ⟨.identifier, "x", none, ⟨1, 2, 1, 2⟩⟩
    let one : Token := ⟨.number, "1", some (.number "1.0"), ⟨3, 4, 1, 4⟩⟩
    ((lex "@x 1.").tokens[0]? = some x ∧ x.span.stop < "@x 1.".utf8ByteSize ∧
      (lex ("@x 1." ++ "5")).tokens[0]? = some x) ∧
    ((lex "@x 1.").tokens[1]? = some one ∧ one.span.stop < "@x 1.".utf8ByteSize ∧
      one.BeforeFinalPoint "@x 1." ∧ (lex ("@x 1." ++ "5")).tokens[1]? ≠ some one) ∧
    (lex "@x 1.").unexpected = [⟨.unexpectedCharacter '@', ⟨0, 1, 1, 1⟩⟩] ∧
      (lex "@x 1.").unexpected <+: (lex ("@x 1." ++ "5")).errors := by
  intro x one
  have hcut : cut "@x 1.".toList = [.unexpected '@', .lexeme (.word ['x']), .blank ' ',
      .lexeme (.number ⟨['1'], none⟩), .lexeme (.punctuator .dot)] := cut_eq_iff.2 (by decide)
  have read : lex "@x 1." = ⟨[x, one, ⟨.punctuator .dot, ".", none, ⟨4, 5, 1, 5⟩⟩,
      ⟨.eof, "", none, ⟨5, 5, 1, 6⟩⟩], [⟨.unexpectedCharacter '@', ⟨0, 1, 1, 1⟩⟩]⟩ := by
    rw [lex, lexChars, items, hcut]
    decide
  have size : "@x 1.".utf8ByteSize = 5 := by
    rw [← byteLength_toList]
    decide
  have hx : (lex "@x 1.").tokens[0]? = some x := by rw [read]; rfl
  have hone : (lex "@x 1.").tokens[1]? = some one := by rw [read]; rfl
  have final : one.BeforeFinalPoint "@x 1." := ⟨by decide, by decide⟩
  have stopX : x.span.stop < "@x 1.".utf8ByteSize := by rw [size]; decide
  have stopOne : one.span.stop < "@x 1.".utf8ByteSize := by rw [size]; decide
  obtain ⟨stays, errors⟩ := lex_append_stable "@x 1." "5"
  refine ⟨⟨hx, stopX, (stays 0 x hx stopX).2 fun h => absurd h.1.whole.1 (by decide)⟩,
    ⟨hone, stopOne, final, fun h => (stays 1 one hone stopOne).1 h ⟨final, '5', rfl, by decide⟩⟩,
    ?_, errors⟩
  rw [read]
  rfl

end LoxLexer
