import LoxLexer.Proofs.Lexing.Boundary
import LoxLexer.Proofs.Lexing.Continuation
import LoxLexer.Proofs.Lexing.Lines
import LoxLexer.Proofs.Lexing.Tiling
import LoxLexer.Proofs.Piece.Extension

/-!
# A quote behind a source

A quote at the end of a source closes the string that is open there. Where none is open it opens
one, unless the source ends in a comment, which takes it in. Nothing else is read otherwise.
-/
namespace LoxLexer

variable {cs : List Char} {ps qs : List Piece} {body : List Char}

namespace Lexing

/-- The source ends in two slashes with no line feed after them, and no token and no error covers
any of this end. -/
def EndsInComment (r : Lexing) (source : String) : Prop :=
  ∃ before body, source.toList = before ++ '/' :: '/' :: body ∧ '\n' ∉ body ∧
    ∀ n, byteLength before ≤ n → ¬ r.Covers n

/-- The error `e` of `r` is the last one, and runs from the last quote of the source to its end; in
`closed` there is a token in its place, from the same quote on, and nothing else differs. -/
structure ClosedAs (r closed : Lexing) (source : String) (e : LexError) : Prop where
  errors : r.errors = closed.errors ++ [e]
  errors_before : ∀ e' ∈ closed.errors, e'.span.stop ≤ e.span.start
  tokens_before : ∀ t ∈ r.readTokens, t.span.stop ≤ e.span.start
  quote : ∃ before body, source.toList = before ++ '"' :: body ∧ '"' ∉ body ∧
    e.span.start = byteLength before ∧ e.span.stop = source.utf8ByteSize ∧
    ∃ last, last.meaning = .eof ∧ closed.tokens = r.readTokens ++
      [⟨.string, String.ofList ('"' :: body ++ ['"']), some (.string (String.ofList body)),
        ⟨e.span.start, source.utf8ByteSize + 1, e.span.line, e.span.column⟩⟩, last]

/-- In `opened` there is one more error than in `r`, for a string that is opened where the source
ends. -/
structure OpenedAs (r opened : Lexing) (source : String) : Prop where
  tokens : opened.readTokens = r.readTokens
  errors : ∃ last, r.tokens.getLast? = some last ∧ last.meaning = .eof ∧
    opened.errors = r.errors ++ [⟨.unterminatedString,
      ⟨source.utf8ByteSize, source.utf8ByteSize + 1, last.span.line, last.span.column⟩⟩]

end Lexing

theorem eq_nil_of_text_of_cut (h : cut cs = ps ++ qs) (hnil : qs.flatMap Piece.text = []) :
    qs = [] := by
  rw [List.eq_nil_iff_forall_not_mem]
  intro p hp
  exact (nonempty_of_cut h).2 p hp (List.flatMap_eq_nil_iff.1 hnil p hp)

/-- Every character of a text stands in one of its pieces. -/
theorem exists_piece_at {before rest : List Char} {c : Char}
    (h : ps.flatMap Piece.text = before ++ c :: rest) :
    ∃ front p back left right, ps = front ++ p :: back ∧
      before = front.flatMap Piece.text ++ left ∧ p.text = left ++ c :: right ∧
        rest = right ++ back.flatMap Piece.text := by
  induction ps generalizing before with
  | nil => simp at h
  | cons p ps ih =>
    rw [List.flatMap_cons] at h
    have later {before' : List Char} (hbefore : before = p.text ++ before')
        (htext : ps.flatMap Piece.text = before' ++ c :: rest) :
        ∃ front q back left right, p :: ps = front ++ q :: back ∧
          before = front.flatMap Piece.text ++ left ∧ q.text = left ++ c :: right ∧
            rest = right ++ back.flatMap Piece.text := by
      obtain ⟨front, q, back, left, right, rfl, rfl, hq, hrest⟩ := ih htext
      refine ⟨p :: front, q, back, left, right, rfl, ?_, hq, hrest⟩
      rw [hbefore, List.flatMap_cons, List.append_assoc]
    rcases List.append_eq_append_iff.1 h with ⟨before', hbefore, htext⟩ | ⟨right, htext, hrest⟩
    · exact later hbefore htext
    · cases right with
      | nil => exact @later [] (by simpa using htext.symm) hrest.symm
      | cons d right =>
        obtain ⟨rfl, rfl⟩ := List.cons.inj hrest
        exact ⟨[], p, ps, before, right, rfl, rfl, htext, rfl⟩

/-- A source ends in a comment exactly when that is the last piece of its cut. -/
theorem endsInComment_iff {source : String} : (lex source).EndsInComment source ↔
    ∃ ps body, cut source.toList = ps ++ [.comment body] := by
  constructor
  · rintro ⟨before, body, htext, hbody, free⟩
    obtain ⟨ps, p, qs, left, right, hcut, rfl, hp, hrest⟩ :=
      exists_piece_at ((cut_text source.toList).trans htext)
    have between : CutBetween source.toList (ps.flatMap Piece.text) p (qs.flatMap Piece.text) :=
      ⟨ps, qs, hcut, rfl, rfl⟩
    -- The first slash lies in a piece that is neither read nor reported: a comment, not a blank.
    have silent : p.item? (Span.ofText (ps.flatMap Piece.text) p.text) = none := by
      by_contra hitem
      refine free _ (Nat.le_refl _) (Lexing.covers_lexChars.2 ⟨_, p, _, between,
        Option.ne_none_iff_exists'.1 hitem, ?_, ?_⟩)
      · rw [byteLength_append]
        exact Nat.le_add_right _ _
      · have := Char.utf8Size_pos '/'
        simp only [hp, byteLength_append, byteLength_cons]
        omega
    cases p with
    | blank c =>
      obtain ⟨_, rfl, _⟩ : left = [] ∧ '/' = c ∧ right = [] := by
        simpa [Piece.text, List.singleton_eq_append_iff] using hp
      exact absurd between.valid (by decide)
    | comment inner =>
      have nil : qs.flatMap Piece.text = [] := by
        cases h : qs.flatMap Piece.text with
        | nil => rfl
        | cons c cs =>
          obtain rfl : c = '\n' := between.stops c (by rw [h]; rfl)
          have mem : '\n' ∈ '/' :: body := by simp [hrest, h]
          exact absurd mem (by simpa using hbody)
      rw [List.append_cons] at hcut
      rw [eq_nil_of_text_of_cut hcut nil, List.append_nil] at hcut
      exact ⟨ps, inner, hcut⟩
    | lexeme l => cases silent
    | unexpected c => cases silent
    | openString body => cases silent
  · rintro ⟨ps, body, hcut⟩
    have text := text_of_cut hcut
    rw [List.flatMap_singleton] at text
    refine ⟨ps.flatMap Piece.text, body, text, (valid_stops_of_cut hcut).1, ?_⟩
    rintro n hn ⟨s, hs, _, hstop⟩
    rw [lex, Lexing.spans_lexChars, items, hcut, itemsOfPieces_concat] at hs
    obtain ⟨x, hx, rfl⟩ := List.mem_map.1 hs
    have := (stop_le_of_cut hcut (by simpa [Piece.item?] using hx)).2
    omega

variable {source : String}

theorem toList_append_quote (source : String) :
    (source ++ "\"").toList = source.toList ++ ['"'] := by
  simp

/-- An open string that is reported is the last piece of the cut. -/
theorem exists_openString {e : LexError} (h : e ∈ (lexChars cs).errors)
    (hcause : e.cause = .unterminatedString) : ∃ ps body, cut cs = ps ++ [.openString body] ∧
      e = ⟨.unterminatedString, Span.ofText (ps.flatMap Piece.text) ('"' :: body)⟩ := by
  rcases mem_errors_lexChars.1 h with ⟨_, c, _, _, rfl⟩ | ⟨before, body, rest, between, rfl⟩
  · cases hcause
  · obtain rfl : rest = [] := between.stops
    obtain ⟨ps, qs, hcut, rfl, hqs⟩ := between
    rw [List.append_cons] at hcut
    rw [eq_nil_of_text_of_cut hcut hqs, List.append_nil] at hcut
    exact ⟨ps, body, hcut, rfl⟩

/-- The errors of a text with an open string are those of the other pieces, and that one. -/
theorem errors_of_openString (h : cut cs = ps ++ [.openString body]) :
    (lexChars cs).errors = (itemsOfPieces Position.origin ps).filterMap Item.error? ++
      [⟨.unterminatedString, Span.ofText (ps.flatMap Piece.text) ('"' :: body)⟩] := by
  rw [errors_lexChars, items, h, itemsOfPieces_concat, List.filterMap_append]
  rfl

theorem unterminated_length_le (cs : List Char) : (lexChars cs).unterminated.length ≤ 1 := by
  by_cases h : ∃ e ∈ (lexChars cs).errors, e.cause = .unterminatedString
  · obtain ⟨e, he, hcause⟩ := h
    obtain ⟨ps, body, hcut, -⟩ := exists_openString he hcause
    have others : ∀ e ∈ (itemsOfPieces Position.origin ps).filterMap Item.error?,
        e.cause ≠ .unterminatedString := by
      intro e he hcause
      have := isUnexpected_of_closed _ (openString_not_mem hcut) e he
      rw [hcause] at this
      cases this
    rw [Lexing.unterminated, errors_of_openString hcut, List.filter_append,
      List.filter_eq_nil_iff.2 fun e he => by simpa using others e he]
    exact Nat.le_refl _
  · have none : (lexChars cs).unterminated = [] := by
      rw [Lexing.unterminated, List.filter_eq_nil_iff]
      intro e he
      simpa using fun hcause => h ⟨e, he, hcause⟩
    rw [none]
    exact Nat.zero_le _

/-- A quote closes an open string. -/
theorem cut_append_quote_of_openString (h : cut cs = ps ++ [.openString body]) :
    cut (cs ++ ['"']) = ps ++ [.lexeme (.string body)] := by
  have valid : (Piece.openString body).Valid := (valid_stops_of_cut h).1
  exact cut_append_of_last h rfl (by simp [Piece.text]) valid trivial

/-- A comment at the end of a text takes a quote in. -/
theorem cut_append_quote_of_comment (h : cut cs = ps ++ [.comment body]) :
    cut (cs ++ ['"']) = ps ++ [.comment (body ++ ['"'])] := by
  have valid : '\n' ∉ body := (valid_stops_of_cut h).1
  apply cut_append_of_last h rfl (by simp [Piece.text])
  · simpa [Piece.Valid] using valid
  · simp [Piece.Stops]

/-- Behind any other end of a text, a quote opens a string. -/
theorem cut_append_quote (closed : ∀ p ∈ cut cs, ∀ body, p ≠ .openString body)
    (code : ∀ ps body, cut cs ≠ ps ++ [.comment body]) :
    cut (cs ++ ['"']) = cut cs ++ [.openString []] := by
  have fit : Fit ['"'] (cut cs) := by
    apply (fit_cut cs).append_of_head
    · rintro _ ⟨⟩
      decide
    · intro p hp
      obtain ⟨ps, hcut⟩ := List.getLast?_eq_some_iff.1 hp
      cases p with
      | blank c => trivial
      | comment body => exact absurd hcut (code ps body)
      | unexpected c => trivial
      | openString body => exact absurd rfl (closed _ (hcut ▸ by simp) body)
      | lexeme l =>
        apply Lexeme.stops_of_head
        · rintro _ ⟨⟩
          decide
        · simp
  have read := fit.cut_append
  rw [cut_text] at read
  rw [read]
  exact congrArg _ (cut_eq_iff.2 (by decide))

/-- The closing quote turns the last error into a token, which starts where the error did. -/
theorem closedAs_of_openString (h : cut source.toList = ps ++ [.openString body]) :
    (lex source).ClosedAs (lex (source ++ "\"")) source
      ⟨.unterminatedString, Span.ofText (ps.flatMap Piece.text) ('"' :: body)⟩ := by
  have text : source.toList = ps.flatMap Piece.text ++ '"' :: body := by
    simpa [Piece.text] using text_of_cut h
  have hcut := cut_append_quote_of_openString h
  have errors' : (lex (source ++ "\"")).errors =
      (itemsOfPieces Position.origin ps).filterMap Item.error? := by
    rw [lex, toList_append_quote, errors_lexChars, items, hcut, itemsOfPieces_concat,
      List.filterMap_append]
    exact List.append_nil _
  have tokens : (lex source).readTokens =
      (itemsOfPieces Position.origin ps).filterMap Item.token? := by
    rw [lex, Lexing.readTokens_lexChars, items, h, itemsOfPieces_concat, List.filterMap_append]
    exact List.append_nil _
  have size : source.utf8ByteSize =
      byteLength (ps.flatMap Piece.text) + byteLength ('"' :: body) := by
    rw [← byteLength_toList, text, byteLength_append]
  refine ⟨?_, ?_, ?_, ps.flatMap Piece.text, body, text, (valid_stops_of_cut h).1, ?_⟩
  · rw [errors', lex, errors_of_openString h]
  · intro e he
    rw [errors'] at he
    rw [Span.ofText_eq]
    exact (stop_le_of_cut h (mem_filterMap_error.1 he)).2
  · intro t ht
    rw [tokens] at ht
    rw [Span.ofText_eq]
    exact (stop_le_of_cut h (mem_filterMap_token.1 ht)).2
  · rw [Span.ofText_eq, size]
    refine ⟨rfl, rfl, endToken (source.toList ++ ['"']), rfl, ?_⟩
    have stop : byteLength (ps.flatMap Piece.text) + byteLength ('"' :: body ++ ['"']) =
        byteLength (ps.flatMap Piece.text) + byteLength ('"' :: body) + 1 := by
      rw [byteLength_append, ← Nat.add_assoc]
      rfl
    rw [tokens, lex, toList_append_quote, tokens_lexChars, items, hcut, itemsOfPieces_concat,
      List.filterMap_append, List.append_assoc, ← stop, Span.ofText_eq]
    rfl

theorem openedAs_of_closed (closed : ∀ p ∈ cut source.toList, ∀ body, p ≠ .openString body)
    (code : ∀ ps body, cut source.toList ≠ ps ++ [.comment body]) :
    (lex source).OpenedAs (lex (source ++ "\"")) source := by
  have hcut := cut_append_quote closed code
  refine ⟨?_, endToken source.toList, List.getLast?_concat, rfl, ?_⟩
  · rw [lex, lex, Lexing.readTokens_lexChars, Lexing.readTokens_lexChars, toList_append_quote,
      items, hcut, itemsOfPieces_concat, List.filterMap_append]
    exact List.append_nil _
  · rw [lex, lex, errors_lexChars, errors_lexChars, toList_append_quote, items, hcut,
      itemsOfPieces_concat, List.filterMap_append, cut_text, endToken_span, Span.ofText_eq,
      Span.ofText_eq, ← byteLength_toList]
    rfl

theorem same_of_endsInComment (h : cut source.toList = ps ++ [.comment body]) :
    (lex (source ++ "\"")).readTokens = (lex source).readTokens ∧
      (lex (source ++ "\"")).errors = (lex source).errors := by
  have same : items (source.toList ++ ['"']) = items source.toList := by
    rw [items, items, cut_append_quote_of_comment h, h, itemsOfPieces_concat,
      itemsOfPieces_concat]
    rfl
  rw [lex, lex, Lexing.readTokens_lexChars, Lexing.readTokens_lexChars, errors_lexChars,
    errors_lexChars, toList_append_quote, same]
  exact ⟨rfl, rfl⟩

/-- At most one string is open, and a quote behind the source closes it. Where none is open, the
quote opens one at the end of the source, unless this is in a comment: then nothing changes. -/
theorem lex_append_quote (source : String) :
    (lex source).unterminated.length ≤ 1 ∧
    (∀ e ∈ (lex source).errors, e.cause = .unterminatedString →
      (lex source).ClosedAs (lex (source ++ "\"")) source e) ∧
    ((∀ e ∈ (lex source).errors, e.cause ≠ .unterminatedString) →
      ¬ (lex source).EndsInComment source →
        (lex source).OpenedAs (lex (source ++ "\"")) source) ∧
    ((lex source).EndsInComment source →
      (lex (source ++ "\"")).readTokens = (lex source).readTokens ∧
        (lex (source ++ "\"")).errors = (lex source).errors) := by
  refine ⟨unterminated_length_le _, ?_, ?_, ?_⟩
  · intro e he hcause
    obtain ⟨ps, body, hcut, rfl⟩ := exists_openString he hcause
    exact closedAs_of_openString hcut
  · intro closed code
    rw [endsInComment_iff] at code
    exact openedAs_of_closed (closed_of_errors closed) fun ps body h => code ⟨ps, body, h⟩
  · intro h
    obtain ⟨ps, body, hcut⟩ := endsInComment_iff.1 h
    exact same_of_endsInComment hcut

/-- A string that is open behind a comment with a quote in it, slashes in a closed string, and a
comment. -/
theorem lex_append_quote_three_ends :
    (∃ e ∈ (lex "// \"\n\"//").errors, e.cause = .unterminatedString ∧
      (lex "// \"\n\"//").ClosedAs (lex ("// \"\n\"//" ++ "\"")) "// \"\n\"//" e) ∧
    ((∀ e ∈ (lex "@\"//\"").errors, e.cause ≠ .unterminatedString) ∧
      ¬ (lex "@\"//\"").EndsInComment "@\"//\"" ∧
        (lex "@\"//\"").OpenedAs (lex ("@\"//\"" ++ "\"")) "@\"//\"") ∧
    ((lex "@ // a").EndsInComment "@ // a" ∧
      (lex ("@ // a" ++ "\"")).readTokens = (lex "@ // a").readTokens ∧
        (lex ("@ // a" ++ "\"")).errors = (lex "@ // a").errors) := by
  have cutOpen : cut "// \"\n\"//".toList =
      [.comment [' ', '"'], .blank '\n', .openString ['/', '/']] := cut_eq_iff.2 (by decide)
  have cutClosed : cut "@\"//\"".toList = [.unexpected '@', .lexeme (.string ['/', '/'])] :=
    cut_eq_iff.2 (by decide)
  have cutComment : cut "@ // a".toList = [.unexpected '@', .blank ' ', .comment [' ', 'a']] :=
    cut_eq_iff.2 (by decide)
  have found : ⟨.unterminatedString, ⟨5, 8, 2, 1⟩⟩ ∈ (lex "// \"\n\"//").errors := by
    rw [lex, lexChars, items, cutOpen]
    decide
  have closed : ∀ e ∈ (lex "@\"//\"").errors, e.cause ≠ .unterminatedString := by
    rw [lex, lexChars, items, cutClosed]
    decide
  have code : ¬ (lex "@\"//\"").EndsInComment "@\"//\"" := by
    rw [endsInComment_iff, cutClosed]
    rintro ⟨ps, body, h⟩
    have last := congrArg List.getLast? h
    rw [List.getLast?_concat] at last
    cases last
  have comment : (lex "@ // a").EndsInComment "@ // a" :=
    endsInComment_iff.2 ⟨[.unexpected '@', .blank ' '], [' ', 'a'], cutComment⟩
  obtain ⟨_, closes, _, _⟩ := lex_append_quote "// \"\n\"//"
  obtain ⟨_, _, opens, _⟩ := lex_append_quote "@\"//\""
  obtain ⟨_, _, _, same⟩ := lex_append_quote "@ // a"
  exact ⟨⟨_, found, rfl, closes _ found rfl⟩, ⟨closed, code, opens closed code⟩, comment,
    same comment⟩

end LoxLexer
