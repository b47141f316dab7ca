import LoxLexer.Proofs.Lexing.Correspondence
import LoxLexer.Proofs.Lexing.Lines
import LoxLexer.Proofs.Piece.Extension

/-!
# Bodies of comments and strings

What stands in a comment or between the quotes of a string decides nothing outside. Two sources that
differ only there have the same tokens and errors in front, and behind they have tokens and errors
that mean the same, moved by as much as the one body is longer than the other.
-/
namespace LoxLexer

variable {cs rest : List Char} {ps : List Piece}

/-- Both lists begin with the same elements, of which `Front` holds, and go on alike. -/
def SameInFront {α : Type} (Front : α → Prop) (R : α → α → Prop) (xs ys : List α) : Prop :=
  ∃ front back back', xs = front ++ back ∧ ys = front ++ back' ∧ (∀ x ∈ front, Front x) ∧
    List.Forall₂ R back back'

/-- `s` starts at byte `edge` or later, and `s'` is `s` where `new` stands in front of it instead of
`old`. Columns may differ. -/
structure Span.Displaced (edge : Nat) (old new : String) (s s' : Span) : Prop where
  behind : edge ≤ s.start
  start : s.start + new.utf8ByteSize = s'.start + old.utf8ByteSize
  stop : s.stop + new.utf8ByteSize = s'.stop + old.utf8ByteSize
  line : s.line + new.toList.count '\n' = s'.line + old.toList.count '\n'

/-- Only offsets are displaced. -/
structure Span.Slid (edge : Nat) (old new : String) (s s' : Span) : Prop where
  displaced : Displaced edge old new s s'
  line : s.line = s'.line
  column : s.column = s'.column

/-- The token of a string that starts at the byte, the line and the column. -/
def Token.quoted (body : String) (start line column : Nat) : Token :=
  ⟨.string, "\"" ++ body ++ "\"", some (.string body),
    ⟨start, start + body.utf8ByteSize + 2, line, column⟩⟩

namespace Lexing

/-- `r` and `r'` are the same as far as `x` goes. Behind a comment that holds `old` in `r` and `new`
in `r'`, offsets are displaced and nothing else differs, except for the column of the end of the
input when there is no `rest`. -/
structure SameButComment (r r' : Lexing) (x old new rest : String) : Prop where
  tokens : SameInFront (fun t => t.span.stop ≤ x.utf8ByteSize)
    (fun t t' => t.Alike (Span.Displaced (x.utf8ByteSize + old.utf8ByteSize + 2) old new) t' ∧
      t.span.line = t'.span.line ∧
        (t.kind ≠ .eof ∨ rest ≠ "" → t.span.column = t'.span.column)) r.tokens r'.tokens
  errors : SameInFront (fun e => e.span.stop ≤ x.utf8ByteSize)
    (LexError.Alike (Span.Slid (x.utf8ByteSize + old.utf8ByteSize + 2) old new)) r.errors r'.errors

/-- `r` and `r'` are the same as far as `x` goes. Behind it there is a string of `old` in `r` and
one of `new` in `r'`, from the same place on, and nothing that follows differs but for its place. -/
structure SameButString (r r' : Lexing) (x old new : String) : Prop where
  tokens : ∃ front line column back back',
    r.tokens = front ++ Token.quoted old x.utf8ByteSize line column :: back ∧
    r'.tokens = front ++ Token.quoted new x.utf8ByteSize line column :: back' ∧
    (∀ t ∈ front, t.span.stop ≤ x.utf8ByteSize) ∧
    List.Forall₂ (Token.Alike (Span.Displaced (x.utf8ByteSize + old.utf8ByteSize + 2) old new))
      back back'
  errors : SameInFront (fun e => e.span.stop ≤ x.utf8ByteSize)
    (LexError.Alike (Span.Displaced (x.utf8ByteSize + old.utf8ByteSize + 2) old new))
    r.errors r'.errors

end Lexing

/-- Behind two texts that differ in one part, spans are displaced by that part. -/
theorem Span.displaced_ofText {edge : Nat} (old new : String) {front middle : List Char}
    (hedge : edge ≤ byteLength (front ++ old.toList ++ middle)) (cs ds : List Char) :
    Displaced edge old new (ofText (front ++ old.toList ++ middle ++ cs) ds)
      (ofText (front ++ new.toList ++ middle ++ cs) ds) := by
  simp only [byteLength_append, byteLength_toList] at hedge
  rw [ofText_eq, ofText_eq]
  constructor
  all_goals simp only [lineAt_append, byteLength_append, byteLength_toList]
  all_goals omega

/-- Only a slash, a comment and an open string go on with a slash. -/
theorem Piece.stops_slash_or (p : Piece) : p.Stops ('/' :: rest) ∨
    (∃ body, p = openString body) ∨ (∃ body, p = comment body) ∨
      p = lexeme (.punctuator .slash) := by
  cases p with
  | blank c => exact .inl trivial
  | unexpected c => exact .inl trivial
  | openString body => exact .inr (.inl ⟨body, rfl⟩)
  | comment body => exact .inr (.inr (.inl ⟨body, rfl⟩))
  | lexeme l =>
    by_cases hl : l = .punctuator .slash
    · exact .inr (.inr (.inr (congrArg _ hl)))
    · left
      apply Lexeme.stops_of_head
      · rintro _ ⟨⟩
        decide
      · exact fun h => absurd h hl

/-- The pieces that stay as they are in front of two slashes, and what the comment takes of the text
before these: the body of a comment that is still open, or one slash. -/
theorem exists_before_slashes (closed : ∀ p ∈ cut cs, ∀ body, p ≠ .openString body) :
    ∃ ps inner, ps.flatMap Piece.text ++ '/' :: '/' :: inner = cs ++ ['/', '/'] ∧
      '\n' ∉ inner ∧ Fit ['/', '/'] ps := by
  have fit := fit_cut cs
  have whole := cut_text cs
  by_cases last : ∀ p ∈ (cut cs).getLast?, p.Stops ['/', '/']
  · refine ⟨cut cs, [], by rw [whole], by simp, fit.append_of_head ?_ last⟩
    rintro _ ⟨⟩
    decide
  -- The last piece goes on with a slash, so the comment begins with it.
  push Not at last
  obtain ⟨p, hp, goes_on⟩ := last
  obtain ⟨ps, hcut⟩ := List.getLast?_eq_some_iff.1 hp
  rw [hcut, fit_append, List.flatMap_singleton, List.append_nil] at fit
  rw [hcut, List.flatMap_append, List.flatMap_singleton] at whole
  obtain ⟨front, valid, _⟩ := fit
  rcases p.stops_slash_or with stops | ⟨body, rfl⟩ | ⟨body, rfl⟩ | rfl
  · exact absurd stops goes_on
  · exact absurd rfl (closed _ (hcut ▸ by simp) body)
  · have hbody : '\n' ∉ body := valid
    refine ⟨ps, body ++ ['/', '/'], ?_, by simpa using hbody,
      @Fit.of_append ['/', '/'] body _ front⟩
    rw [← whole]
    simp [Piece.text]
  · refine ⟨ps, ['/'], ?_, by decide, front.append (by decide) (by decide)⟩
    rw [← whole]
    simp [Piece.text, Lexeme.text, Punctuator.text]

/-- A comment up to a line feed or the end of the text is cut there, whatever it holds. -/
theorem Fit.cut_comment {body : List Char} (fit : Fit ['/', '/'] ps) (hbody : '\n' ∉ body)
    (ends : ∀ c ∈ rest.head?, c = '\n') :
    cut (ps.flatMap Piece.text ++ '/' :: '/' :: body ++ rest) =
      ps ++ .comment body :: cut rest := by
  have longer : Fit (['/', '/'] ++ (body ++ rest)) ps := fit.append (by decide) (by decide)
  have whole : Fit rest (ps ++ [.comment body]) := by
    rw [fit_append, List.flatMap_singleton]
    exact ⟨longer, hbody, ends, trivial⟩
  have read := whole.cut_append
  rw [List.flatMap_append, List.flatMap_singleton, List.append_assoc ps] at read
  exact read

/-- What is read in front of a quote does not depend on what stands behind the quote. -/
theorem Fit.cut_string {body : List Char} (fit : Fit ['"', '"'] ps) (hbody : '"' ∉ body) :
    cut (ps.flatMap Piece.text ++ '"' :: body ++ '"' :: rest) =
      ps ++ .lexeme (.string body) :: cut rest := by
  have longer : Fit (['"'] ++ (body ++ '"' :: rest)) ps :=
    (@Fit.of_append ['"'] ['"'] _ fit).append (by decide) (by decide)
  have whole : Fit rest (ps ++ [.lexeme (.string body)]) := by
    rw [fit_append, List.flatMap_singleton]
    refine ⟨?_, hbody, trivial, trivial⟩
    simpa [Piece.text, Lexeme.text] using longer
  have read := whole.cut_append
  rw [List.flatMap_append, List.flatMap_singleton, List.append_assoc ps] at read
  simpa [Piece.text, Lexeme.text] using read

/-- The pieces in front of a string that two quotes would make where the text ends. -/
theorem exists_before_quotes {x : String} (h : ∃ t ∈ (lex (x ++ "\"\"")).tokens,
    t.kind = .string ∧ t.span.start = x.utf8ByteSize) :
    ∃ ps, ps.flatMap Piece.text = x.toList ∧ Fit ['"', '"'] ps := by
  obtain ⟨t, ht, hkind, hstart⟩ := h
  rw [lex, String.toList_append] at ht
  rcases mem_tokens_lexChars.1 ht with ⟨before, l, rest, between, rfl⟩ | rfl
  · have text := between.text_eq
    rw [List.append_assoc] at text
    have hbefore : x.toList = before := by
      apply prefix_eq_of_byteLength text
      rw [byteLength_toList, ← hstart]
      simp [Lexeme.token, Span.ofText_eq]
    obtain ⟨ps, qs, hcut, rfl, rfl⟩ := between
    rw [hbefore] at text
    have fit := fit_cut (x.toList ++ "\"\"".toList)
    rw [hcut, fit_append, List.append_nil, List.flatMap_cons, ← List.append_cancel_left text] at fit
    exact ⟨ps, hbefore.symm, fit.1⟩
  · cases hkind

/-- The items of pieces that fit end within their text. -/
theorem Fit.stop_le {y : Item} (h : Fit rest ps) (hy : y ∈ itemsOfPieces Position.origin ps) :
    y.span.stop ≤ byteLength (ps.flatMap Piece.text) := by
  rw [← Position.after_nil Position.origin] at hy
  exact (bounds_of_mem_itemsOfPieces (fun p hp => Piece.text_ne_nil (h.valid p hp)) hy).2.2

/-- The items of a text with a comment in it are those in front of the comment and those behind. -/
theorem items_comment {x inner body : List Char}
    (htext : ps.flatMap Piece.text ++ '/' :: '/' :: inner = x ++ ['/', '/'])
    (fit : Fit ['/', '/'] ps) (hinner : '\n' ∉ inner) (hbody : '\n' ∉ body)
    (ends : ∀ c ∈ rest.head?, c = '\n') :
    items (x ++ ['/', '/'] ++ body ++ rest) = itemsOfPieces Position.origin ps ++
      itemsOfPieces (Position.origin.after (x ++ ['/', '/'] ++ body)) (cut rest) := by
  have whole : x ++ ['/', '/'] ++ body =
      ps.flatMap Piece.text ++ '/' :: '/' :: (inner ++ body) := by
    rw [← htext]
    simp
  rw [whole, items, fit.cut_comment (by simp [hinner, hbody]) ends, itemsOfPieces_append,
    itemsOfPieces_after_cons]
  rfl

/-- The items of a text with a string in it. -/
theorem items_string {body : List Char} (fit : Fit ['"', '"'] ps) (hbody : '"' ∉ body) :
    items (ps.flatMap Piece.text ++ ['"'] ++ body ++ ['"'] ++ rest) =
      itemsOfPieces Position.origin ps ++
        .token ((Lexeme.string body).token
          (Span.ofText (ps.flatMap Piece.text) (Lexeme.string body).text)) ::
        itemsOfPieces (Position.origin.after (ps.flatMap Piece.text ++ ['"'] ++ body ++ ['"']))
          (cut rest) := by
  have whole : ps.flatMap Piece.text ++ ['"'] ++ body ++ ['"'] ++ rest =
      ps.flatMap Piece.text ++ '"' :: body ++ '"' :: rest := by simp
  have through : ps.flatMap Piece.text ++ ['"'] ++ body ++ ['"'] =
      ps.flatMap Piece.text ++ (Lexeme.string body).text := by simp [Lexeme.text]
  rw [whole, through, items, fit.cut_string hbody, itemsOfPieces_append, itemsOfPieces_after_cons]
  rfl

theorem Lexeme.token_string (body : String) (x : List Char) :
    (string body.toList).token (Span.ofText x (string body.toList).text) =
      Token.quoted body (byteLength x) (lineAt x) (columnAt x) := by
  have text : String.ofList (string body.toList).text = "\"" ++ body ++ "\"" := by
    apply String.toList_inj.1
    simp [Lexeme.text]
  have size : byteLength (string body.toList).text = body.utf8ByteSize + 2 := by
    have quote : '"'.utf8Size = 1 := rfl
    simp only [Lexeme.text, List.cons_append, byteLength_cons, byteLength_append, byteLength_nil,
      byteLength_toList, quote]
    omega
  rw [token, text, Span.ofText_eq, size]
  simp [Token.quoted, literal, kind, Nat.add_assoc]

/-- Where a comment ends, offsets are displaced by what it holds, and the line is the same. -/
theorem Span.displaced_behind_comment {old new x : String} (hold : '\n' ∉ old.toList)
    (hnew : '\n' ∉ new.toList) (cs ds : List Char) :
    let s := ofText (x.toList ++ ['/', '/'] ++ old.toList ++ cs) ds
    let s' := ofText (x.toList ++ ['/', '/'] ++ new.toList ++ cs) ds
    Displaced (x.utf8ByteSize + old.utf8ByteSize + 2) old new s s' ∧ s.line = s'.line := by
  have slash : '/'.utf8Size = 1 := rfl
  have edge : x.utf8ByteSize + old.utf8ByteSize + 2 ≤
      byteLength (x.toList ++ ['/', '/'] ++ old.toList ++ []) := by
    simp only [byteLength_append, byteLength_cons, byteLength_nil, byteLength_toList, slash]
    omega
  have displaced := displaced_ofText old new edge cs ds
  rw [List.append_nil, List.append_nil] at displaced
  refine ⟨displaced, ?_⟩
  simp [ofText_eq, lineAt_append, List.count_eq_zero.2 hold, List.count_eq_zero.2 hnew]

/-- Below the line of a comment, columns are the same too. -/
theorem Span.slid_below_comment {old new x : String} (hold : '\n' ∉ old.toList)
    (hnew : '\n' ∉ new.toList) (cs ds : List Char) :
    Slid (x.utf8ByteSize + old.utf8ByteSize + 2) old new
      (ofText (x.toList ++ ['/', '/'] ++ old.toList ++ ['\n'] ++ cs) ds)
      (ofText (x.toList ++ ['/', '/'] ++ new.toList ++ ['\n'] ++ cs) ds) := by
  have column (front : List Char) :
      columnAt (front ++ (['\n'] ++ cs)) = columnAt (['\n'] ++ cs) := by
    rw [columnAt_append, if_pos (by simp)]
  obtain ⟨displaced, line⟩ := displaced_behind_comment (x := x) hold hnew (['\n'] ++ cs) ds
  rw [List.append_assoc _ ['\n'], List.append_assoc _ ['\n']]
  refine ⟨displaced, line, ?_⟩
  rw [ofText_eq, ofText_eq, column, column]

/-- Whatever a comment holds, what is read behind it is the same but for its place. -/
theorem behind_comment_alike {old new x : String} (hold : '\n' ∉ old.toList)
    (hnew : '\n' ∉ new.toList) (ends : ∀ c ∈ rest.head?, c = '\n') :
    let edge := x.utf8ByteSize + old.utf8ByteSize + 2
    let back := itemsOfPieces
      (Position.origin.after (x.toList ++ ['/', '/'] ++ old.toList)) (cut rest)
    let back' := itemsOfPieces
      (Position.origin.after (x.toList ++ ['/', '/'] ++ new.toList)) (cut rest)
    List.Forall₂ (Item.Alike (Span.Slid edge old new)) back back' ∧
    List.Forall₂ (fun t t' => t.Alike (Span.Displaced edge old new) t' ∧
      t.span.line = t'.span.line ∧ (t.kind ≠ .eof ∨ rest ≠ [] → t.span.column = t'.span.column))
      (back.filterMap Item.token? ++ [endToken (x.toList ++ ['/', '/'] ++ old.toList ++ rest)])
      (back'.filterMap Item.token? ++
        [endToken (x.toList ++ ['/', '/'] ++ new.toList ++ rest)]) := by
  intro edge back back'
  cases rest with
  | nil =>
    have place := Span.displaced_behind_comment (x := x) hold hnew [] []
    refine ⟨by simp [back, back', itemsOfPieces], ?_⟩
    simp only [back, back', cut_nil]
    refine .cons ⟨⟨rfl, ?_⟩, ?_, ?_⟩ .nil
    · rw [endToken_span, endToken_span]
      exact place.1
    · rw [endToken_span, endToken_span]
      exact place.2
    · rintro (h | h) <;> exact absurd rfl h
  | cons c rest =>
    -- The line feed that ends the comment leaves nothing behind, and columns count anew after it.
    obtain rfl : c = '\n' := ends c rfl
    have slid := Span.slid_below_comment (x := x) hold hnew
    have skip (front : List Char) :
        itemsOfPieces (Position.origin.after front) (cut ('\n' :: rest)) =
          itemsOfPieces (Position.origin.after (front ++ ['\n'])) (cut rest) := by
      rw [cut_of_first (Piece.first_blank isBlank_newline), itemsOfPieces_after_cons]
      rfl
    simp only [back, back', skip]
    refine ⟨itemsOfPieces_alike slid _, ?_⟩
    have tokens := tokens_alike slid (cut rest) rest
    simp only [List.append_assoc] at tokens ⊢
    exact tokens.imp fun t t' h =>
      ⟨⟨h.meaning, h.span.displaced⟩, h.span.line, fun _ => h.span.column⟩

theorem sameInFront_errors {r r' : Lexing} {R : Span → Span → Prop} {n : Nat}
    {front back back' : List Item} (within : ∀ y ∈ front, y.span.stop ≤ n)
    (alike : List.Forall₂ (Item.Alike R) back back')
    (h : r.errors = front.filterMap Item.error? ++ back.filterMap Item.error?)
    (h' : r'.errors = front.filterMap Item.error? ++ back'.filterMap Item.error?) :
    SameInFront (fun e => e.span.stop ≤ n) (LexError.Alike R) r.errors r'.errors :=
  ⟨_, _, _, h, h', fun _ he => within _ (mem_filterMap_error.1 he),
    Item.Alike.filterMap_error? alike⟩

theorem sameButComment {x old new rest : String}
    (closed : ∀ e ∈ (lex x).errors, e.cause ≠ .unterminatedString) (hold : '\n' ∉ old.toList)
    (hnew : '\n' ∉ new.toList) (ends : ∀ c ∈ rest.toList.head?, c = '\n') :
    (lex (x ++ "//" ++ old ++ rest)).SameButComment (lex (x ++ "//" ++ new ++ rest)) x old new
      rest := by
  obtain ⟨ps, inner, htext, hinner, fit⟩ := exists_before_slashes (closed_of_errors closed)
  have itemsOld := items_comment htext fit hinner hold ends
  have itemsNew := items_comment htext fit hinner hnew ends
  have text (body : String) : (x ++ "//" ++ body ++ rest).toList =
      x.toList ++ ['/', '/'] ++ body.toList ++ rest.toList := by simp
  have front : ∀ y ∈ itemsOfPieces Position.origin ps, y.span.stop ≤ x.utf8ByteSize := by
    intro y hy
    have stop := fit.stop_le hy
    have size := congrArg byteLength htext
    simp only [byteLength_append, byteLength_cons, byteLength_nil, byteLength_toList] at size
    omega
  obtain ⟨back, tokens⟩ := behind_comment_alike (x := x) hold hnew ends
  rw [lex, lex, text, text]
  constructor
  · refine ⟨(itemsOfPieces Position.origin ps).filterMap Item.token?, _, _, ?_, ?_, ?_,
      tokens.imp fun t t' h => ⟨h.1, h.2.1, fun apart => h.2.2 ?_⟩⟩
    · rw [tokens_lexChars, itemsOld, List.filterMap_append, List.append_assoc]
    · rw [tokens_lexChars, itemsNew, List.filterMap_append, List.append_assoc]
    · intro t ht
      exact front _ (mem_filterMap_token.1 ht)
    · exact apart.imp_right fun hne he => hne (String.toList_eq_nil_iff.1 he)
  · apply sameInFront_errors front back
    · rw [errors_lexChars, itemsOld, List.filterMap_append]
    · rw [errors_lexChars, itemsNew, List.filterMap_append]

theorem sameButString {x old new rest : String}
    (opens : ∃ t ∈ (lex (x ++ "\"\"")).tokens, t.kind = .string ∧ t.span.start = x.utf8ByteSize)
    (hold : '"' ∉ old.toList) (hnew : '"' ∉ new.toList) :
    (lex (x ++ "\"" ++ old ++ "\"" ++ rest)).SameButString
      (lex (x ++ "\"" ++ new ++ "\"" ++ rest)) x old new := by
  obtain ⟨ps, htext, fit⟩ := exists_before_quotes opens
  have read {body : String} (h : '"' ∉ body.toList) :
      items (x.toList ++ ['"'] ++ body.toList ++ ['"'] ++ rest.toList) =
        itemsOfPieces Position.origin ps ++
          .token (Token.quoted body x.utf8ByteSize (lineAt x.toList) (columnAt x.toList)) ::
          itemsOfPieces (Position.origin.after (x.toList ++ ['"'] ++ body.toList ++ ['"']))
            (cut rest.toList) := by
    rw [← byteLength_toList x, ← Lexeme.token_string, ← htext]
    exact items_string fit h
  have text (body : String) : (x ++ "\"" ++ body ++ "\"" ++ rest).toList =
      x.toList ++ ['"'] ++ body.toList ++ ['"'] ++ rest.toList := by simp
  have front : ∀ y ∈ itemsOfPieces Position.origin ps, y.span.stop ≤ x.utf8ByteSize := by
    intro y hy
    rw [← byteLength_toList, ← htext]
    exact fit.stop_le hy
  have edge : x.utf8ByteSize + old.utf8ByteSize + 2 ≤
      byteLength (x.toList ++ ['"'] ++ old.toList ++ ['"']) := by
    have quote : '"'.utf8Size = 1 := rfl
    simp only [byteLength_append, byteLength_cons, byteLength_nil, byteLength_toList, quote]
    omega
  have displaced : ∀ cs ds, Span.Displaced (x.utf8ByteSize + old.utf8ByteSize + 2) old new
      (Span.ofText (x.toList ++ ['"'] ++ old.toList ++ ['"'] ++ cs) ds)
      (Span.ofText (x.toList ++ ['"'] ++ new.toList ++ ['"'] ++ cs) ds) :=
    Span.displaced_ofText old new edge
  rw [lex, lex, text, text]
  constructor
  · refine ⟨(itemsOfPieces Position.origin ps).filterMap Item.token?, lineAt x.toList,
      columnAt x.toList, _, _, ?_, ?_, ?_, tokens_alike displaced (cut rest.toList) rest.toList⟩
    · rw [tokens_lexChars, read hold, List.filterMap_append, List.append_assoc]
      rfl
    · rw [tokens_lexChars, read hnew, List.filterMap_append, List.append_assoc]
      rfl
    · intro t ht
      exact front _ (mem_filterMap_token.1 ht)
  · apply sameInFront_errors front (itemsOfPieces_alike displaced (cut rest.toList))
    · rw [errors_lexChars, read hold, List.filterMap_append]
      rfl
    · rw [errors_lexChars, read hnew, List.filterMap_append]
      rfl

/-- Two sources that differ in the body of one comment or of one string have the same tokens and
errors, but for their places behind it and for the token of the string. -/
theorem lex_bodies_opaque :
    (∀ x old new rest : String, (∀ e ∈ (lex x).errors, e.cause ≠ .unterminatedString) →
      '\n' ∉ old.toList → '\n' ∉ new.toList → (∀ c ∈ rest.toList.head?, c = '\n') →
        (lex (x ++ "//" ++ old ++ rest)).SameButComment (lex (x ++ "//" ++ new ++ rest)) x old new
          rest) ∧
    ∀ x old new rest : String,
      (∃ t ∈ (lex (x ++ "\"\"")).tokens, t.kind = .string ∧ t.span.start = x.utf8ByteSize) →
      '"' ∉ old.toList → '"' ∉ new.toList →
        (lex (x ++ "\"" ++ old ++ "\"" ++ rest)).SameButString
          (lex (x ++ "\"" ++ new ++ "\"" ++ rest)) x old new :=
  ⟨fun _ _ _ _ => sameButComment, fun _ _ _ _ => sameButString⟩

/-- A comment that begins with a slash of the text in front, and a string that becomes a comment's
start and a line feed. -/
theorem lex_bodies_opaque_slash :
    ((∀ e ∈ (lex "@/").errors, e.cause ≠ .unterminatedString) ∧ '\n' ∉ " \"a".toList ∧
      '\n' ∉ "é".toList ∧ (∀ c ∈ "\nb".toList.head?, c = '\n') ∧
      (lex ("@/" ++ "//" ++ " \"a" ++ "\nb")).SameButComment (lex ("@/" ++ "//" ++ "é" ++ "\nb"))
        "@/" " \"a" "é" "\nb") ∧
    (∃ t ∈ (lex ("1." ++ "\"\"")).tokens, t.kind = .string ∧
      t.span.start = "1.".utf8ByteSize) ∧ '"' ∉ "a".toList ∧ '"' ∉ "//\n".toList ∧
      (lex ("1." ++ "\"" ++ "a" ++ "\"" ++ "@ b")).SameButString
        (lex ("1." ++ "\"" ++ "//\n" ++ "\"" ++ "@ b")) "1." "a" "//\n" := by
  have cutSlash : cut "@/".toList = [.unexpected '@', .lexeme (.punctuator .slash)] :=
    cut_eq_iff.2 (by decide)
  have cutQuotes : cut ("1." ++ "\"\"").toList = [.lexeme (.number ⟨['1'], none⟩),
      .lexeme (.punctuator .dot), .lexeme (.string [])] := cut_eq_iff.2 (by decide)
  have closed : ∀ e ∈ (lex "@/").errors, e.cause ≠ .unterminatedString := by
    rw [lex, lexChars, items, cutSlash]
    decide
  have opens : ∃ t ∈ (lex ("1." ++ "\"\"")).tokens, t.kind = .string ∧
      t.span.start = "1.".utf8ByteSize := by
    rw [← byteLength_toList, lex, lexChars, items, cutQuotes]
    decide
  obtain ⟨comment, string⟩ := lex_bodies_opaque
  have feed : ∀ c ∈ "\nb".toList.head?, c = '\n' := by simp
  exact ⟨⟨closed, by decide, by decide, feed,
      comment "@/" " \"a" "é" "\nb" closed (by decide) (by decide) feed⟩,
    opens, by decide, by decide, string "1." "a" "//\n" "@ b" opens (by decide) (by decide)⟩

end LoxLexer
