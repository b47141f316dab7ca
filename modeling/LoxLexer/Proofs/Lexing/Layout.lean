import LoxLexer.Proofs.Lexing.Reading

/-!
# Layouts

A layout prints lexemes in order, with blanks and line comments in front of them, between them and
after them. A blank follows every lexeme but perhaps the last, and a comment is closed by a line
feed, but for one at the very end. Whatever the layout, its text reads as what was printed, and each
token stands where its lexeme was put.
-/
namespace LoxLexer

/-- Blanks and line comments, each comment with the line feed that closes it. -/
inductive Separator : List Char → Prop
  | nil : Separator []
  | blank {c : Char} {gap : List Char} : isBlank c = true → Separator gap → Separator (c :: gap)
  | comment {body gap : List Char} :
      '\n' ∉ body → Separator gap → Separator ('/' :: '/' :: body ++ '\n' :: gap)

/-- What may stand at the end of a text: a separator, and a comment that is not closed. -/
inductive Trailer : List Char → Prop
  | closed {gap : List Char} : Separator gap → Trailer gap
  | comment {gap body : List Char} :
      Separator gap → '\n' ∉ body → Trailer (gap ++ '/' :: '/' :: body)

/-- What is printed: some text in front, and each lexeme with the text that follows it. -/
structure Layout where
  front : String
  cells : List (Meaning × String)

namespace Layout

def text (l : Layout) : String :=
  l.front ++ String.join (l.cells.map fun x => x.1.lexeme ++ x.2)

def meanings (l : Layout) : List Meaning :=
  l.cells.map Prod.fst

/-- The byte offset at which the lexeme of cell `i` is put. -/
def start (l : Layout) (i : Nat) : Nat :=
  (Layout.mk l.front (l.cells.take i)).text.utf8ByteSize

/-- Cells that can be printed one after the other. -/
structure Separated (cells : List (Meaning × String)) : Prop where
  meanings : ∀ x ∈ cells, x.1.Valid
  between : ∀ x ∈ cells.dropLast,
    Separator x.2.toList ∧ ∃ c ∈ x.2.toList.head?, isBlank c = true
  last : ∀ x ∈ cells.getLast?, Trailer x.2.toList ∧ ∀ c ∈ x.2.toList.head?, isBlank c = true

/-- With no lexeme at all, the text in front is also the text at the end. -/
structure WellFormed (l : Layout) : Prop where
  front : Separator l.front.toList ∨ l.cells = [] ∧ Trailer l.front.toList
  cells : Separated l.cells

end Layout

/-- The pieces that leave neither a token nor an error behind. -/
def Piece.Silent (p : Piece) : Prop :=
  ∀ span, p.item? span = none

theorem itemsOfPieces_silent {p : Position} {ps : List Piece} (h : ∀ q ∈ ps, q.Silent) :
    itemsOfPieces p ps = [] := by
  induction ps generalizing p with
  | nil => simp [itemsOfPieces]
  | cons q ps ih =>
    obtain ⟨silent, h⟩ := List.forall_mem_cons.1 h
    rw [itemsOfPieces_cons, silent, ih h]
    rfl

theorem Lexing.ofItems_tokens (ts : List Token) (last : Token) :
    Lexing.ofItems (ts.map Item.token) last = ⟨ts ++ [last], []⟩ := by
  simp [ofItems, List.filterMap_map, Function.comp_def, Item.token?, Item.error?]

theorem Separator.exists_pieces {gap : List Char} (h : Separator gap) :
    ∃ ps : List Piece, ps.flatMap Piece.text = gap ∧ (∀ p ∈ ps, p.Silent) ∧
      ∀ rest, Fit rest ps := by
  induction h with
  | nil => exact ⟨[], rfl, by simp, fun _ => trivial⟩
  | @blank c gap hc _ ih =>
    obtain ⟨ps, rfl, silent, fit⟩ := ih
    refine ⟨.blank c :: ps, rfl, ?_, fun rest => ⟨hc, trivial, fit rest⟩⟩
    exact List.forall_mem_cons.2 ⟨fun _ => rfl, silent⟩
  | @comment body gap hbody _ ih =>
    obtain ⟨ps, rfl, silent, fit⟩ := ih
    have ends : (Piece.comment body).Stops ('\n' :: ps.flatMap Piece.text) :=
      Piece.stops_newline (by simp)
    refine ⟨.comment body :: .blank '\n' :: ps, rfl, ?_, fun rest => ?_⟩
    · simpa [Piece.Silent, Piece.item?] using silent
    · exact ⟨hbody, ends, isBlank_newline, trivial, fit rest⟩

theorem Trailer.exists_pieces {gap : List Char} (h : Trailer gap) :
    ∃ ps : List Piece, ps.flatMap Piece.text = gap ∧ (∀ p ∈ ps, p.Silent) ∧ Fit [] ps := by
  cases h with
  | closed h =>
    obtain ⟨ps, rfl, silent, fit⟩ := h.exists_pieces
    exact ⟨ps, rfl, silent, fit []⟩
  | @comment gap body h hbody =>
    obtain ⟨ps, rfl, silent, fit⟩ := h.exists_pieces
    refine ⟨ps ++ [.comment body], by simp [Piece.text], ?_, ?_⟩
    · simpa [Piece.Silent, Piece.item?, or_imp, forall_and] using silent
    · exact fit_append.2 ⟨fit _, hbody, by simp [Piece.Stops], trivial⟩

namespace Layout

def cellsText (cells : List (Meaning × String)) : List Char :=
  cells.flatMap fun x => x.1.lexeme.toList ++ x.2.toList

theorem cellsText_cons (x : Meaning × String) (cells : List (Meaning × String)) :
    cellsText (x :: cells) = x.1.lexeme.toList ++ (x.2.toList ++ cellsText cells) := by
  simp [cellsText]

theorem toList_text (l : Layout) : l.text.toList = l.front.toList ++ cellsText l.cells := by
  simp [text, cellsText, List.flatMap_map]

/-- The tokens of cells that are printed after `before`. -/
def tokensAfter (before : List Char) : List (Meaning × String) → List Token
  | [] => []
  | (m, gap) :: cells =>
    ⟨m.kind, m.lexeme, m.literal, Span.ofText before m.lexeme.toList⟩ ::
      tokensAfter (before ++ m.lexeme.toList ++ gap.toList) cells

theorem meaning_tokensAfter (before : List Char) (cells : List (Meaning × String)) :
    (tokensAfter before cells).map Token.meaning = cells.map Prod.fst := by
  induction cells generalizing before with
  | nil => rfl
  | cons x cells ih => rw [tokensAfter, List.map_cons, ih, List.map_cons]; rfl

/-- Each token starts where the cells before it end. -/
theorem start_tokensAfter (before : List Char) {cells : List (Meaning × String)} {i : Nat}
    (h : i < cells.length) : ∃ t, (tokensAfter before cells)[i]? = some t ∧
      t.span.start = byteLength (before ++ cellsText (cells.take i)) := by
  induction cells generalizing before i with
  | nil => cases h
  | cons x cells ih =>
    cases i with
    | zero => exact ⟨_, rfl, by simp [Span.ofText_eq, cellsText]⟩
    | succ i =>
      obtain ⟨t, ht, hstart⟩ := ih _ (Nat.lt_of_succ_lt_succ h)
      refine ⟨t, ht, hstart.trans ?_⟩
      rw [List.take_succ_cons, cellsText_cons]
      simp only [List.append_assoc]

variable {x : Meaning × String} {cells : List (Meaning × String)}

theorem Separated.tail (h : Separated (x :: cells)) : Separated cells := by
  cases cells with
  | nil => exact ⟨by simp, by simp, by simp⟩
  | cons y cells =>
    exact ⟨(List.forall_mem_cons.1 h.meanings).2, (List.forall_mem_cons.1 h.between).2, h.last⟩

/-- The text after a lexeme starts with a blank, if there is any. -/
theorem Separated.head_blank (h : Separated (x :: cells)) :
    ∀ c ∈ (x.2.toList ++ cellsText cells).head?, isBlank c = true := by
  cases cells with
  | nil =>
    change ∀ c ∈ (x.2.toList ++ []).head?, _
    rw [List.append_nil]
    exact (h.last x rfl).2
  | cons y cells =>
    obtain ⟨c, hc, hblank⟩ := (h.between x List.mem_cons_self).2
    rw [List.head?_append, Option.mem_def.1 hc]
    rintro _ ⟨⟩
    exact hblank

/-- What follows a lexeme is silent, and fits in front of the next one. -/
theorem Separated.exists_pieces (h : Separated (x :: cells)) :
    ∃ ps : List Piece, ps.flatMap Piece.text = x.2.toList ∧ (∀ p ∈ ps, p.Silent) ∧
      Fit (cellsText cells) ps := by
  cases cells with
  | nil => exact (h.last x rfl).1.exists_pieces
  | cons y cells =>
    obtain ⟨ps, htext, silent, fit⟩ := (h.between x List.mem_cons_self).1.exists_pieces
    exact ⟨ps, htext, silent, fit _⟩

/-- The text of separated cells is cut into pieces that leave the printed tokens behind. -/
theorem Separated.exists_cut (h : Separated cells) :
    ∃ ps : List Piece, ps.flatMap Piece.text = cellsText cells ∧ Fit [] ps ∧
      ∀ before, itemsOfPieces (Position.origin.after before) ps =
        (tokensAfter before cells).map Item.token := by
  induction cells with
  | nil => exact ⟨[], rfl, trivial, fun _ => by simp [itemsOfPieces, tokensAfter]⟩
  | cons x cells ih =>
    obtain ⟨ps, htext, fit, items⟩ := ih h.tail
    obtain ⟨gap, hgap, silent, fitGap⟩ := h.exists_pieces
    obtain ⟨m, w⟩ := x
    obtain ⟨l, valid, rfl⟩ := (h.meanings _ List.mem_cons_self).exists_lexeme
    have stops : l.Stops ((gap ++ ps).flatMap Piece.text ++ []) := by
      apply Lexeme.stops_of_blank
      rw [List.flatMap_append, hgap, htext, List.append_nil]
      exact h.head_blank
    refine ⟨.lexeme l :: (gap ++ ps), ?_, ⟨valid, stops, fit_append.2 ⟨?_, fit⟩⟩, ?_⟩
    · rw [List.flatMap_cons, List.flatMap_append, hgap, htext, cellsText_cons, l.toList_meaning]
      rfl
    · rwa [htext, List.append_nil]
    · intro before
      rw [itemsOfPieces_cons, itemsOfPieces_append, itemsOfPieces_silent silent, hgap,
        ← Position.after_append, ← Position.after_append, items, tokensAfter,
        l.toList_meaning]
      rfl

/-- What stands in front is silent, and fits before the first lexeme. -/
theorem WellFormed.exists_front {l : Layout} (h : l.WellFormed) :
    ∃ ps : List Piece, ps.flatMap Piece.text = l.front.toList ∧ (∀ p ∈ ps, p.Silent) ∧
      Fit (cellsText l.cells) ps := by
  rcases h.front with hfront | ⟨hcells, hfront⟩
  · obtain ⟨ps, htext, silent, fit⟩ := hfront.exists_pieces
    exact ⟨ps, htext, silent, fit _⟩
  · rw [hcells]
    exact hfront.exists_pieces

end Layout

/-- Lexing undoes printing, whatever the layout: the text has no error, and it reads as what was
printed, each token at the place of its lexeme. What any source is read as can be printed. -/
theorem lex_layout :
    (∀ source, ∀ t ∈ (lex source).tokens, t.kind ≠ .eof → t.meaning.Valid) ∧
      ∀ l : Layout, l.WellFormed → (lex l.text).Reads l.meanings ∧
        ∀ i < l.meanings.length, ∃ t, (lex l.text).tokens[i]? = some t ∧
          t.span.start = l.start i := by
  refine ⟨?_, ?_⟩
  · intro source t ht hkind
    rcases mem_tokens_lexChars.1 ht with ⟨before, l, rest, hcut, rfl⟩ | rfl
    · exact Lexeme.meaning_valid hcut.valid
    · exact absurd rfl hkind
  intro l h
  obtain ⟨ps, htext, fit, hitems⟩ := h.cells.exists_cut
  obtain ⟨front, hfront, silent, fitFront⟩ := h.exists_front
  have hcut : cut l.text.toList = front ++ ps := by
    rw [cut_eq_iff, fit_append, List.flatMap_append, hfront, htext, Layout.toList_text,
      List.append_nil]
    exact ⟨⟨fitFront, fit⟩, rfl⟩
  have read : lex l.text =
      ⟨Layout.tokensAfter l.front.toList l.cells ++ [endToken l.text.toList], []⟩ := by
    rw [lex, lexChars, items, hcut, itemsOfPieces_append, itemsOfPieces_silent silent, hfront,
      hitems]
    exact Lexing.ofItems_tokens _ _
  refine ⟨⟨by rw [read], ?_⟩, ?_⟩
  · rw [read, List.map_append, Layout.meaning_tokensAfter]
    rfl
  · intro i hi
    rw [Layout.meanings, List.length_map] at hi
    obtain ⟨t, ht, hstart⟩ := Layout.start_tokensAfter l.front.toList hi
    refine ⟨t, ?_, ?_⟩
    · rw [read, List.getElem?_append_left (List.getElem?_eq_some_iff.1 ht).1, ht]
    · rw [hstart, Layout.start, ← byteLength_toList, Layout.toList_text]

/-- A string that looks like a comment, between comments that look like strings. -/
theorem lex_layout_comment_like_string :
    let or : Meaning := ⟨.keyword .kwOr, "or", none⟩
    let l : Layout := ⟨"// a\n", [(⟨.number, "1.50", some (.number "1.5")⟩, " //\"\n"),
      (⟨.string, "\"// \"", some (.string "// ")⟩, "\n"), (or, " // 1")]⟩
    (⟨.keyword .kwOr, "or", none, ⟨1, 3, 1, 2⟩⟩ ∈ (lex "@or").tokens ∧ or.kind ≠ .eof ∧
      or.Valid) ∧ l.WellFormed ∧ (lex l.text).Reads l.meanings ∧ 1 < l.meanings.length ∧
        ∃ t, (lex l.text).tokens[1]? = some t ∧ t.span.start = 14 := by
  intro or l
  have hcut : cut "@or".toList = [.unexpected '@', .lexeme (.word ['o', 'r'])] :=
    cut_eq_iff.2 (by decide)
  have member : ⟨.keyword .kwOr, "or", none, ⟨1, 3, 1, 2⟩⟩ ∈ (lex "@or").tokens := by
    rw [lex, lexChars, items, hcut]
    decide
  have valid : or.Valid := lex_layout.1 _ _ member (by decide)
  have front : Separator "// a\n".toList := @Separator.comment [' ', 'a'] [] (by decide) .nil
  have first : Separator " //\"\n".toList :=
    .blank (c := ' ') rfl (@Separator.comment ['"'] [] (by decide) .nil)
  have second : Separator "\n".toList := .blank (c := '\n') rfl .nil
  have open_end : Trailer " // 1".toList :=
    @Trailer.comment [' '] [' ', '1'] (.blank (c := ' ') rfl .nil) (by decide)
  have number : Meaning.Valid ⟨.number, "1.50", some (.number "1.5")⟩ :=
    ⟨.number, .inr ⟨['1'], ['5', '0'], by decide, by decide, by decide⟩, rfl, by decide⟩
  have string : Meaning.Valid ⟨.string, "\"// \"", some (.string "// ")⟩ :=
    ⟨.string, ⟨['/', '/', ' '], by decide, by decide⟩, rfl, ['/', '/', ' '], by decide, by decide⟩
  have wellFormed : l.WellFormed := by
    refine ⟨.inl front, ?_, ?_, ?_⟩
    · simpa [l] using ⟨number, string, valid⟩
    · simpa [l] using ⟨⟨first, by decide⟩, second, by decide⟩
    · simpa [l] using ⟨open_end, by decide⟩
  obtain ⟨reads, starts⟩ := lex_layout.2 l wellFormed
  exact ⟨⟨member, by decide, valid⟩, wellFormed, reads, by decide, starts 1 (by decide)⟩

end LoxLexer
