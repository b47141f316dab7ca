import LoxLexer.Proofs.Lexing.Placement
import Mathlib.Tactic.ByContra

/-!
# Tokens, errors and gaps tile the source

Every character of a source text lies in exactly one token, in exactly one error, or in a gap, and
a gap holds only blanks and line comments. The tiling is stated of the two lists that a lexing
returns and of the spans in them; the pieces they come from are not mentioned.
-/
namespace LoxLexer

/-- Blanks and line comments in front of `rest`; a comment goes on to a line feed or to the end
of the text. -/
inductive Skipped (rest : List Char) : List Char → Prop
  | nil : Skipped rest []
  | blank {c : Char} {gap : List Char} :
      isBlank c = true → Skipped rest gap → Skipped rest (c :: gap)
  | comment {body gap : List Char} :
      '\n' ∉ body → (∀ c ∈ (gap ++ rest).head?, c = '\n') → Skipped rest gap →
        Skipped rest ('/' :: '/' :: body ++ gap)

namespace Lexing

/-- Byte `n` of the source lies in a token or in an error. -/
def Covers (r : Lexing) (n : Nat) : Prop :=
  ∃ s ∈ r.spans, s.start ≤ n ∧ n < s.stop

/-- A stretch of the source that nothing covers, and that cannot be made longer at either end. -/
structure IsGap (r : Lexing) (before gap rest : List Char) : Prop where
  uncovered : ∀ n, byteLength before ≤ n → n < byteLength (before ++ gap) → ¬ r.Covers n
  left : before = [] ∨ r.Covers (byteLength before - 1)
  right : rest = [] ∨ r.Covers (byteLength (before ++ gap))

/-- No character of the source is lost, and none is given to two items. -/
structure Tiles (r : Lexing) (source : String) : Prop where
  spans_inside : ∀ s ∈ r.spans, s.start < s.stop ∧ s.stop ≤ source.utf8ByteSize ∧
    ∃ text, s.slice? source.toList = some text
  spans_disjoint : r.spans.Pairwise fun s t => s.stop ≤ t.start
  tokens_rise : r.readTokens.Pairwise fun t u => t.span.start < u.span.start
  errors_rise : r.errors.Pairwise fun e f => e.span.start < f.span.start
  lexeme_covered : ∀ t ∈ r.tokens, t.span.slice? source.toList = some t.lexeme.toList
  unexpected_covered : ∀ e ∈ r.errors, ∀ c, e.cause = .unexpectedCharacter c →
    e.span.slice? source.toList = some [c]
  one_end : ∃ tokens last, r.tokens = tokens ++ [last] ∧ (∀ t ∈ tokens, t.kind ≠ .eof) ∧
    last.kind = .eof ∧ last.lexeme = "" ∧ last.literal = none ∧
      last.span.start = source.utf8ByteSize ∧ last.span.stop = source.utf8ByteSize
  gaps_skipped : ∀ before gap rest, before ++ gap ++ rest = source.toList →
    r.IsGap before gap rest → Skipped rest gap

/-- A covered byte lies in a piece that leaves an item behind. -/
theorem covers_lexChars {cs : List Char} {n : Nat} :
    (lexChars cs).Covers n ↔ ∃ before piece rest, CutBetween cs before piece rest ∧
      (∃ x, piece.item? (Span.ofText before piece.text) = some x) ∧
        byteLength before ≤ n ∧ n < byteLength (before ++ piece.text) := by
  simp only [Covers, spans_lexChars, List.mem_map, mem_items]
  constructor
  · rintro ⟨_, ⟨x, ⟨before, piece, rest, hcut, hx⟩, rfl⟩, hstart, hstop⟩
    rw [Piece.span_of_item? hx, Span.ofText_eq] at hstart hstop
    exact ⟨before, piece, rest, hcut, ⟨x, hx⟩, hstart, by rwa [byteLength_append]⟩
  · rintro ⟨before, piece, rest, hcut, ⟨x, hx⟩, hstart, hstop⟩
    refine ⟨_, ⟨x, ⟨before, piece, rest, hcut, hx⟩, rfl⟩, ?_⟩
    rw [Piece.span_of_item? hx, Span.ofText_eq]
    exact ⟨hstart, by rwa [byteLength_append] at hstop⟩

end Lexing

/-- Neighbouring pieces of a cut that leave no item behind are skipped text. -/
theorem skipped_of_cut {cs : List Char} {before pieces after : List Piece}
    (h : cut cs = before ++ (pieces ++ after))
    (silent : ∀ p ∈ pieces, ∃ span, p.item? span = none) :
    Skipped (after.flatMap Piece.text) (pieces.flatMap Piece.text) := by
  induction pieces generalizing before with
  | nil => exact .nil
  | cons p pieces ih =>
    obtain ⟨valid, stops⟩ := valid_stops_of_cut h
    have shifted : cut cs = before ++ [p] ++ (pieces ++ after) := by rw [h]; simp
    have later := ih shifted fun q hq => silent q (List.mem_cons_of_mem _ hq)
    obtain ⟨span, hp⟩ := silent p List.mem_cons_self
    rw [List.append_eq, List.flatMap_append] at stops
    cases p with
    | blank c => exact .blank valid later
    | comment body => exact .comment valid stops later
    | lexeme l => simp [Piece.item?] at hp
    | unexpected c => simp [Piece.item?] at hp
    | openString body => simp [Piece.item?] at hp

namespace Lexing

variable {cs before gap rest : List Char}

/-- The left end of a gap that holds some text is the end of a piece. -/
theorem IsGap.pieces_before (h : (lexChars cs).IsGap before gap rest) (hne : gap ≠ [])
    (hcs : before ++ gap ++ rest = cs) :
    ∃ ps qs, cut cs = ps ++ qs ∧ ps.flatMap Piece.text = before := by
  have hgap := byteLength_pos hne
  rcases h.left with rfl | hcover
  · exact ⟨[], cut cs, rfl, rfl⟩
  obtain ⟨b, p, r, hcut, hx, hstart, hstop⟩ := covers_lexChars.1 hcover
  have huncovered := h.uncovered (byteLength before) (Nat.le_refl _)
    (by rw [byteLength_append]; omega)
  -- The item that covers the last byte before the gap ends there: the next byte is free.
  have hend : byteLength (b ++ p.text) = byteLength before := by
    by_contra hne'
    exact huncovered (covers_lexChars.2 ⟨b, p, r, hcut, hx, by omega, by omega⟩)
  have whole : b ++ p.text ++ r = before ++ (gap ++ rest) := by
    rw [← hcut.text_eq, ← hcs, List.append_assoc]
  have hbefore := prefix_eq_of_byteLength whole hend
  obtain ⟨ps, qs, hpieces, rfl, _⟩ := hcut
  exact ⟨ps ++ [p], qs, by rw [hpieces]; simp, by rw [← hbefore]; simp⟩

/-- The right end of a gap that holds some text is the start of a piece, or the end of the text. -/
theorem IsGap.pieces_through (h : (lexChars cs).IsGap before gap rest) (hne : gap ≠ [])
    (hcs : before ++ gap ++ rest = cs) :
    ∃ ps qs, cut cs = ps ++ qs ∧ ps.flatMap Piece.text = before ++ gap := by
  have hgap := byteLength_pos hne
  rcases h.right with rfl | hcover
  · exact ⟨cut cs, [], by simp, by rw [cut_text, ← hcs, List.append_nil]⟩
  obtain ⟨b, p, r, hcut, hx, hstart, hstop⟩ := covers_lexChars.1 hcover
  have hlen := byteLength_append before gap
  have huncovered := h.uncovered (byteLength (before ++ gap) - 1) (by omega) (by omega)
  have hbegin : byteLength b = byteLength (before ++ gap) := by
    by_contra hne'
    exact huncovered (covers_lexChars.2 ⟨b, p, r, hcut, hx, by omega, by omega⟩)
  have whole : b ++ (p.text ++ r) = before ++ gap ++ rest := by
    rw [hcs, ← List.append_assoc, ← hcut.text_eq]
  have hb := prefix_eq_of_byteLength whole hbegin
  obtain ⟨ps, qs, hpieces, rfl, _⟩ := hcut
  exact ⟨ps, p :: qs, hpieces, hb⟩

/-- A gap that holds some text is a run of pieces. -/
theorem IsGap.pieces (h : (lexChars cs).IsGap before gap rest) (hne : gap ≠ [])
    (hcs : before ++ gap ++ rest = cs) :
    ∃ ps mid after, cut cs = ps ++ (mid ++ after) ∧ ps.flatMap Piece.text = before ∧
      mid.flatMap Piece.text = gap ∧ after.flatMap Piece.text = rest := by
  obtain ⟨ps, qs, hps, hbefore⟩ := h.pieces_before hne hcs
  obtain ⟨ps', after, hps', hthrough⟩ := h.pieces_through hne hcs
  obtain ⟨mid, rfl⟩ : ∃ mid, ps' = ps ++ mid := by
    rcases List.append_eq_append_iff.1 (hps.symm.trans hps') with ⟨mid, hmid, _⟩ | ⟨mid, hmid, _⟩
    · exact ⟨mid, hmid⟩
    · rw [hmid, List.flatMap_append, hthrough] at hbefore
      have := List.length_pos_iff.2 hne
      have := congrArg List.length hbefore
      simp only [List.length_append] at this
      omega
  refine ⟨ps, mid, after, hps'.trans (List.append_assoc _ _ _), hbefore, ?_, ?_⟩
  · rw [List.flatMap_append, hbefore] at hthrough
    exact List.append_cancel_left hthrough
  · have htext := congrArg (List.flatMap Piece.text) hps'
    rw [cut_text, List.flatMap_append, hthrough, ← hcs] at htext
    exact (List.append_cancel_left htext).symm

/-- A piece inside a gap leaves no item: the item would cover the first byte of the piece. -/
theorem IsGap.item?_eq_none {left right : List Char} {p : Piece}
    (h : (lexChars cs).IsGap before (left ++ p.text ++ right) rest)
    (hcut : CutBetween cs (before ++ left) p (right ++ rest)) :
    p.item? (Span.ofText (before ++ left) p.text) = none := by
  by_contra hitem
  have hpos := byteLength_pos (Piece.text_ne_nil hcut.valid)
  apply h.uncovered (byteLength (before ++ left))
  · rw [byteLength_append]
    omega
  · simp only [byteLength_append]
    omega
  · rw [covers_lexChars]
    refine ⟨_, p, _, hcut, Option.ne_none_iff_exists'.1 hitem, Nat.le_refl _, ?_⟩
    rw [byteLength_append _ p.text]
    omega

/-- A gap holds only blanks and line comments. -/
theorem IsGap.skipped (h : (lexChars cs).IsGap before gap rest)
    (hcs : before ++ gap ++ rest = cs) : Skipped rest gap := by
  by_cases hne : gap = []
  · rw [hne]
    exact .nil
  obtain ⟨ps, mid, after, hcut, rfl, rfl, rfl⟩ := h.pieces hne hcs
  apply skipped_of_cut hcut
  intro p hp
  obtain ⟨xs, ys, rfl⟩ := List.append_of_mem hp
  have inside : (lexChars cs).IsGap (ps.flatMap Piece.text)
      (xs.flatMap Piece.text ++ p.text ++ ys.flatMap Piece.text) (after.flatMap Piece.text) := by
    simpa using h
  have between : CutBetween cs (ps.flatMap Piece.text ++ xs.flatMap Piece.text) p
      (ys.flatMap Piece.text ++ after.flatMap Piece.text) :=
    ⟨ps ++ xs, ys ++ after, by simpa using hcut, List.flatMap_append, List.flatMap_append⟩
  exact ⟨_, inside.item?_eq_none between⟩

theorem spans_inside_lexChars {s : Span} (h : s ∈ (lexChars cs).spans) :
    s.start < s.stop ∧ s.stop ≤ byteLength cs ∧ ∃ text, s.slice? cs = some text := by
  rw [spans_lexChars] at h
  obtain ⟨x, hx, rfl⟩ := List.mem_map.1 h
  obtain ⟨before, piece, rest, hcut, hitem⟩ := mem_items.1 hx
  have hpos := byteLength_pos (Piece.text_ne_nil hcut.valid)
  rw [Piece.span_of_item? hitem, hcut.text_eq]
  refine ⟨?_, ?_, piece.text, Span.slice?_between _ _ _⟩
  · simp only [Span.ofText_eq]
    omega
  · simp only [Span.ofText_eq, byteLength_append]
    omega

theorem lexeme_covered_lexChars {t : Token} (h : t ∈ (lexChars cs).tokens) :
    t.span.slice? cs = some t.lexeme.toList := by
  rcases mem_tokens_lexChars.1 h with ⟨before, l, rest, hcut, rfl⟩ | rfl
  · rw [hcut.text_eq, Lexeme.token, String.toList_ofList]
    exact Span.slice?_between _ _ _
  · have hslice := Span.slice?_between cs [] []
    rwa [List.append_nil, List.append_nil] at hslice

theorem unexpected_covered_lexChars {e : LexError} {c : Char} (h : e ∈ (lexChars cs).errors)
    (hc : e.cause = .unexpectedCharacter c) : e.span.slice? cs = some [c] := by
  rcases mem_errors_lexChars.1 h with ⟨before, d, rest, hcut, rfl⟩ | ⟨_, _, _, _, rfl⟩
  · cases hc
    rw [hcut.text_eq]
    exact Span.slice?_between _ _ _
  · cases hc

end Lexing

/-- The tokens and errors of every source, and the gaps between them, tile the source. -/
theorem lex_tiles (source : String) : (lex source).Tiles source where
  spans_inside s hs := by
    rw [← byteLength_toList]
    exact Lexing.spans_inside_lexChars hs
  spans_disjoint := by
    change (lexChars source.toList).spans.Pairwise _
    rw [Lexing.spans_lexChars, List.pairwise_map]
    exact (items_precede _).imp Span.Precedes.stop_le_start
  tokens_rise := by
    change (lexChars source.toList).readTokens.Pairwise _
    rw [Lexing.readTokens_lexChars]
    exact (tokens_precede _).imp Span.Precedes.start_lt_start
  errors_rise := (errors_precede _).imp Span.Precedes.start_lt_start
  lexeme_covered t ht := Lexing.lexeme_covered_lexChars ht
  unexpected_covered e he c hc := Lexing.unexpected_covered_lexChars he hc
  one_end := by
    refine ⟨(items source.toList).filterMap Item.token?, endToken source.toList, rfl, ?_, rfl, rfl,
      rfl, ?_, ?_⟩
    · intro t ht
      exact kind_ne_eof_of_mem_items ht
    · rw [endToken_span, Span.ofText_eq, byteLength_toList]
    · rw [endToken_span, Span.ofText_eq, byteLength_toList]
      rfl
  gaps_skipped before gap rest hsource hgap := Lexing.IsGap.skipped hgap hsource

end LoxLexer
