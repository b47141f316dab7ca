import LoxLexer.Lexing.Basic
import LoxLexer.Proofs.Piece.Stops
import LoxLexer.Proofs.Source.Bytes

/-!
# Where the items of a text stand

Each token and each error comes from one piece of the cut, at the span of that piece. An item that
comes earlier ends before the next one starts, in bytes as well as in lines and columns. Tokens and
errors are kept apart, and merging them by where they start gives the items back.
-/
namespace LoxLexer

/-- A line and a column stand above others on an earlier line, or at an earlier column of the same
line. -/
def Above (p q : Nat × Nat) : Prop :=
  p.1 < q.1 ∨ p.1 = q.1 ∧ p.2 < q.2

namespace Span

/-- `s` covers some text, and `t` starts at its end or later in the same source. -/
def Precedes (s t : Span) : Prop :=
  ∃ before text gap text', text ≠ [] ∧ s = ofText before text ∧
    t = ofText (before ++ text ++ gap) text'

theorem Precedes.stop_le_start {s t : Span} (h : s.Precedes t) : s.stop ≤ t.start := by
  obtain ⟨before, text, gap, text', _, rfl, rfl⟩ := h
  simp only [ofText_eq, byteLength_append]
  omega

theorem Precedes.start_lt_start {s t : Span} (h : s.Precedes t) : s.start < t.start := by
  obtain ⟨before, text, gap, text', hne, rfl, rfl⟩ := h
  have hpos := byteLength_pos hne
  simp only [ofText_eq, byteLength_append]
  omega

/-- Reading on moves to a later line, or to a later column of the same line. -/
theorem Precedes.above {s t : Span} (h : s.Precedes t) :
    Above (s.line, s.column) (t.line, t.column) := by
  obtain ⟨before, text, gap, text', hne, rfl, rfl⟩ := h
  have read := Position.after_eq (Position.origin.after before) (text ++ gap)
  rw [← Position.after_append, ← List.append_assoc] at read
  simp only [Position.origin_after, Position.mk.injEq] at read
  obtain ⟨_, hline, hcolumn⟩ := read
  simp only [ofText_eq, hline, hcolumn]
  by_cases hm : '\n' ∈ text ++ gap
  · have := List.count_pos_iff.2 hm
    left
    omega
  · have := List.length_pos_iff.2 hne
    rw [if_neg hm, List.count_eq_zero.2 hm, List.length_append]
    right
    omega

end Span

/-- `piece` is cut from `cs` after `before`, and `rest` is left after it. -/
def CutBetween (cs before : List Char) (piece : Piece) (rest : List Char) : Prop :=
  ∃ ps qs, cut cs = ps ++ piece :: qs ∧ ps.flatMap Piece.text = before ∧
    qs.flatMap Piece.text = rest

namespace CutBetween

variable {cs before rest : List Char} {piece : Piece}

theorem text_eq (h : CutBetween cs before piece rest) : cs = before ++ piece.text ++ rest := by
  obtain ⟨ps, qs, hcut, rfl, rfl⟩ := h
  rw [← cut_text cs, hcut]
  simp

theorem valid (h : CutBetween cs before piece rest) : piece.Valid := by
  obtain ⟨ps, qs, hcut, _, _⟩ := h
  exact (valid_stops_of_cut hcut).1

theorem stops (h : CutBetween cs before piece rest) : piece.Stops rest := by
  obtain ⟨ps, qs, hcut, _, rfl⟩ := h
  exact (valid_stops_of_cut hcut).2

end CutBetween

theorem place_after_cons (before : List Char) (piece : Piece) (pieces : List Piece) :
    place (Position.origin.after before) (piece :: pieces) =
      (piece, Span.ofText before piece.text) ::
        place (Position.origin.after (before ++ piece.text)) pieces := by
  rw [place_cons, Position.after_append, Span.ofText, Position.after_append]

theorem mem_place_after {before : List Char} {pieces : List Piece} {p : Piece} {span : Span} :
    (p, span) ∈ place (Position.origin.after before) pieces ↔
      ∃ ps qs, pieces = ps ++ p :: qs ∧
        span = Span.ofText (before ++ ps.flatMap Piece.text) p.text := by
  induction pieces generalizing before with
  | nil => simp
  | cons piece pieces ih =>
    rw [place_after_cons, List.mem_cons, ih]
    constructor
    · rintro (h | ⟨ps, qs, rfl, rfl⟩)
      · cases h
        exact ⟨[], pieces, rfl, by rw [List.flatMap_nil, List.append_nil]⟩
      · exact ⟨piece :: ps, qs, rfl, by rw [List.flatMap_cons, List.append_assoc]⟩
    · rintro ⟨ps, qs, hp, rfl⟩
      cases ps with
      | nil =>
        left
        cases hp
        rw [List.flatMap_nil, List.append_nil]
      | cons q ps =>
        right
        cases hp
        exact ⟨ps, qs, rfl, by rw [List.flatMap_cons, List.append_assoc]⟩

/-- Pieces that hold some text are placed one after the other. -/
theorem place_precedes {before : List Char} {pieces : List Piece}
    (h : ∀ p ∈ pieces, p.text ≠ []) :
    (place (Position.origin.after before) pieces).Pairwise fun x y => x.2.Precedes y.2 := by
  induction pieces generalizing before with
  | nil => simp
  | cons piece pieces ih =>
    rw [place_after_cons, List.pairwise_cons]
    refine ⟨?_, ih fun p hp => h p (List.mem_cons_of_mem _ hp)⟩
    rintro ⟨p, span⟩ hp
    obtain ⟨ps, qs, _, rfl⟩ := mem_place_after.1 hp
    exact ⟨before, piece.text, ps.flatMap Piece.text, p.text, h piece List.mem_cons_self, rfl, rfl⟩

theorem tokens_lexChars (cs : List Char) :
    (lexChars cs).tokens = (items cs).filterMap Item.token? ++ [endToken cs] := rfl

theorem errors_lexChars (cs : List Char) :
    (lexChars cs).errors = (items cs).filterMap Item.error? := rfl

theorem itemsOfPieces_cons (p : Position) (piece : Piece) (pieces : List Piece) :
    itemsOfPieces p (piece :: pieces) =
      (piece.item? (Span.between p (p.after piece.text))).toList ++
        itemsOfPieces (p.after piece.text) pieces := by
  rw [itemsOfPieces, place_cons, List.filterMap_cons]
  cases piece.item? (Span.between p (p.after piece.text)) <;> rfl

theorem itemsOfPieces_append (p : Position) (ps qs : List Piece) :
    itemsOfPieces p (ps ++ qs) =
      itemsOfPieces p ps ++ itemsOfPieces (p.after (ps.flatMap Piece.text)) qs := by
  induction ps generalizing p with
  | nil => simp [itemsOfPieces]
  | cons piece ps ih =>
    rw [List.cons_append, itemsOfPieces_cons, itemsOfPieces_cons, ih, List.append_assoc,
      List.flatMap_cons, Position.after_append]

theorem itemsOfPieces_concat (ps : List Piece) (p : Piece) :
    itemsOfPieces Position.origin (ps ++ [p]) = itemsOfPieces Position.origin ps ++
      (p.item? (Span.ofText (ps.flatMap Piece.text) p.text)).toList := by
  rw [itemsOfPieces_append, itemsOfPieces_cons, ← Position.after_append]
  simp [itemsOfPieces, Span.ofText]

/-- The tokens of the pieces up to somewhere come before those of the later pieces. -/
theorem tokens_of_cut {cs : List Char} {ps qs : List Piece} (h : cut cs = ps ++ qs) :
    (lexChars cs).tokens = (itemsOfPieces Position.origin ps).filterMap Item.token? ++
      ((itemsOfPieces (Position.origin.after (ps.flatMap Piece.text)) qs).filterMap Item.token? ++
        [endToken cs]) := by
  rw [tokens_lexChars, items, h, itemsOfPieces_append, List.filterMap_append, List.append_assoc]

theorem Piece.span_of_item? {piece : Piece} {span : Span} {x : Item}
    (h : piece.item? span = some x) : x.span = span := by
  cases piece with
  | blank c => simp [item?] at h
  | comment body => simp [item?] at h
  | lexeme l => cases h; rfl
  | unexpected c => cases h; rfl
  | openString body => cases h; rfl

theorem items_eq (cs : List Char) :
    items cs = (place (Position.origin.after []) (cut cs)).filterMap fun x => x.1.item? x.2 := rfl

/-- Every item comes from one piece of the cut, at the place of that piece. -/
theorem mem_items {cs : List Char} {x : Item} :
    x ∈ items cs ↔ ∃ before piece rest, CutBetween cs before piece rest ∧
      piece.item? (Span.ofText before piece.text) = some x := by
  rw [items_eq, List.mem_filterMap]
  constructor
  · rintro ⟨⟨piece, span⟩, hp, hx⟩
    obtain ⟨ps, qs, hcut, rfl⟩ := mem_place_after.1 hp
    exact ⟨ps.flatMap Piece.text, piece, _, ⟨ps, qs, hcut, rfl, rfl⟩, hx⟩
  · rintro ⟨_, piece, _, ⟨ps, qs, hcut, rfl, rfl⟩, hx⟩
    exact ⟨(piece, _), mem_place_after.2 ⟨ps, qs, hcut, rfl⟩, hx⟩

/-- An earlier item precedes a later one. -/
theorem items_precede (cs : List Char) :
    (items cs).Pairwise fun x y => x.span.Precedes y.span := by
  rw [items_eq, List.pairwise_filterMap]
  apply (place_precedes fun p hp => text_ne_nil_of_mem_cut cs hp).imp
  intro p q hpq x hx y hy
  rw [Piece.span_of_item? hx, Piece.span_of_item? hy]
  exact hpq

/-- Every item precedes the end of the text. -/
theorem items_precede_end {cs : List Char} {x : Item} (h : x ∈ items cs) :
    x.span.Precedes (Span.ofText cs []) := by
  obtain ⟨before, piece, rest, hcut, hx⟩ := mem_items.1 h
  refine ⟨before, piece.text, rest, [], Piece.text_ne_nil hcut.valid, Piece.span_of_item? hx, ?_⟩
  rw [← hcut.text_eq]

/-- A token that was read is a lexeme of the cut, at its place. -/
theorem mem_filterMap_token? {cs : List Char} {t : Token} :
    t ∈ (items cs).filterMap Item.token? ↔ ∃ before l rest,
      CutBetween cs before (.lexeme l) rest ∧ t = l.token (Span.ofText before l.text) := by
  rw [List.mem_filterMap]
  constructor
  · rintro ⟨x, hx, ht⟩
    obtain ⟨before, piece, rest, hcut, hx⟩ := mem_items.1 hx
    cases piece with
    | lexeme l =>
      cases hx
      exact ⟨before, l, rest, hcut, (Option.some.inj ht).symm⟩
    | blank c => simp [Piece.item?] at hx
    | comment body => simp [Piece.item?] at hx
    | unexpected c => cases hx; simp [Item.token?] at ht
    | openString body => cases hx; simp [Item.token?] at ht
  · rintro ⟨before, l, rest, hcut, rfl⟩
    exact ⟨.token _, mem_items.2 ⟨before, .lexeme l, rest, hcut, rfl⟩, rfl⟩

theorem mem_tokens_lexChars {cs : List Char} {t : Token} :
    t ∈ (lexChars cs).tokens ↔ (∃ before l rest, CutBetween cs before (.lexeme l) rest ∧
      t = l.token (Span.ofText before l.text)) ∨ t = endToken cs := by
  change t ∈ (items cs).filterMap Item.token? ++ [endToken cs] ↔ _
  rw [List.mem_append, mem_filterMap_token?, List.mem_singleton]

/-- An error is a faulty piece of the cut, at its place. -/
theorem mem_errors_lexChars {cs : List Char} {e : LexError} :
    e ∈ (lexChars cs).errors ↔
      (∃ before c rest, CutBetween cs before (.unexpected c) rest ∧
        e = ⟨.unexpectedCharacter c, Span.ofText before [c]⟩) ∨
      ∃ before body rest, CutBetween cs before (.openString body) rest ∧
        e = ⟨.unterminatedString, Span.ofText before ('"' :: body)⟩ := by
  change e ∈ (items cs).filterMap Item.error? ↔ _
  rw [List.mem_filterMap]
  constructor
  · rintro ⟨x, hx, he⟩
    obtain ⟨before, piece, rest, hcut, hx⟩ := mem_items.1 hx
    cases piece with
    | lexeme l => cases hx; simp [Item.error?] at he
    | blank c => simp [Piece.item?] at hx
    | comment body => simp [Piece.item?] at hx
    | unexpected c =>
      cases hx
      exact .inl ⟨before, c, rest, hcut, (Option.some.inj he).symm⟩
    | openString body =>
      cases hx
      exact .inr ⟨before, body, rest, hcut, (Option.some.inj he).symm⟩
  · rintro (⟨before, c, rest, hcut, rfl⟩ | ⟨before, body, rest, hcut, rfl⟩)
    · exact ⟨.error _, mem_items.2 ⟨before, .unexpected c, rest, hcut, rfl⟩, rfl⟩
    · exact ⟨.error _, mem_items.2 ⟨before, .openString body, rest, hcut, rfl⟩, rfl⟩

theorem endToken_span (cs : List Char) : (endToken cs).span = Span.ofText cs [] := by
  rw [Span.ofText, List.append_nil]
  rfl

theorem kind_ne_eof_of_mem_items {cs : List Char} {t : Token}
    (h : t ∈ (items cs).filterMap Item.token?) : t.kind ≠ .eof := by
  obtain ⟨_, l, _, _, rfl⟩ := mem_filterMap_token?.1 h
  exact l.kind_ne_eof

theorem tokens_precede (cs : List Char) :
    ((items cs).filterMap Item.token?).Pairwise fun t u => t.span.Precedes u.span := by
  apply (items_precede cs).filterMap
  intro x y hxy t ht u hu
  cases x <;> cases y <;> simp_all [Item.token?, Item.span]

/-- Every token precedes the later ones, the end of the input included. -/
theorem tokens_lexChars_precede (cs : List Char) :
    (lexChars cs).tokens.Pairwise fun t u => t.span.Precedes u.span := by
  rw [tokens_lexChars, List.pairwise_append]
  refine ⟨tokens_precede cs, List.pairwise_singleton _ _, ?_⟩
  intro t ht u hu
  rw [List.mem_singleton.1 hu, endToken_span]
  obtain ⟨x, hx, hxt⟩ := List.mem_filterMap.1 ht
  cases x with
  | token t' =>
    cases hxt
    exact items_precede_end hx
  | error e => cases hxt

theorem errors_precede (cs : List Char) :
    (lexChars cs).errors.Pairwise fun e f => e.span.Precedes f.span := by
  apply (items_precede cs).filterMap
  intro x y hxy e he f hf
  cases x <;> cases y <;> simp_all [Item.error?, Item.span]

namespace Lexing

/-- Every token but the end of input. -/
def readTokens (r : Lexing) : List Token :=
  r.tokens.filter fun t => t.kind != .eof

/-- Tokens and errors in one list, merged by where they start. -/
def merged (r : Lexing) : List Item :=
  (r.readTokens.map Item.token).merge (r.errors.map Item.error)
    fun x y => x.span.start ≤ y.span.start

/-- The spans of the tokens that were read and of the errors, merged by where they start. -/
def spans (r : Lexing) : List Span :=
  r.merged.map Item.span

theorem readTokens_lexChars (cs : List Char) :
    (lexChars cs).readTokens = (items cs).filterMap Item.token? := by
  change ((items cs).filterMap Item.token? ++ [endToken cs]).filter _ = _
  rw [List.filter_append, List.filter_eq_self.2]
  · simp [endToken, Token.eof]
  · intro t ht
    simpa using kind_ne_eof_of_mem_items ht

private theorem merge_cons_left {α : Type} {le : α → α → Bool} {x : α} {xs ys : List α}
    (h : ∀ y ∈ ys, le x y = true) : (x :: xs).merge ys le = x :: xs.merge ys le := by
  cases ys with
  | nil => simp
  | cons y ys => exact List.cons_merge_cons_pos _ _ _ (h y List.mem_cons_self)

private theorem merge_cons_right {α : Type} {le : α → α → Bool} {y : α} {xs ys : List α}
    (h : ∀ x ∈ xs, ¬ le x y = true) : xs.merge (y :: ys) le = y :: xs.merge ys le := by
  cases xs with
  | nil => simp
  | cons x xs => exact List.cons_merge_cons_neg _ _ _ (h x List.mem_cons_self)

/-- Items that rise in where they start are the merge of their tokens and their errors. -/
theorem merge_items {xs : List Item} (h : xs.Pairwise fun x y => x.span.start < y.span.start) :
    ((xs.filterMap Item.token?).map Item.token).merge ((xs.filterMap Item.error?).map Item.error)
      (fun x y => x.span.start ≤ y.span.start) = xs := by
  induction xs with
  | nil => simp
  | cons x xs ih =>
    obtain ⟨hx, hxs⟩ := List.pairwise_cons.1 h
    have merged := ih hxs
    cases x with
    | token t =>
      simp only [List.filterMap_cons, Item.token?, Item.error?, List.map_cons]
      rw [merge_cons_left, merged]
      intro y hy
      have hmem : y ∈ xs := merged ▸ List.mem_merge_right _ hy
      exact decide_eq_true (Nat.le_of_lt (hx y hmem))
    | error e =>
      simp only [List.filterMap_cons, Item.token?, Item.error?, List.map_cons]
      rw [merge_cons_right, merged]
      intro y hy
      have hmem : y ∈ xs := merged ▸ List.mem_merge_left _ hy
      simpa using hx y hmem

/-- The tokens and errors of a text, merged by where they start, are its items in order. -/
theorem merged_lexChars (cs : List Char) : (lexChars cs).merged = items cs := by
  rw [merged, readTokens_lexChars]
  exact merge_items ((items_precede cs).imp Span.Precedes.start_lt_start)

theorem spans_lexChars (cs : List Char) : (lexChars cs).spans = (items cs).map Item.span := by
  rw [spans, merged_lexChars]

end Lexing

end LoxLexer
