import LoxLexer.Proofs.Lexing.Placement

/-!
# Items before and after a boundary

Where a text is cut between two pieces, its tokens and errors are divided: those of the pieces in
front end at the boundary or earlier, and those of the pieces behind start at it or later. So the
offset of the boundary alone tells them apart.
-/
namespace LoxLexer

variable {cs before : List Char} {ps qs : List Piece}

theorem itemsOfPieces_after_cons (before : List Char) (p : Piece) (ps : List Piece) :
    itemsOfPieces (Position.origin.after before) (p :: ps) =
      (p.item? (Span.ofText before p.text)).toList ++
        itemsOfPieces (Position.origin.after (before ++ p.text)) ps := by
  rw [itemsOfPieces_cons, Span.ofText, Position.after_append]

/-- The items of pieces that hold some text lie within the text of these pieces. -/
theorem bounds_of_mem_itemsOfPieces {x : Item} (nonempty : ∀ p ∈ ps, p.text ≠ [])
    (h : x ∈ itemsOfPieces (Position.origin.after before) ps) :
    byteLength before ≤ x.span.start ∧ x.span.start < x.span.stop ∧
      x.span.stop ≤ byteLength (before ++ ps.flatMap Piece.text) := by
  obtain ⟨⟨p, span⟩, hp, hx⟩ := List.mem_filterMap.1 h
  obtain ⟨front, back, rfl, rfl⟩ := mem_place_after.1 hp
  have pos := byteLength_pos (nonempty p (by simp))
  rw [Piece.span_of_item? hx, Span.ofText_eq]
  simp only [List.flatMap_append, List.flatMap_cons, byteLength_append]
  omega

theorem mem_filterMap_token {xs : List Item} {t : Token} :
    t ∈ xs.filterMap Item.token? ↔ .token t ∈ xs := by
  rw [List.mem_filterMap]
  constructor
  · rintro ⟨x, hx, ht⟩
    cases x <;> cases ht
    exact hx
  · intro h
    exact ⟨_, h, rfl⟩

theorem mem_filterMap_error {xs : List Item} {e : LexError} :
    e ∈ xs.filterMap Item.error? ↔ .error e ∈ xs := by
  rw [List.mem_filterMap]
  constructor
  · rintro ⟨x, hx, he⟩
    cases x <;> cases he
    exact hx
  · intro h
    exact ⟨_, h, rfl⟩

theorem nonempty_of_cut (h : cut cs = ps ++ qs) :
    (∀ p ∈ ps, p.text ≠ []) ∧ ∀ p ∈ qs, p.text ≠ [] := by
  constructor
  · intro p hp
    exact text_ne_nil_of_mem_cut cs (h ▸ List.mem_append_left qs hp)
  · intro p hp
    exact text_ne_nil_of_mem_cut cs (h ▸ List.mem_append_right ps hp)

theorem text_of_cut (h : cut cs = ps ++ qs) :
    cs = ps.flatMap Piece.text ++ qs.flatMap Piece.text := by
  rw [← cut_text cs, h, List.flatMap_append]

theorem items_of_cut (h : cut cs = ps ++ qs) :
    items cs = itemsOfPieces Position.origin ps ++
      itemsOfPieces (Position.origin.after (ps.flatMap Piece.text)) qs := by
  rw [items, h, itemsOfPieces_append]

theorem errors_of_cut (h : cut cs = ps ++ qs) :
    (lexChars cs).errors = (itemsOfPieces Position.origin ps).filterMap Item.error? ++
      (itemsOfPieces (Position.origin.after (ps.flatMap Piece.text)) qs).filterMap
        Item.error? := by
  rw [errors_lexChars, items_of_cut h, List.filterMap_append]

/-- An item of a piece in front of a boundary ends at it or earlier. -/
theorem stop_le_of_cut {x : Item} (h : cut cs = ps ++ qs)
    (hx : x ∈ itemsOfPieces Position.origin ps) :
    x.span.start < x.span.stop ∧ x.span.stop ≤ byteLength (ps.flatMap Piece.text) := by
  rw [← Position.after_nil Position.origin] at hx
  exact (bounds_of_mem_itemsOfPieces (nonempty_of_cut h).1 hx).2

/-- An item of a piece behind a boundary starts at it or later. -/
theorem le_start_of_cut {x : Item} (h : cut cs = ps ++ qs)
    (hx : x ∈ itemsOfPieces (Position.origin.after (ps.flatMap Piece.text)) qs) :
    byteLength (ps.flatMap Piece.text) ≤ x.span.start :=
  (bounds_of_mem_itemsOfPieces (nonempty_of_cut h).2 hx).1

/-- The part of a list that comes after a first part, when a property tells the parts apart. -/
theorem filter_append_right {α : Type} {f : α → Bool} {xs ys : List α}
    (hx : ∀ x ∈ xs, f x = false) (hy : ∀ y ∈ ys, f y = true) : (xs ++ ys).filter f = ys := by
  rw [List.filter_append, List.filter_eq_nil_iff.2 fun x h => by simp [hx x h],
    List.filter_eq_self.2 hy, List.nil_append]

theorem filter_append_left {α : Type} {f : α → Bool} {xs ys : List α}
    (hx : ∀ x ∈ xs, f x = true) (hy : ∀ y ∈ ys, f y = false) : (xs ++ ys).filter f = xs := by
  rw [List.filter_append, List.filter_eq_self.2 hx,
    List.filter_eq_nil_iff.2 fun y h => by simp [hy y h], List.append_nil]

/-- The tokens that start at a boundary or later are those of the pieces behind it, and the end of
the input. -/
theorem filter_tokens_of_cut (h : cut cs = ps ++ qs) :
    ((lexChars cs).tokens.filter fun t => byteLength (ps.flatMap Piece.text) ≤ t.span.start) =
      (itemsOfPieces (Position.origin.after (ps.flatMap Piece.text)) qs).filterMap Item.token? ++
        [endToken cs] := by
  rw [tokens_of_cut h]
  apply filter_append_right
  · intro t ht
    obtain ⟨hlt, hle⟩ := stop_le_of_cut h (mem_filterMap_token.1 ht)
    exact decide_eq_false (Nat.not_le.2 (Nat.lt_of_lt_of_le hlt hle))
  · intro t ht
    rw [decide_eq_true_eq]
    rcases List.mem_append.1 ht with ht | ht
    · exact le_start_of_cut h (mem_filterMap_token.1 ht)
    · rw [List.mem_singleton.1 ht, endToken_span, Span.ofText_eq, text_of_cut h,
        byteLength_append]
      exact Nat.le_add_right _ _

theorem filter_errors_of_cut (h : cut cs = ps ++ qs) :
    ((lexChars cs).errors.filter fun e => byteLength (ps.flatMap Piece.text) ≤ e.span.start) =
      (itemsOfPieces (Position.origin.after (ps.flatMap Piece.text)) qs).filterMap
        Item.error? := by
  rw [errors_of_cut h]
  apply filter_append_right
  · intro e he
    obtain ⟨hlt, hle⟩ := stop_le_of_cut h (mem_filterMap_error.1 he)
    exact decide_eq_false (Nat.not_le.2 (Nat.lt_of_lt_of_le hlt hle))
  · intro e he
    exact decide_eq_true (le_start_of_cut h (mem_filterMap_error.1 he))

/-- The errors that start before a boundary are those of the pieces in front of it. -/
theorem filter_errors_before_of_cut (h : cut cs = ps ++ qs) :
    ((lexChars cs).errors.filter fun e => e.span.start < byteLength (ps.flatMap Piece.text)) =
      (itemsOfPieces Position.origin ps).filterMap Item.error? := by
  rw [errors_of_cut h]
  apply filter_append_left
  · intro e he
    obtain ⟨hlt, hle⟩ := stop_le_of_cut h (mem_filterMap_error.1 he)
    exact decide_eq_true (Nat.lt_of_lt_of_le hlt hle)
  · intro e he
    exact decide_eq_false (Nat.not_lt.2 (le_start_of_cut h (mem_filterMap_error.1 he)))

/-- Every item starts where some piece of the cut does. -/
theorem exists_cut_of_mem_items {x : Item} (h : x ∈ items cs) :
    ∃ ps qs, cut cs = ps ++ qs ∧ x.span.start = byteLength (ps.flatMap Piece.text) ∧
      x.span.line = lineAt (ps.flatMap Piece.text) ∧
        x.span.column = columnAt (ps.flatMap Piece.text) := by
  obtain ⟨_, p, _, ⟨ps, qs, hcut, rfl, _⟩, hx⟩ := mem_items.1 h
  refine ⟨ps, p :: qs, hcut, ?_⟩
  rw [Piece.span_of_item? hx, Span.ofText_eq]
  exact ⟨rfl, rfl, rfl⟩

end LoxLexer
