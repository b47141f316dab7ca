import LoxLexer.Proofs.Machine.Reached

/-!
# Indices of characters and offsets of bytes

The machine goes by indices of characters, but cuts its text at offsets of bytes. The offset of an
index counts the bytes of the characters before it, so the bytes between two offsets are those of
the characters between the two indices. What the machine cuts out is therefore what it has read, and
the value of a string is what was read without the two quotes.
-/
namespace LoxLexer

/-- A part of a text is encoded by the bytes between the place where it starts and the one where it
stops. -/
theorem extract_toByteArray (xs ys zs : List Char) :
    (String.ofList (xs ++ ys ++ zs)).toByteArray.extract (byteLength xs) (byteLength (xs ++ ys)) =
      (String.ofList ys).toByteArray := by
  have size (cs : List Char) : byteLength cs = (String.ofList cs).toByteArray.size := by
    rw [String.size_toByteArray, ← byteLength_toList, String.toList_ofList]
  rw [byteLength_append, size, size, String.ofList_append, String.ofList_append,
    String.toByteArray_append, String.toByteArray_append, ByteArray.extract_append,
    ByteArray.extract_append_eq_right rfl rfl, ByteArray.size_append, Nat.sub_self,
    Nat.sub_eq_zero_of_le (Nat.le_add_right _ _), ByteArray.extract_same, ByteArray.append_empty]

theorem Piece.firstString_cases (cs : List Char) :
    (∃ body, (firstString cs).1 = .lexeme (.string body)) ∨
      firstString cs = (.openString cs, []) := by
  unfold firstString
  split
  · exact .inr rfl
  · exact .inl ⟨_, rfl⟩

namespace Machine

variable (m : Machine)

/-- What reading a string behind its opening quote comes to. A second quote makes a token of it,
with a value that has neither of the quotes; without one, all that is left is read and an error is
found. -/
inductive StringRead (s t : Cursor) : Prop
  | closed (body : List Char) (plain : '"' ∉ body) (reads : m.Reads ('"' :: body ++ ['"']) t)
    (tokens : t.tokens = s.tokens ++ [⟨.string, String.ofList ('"' :: body ++ ['"']),
      some (.string (String.ofList body)), m.span t⟩])
    (errors : t.errors = s.errors)
  | unclosed (body : List Char) (plain : '"' ∉ body) (reads : m.Reads ('"' :: body) t)
    (stop : t.pos = m.text.length) (tokens : t.tokens = s.tokens)
    (errors : t.errors = s.errors ++ [⟨.unterminatedString, m.span t⟩])

/-- In a machine for `source`, indices of characters and offsets of bytes name the same places, and
at the cursors of a run they cut out what was read. A round leads from such a cursor to such a
cursor. -/
structure Aligned (source : String) : Prop where
  offset : ∀ i, m.byteOffset i = byteLength (source.toList.take i)
  past : ∀ i, source.length ≤ i → m.byteOffset i = source.utf8ByteSize
  rise : ∀ i j, i < j → j ≤ source.length → m.byteOffset i < m.byteOffset j
  slice : ∀ i j, i ≤ j → m.slice i j = .ok ((source.toList.take j).drop i)
  bytes : ∀ i j, i ≤ j → source.toByteArray.extract (m.byteOffset i) (m.byteOffset j) =
    (String.ofList ((source.toList.take j).drop i)).toByteArray
  lexeme : ∀ read s, m.Reads read s →
    m.lexeme s = .ok read ∧ read = (source.toList.take s.pos).drop s.start
  round : ∀ read s t, m.Reads read s → m.scanToken s.mark = .ok t → ∃ read, m.Reads read t

variable {m} {s t : Cursor} {i j : Nat}

theorem byteOffset_eq (i : Nat) : m.byteOffset i = byteLength (m.text.take i) := by
  by_cases h : i ≤ m.text.length
  · have offset := byteOffset_length (List.take_append_drop i m.text).symm
    rwa [List.length_take, Nat.min_eq_left h] at offset
  · have behind : m.table[i]? = none := by
      rw [List.getElem?_eq_none_iff, table, length_charsFrom]
      omega
    rw [byteOffset, behind, List.take_of_length_le (by omega)]

/-- The text up to one index is the text up to an earlier one and what stands between the two. -/
theorem take_eq_append (h : i ≤ j) :
    m.text.take j = m.text.take i ++ (m.text.take j).drop i := by
  have split := List.take_append_drop i (m.text.take j)
  rw [List.take_take, Nat.min_eq_left h] at split
  exact split.symm

theorem text_eq_append (h : i ≤ j) :
    m.text = m.text.take i ++ (m.text.take j).drop i ++ m.text.drop j := by
  rw [← take_eq_append h, List.take_append_drop]

theorem slice_eq (h : i ≤ j) : m.slice i j = .ok ((m.text.take j).drop i) := by
  rw [slice_eq_ok_iff]
  refine ⟨m.text.take i, m.text.drop j, text_eq_append h, byteOffset_eq i, ?_⟩
  rw [← take_eq_append h, byteOffset_eq]

theorem byteOffset_lt (h : i < j) (hj : j ≤ m.text.length) : m.byteOffset i < m.byteOffset j := by
  have between : (m.text.take j).drop i ≠ [] := by
    rw [Ne, List.drop_eq_nil_iff, List.length_take]
    omega
  have grown := byteLength_pos between
  rw [byteOffset_eq, byteOffset_eq, take_eq_append (Nat.le_of_lt h), byteLength_append]
  omega

theorem extract_eq (h : i ≤ j) :
    (String.ofList m.text).toByteArray.extract (m.byteOffset i) (m.byteOffset j) =
      (String.ofList ((m.text.take j).drop i)).toByteArray := by
  have part := extract_toByteArray (m.text.take i) ((m.text.take j).drop i) (m.text.drop j)
  rwa [← text_eq_append h, ← take_eq_append h, ← byteOffset_eq, ← byteOffset_eq] at part

/-- What was read is what stands between the two indices of the cursor. -/
theorem Reads.eq_between {read : List Char} (h : m.Reads read s) :
    read = (m.text.take s.pos).drop s.start := by
  have cutting := h.lexeme_eq
  obtain ⟨before, rest, found, text, rfl⟩ := h.exists_after
  have order : before.length ≤ (before ++ read).length := by simp
  exact Except.ok.inj (cutting.symm.trans (slice_eq order))

/-- A string is read without a fault, and to one of its two ends. -/
theorem Reads.exists_stringRead (room : m.Roomy) (h : m.Reads ['"'] s) :
    ∃ t, m.readString s = .ok t ∧ m.StringRead s t := by
  obtain ⟨before, rest, found, text, rfl⟩ := h.exists_after
  have reading : m.readString (.after before ['"'] found) =
      .ok (.behind before (Piece.firstString rest).1 found) := readString_after room text
  have whole := Piece.firstString_text rest
  have valid := Piece.firstString_valid rest
  obtain ⟨read, reads⟩ := kept_reads.readString ⟨_, h⟩ reading
  refine ⟨_, reading, ?_⟩
  have shifted : m.text = before ++ (Piece.firstString rest).1.text ++
      (Piece.firstString rest).2 := by
    rw [List.append_assoc, whole, text]
    simp
  -- The relation only tells that something was read; the lexeme tells what.
  obtain rfl : read = (Piece.firstString rest).1.text :=
    Except.ok.inj (reads.lexeme_eq.symm.trans (lexeme_after shifted))
  rcases Piece.firstString_cases rest with ⟨body, closed⟩ | unclosed
  · rw [closed] at shifted reads valid ⊢
    refine .closed body valid reads ?_ ?_
    · rw [Cursor.behind, span_after shifted]
      simp [Cursor.after, Piece.item?, Item.token?, Lexeme.token, Lexeme.kind, Lexeme.literal,
        Lexeme.text, Piece.text]
    · simp [Cursor.behind, Cursor.after, Piece.item?, Item.error?]
  · rw [unclosed] at shifted reads valid ⊢
    refine .unclosed rest valid reads ?_ ?_ ?_
    · rw [shifted, List.append_nil]
      rfl
    · simp [Cursor.behind, Cursor.after, Piece.item?, Item.token?]
    · rw [Cursor.behind, span_after shifted]
      simp [Cursor.after, Piece.item?, Item.error?]

end Machine

/-- Offsets of bytes and indices of characters agree all over a source, and for whatever is cut out
of it. A string that is closed has the value that was read between its quotes. -/
theorem offsets_align (maxCount : Nat) (source : String) :
    (Machine.mk maxCount source.toList).Aligned source ∧
    (source.utf8ByteSize ≤ maxCount / 2 → ∀ s, (Machine.mk maxCount source.toList).Reads ['"'] s →
      ∃ t, (Machine.mk maxCount source.toList).readString s = .ok t ∧
        (Machine.mk maxCount source.toList).StringRead s t) := by
  refine ⟨?_, ?_⟩
  · constructor
    · intro i
      exact Machine.byteOffset_eq i
    · intro i h
      rw [← String.length_toList] at h
      rw [Machine.byteOffset_eq, List.take_of_length_le h, byteLength_toList]
    · intro i j h hj
      exact Machine.byteOffset_lt h (String.length_toList ▸ hj)
    · intro i j h
      exact Machine.slice_eq h
    · intro i j h
      have part := Machine.extract_eq (m := ⟨maxCount, source.toList⟩) h
      rwa [String.ofList_toList] at part
    · intro read s h
      exact ⟨h.lexeme_eq, h.eq_between⟩
    · intro read s t h hscan
      exact Machine.kept_reads.scanToken ⟨[], h.mark⟩ hscan
  · intro small s h
    exact h.exists_stringRead (Machine.roomy_of_utf8ByteSize small)

/-- Characters of two and of four bytes between the quotes. -/
theorem offsets_align_wide :
    let m := Machine.mk (UInt64.size - 1) "\"é😀\"".toList
    let s : Cursor := ⟨0, 1, 1, 1, 1, 2, [], [], []⟩
    m.byteOffset 3 = 7 ∧ m.slice 1 3 = .ok ['é', '😀'] ∧
      "\"é😀\"".utf8ByteSize ≤ (UInt64.size - 1) / 2 ∧ m.Reads ['"'] s ∧ m.lexeme s = .ok ['"'] ∧
      ∃ t, m.readString s = .ok t ∧ m.StringRead s t := by
  intro m s
  have ⟨align, strings⟩ := offsets_align (UInt64.size - 1) "\"é😀\""
  have small : "\"é😀\"".utf8ByteSize ≤ (UInt64.size - 1) / 2 := by decide
  have quote : m.advance Cursor.origin.mark = .ok (some '"', s) := rfl
  have reads : m.Reads ['"'] s := .advance (.mark .origin) quote
  have offset : m.byteOffset 3 = 7 := (align.offset 3).trans (by decide)
  have part : m.slice 1 3 = .ok ['é', '😀'] :=
    (align.slice 1 3 (by decide)).trans (congrArg Except.ok (by decide))
  exact ⟨offset, part, small, reads, (align.lexeme _ s reads).1, strings small s reads⟩

end LoxLexer
