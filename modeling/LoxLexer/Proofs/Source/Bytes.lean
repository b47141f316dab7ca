import LoxLexer.Source.Slice

/-!
# Byte offsets of a source text

A prefix of a text is known by its length in bytes, and that length is the one of the string. The
span of a part of a text, written down from what stands before it, covers exactly that part. Lines
and columns of two texts in a row are those of the second, counted from the end of the first.
-/
namespace LoxLexer

theorem byteLength_pos {cs : List Char} (h : cs ≠ []) : 0 < byteLength cs := by
  cases cs with
  | nil => exact (h rfl).elim
  | cons c cs =>
    have := c.utf8Size_pos
    rw [byteLength_cons]
    omega

theorem length_le_byteLength (cs : List Char) : cs.length ≤ byteLength cs := by
  induction cs with
  | nil => exact Nat.le_refl _
  | cons c cs ih =>
    have := c.utf8Size_pos
    rw [byteLength_cons, List.length_cons]
    omega

/-- Bytes are counted as the string type counts them. -/
theorem byteLength_toList (s : String) : byteLength s.toList = s.utf8ByteSize := by
  have ofList (cs : List Char) : byteLength cs = (String.ofList cs).utf8ByteSize := by
    induction cs with
    | nil => rfl
    | cons c cs ih =>
      rw [byteLength_cons, ih, ← List.singleton_append, String.ofList_append,
        String.utf8ByteSize_append, ← String.singleton_eq_ofList, String.utf8ByteSize_singleton]
  rw [ofList, String.ofList_toList]

/-- Two prefixes of a text with the same number of bytes are equal. -/
theorem prefix_eq_of_byteLength {xs xs' ys ys' : List Char} (h : xs ++ ys = xs' ++ ys')
    (hlen : byteLength xs = byteLength xs') : xs = xs' := by
  have taken := takeBytes?_append xs ys
  rw [h, hlen, takeBytes?_append] at taken
  exact (Option.some.inj taken).symm

theorem dropBytes?_eq_some {n : Nat} {cs rest : List Char} (h : dropBytes? n cs = some rest) :
    ∃ before, cs = before ++ rest ∧ n = byteLength before := by
  fun_induction dropBytes? n cs with
  | case1 cs => exact ⟨[], Option.some.inj h, rfl⟩
  | case2 n => cases h
  | case3 n c cs hle ih =>
    obtain ⟨before, rfl, hbefore⟩ := ih h
    refine ⟨c :: before, rfl, ?_⟩
    rw [byteLength_cons, ← hbefore]
    omega
  | case4 n c cs hle => cases h

theorem takeBytes?_eq_some {n : Nat} {cs text : List Char} (h : takeBytes? n cs = some text) :
    ∃ rest, cs = text ++ rest ∧ n = byteLength text := by
  fun_induction takeBytes? n cs generalizing text with
  | case1 cs =>
    cases h
    exact ⟨cs, rfl, rfl⟩
  | case2 n => cases h
  | case3 n c cs hle ih =>
    obtain ⟨text, htext, rfl⟩ := Option.map_eq_some_iff.1 h
    obtain ⟨rest, rfl, hlen⟩ := ih htext
    refine ⟨rest, rfl, ?_⟩
    rw [byteLength_cons, ← hlen]
    omega
  | case4 n c cs hle => cases h

/-- A span covers a part of a text exactly when it starts and stops where that part does. -/
theorem Span.slice?_eq_some_iff {s : Span} {cs text : List Char} :
    s.slice? cs = some text ↔ ∃ before rest, cs = before ++ text ++ rest ∧
      s.start = byteLength before ∧ s.stop = byteLength (before ++ text) := by
  rw [slice?]
  constructor
  · intro h
    split at h
    · rename_i hle
      obtain ⟨left, hdrop, htake⟩ := Option.bind_eq_some_iff.1 h
      obtain ⟨before, rfl, hstart⟩ := dropBytes?_eq_some hdrop
      obtain ⟨rest, rfl, hlen⟩ := takeBytes?_eq_some htake
      refine ⟨before, rest, (List.append_assoc _ _ _).symm, hstart, ?_⟩
      rw [byteLength_append]
      omega
    · cases h
  · rintro ⟨before, rest, rfl, hstart, hstop⟩
    rw [hstart, hstop, byteLength_append, if_pos (Nat.le_add_right _ _), Nat.add_sub_cancel_left,
      List.append_assoc, dropBytes?_append]
    exact takeBytes?_append text rest

theorem lineAt_append (cs ds : List Char) : lineAt (cs ++ ds) = lineAt cs + ds.count '\n' := by
  simp [lineAt, Nat.add_assoc]

theorem columnAt_append (cs ds : List Char) :
    columnAt (cs ++ ds) = if '\n' ∈ ds then columnAt ds else columnAt cs + ds.length := by
  have read := Position.after_eq (Position.origin.after cs) ds
  rw [← Position.after_append, Position.origin_after, Position.origin_after] at read
  exact congrArg Position.column read

theorem lineAt_concat (cs : List Char) (c : Char) :
    lineAt (cs ++ [c]) = if c = '\n' then lineAt cs + 1 else lineAt cs := by
  rw [lineAt_append]
  split <;> simp_all

theorem columnAt_concat (cs : List Char) (c : Char) :
    columnAt (cs ++ [c]) = if c = '\n' then 1 else columnAt cs + 1 := by
  rw [columnAt_append]
  by_cases hc : c = '\n'
  · rw [hc, if_pos (by simp), if_pos rfl]
    rfl
  · rw [if_neg (by simpa using Ne.symm hc), if_neg hc, List.length_singleton]

namespace Span

/-- The span of `text` where it stands after `before`. -/
def ofText (before text : List Char) : Span :=
  between (Position.origin.after before) (Position.origin.after (before ++ text))

theorem ofText_eq (before text : List Char) :
    ofText before text =
      ⟨byteLength before, byteLength before + byteLength text, lineAt before,
        columnAt before⟩ := by
  simp [ofText, between, Position.origin_after, -Position.after_append]

end Span

end LoxLexer
