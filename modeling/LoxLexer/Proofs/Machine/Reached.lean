import LoxLexer.Proofs.Machine.Simulation

/-!
# The cursors that a run can come to

A run changes its cursor by a few operations only. The cursors that they can lead to are written
down with the characters read since the current piece began, whatever order the operations come in.
Each of these cursors stands at some place of the text, and what was read is the part of the text
that its two indices cut out. No fault and no bound on the text is needed for that.
-/
namespace LoxLexer

namespace Machine

variable (m : Machine)

/-- The cursors of a run, with the characters that were read since the last mark. -/
inductive Reads : List Char → Cursor → Prop
  | origin : Reads [] Cursor.origin
  | mark {read : List Char} {s : Cursor} : Reads read s → Reads [] s.mark
  | advance {read : List Char} {s t : Cursor} {c : Char} :
    Reads read s → m.advance s = .ok (some c, t) → Reads (read ++ [c]) t
  | addToken {read : List Char} {s t : Cursor} {kind : Kind} {literal : Option Literal} :
    Reads read s → m.addToken kind literal s = .ok t → Reads read t
  | addError {read : List Char} {s : Cursor} (cause : LexError.Cause) :
    Reads read s → Reads read (m.addError cause s)

variable {m} {s t : Cursor} {read before rest : List Char} {found : List Item}

theorem eq_after_of_advance {c : Char} (text : m.text = before ++ read ++ rest)
    (h : m.advance (.after before read found) = .ok (some c, t)) :
    ∃ later, rest = c :: later ∧ t = .after before (read ++ [c]) found := by
  cases rest with
  | nil => cases (advance_eq_none (peek_after text)).symm.trans h
  | cons d later =>
    obtain ⟨hd, rfl⟩ := eq_of_advance (peek_after text) h
    obtain rfl := Option.some.inj hd
    refine ⟨later, rfl, ?_⟩
    have next : before ++ (read ++ [c]) = before ++ read ++ [c] := (List.append_assoc _ _ _).symm
    simp only [Cursor.after, next, lineAt_concat, columnAt_concat, List.length_append,
      List.length_singleton]
    by_cases hc : c = '\n'
    · simp only [if_pos hc]
    · simp only [if_neg hc]

namespace Reads

/-- A cursor of a run stands where some part of the text does. -/
theorem exists_after (h : m.Reads read s) : ∃ before rest found,
    m.text = before ++ read ++ rest ∧ s = .after before read found := by
  induction h with
  | origin => exact ⟨[], m.text, [], rfl, Cursor.origin_eq⟩
  | @mark read s _ ih =>
    obtain ⟨before, rest, found, text, rfl⟩ := ih
    exact ⟨before ++ read, rest, found, by simp [text], Cursor.mark_after before read found⟩
  | @advance read s t c _ hadvance ih =>
    obtain ⟨before, rest, found, text, rfl⟩ := ih
    obtain ⟨later, rfl, rfl⟩ := eq_after_of_advance text hadvance
    exact ⟨before, later, found, by simp [text], rfl⟩
  | @addToken read s t kind literal _ hadd ih =>
    obtain ⟨before, rest, found, text, rfl⟩ := ih
    cases (addToken_after kind literal text).symm.trans hadd
    exact ⟨before, rest, _, text, rfl⟩
  | @addError read s cause _ ih =>
    obtain ⟨before, rest, found, text, rfl⟩ := ih
    exact ⟨before, rest, _, text, addError_after cause text⟩

theorem lexeme_eq (h : m.Reads read s) : m.lexeme s = .ok read := by
  obtain ⟨before, rest, found, text, rfl⟩ := h.exists_after
  exact lexeme_after text

theorem pos_le (h : m.Reads read s) : s.pos ≤ m.text.length := by
  obtain ⟨before, rest, found, text, rfl⟩ := h.exists_after
  rw [text, List.length_append]
  exact Nat.le_add_right _ _

end Reads

/-- Whatever the machine reads from a cursor of a run, it comes to another one. -/
theorem kept_reads : m.Kept fun s => ∃ read, m.Reads read s where
  advance := by
    rintro s t o ⟨read, h⟩ hadvance
    cases hpeek : m.peek s with
    | none =>
      cases (advance_eq_none hpeek).symm.trans hadvance
      exact ⟨read, h⟩
    | some c =>
      obtain ⟨rfl, _⟩ := eq_of_advance hpeek hadvance
      exact ⟨read ++ [c], h.advance hadvance⟩
  addToken := by
    rintro s t kind literal ⟨read, h⟩ hadd
    exact ⟨read, h.addToken hadd⟩
  addError := by
    rintro s cause ⟨read, h⟩
    exact ⟨read, h.addError cause⟩

end Machine

end LoxLexer
