import LoxLexer.Proofs.Machine.Faultless
import LoxLexer.Proofs.Machine.Reached

/-!
# Rounds of a run and turns of its loops

A round moves the cursor on, but not past the end of the text, and adds one token or error at most
to those that were found before. So there are no more rounds than characters, and no more tokens and
errors than rounds. The loops in a round have turns in place of rounds, one for each character that
they read.
-/
namespace LoxLexer

namespace Machine

variable (m : Machine)

/-- The cursors between two rounds, with the number of rounds before. -/
inductive Rounds : Nat → Cursor → Prop
  | origin : Rounds 0 Cursor.origin
  | round {n : Nat} {s t : Cursor} :
    Rounds n s → m.atEnd s = false → m.scanToken s.mark = .ok t → Rounds (n + 1) t

/-- What a round may do: it reads on behind `s`, and all that was found before stays where it is. -/
structure Advances (s t : Cursor) : Prop where
  start_eq : t.start = s.pos
  start_lt : t.start < t.pos
  pos_le : t.pos ≤ m.text.length
  grown : ∃ tokens errors, t.tokens = s.tokens ++ tokens ∧ t.errors = s.errors ++ errors ∧
    tokens.length + errors.length ≤ 1

/-- The cursors in a loop over characters that satisfy `p`, with the number of turns between. -/
inductive Turns (p : Char → Bool) : Nat → Cursor → Cursor → Prop
  | none {s : Cursor} : Turns p 0 s s
  | turn {n : Nat} {s t u : Cursor} {c : Char} : m.peek s = some c → p c = true →
    m.advance s = .ok (some c, u) → Turns p n u t → Turns p (n + 1) s t

/-- A loop has no more turns than there are characters left, and it comes to a stop. -/
structure LoopEnds (p : Char → Bool) (s : Cursor) : Prop where
  turns_le : ∀ n t, m.Turns p n s t → s.pos + n ≤ m.text.length
  stops : ∃ n t, m.Turns p n s t ∧ (∀ c ∈ m.peek t, p c = false) ∧ m.skipWhile p s = .ok t

/-- Rounds, loops and the whole run get on and come to an end. -/
structure Progresses : Prop where
  round : ∀ n s, m.Rounds n s → s.pos < m.text.length →
    ∃ t, m.scanToken s.mark = .ok t ∧ m.Advances s t
  loop : ∀ p read s, m.Reads read s → m.LoopEnds p s
  rounds_le : ∀ n s, m.Rounds n s → n ≤ m.text.length
  run : ∃ n s, m.Rounds n s ∧ m.scan Cursor.origin = .ok s ∧ s.pos = m.text.length ∧
    (lexChars m.text).tokens = s.tokens ++ [endToken m.text] ∧
    (lexChars m.text).errors = s.errors ∧ s.tokens.length + s.errors.length ≤ m.text.length

variable {m} {n : Nat} {s t : Cursor} {p : Char → Bool}

theorem atEnd_eq_false_iff : m.atEnd s = false ↔ s.pos < m.text.length := by
  rw [atEnd, table, length_charsFrom]
  simp

section Loops

theorem Turns.pos_eq (h : m.Turns p n s t) : s.pos + n = t.pos := by
  induction h with
  | none => rfl
  | turn hpeek _ hadvance _ ih =>
    rw [← ih, pos_of_advance hpeek hadvance]
    omega

/-- A turn needs a character in front of it, so turns end at the end of the text. -/
theorem Turns.pos_le (h : m.Turns p n s t) (hs : s.pos ≤ m.text.length) :
    t.pos ≤ m.text.length := by
  induction h with
  | none => exact hs
  | turn hpeek _ hadvance _ ih =>
    have inside := pos_lt_of_peek hpeek
    rw [table, length_charsFrom] at inside
    apply ih
    rw [pos_of_advance hpeek hadvance]
    exact inside

theorem exists_turns (h : m.skipWhile p s = .ok t) :
    ∃ n, m.Turns p n s t ∧ ∀ c ∈ m.peek t, p c = false := by
  fun_induction skipWhile m p s with
  | case1 s hpeek =>
    cases h
    exact ⟨0, .none, by simp [hpeek]⟩
  | case2 s c hpeek hp fault hadvance => cases h
  | case3 s c hpeek hp o u hadvance ih =>
    obtain ⟨rfl, _⟩ := eq_of_advance hpeek hadvance
    obtain ⟨n, turns, stop⟩ := ih h
    exact ⟨n + 1, .turn hpeek hp hadvance turns, stop⟩
  | case4 s c hpeek hp =>
    cases h
    exact ⟨0, .none, by simpa [hpeek] using hp⟩

theorem loopEnds (room : m.Roomy) {read : List Char} (h : m.Reads read s) : m.LoopEnds p s where
  turns_le n t turns := turns.pos_eq ▸ turns.pos_le h.pos_le
  stops := by
    obtain ⟨before, rest, found, text, rfl⟩ := h.exists_after
    have loop : m.skipWhile p (.after before read found) =
        .ok (.after before (read ++ rest.takeWhile p) found) := skipWhile_after room p text
    obtain ⟨n, turns, stop⟩ := exists_turns loop
    exact ⟨n, _, turns, stop, loop⟩

end Loops

section Rounds

theorem Rounds.exists_reads (h : m.Rounds n s) : ∃ read, m.Reads read s := by
  induction h with
  | origin => exact ⟨[], .origin⟩
  | round _ _ hscan ih =>
    obtain ⟨read, hread⟩ := ih
    exact kept_reads.scanToken ⟨[], hread.mark⟩ hscan

theorem Rounds.le_pos (h : m.Rounds n s) : n ≤ s.pos := by
  induction h with
  | origin => exact Nat.zero_le _
  | @round n s t _ hend hscan ih =>
    have inside : s.pos < m.table.length := by simpa [atEnd] using hend
    have moved : s.pos < t.pos := pos_lt_scanToken (s := s.mark) inside hscan
    omega

theorem Rounds.pos_le (h : m.Rounds n s) : s.pos ≤ m.text.length := by
  obtain ⟨read, hread⟩ := h.exists_reads
  exact hread.pos_le

theorem Rounds.pos_eq (h : m.Rounds n s) (hend : m.atEnd s = true) : s.pos = m.text.length := by
  apply Nat.le_antisymm h.pos_le
  rw [← Nat.not_lt, ← atEnd_eq_false_iff, hend]
  exact Bool.noConfusion

theorem length_item?_le (x : Option Item) :
    (x.toList.filterMap Item.token?).length + (x.toList.filterMap Item.error?).length ≤ 1 := by
  cases x with
  | none => simp
  | some x => cases x <;> exact Nat.le_refl 1

/-- In front of a character a round does not fail, and reads the piece that the character begins. -/
theorem Rounds.exists_advances (room : m.Roomy) (h : m.Rounds n s) (hend : m.atEnd s = false) :
    ∃ t, m.scanToken s.mark = .ok t ∧ m.Advances s t := by
  obtain ⟨read, hread⟩ := h.exists_reads
  obtain ⟨before, rest, found, text, rfl⟩ := hread.exists_after
  cases rest with
  | nil => simp [atEnd_after text] at hend
  | cons c cs =>
    have round : m.scanToken (.after (before ++ read) [] found) =
        .ok (.behind (before ++ read) (Piece.first c cs).1 found) := scanToken_after room text
    have whole := Piece.first_text c cs
    have some_text := List.length_pos_iff.2 (Piece.first_text_ne_nil c cs)
    rw [Cursor.mark_after]
    refine ⟨_, round, rfl, ?_, ?_, ?_⟩
    · simp only [Cursor.behind, Cursor.after, List.length_append]
      omega
    · rw [text, ← whole]
      simp only [Cursor.behind, Cursor.after, List.length_append]
      omega
    · refine ⟨_, _, List.filterMap_append, List.filterMap_append, ?_⟩
      exact length_item?_le _

theorem Rounds.length_le (room : m.Roomy) (h : m.Rounds n s) :
    s.tokens.length + s.errors.length ≤ n := by
  induction h with
  | origin => exact Nat.le_refl _
  | @round n s t before hend hscan ih =>
    obtain ⟨u, hu, advances⟩ := before.exists_advances room hend
    obtain rfl := Except.ok.inj (hu.symm.trans hscan)
    obtain ⟨tokens, errors, htokens, herrors, single⟩ := advances.grown
    rw [htokens, herrors, List.length_append, List.length_append]
    omega

/-- A run goes on round by round until all of the text is read. -/
theorem Rounds.exists_scan (room : m.Roomy) (h : m.Rounds n s) :
    ∃ k t, m.Rounds k t ∧ m.atEnd t = true ∧ m.scan s = .ok t := by
  fun_induction scan m s generalizing n with
  | case1 s hend => exact ⟨n, s, h, hend, rfl⟩
  | case2 s hend fault hscan =>
    -- There is no such round: in front of a character a round returns.
    obtain ⟨t, ht, _⟩ := h.exists_advances room (by simpa using hend)
    cases ht.symm.trans hscan
  | case3 s hend t hscan ih => exact ih (h.round (by simpa using hend) hscan)

/-- The lexing of a text is what its run has found, with the end of input behind. -/
theorem found_of_scan (room : m.Roomy) (h : m.scan Cursor.origin = .ok s) :
    (lexChars m.text).tokens = s.tokens ++ [endToken m.text] ∧
      (lexChars m.text).errors = s.errors := by
  have result := lexing_eq room
  rw [lexing, run, h] at result
  have whole := Except.ok.inj result
  have tokens := congrArg Lexing.tokens whole
  rw [tokens_lexChars] at tokens ⊢
  rw [(List.append_inj' tokens rfl).1]
  exact ⟨rfl, (congrArg Lexing.errors whole).symm⟩

end Rounds

end Machine

/-- A run on a source makes progress in every round, and ends with all of the source read in no more
rounds than it has characters. Strings keep to the bound, as none is longer than half of the largest
count. -/
theorem scan_progresses {maxCount : Nat} {source : String}
    (h : source.utf8ByteSize ≤ maxCount / 2) :
    (Machine.mk maxCount source.toList).Progresses := by
  have room := Machine.roomy_of_utf8ByteSize h
  constructor
  · intro n s rounds inside
    exact rounds.exists_advances room (Machine.atEnd_eq_false_iff.2 inside)
  · intro p read s reads
    exact Machine.loopEnds room reads
  · intro n s rounds
    exact Nat.le_trans rounds.le_pos rounds.pos_le
  · obtain ⟨n, s, rounds, hend, run⟩ := Machine.Rounds.origin.exists_scan room
    obtain ⟨tokens, errors⟩ := Machine.found_of_scan room run
    have last := rounds.pos_eq hend
    have few := Nat.le_trans (rounds.length_le room) rounds.le_pos
    exact ⟨n, s, rounds, run, last, tokens, errors, last ▸ few⟩

/-- Behind a blank, a string with a long character is left open. -/
theorem scan_progresses_open_string :
    let m := Machine.mk (UInt64.size - 1) " \"é".toList
    let s : Cursor := ⟨0, 1, 1, 1, 1, 2, [], [], []⟩
    " \"é".utf8ByteSize ≤ (UInt64.size - 1) / 2 ∧ m.Rounds 1 s ∧ s.pos < m.text.length ∧
      (∃ t, m.scanToken s.mark = .ok t ∧ m.Advances s t) ∧
      m.Reads [' '] s ∧ m.LoopEnds (· != '\n') s := by
  intro m s
  have small : " \"é".utf8ByteSize ≤ (UInt64.size - 1) / 2 := by decide
  have blank : m.scanToken Cursor.origin.mark = .ok s := rfl
  have behind : m.advance Cursor.origin.mark = .ok (some ' ', s) := rfl
  have rounds : m.Rounds 1 s := .round .origin (Machine.atEnd_eq_false_iff.2 (by decide)) blank
  have inside : s.pos < m.text.length := by decide
  have reads : m.Reads [' '] s := .advance (.mark .origin) behind
  have progress := scan_progresses small
  exact ⟨small, rounds, inside, progress.round 1 s rounds inside, reads,
    progress.loop _ _ s reads⟩

end LoxLexer
