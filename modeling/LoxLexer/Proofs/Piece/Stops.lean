import LoxLexer.Piece.Cut

/-!
# Where reading a piece stops

A piece ends where the text after it no longer extends it. For a word or a number that is decided
by the next character, or by the next two at a point; a comment ends before a line feed and an open
string only with the text. Every piece of a cut is valid and stops at the pieces after it.
-/
namespace LoxLexer

theorem takeWhile_append_of_head {p : Char → Bool} {xs ys : List Char}
    (hx : ∀ c ∈ xs, p c = true) (hy : ∀ c ∈ ys.head?, p c = false) :
    (xs ++ ys).takeWhile p = xs := by
  rw [List.takeWhile_append_of_pos hx]
  cases ys with
  | nil => simp
  | cons c ys => simp [hy c rfl]

theorem dropWhile_append_of_head {p : Char → Bool} {xs ys : List Char}
    (hx : ∀ c ∈ xs, p c = true) (hy : ∀ c ∈ ys.head?, p c = false) :
    (xs ++ ys).dropWhile p = ys := by
  rw [List.dropWhile_append_of_pos hx]
  cases ys with
  | nil => rfl
  | cons c ys => simp [hy c rfl]

theorem head_dropWhile {p : Char → Bool} (cs : List Char) :
    ∀ c ∈ (cs.dropWhile p).head?, p c = false := by
  intro c hc
  have stop := List.head?_dropWhile_not p cs
  rw [Option.mem_def.1 hc] at stop
  exact stop

theorem Punctuator.length_text (p : Punctuator) : 1 ≤ p.text.length ∧ p.text.length ≤ 2 := by
  cases p <;> decide

/-- What may follow a lexeme when reading ends with it. -/
def Lexeme.Stops : Lexeme → List Char → Prop
  | punctuator p, rest =>
    (p.withEqual?.isSome = true → rest.head? ≠ some '=') ∧ (p = .slash → rest.head? ≠ some '/')
  | number d, rest =>
    (∀ c ∈ rest.head?, c.isDigit = false) ∧
      (d.fraction = none → ∀ c cs, rest = '.' :: c :: cs → c.isDigit = false)
  | string _, _ => True
  | word _, rest => ∀ c ∈ rest.head?, isWordPart c = false

namespace Piece

/-- What may follow a piece when reading ends with it. -/
def Stops : Piece → List Char → Prop
  | blank _, _ => True
  | comment _, rest => ∀ c ∈ rest.head?, c = '\n'
  | lexeme l, rest => l.Stops rest
  | unexpected _, _ => True
  | openString _, rest => rest = []

theorem firstNumber_stops (cs : List Char) :
    (Lexeme.number (firstNumber cs).1).Stops (firstNumber cs).2 := by
  have stop := head_dropWhile (p := Char.isDigit) cs
  unfold firstNumber
  split
  · rename_i d rest h
    by_cases hd : d.isDigit = true
    · rw [if_pos hd]
      exact ⟨head_dropWhile (d :: rest), by simp⟩
    · rw [if_neg hd]
      refine ⟨by simp, ?_⟩
      intro _ c cs' he
      obtain ⟨rfl, rfl⟩ : d = c ∧ rest = cs' := by simpa using he
      simpa using hd
  · rename_i rest hno
    refine ⟨stop, ?_⟩
    intro _ c cs' he
    exact (hno c cs' he).elim

theorem firstString_stops (cs : List Char) : (firstString cs).1.Stops (firstString cs).2 := by
  unfold firstString
  split
  · rfl
  · trivial

theorem firstPunctuator_stops (p : Punctuator) (cs : List Char)
    (hp : p = .slash → cs.head? ≠ some '/') :
    (Lexeme.punctuator (firstPunctuator p cs).1).Stops (firstPunctuator p cs).2 := by
  unfold firstPunctuator
  split
  · rename_i q rest hq
    change (Lexeme.punctuator q).Stops rest
    have whole := congrArg List.length (Punctuator.text_of_withEqual? hq)
    have long := Punctuator.length_text p
    rw [List.length_append, List.length_singleton] at whole
    refine ⟨?_, ?_⟩
    · -- An operator that took an equals sign takes no second one.
      intro hr
      obtain ⟨r, hr⟩ := Option.isSome_iff_exists.1 hr
      have twice := congrArg List.length (Punctuator.text_of_withEqual? hr)
      have short := Punctuator.length_text r
      rw [List.length_append, List.length_singleton] at twice
      omega
    · rintro rfl
      change 1 = p.text.length + 1 at whole
      omega
  · rename_i hno
    refine ⟨?_, hp⟩
    intro hq he
    obtain ⟨q, hq⟩ := Option.isSome_iff_exists.1 hq
    obtain ⟨rest, rfl⟩ := List.head?_eq_some_iff.1 he
    exact hno q rest hq rfl

/-- The first piece ends where the rest no longer extends it. -/
theorem first_stops (c : Char) (cs : List Char) : (first c cs).1.Stops (first c cs).2 := by
  unfold first
  split
  · trivial
  split
  · exact firstNumber_stops (c :: cs)
  split
  · exact head_dropWhile (c :: cs)
  split
  · exact firstString_stops cs
  split
  · intro d hd
    simpa using head_dropWhile cs.tail d hd
  · rename_i hslash
    split
    · rename_i p hp
      apply firstPunctuator_stops
      rintro rfl hd
      have hc := Punctuator.text_of_ofChar? hp
      exact hslash ⟨by simpa [Punctuator.text] using hc.symm, hd⟩
    · trivial

end Piece

/-- What holds of the empty text, and of a text when it holds of what its first piece leaves. -/
theorem cut_induction {motive : List Char → Prop} (nil : motive [])
    (cons : ∀ c cs, motive (Piece.first c cs).2 → motive (c :: cs)) : ∀ cs, motive cs
  | [] => nil
  | c :: cs => cons c cs (cut_induction nil cons (Piece.first c cs).2)
termination_by cs => cs.length
decreasing_by exact Piece.first_length_lt c cs

/-- Every piece of a cut is valid and stops at the pieces after it. -/
theorem valid_stops_of_cut {cs : List Char} {before after : List Piece} {piece : Piece}
    (h : cut cs = before ++ piece :: after) :
    piece.Valid ∧ piece.Stops (after.flatMap Piece.text) := by
  induction cs using cut_induction generalizing before with
  | nil => simp at h
  | cons c cs ih =>
    rw [cut_cons] at h
    cases before with
    | nil =>
      cases h
      rw [cut_text]
      exact ⟨Piece.first_valid c cs, Piece.first_stops c cs⟩
    | cons p before => exact ih (List.cons.inj h).2

end LoxLexer
