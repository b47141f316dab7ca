import LoxLexer.Piece.Basic

/-!
# Cutting a text into pieces

A text is cut by taking its first piece until nothing is left. The pieces in order are the text,
and no piece is empty, so there are at most as many pieces as characters.
-/
namespace LoxLexer

private def cutOnto (done : List Piece) : List Char → List Piece
  | [] => done.reverse
  | c :: cs => cutOnto ((Piece.first c cs).1 :: done) (Piece.first c cs).2
termination_by cs => cs.length
decreasing_by exact Piece.first_length_lt c cs

private theorem cutOnto_eq (done : List Piece) :
    (cs : List Char) → cutOnto done cs = done.reverse ++ cutOnto [] cs
  | [] => by simp [cutOnto]
  | c :: cs => by
    rw [cutOnto, cutOnto_eq _ (Piece.first c cs).2]
    conv => rhs; rw [cutOnto, cutOnto_eq _ (Piece.first c cs).2]
    simp
termination_by cs => cs.length
decreasing_by all_goals exact Piece.first_length_lt c cs

/-- The pieces of a text, from left to right. -/
def cut (cs : List Char) : List Piece :=
  cutOnto [] cs

@[simp] theorem cut_nil : cut [] = [] := by
  simp [cut, cutOnto]

theorem cut_cons (c : Char) (cs : List Char) :
    cut (c :: cs) = (Piece.first c cs).1 :: cut (Piece.first c cs).2 := by
  rw [cut, cutOnto, cutOnto_eq]
  rfl

/-- The pieces in order are the text that was cut. -/
theorem cut_text : (cs : List Char) → (cut cs).flatMap Piece.text = cs
  | [] => by simp
  | c :: cs => by
    rw [cut_cons, List.flatMap_cons, cut_text (Piece.first c cs).2, Piece.first_text]
termination_by cs => cs.length
decreasing_by exact Piece.first_length_lt c cs

theorem text_ne_nil_of_mem_cut {p : Piece} :
    (cs : List Char) → p ∈ cut cs → p.text ≠ []
  | [], h => by simp at h
  | c :: cs, h => by
    rw [cut_cons, List.mem_cons] at h
    rcases h with rfl | h
    · exact Piece.first_text_ne_nil c cs
    · exact text_ne_nil_of_mem_cut (Piece.first c cs).2 h
termination_by cs => cs.length
decreasing_by exact Piece.first_length_lt c cs

end LoxLexer
