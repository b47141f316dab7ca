import LoxLexer.Proofs.Piece.Fit

/-!
# Pieces in front of another text

Pieces that fit in front of a text often fit in front of another one. They do when the end of the
text is taken away, when a text that is more than a point goes on, and when a text follows that
takes no piece on. What may go wrong is told by the last piece and by a digit after a last point.
-/
namespace LoxLexer

variable {cs rest : List Char} {ps : List Piece}

namespace Piece

variable {p : Piece}

/-- A piece stops as before when the end of what follows it is taken away. -/
theorem Stops.of_append (h : p.Stops (cs ++ rest)) : p.Stops cs := by
  have head {c : Char} (hc : c ∈ cs.head?) : c ∈ (cs ++ rest).head? := by
    rw [List.head?_append, Option.mem_def.1 hc]
    rfl
  cases p with
  | blank c => trivial
  | comment body => exact fun c hc => h c (head hc)
  | unexpected c => trivial
  | openString body => exact (List.append_eq_nil_iff.1 h).1
  | lexeme l =>
    cases l with
    | punctuator q => exact ⟨fun hq he => h.1 hq (head he), fun hq he => h.2 hq (head he)⟩
    | string body => trivial
    | word letters => exact fun c hc => h c (head hc)
    | number d =>
      refine ⟨fun c hc => h.1 c (head hc), ?_⟩
      rintro hnone c cs' rfl
      exact h.2 hnone c (cs' ++ rest) rfl

/-- A piece that stops at a text stops when this goes on without a digit, and at the end of the
text when it stops at what follows there. -/
theorem Stops.append_of_head (h : p.Stops cs) (digit : ∀ c ∈ rest.head?, c.isDigit = false)
    (last : cs = [] → p.Stops rest) : p.Stops (cs ++ rest) := by
  by_cases hne : cs = []
  · rw [hne]
    exact last hne
  by_cases hpoint : cs = ['.']
  · subst hpoint
    cases p with
    | lexeme l =>
      cases l with
      | number d =>
        refine ⟨h.1, ?_⟩
        rintro _ c cs ⟨⟩
        exact digit c rfl
      | _ => exact h
    | openString body => cases h
    | _ => exact h
  · exact h.append hne fun _ _ _ => hpoint

end Piece

theorem Fit.valid (h : Fit rest ps) : ∀ p ∈ ps, p.Valid := by
  induction ps with
  | nil => simp
  | cons p ps ih => exact List.forall_mem_cons.2 ⟨h.1, ih h.2.2⟩

theorem Fit.of_append (h : Fit (cs ++ rest) ps) : Fit cs ps := by
  apply h.imp
  intro before p after _ stops
  rw [← List.append_assoc] at stops
  exact stops.of_append

/-- Pieces fit in front of a longer text, unless the text was empty or nothing but a point. -/
theorem Fit.append (h : Fit cs ps) (hne : cs ≠ []) (hpoint : cs ≠ ['.']) :
    Fit (cs ++ rest) ps := by
  apply h.imp
  intro before p after _ stops
  rw [← List.append_assoc]
  apply stops.append (List.append_ne_nil_of_right_ne_nil _ hne)
  intro _ _ _ he
  rcases List.append_eq_singleton_iff.1 he with ⟨_, he⟩ | ⟨_, he⟩
  · exact hpoint he
  · exact hne he

/-- Pieces fit in front of a text without a digit at its head at which the last of them stops. -/
theorem Fit.append_of_head (h : Fit [] ps) (digit : ∀ c ∈ rest.head?, c.isDigit = false)
    (last : ∀ p ∈ ps.getLast?, p.Stops rest) : Fit rest ps := by
  induction ps with
  | nil => trivial
  | cons p ps ih =>
    obtain ⟨valid, stops, tail⟩ := h
    rw [List.append_nil] at stops
    refine ⟨valid, stops.append_of_head digit ?_, ih tail ?_⟩
    · intro hnil
      cases ps with
      | nil => exact last p rfl
      | cons q ps => exact absurd (List.append_eq_nil_iff.1 hnil).1 (Piece.text_ne_nil tail.1)
    · cases ps with
      | nil => simp
      | cons q ps => exact last

/-- Another last piece takes in what follows the text, and all pieces in front of it stay. -/
theorem cut_append_of_last {p p' : Piece} (h : cut cs = ps ++ [p])
    (text : p'.text = p.text ++ rest) (hpoint : p.text ≠ ['.']) (valid : p'.Valid)
    (stops : p'.Stops []) : cut (cs ++ rest) = ps ++ [p'] := by
  have fit := fit_cut cs
  rw [h, fit_append, List.flatMap_singleton, List.append_nil] at fit
  rw [cut_eq_iff, fit_append, List.flatMap_append, List.flatMap_singleton, List.append_nil, text]
  refine ⟨⟨fit.1.append (Piece.text_ne_nil fit.2.1) hpoint, valid, stops, trivial⟩, ?_⟩
  rw [← List.append_assoc]
  congr 1
  rw [← cut_text cs, h, List.flatMap_append, List.flatMap_singleton]

end LoxLexer
