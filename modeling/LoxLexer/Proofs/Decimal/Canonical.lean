import Mathlib.Data.List.DropRight
import LoxLexer.Decimal

/-!
# The canonical form of any text

A canonical form can be made of any text, with or without digits and with any number of points. What
stands before the first point stays, and the same point is the first one of the result, even where
trimming zeros uncovers another point. So making a text canonical once more changes nothing.
-/
namespace LoxLexer

theorem trimZeros_append_zeros (cs : List Char) :
    ∃ n, cs = trimZeros cs ++ List.replicate n '0' := by
  have whole : trimZeros cs ++ cs.rtakeWhile (· == '0') = cs := List.rdropWhile_append_rtakeWhile
  refine ⟨(cs.rtakeWhile (· == '0')).length, ?_⟩
  have zeros : cs.rtakeWhile (· == '0') =
      List.replicate (cs.rtakeWhile (· == '0')).length '0' := by
    rw [List.eq_replicate_iff]
    refine ⟨rfl, ?_⟩
    intro c hc
    exact beq_iff_eq.1 (List.mem_rtakeWhile_imp (p := (· == '0')) hc)
  rw [← zeros, whole]

theorem trimZeros_trimZeros (cs : List Char) : trimZeros (trimZeros cs) = trimZeros cs :=
  List.rdropWhile_idempotent _ cs

theorem trimZeros_eq_self_iff {cs : List Char} : trimZeros cs = cs ↔ cs.getLast? ≠ some '0' := by
  change cs.rdropWhile (· == '0') = cs ↔ _
  rw [List.rdropWhile_eq_self_iff]
  by_cases h : cs = []
  · simp [h]
  · simp [h, List.getLast?_eq_some_getLast h]

theorem getLast?_trimZeros (cs : List Char) : (trimZeros cs).getLast? ≠ some '0' :=
  trimZeros_eq_self_iff.1 (trimZeros_trimZeros cs)

namespace Decimal

variable {d : Decimal}

/-- The fraction of a normal form is a single zero in place of nothing, or has no zero at its
end. -/
theorem exists_normalize (d : Decimal) :
    ∃ digits, d.normalize = ⟨d.whole, some digits⟩ ∧
      (trimZeros (d.fraction.getD []) = [] ∧ digits = ['0'] ∨
        trimZeros (d.fraction.getD []) = digits ∧ digits ≠ []) := by
  unfold normalize
  cases h : trimZeros (d.fraction.getD []) with
  | nil => exact ⟨['0'], rfl, .inl ⟨rfl, rfl⟩⟩
  | cons c cs => exact ⟨c :: cs, rfl, .inr ⟨rfl, List.cons_ne_nil c cs⟩⟩

/-- A single zero, or something that does not end in a zero: a fraction that a normal form keeps. -/
def IsSettled (digits : List Char) : Prop :=
  digits = ['0'] ∨ digits ≠ [] ∧ digits.getLast? ≠ some '0'

theorem normalize_eq_self_iff :
    d.normalize = d ↔ ∃ digits, d.fraction = some digits ∧ IsSettled digits := by
  obtain ⟨kept, hkept, h⟩ := d.exists_normalize
  obtain ⟨whole, fraction⟩ := d
  rw [hkept, Decimal.mk.injEq, eq_self_iff_true, true_and]
  constructor
  · rintro rfl
    refine ⟨kept, rfl, ?_⟩
    rcases h with ⟨_, zero⟩ | ⟨trimmed, hne⟩
    · exact .inl zero
    · exact .inr ⟨hne, trimZeros_eq_self_iff.1 trimmed⟩
  · rintro ⟨digits, rfl, rfl | ⟨hne, last⟩⟩
    · rcases h with ⟨_, zero⟩ | ⟨trimmed, hne⟩
      · rw [zero]
      · exact absurd trimmed.symm hne
    · rw [Option.getD_some, trimZeros_eq_self_iff.2 last] at h
      rcases h with ⟨empty, _⟩ | ⟨same, _⟩
      · exact absurd empty hne
      · rw [same]

theorem normalize_normalize (d : Decimal) : d.normalize.normalize = d.normalize := by
  obtain ⟨digits, hd, h⟩ := d.exists_normalize
  rw [normalize_eq_self_iff, hd]
  refine ⟨digits, rfl, ?_⟩
  rcases h with ⟨_, zero⟩ | ⟨trimmed, hne⟩
  · exact .inl zero
  · exact .inr ⟨hne, trimmed ▸ getLast?_trimZeros _⟩

/-- What a text has before its first point, or all of it. -/
def beforePoint (cs : List Char) : List Char :=
  cs.takeWhile (· != '.')

/-- What a text has behind its first point, if there is a point. -/
def behindPoint (cs : List Char) : List Char :=
  (cs.dropWhile (· != '.')).tail

theorem point_not_mem_beforePoint (cs : List Char) : '.' ∉ beforePoint cs := by
  intro h
  simpa using List.mem_takeWhile_imp h

theorem fraction_ofText (cs : List Char) :
    (ofText cs).fraction = if '.' ∈ cs then some (behindPoint cs) else none := by
  rw [ofText, behindPoint]
  cases h : cs.dropWhile (· != '.') with
  | nil =>
    have absent : '.' ∉ cs := by
      intro hm
      simpa using List.dropWhile_eq_nil_iff.1 h '.' hm
    rw [if_neg absent]
  | cons c digits =>
    have hc := List.head?_dropWhile_not (· != '.') cs
    simp only [h, List.head?_cons, bne_eq_false_iff_eq] at hc
    have present : '.' ∈ cs := by
      apply (List.dropWhile_sublist (· != '.')).mem
      rw [h, hc]
      exact List.mem_cons_self
    rw [if_pos present, List.tail_cons]

/-- The point that is the first one in a text is the first one in its canonical form. -/
theorem ofText_canonical (cs : List Char) : ofText (canonical cs) = (ofText cs).normalize := by
  apply ofText_text
  exact point_not_mem_beforePoint cs

theorem canonical_canonical (cs : List Char) : canonical (canonical cs) = canonical cs := by
  rw [canonical, ofText_canonical, normalize_normalize, canonical]

theorem canonical_eq_self_iff {cs : List Char} :
    canonical cs = cs ↔ '.' ∈ cs ∧ IsSettled (behindPoint cs) := by
  have normal : canonical cs = cs ↔ (ofText cs).normalize = ofText cs := by
    constructor
    · intro h
      rw [← ofText_canonical, h]
    · intro h
      rw [canonical, h, text_ofText]
  rw [normal, normalize_eq_self_iff, fraction_ofText]
  by_cases point : '.' ∈ cs <;> simp [point]

/-- The canonical form puts a point behind the part before the first point, and then the part behind
that point without its last zeros, or one zero if nothing is left. -/
theorem exists_canonical (cs : List Char) : ∃ kept n,
    behindPoint cs = kept ++ List.replicate n '0' ∧ kept.getLast? ≠ some '0' ∧
      canonical cs = beforePoint cs ++ '.' :: if kept = [] then ['0'] else kept := by
  have behind : (ofText cs).fraction.getD [] = behindPoint cs := by
    rw [fraction_ofText]
    by_cases point : '.' ∈ cs
    · simp [point]
    · have whole : cs.dropWhile (· != '.') = [] := by
        rw [List.dropWhile_eq_nil_iff]
        intro c hc
        simpa using fun he : c = '.' => point (he ▸ hc)
      simp [point, behindPoint, whole]
  obtain ⟨n, zeros⟩ := trimZeros_append_zeros (behindPoint cs)
  obtain ⟨digits, hd, h⟩ := (ofText cs).exists_normalize
  refine ⟨trimZeros (behindPoint cs), n, zeros, getLast?_trimZeros _, ?_⟩
  rw [behind] at h
  rw [canonical, hd]
  rcases h with ⟨empty, rfl⟩ | ⟨trimmed, hne⟩
  · rw [if_pos empty]
    rfl
  · rw [trimmed, if_neg hne]
    rfl

/-- Whatever a text is like, its canonical form is its own canonical form, and so is just a text
whose part behind the first point is settled. A text and its canonical form agree up to the first
point, and behind it up to the zeros at the end. -/
theorem canonical_settles (x : List Char) :
    canonical (canonical x) = canonical x ∧
    (canonical x = x ↔ '.' ∈ x ∧ IsSettled (behindPoint x)) ∧
    beforePoint x ++ ['.'] <+: canonical x ∧
    ∃ kept n, behindPoint x = kept ++ List.replicate n '0' ∧ kept.getLast? ≠ some '0' ∧
      canonical x = beforePoint x ++ '.' :: if kept = [] then ['0'] else kept := by
  have form := exists_canonical x
  refine ⟨canonical_canonical x, canonical_eq_self_iff, ?_, form⟩
  obtain ⟨kept, n, _, _, h⟩ := form
  rw [h]
  exact ⟨if kept = [] then ['0'] else kept, by simp⟩

/-- Trimming uncovers a point, which stays. -/
example : canonical "1.0.00".toList = "1.0.".toList ∧ canonical "1.0.".toList = "1.0.".toList := by
  decide

end Decimal

end LoxLexer
