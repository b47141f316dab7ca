import Mathlib.Algebra.Order.Field.Rat
import Mathlib.Tactic.FieldSimp
import Mathlib.Tactic.Linarith
import Mathlib.Tactic.Positivity
import Mathlib.Tactic.Ring
import LoxLexer.Proofs.Decimal.Canonical
import LoxLexer.Proofs.Lexeme.Meaning
import LoxLexer.Proofs.Piece.Fit

/-!
# The value of a number

The digits on both sides of a point denote a rational number. Zeros at the end of a fraction do not
change it, and fractions that do not end in a zero are known by their values. The canonical form of
a number keeps its whole part and its value, and is determined by the two.
-/
namespace LoxLexer

theorem isDigit_of_mem_trimZeros {cs : List Char} (h : ∀ c ∈ cs, c.isDigit = true) :
    ∀ c ∈ trimZeros cs, c.isDigit = true := by
  intro c hc
  obtain ⟨n, hn⟩ := trimZeros_append_zeros cs
  apply h c
  rw [hn]
  exact List.mem_append_left _ hc

/-- The value of digits behind a point. -/
def fractionValue (digits : List Char) : ℚ :=
  Nat.ofDigitChars 10 digits 0 / 10 ^ digits.length

@[simp] theorem fractionValue_nil : fractionValue [] = 0 := by
  simp [fractionValue]

theorem fractionValue_cons (c : Char) (cs : List Char) :
    fractionValue (c :: cs) = ((c.toNat - '0'.toNat : ℕ) + fractionValue cs) / 10 := by
  rw [fractionValue, fractionValue, Nat.ofDigitChars_cons, Nat.ofDigitChars_eq_ofDigitChars_zero,
    List.length_cons]
  push_cast
  field_simp
  ring

/-- Zeros at the end of a fraction have no value. -/
theorem fractionValue_append_zeros (cs : List Char) (n : ℕ) :
    fractionValue (cs ++ List.replicate n '0') = fractionValue cs := by
  rw [fractionValue, fractionValue, Nat.ofDigitChars_append, Nat.ofDigitChars_replicate_zero,
    List.length_append, List.length_replicate, pow_add]
  push_cast
  field_simp

theorem fractionValue_trimZeros (cs : List Char) :
    fractionValue (trimZeros cs) = fractionValue cs := by
  obtain ⟨n, hn⟩ := trimZeros_append_zeros cs
  conv_rhs => rw [hn, fractionValue_append_zeros]

theorem fractionValue_nonneg (cs : List Char) : 0 ≤ fractionValue cs := by
  unfold fractionValue
  positivity

theorem fractionValue_lt_one {cs : List Char} (h : ∀ c ∈ cs, c.isDigit = true) :
    fractionValue cs < 1 := by
  induction cs with
  | nil => simp
  | cons c cs ih =>
    obtain ⟨hc, hcs⟩ := List.forall_mem_cons.1 h
    have high : c.toNat ≤ 57 := (Char.isDigit_iff_toNat.1 hc).2
    have digit : ((c.toNat - '0'.toNat : ℕ) : ℚ) ≤ 9 := by
      exact_mod_cast (by change c.toNat - 48 ≤ 9; omega : c.toNat - '0'.toNat ≤ 9)
    have rest := ih hcs
    rw [fractionValue_cons]
    linarith

theorem getLast?_ne_of_cons {c d : Char} {cs : List Char} (h : (c :: cs).getLast? ≠ some d) :
    cs.getLast? ≠ some d := by
  cases cs with
  | nil => simp
  | cons e cs => rwa [List.getLast?_cons_cons] at h

/-- Digits that do not end in a zero have a value. -/
theorem fractionValue_pos {cs : List Char} (digits : ∀ c ∈ cs, c.isDigit = true) (hne : cs ≠ [])
    (last : cs.getLast? ≠ some '0') : 0 < fractionValue cs := by
  induction cs with
  | nil => exact absurd rfl hne
  | cons c cs ih =>
    obtain ⟨hc, hcs⟩ := List.forall_mem_cons.1 digits
    rw [fractionValue_cons]
    cases cs with
    | nil =>
      have low : 48 ≤ c.toNat := (Char.isDigit_iff_toNat.1 hc).1
      have other : c.toNat ≠ '0'.toNat := by
        rw [Ne, Char.toNat_inj]
        rintro rfl
        exact last rfl
      change c.toNat ≠ 48 at other
      have digit : 0 < c.toNat - '0'.toNat := by
        change 0 < c.toNat - 48
        omega
      rw [fractionValue_nil, add_zero]
      positivity
    | cons d cs =>
      have rest := ih hcs (List.cons_ne_nil d cs) (getLast?_ne_of_cons last)
      positivity

/-- Two sums of a whole number and something below one are equal only part by part. -/
theorem eq_of_add_eq_add {a b : ℕ} {u v : ℚ} (hu : 0 ≤ u) (hu' : u < 1) (hv : 0 ≤ v) (hv' : v < 1)
    (h : (a : ℚ) + u = b + v) : a = b ∧ u = v := by
  have whole : a = b := by
    rcases Nat.lt_trichotomy a b with hlt | heq | hgt
    · have : (a : ℚ) + 1 ≤ b := by exact_mod_cast hlt
      linarith
    · exact heq
    · have : (b : ℚ) + 1 ≤ a := by exact_mod_cast hgt
      linarith
  subst whole
  exact ⟨rfl, add_left_cancel h⟩

theorem fractionValue_injective {xs ys : List Char} (hx : ∀ c ∈ xs, c.isDigit = true)
    (hy : ∀ c ∈ ys, c.isDigit = true) (lastx : xs.getLast? ≠ some '0')
    (lasty : ys.getLast? ≠ some '0') (h : fractionValue xs = fractionValue ys) : xs = ys := by
  induction xs generalizing ys with
  | nil =>
    by_contra hne
    have := fractionValue_pos hy (Ne.symm hne) lasty
    rw [← h, fractionValue_nil] at this
    exact lt_irrefl _ this
  | cons c xs ih =>
    cases ys with
    | nil =>
      have := fractionValue_pos hx (List.cons_ne_nil c xs) lastx
      rw [h, fractionValue_nil] at this
      exact absurd this (lt_irrefl _)
    | cons d ys =>
      obtain ⟨hc, hxs⟩ := List.forall_mem_cons.1 hx
      obtain ⟨hd, hys⟩ := List.forall_mem_cons.1 hy
      rw [fractionValue_cons, fractionValue_cons, div_left_inj' (by norm_num)] at h
      obtain ⟨digit, rest⟩ := eq_of_add_eq_add (fractionValue_nonneg xs) (fractionValue_lt_one hxs)
        (fractionValue_nonneg ys) (fractionValue_lt_one hys) h
      have low : 48 ≤ c.toNat := (Char.isDigit_iff_toNat.1 hc).1
      have low' : 48 ≤ d.toNat := (Char.isDigit_iff_toNat.1 hd).1
      change c.toNat - 48 = d.toNat - 48 at digit
      obtain rfl : c = d := Char.toNat_inj.1 (by omega)
      rw [ih hxs hys (getLast?_ne_of_cons lastx) (getLast?_ne_of_cons lasty) rest]

namespace Numeral

/-- The digits in front of the point of a number, or all of its digits. -/
def whole (cs : List Char) : List Char :=
  cs.takeWhile Char.isDigit

/-- The digits behind the point of a number, if there is a point. -/
def fraction (cs : List Char) : List Char :=
  (cs.dropWhile Char.isDigit).tail

/-- The rational number that the text of a number denotes. -/
def value (cs : List Char) : ℚ :=
  Nat.ofDigitChars 10 (whole cs) 0 + fractionValue (fraction cs)

end Numeral

namespace Decimal

variable {d e : Decimal}

theorem exists_of_matches {cs : List Char} (h : Pattern.number.Matches cs) :
    ∃ d : Decimal, (Lexeme.number d).Valid ∧ d.text = cs := by
  obtain ⟨l, valid, pattern, rfl⟩ := h.exists_lexeme (by decide)
  cases l with
  | number d => exact ⟨d, valid, rfl⟩
  | _ => cases pattern

theorem whole_text (valid : (Lexeme.number d).Valid) : Numeral.whole d.text = d.whole := by
  obtain ⟨whole, _ | digits⟩ := d
  · exact List.takeWhile_eq_self_iff.2 valid.1.2
  · exact takeWhile_append_of_head valid.1.2 (by simp)

theorem fraction_text (valid : (Lexeme.number d).Valid) :
    Numeral.fraction d.text = d.fraction.getD [] := by
  obtain ⟨whole, _ | digits⟩ := d
  · have none_left : whole.dropWhile Char.isDigit = [] := List.dropWhile_eq_nil_iff.2 valid.1.2
    rw [Numeral.fraction, text, none_left]
    rfl
  · have behind : (whole ++ '.' :: digits).dropWhile Char.isDigit = '.' :: digits :=
      dropWhile_append_of_head valid.1.2 (by simp)
    rw [Numeral.fraction, text, behind]
    rfl

theorem isDigit_of_mem_fraction (valid : (Lexeme.number d).Valid) :
    ∀ c ∈ d.fraction.getD [], c.isDigit = true := by
  obtain ⟨whole, _ | digits⟩ := d
  · simp
  · exact (valid.2 digits rfl).2

theorem whole_normalize (d : Decimal) : d.normalize.whole = d.whole := rfl

theorem normalize_valid (valid : (Lexeme.number d).Valid) : (Lexeme.number d.normalize).Valid := by
  refine ⟨valid.1, ?_⟩
  obtain ⟨digits, hd, h⟩ := d.exists_normalize
  rw [hd]
  rintro _ ⟨⟩
  rcases h with ⟨_, rfl⟩ | ⟨htrim, hne⟩
  · decide
  · exact ⟨hne, htrim ▸ isDigit_of_mem_trimZeros (isDigit_of_mem_fraction valid)⟩

theorem fractionValue_normalize (d : Decimal) :
    fractionValue (d.normalize.fraction.getD []) = fractionValue (d.fraction.getD []) := by
  obtain ⟨digits, hd, h⟩ := d.exists_normalize
  rw [hd, ← fractionValue_trimZeros (d.fraction.getD [])]
  rcases h with ⟨htrim, rfl⟩ | ⟨htrim, _⟩
  · rw [htrim]
    exact fractionValue_append_zeros [] 1
  · rw [htrim]
    rfl

theorem value_text (valid : (Lexeme.number d).Valid) : Numeral.value d.text =
    Nat.ofDigitChars 10 d.whole 0 + fractionValue (d.fraction.getD []) := by
  rw [Numeral.value, whole_text valid, fraction_text valid]

theorem value_normalize (valid : (Lexeme.number d).Valid) :
    Numeral.value d.normalize.text = Numeral.value d.text := by
  rw [value_text (normalize_valid valid), value_text valid, whole_normalize,
    fractionValue_normalize]

/-- The whole part and the value determine the normal form. -/
theorem normalize_eq_of_value (validd : (Lexeme.number d).Valid) (valide : (Lexeme.number e).Valid)
    (whole : d.whole = e.whole) (value : Numeral.value d.text = Numeral.value e.text) :
    d.normalize = e.normalize := by
  rw [value_text validd, value_text valide, whole, add_right_inj,
    ← fractionValue_trimZeros (d.fraction.getD []),
    ← fractionValue_trimZeros (e.fraction.getD [])] at value
  have fraction : trimZeros (d.fraction.getD []) = trimZeros (e.fraction.getD []) :=
    fractionValue_injective (isDigit_of_mem_trimZeros (isDigit_of_mem_fraction validd))
      (isDigit_of_mem_trimZeros (isDigit_of_mem_fraction valide)) (getLast?_trimZeros _)
      (getLast?_trimZeros _) value
  rw [normalize, normalize, whole, fraction]

end Decimal

end LoxLexer
