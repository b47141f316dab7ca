import LoxLexer.Json.Symbol
import LoxLexer.Proofs.Lexeme.Pattern

/-!
# Scalars read back

A quoted string is read back up to its closing quote, whatever characters it holds. The digits of a
natural number are read back as that number when nothing follows that could belong to a number.
-/
namespace LoxLexer.Json

theorem hexValue?_hexDigit : ∀ n < 16, hexValue? (hexDigit n) = some n := by
  decide

/-- The escape of a control character by its code is read as that character. -/
theorem codeUnit?_control {c : Char} (h : c.toNat < 0x20) :
    codeUnit? '0' '0' (hexDigit (c.toNat / 16)) (hexDigit (c.toNat % 16)) = some (.scalar c) := by
  have zero : hexValue? '0' = some 0 := rfl
  have high := hexValue?_hexDigit (c.toNat / 16) (by omega)
  have low := hexValue?_hexDigit (c.toNat % 16) (by omega)
  have code : ((0 * 16 + 0) * 16 + c.toNat / 16) * 16 + c.toNat % 16 = c.toNat := by omega
  have scalar : codeUnit c.toNat = .scalar c := by
    rw [codeUnit, if_neg (by omega), Char.ofNat_toNat]
  simp only [codeUnit?, zero, high, low, Option.bind_eq_bind, Option.bind_some]
  rw [code, scalar]
  rfl

theorem readQuoted?_escape (c : Char) (rest : List Char) :
    readQuoted? (escape c ++ rest) =
      (readQuoted? rest).map fun r => (.scalar c :: r.1, r.2) := by
  unfold escape
  -- The characters with an escape of their own, then the other control characters.
  iterate 7
    split
    · subst c
      exact readQuoted?_escaped rest rfl
  split
  · rename_i control
    exact readQuoted?_code rest (codeUnit?_control control)
  · rename_i quote slash _ _ _ _ _ plain
    exact readQuoted?_plain rest quote slash (by omega)

theorem readQuoted?_flatMap_escape (cs rest : List Char) :
    readQuoted? (cs.flatMap escape ++ '"' :: rest) = some (cs.map .scalar, rest) := by
  induction cs with
  | nil => exact readQuoted?_close rest
  | cons c cs ih =>
    rw [List.flatMap_cons, List.append_assoc, readQuoted?_escape, ih]
    rfl

namespace Symbol

theorem first?_quoted (s : String) (rest : List Char) :
    first? '"' (s.toList.flatMap escape ++ '"' :: rest) = some (string (some s), rest) := by
  change (readQuoted? _).map _ = _
  rw [readQuoted?_flatMap_escape, Option.map_some, joinUnits?_scalar, Option.map_some,
    String.ofList_toList]

theorem isDigit_of_mem_toDigits {n : Nat} : ∀ c ∈ Nat.toDigits 10 n, c.isDigit = true :=
  fun _ hc => Nat.isDigit_of_mem_toDigits (by decide) (by decide) hc

/-- Only zero is written with a leading zero. -/
theorem head_toDigits {n : Nat} (h : 0 < n) : (Nat.toDigits 10 n).head? ≠ some '0' := by
  induction n using Nat.strongRecOn with
  | ind n ih =>
    rw [Nat.toDigits_eq_if (by decide)]
    split
    · rename_i small
      have single : ∀ d < 10, 0 < d → [Nat.digitChar d].head? ≠ some '0' := by decide
      exact single n small h
    · have lead := ih (n / 10) (by omega) (by omega)
      obtain ⟨c, cs, hcs⟩ :=
        List.exists_cons_of_ne_nil (Nat.toDigits_ne_nil (n := n / 10) (b := 10))
      rw [hcs] at lead ⊢
      exact lead

theorem isWhole_toDigits (n : Nat) : isWhole (Nat.toDigits 10 n) = true := by
  rcases Nat.eq_zero_or_pos n with rfl | hn
  · rfl
  · have digits : (Nat.toDigits 10 n != []) = true := bne_iff_ne.2 Nat.toDigits_ne_nil
    have lead : ((Nat.toDigits 10 n).head? != some '0') = true := bne_iff_ne.2 (head_toDigits hn)
    rw [isWhole, digits, lead, Bool.or_true, Bool.true_and]

theorem natOfDigits_toDigits (n : Nat) : natOfDigits (Nat.toDigits 10 n) = n := by
  have fold : natOfDigits (Nat.toDigits 10 n) = Nat.ofDigitChars 10 (Nat.toDigits 10 n) 0 :=
    Nat.ofDigitChars_eq_foldl.symm
  rw [fold, Nat.ofDigitChars_ten_toDigits]

theorem ofNumber?_toDigits (n : Nat) : ofNumber? (Nat.toDigits 10 n) = some (nat n) := by
  have unsigned : (Nat.toDigits 10 n).head? ≠ some '-' := by
    intro h
    exact absurd (isDigit_of_mem_toDigits '-' (List.mem_of_head? h)) (by decide)
  have nothing : ∀ c ∈ ([] : List Char).head?, c.isDigit = false := by simp
  have whole : (Nat.toDigits 10 n).takeWhile Char.isDigit = Nat.toDigits 10 n := by
    simpa using takeWhile_append_of_head isDigit_of_mem_toDigits nothing
  have scale : (Nat.toDigits 10 n).dropWhile Char.isDigit = [] := by
    simpa using dropWhile_append_of_head isDigit_of_mem_toDigits nothing
  simp only [ofNumber?, if_neg unsigned, whole, scale, isWhole_toDigits, natOfDigits_toDigits]
  rfl

theorem isNumberPart_of_isDigit {c : Char} (h : c.isDigit = true) : isNumberPart c = true := by
  simp [isNumberPart, h]

theorem first?_digit {c : Char} (h : c.isDigit = true) (cs : List Char) :
    first? c cs =
      (ofNumber? (c :: cs.takeWhile isNumberPart)).map fun s => (s, cs.dropWhile isNumberPart) := by
  have ne {d : Char} (hd : d.isDigit = false) : c ≠ d := by
    rintro rfl
    rw [h] at hd
    cases hd
  have letter : c.isAlpha = false := by
    have word := isWordStart_of_isDigit h
    rw [isWordStart, Bool.or_eq_false_iff] at word
    exact word.1
  simp [first?, ne, letter, h]

end Symbol

end LoxLexer.Json
