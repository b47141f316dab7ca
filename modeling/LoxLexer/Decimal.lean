/-!
# Decimal texts

A text is split at its first point into a whole part and, when there is a point, a fraction. Its
canonical form always has a fraction, without trailing zeros but with at least one digit. Nothing
here asks for digits: any text can be split and made canonical.
-/
namespace LoxLexer

structure Decimal where
  whole : List Char
  fraction : Option (List Char)
deriving DecidableEq, Repr

def trimZeros (cs : List Char) : List Char :=
  (cs.reverse.dropWhile (· == '0')).reverse

namespace Decimal

def text (d : Decimal) : List Char :=
  match d.fraction with
  | none => d.whole
  | some digits => d.whole ++ '.' :: digits

def ofText (cs : List Char) : Decimal where
  whole := cs.takeWhile (· != '.')
  fraction :=
    match cs.dropWhile (· != '.') with
    | [] => none
    | _ :: digits => some digits

/-- The same whole part, with a fraction that is `0` or does not end in a zero. -/
def normalize (d : Decimal) : Decimal where
  whole := d.whole
  fraction :=
    match trimZeros (d.fraction.getD []) with
    | [] => some ['0']
    | digits => some digits

def canonical (cs : List Char) : List Char :=
  (ofText cs).normalize.text

theorem text_ofText (cs : List Char) : (ofText cs).text = cs := by
  have split := List.takeWhile_append_dropWhile (p := (· != '.')) (l := cs)
  cases h : cs.dropWhile (· != '.') with
  | nil =>
    rw [h, List.append_nil] at split
    simp only [ofText, text, h, split]
  | cons c digits =>
    have hc := List.head?_dropWhile_not (· != '.') cs
    simp only [h, List.head?_cons, bne_eq_false_iff_eq] at hc
    rw [h, hc] at split
    simp only [ofText, text, h, split]

theorem ofText_text {d : Decimal} (h : '.' ∉ d.whole) : ofText d.text = d := by
  have hw : ∀ c ∈ d.whole, (c != '.') = true := fun c hc => by
    simpa using fun he : c = '.' => h (he ▸ hc)
  obtain ⟨whole, _ | digits⟩ := d
  · have ht : (whole ++ []).takeWhile (· != '.') = whole ++ [] := List.takeWhile_append_of_pos hw
    have hd : (whole ++ []).dropWhile (· != '.') = [] := List.dropWhile_append_of_pos hw
    rw [List.append_nil] at ht hd
    simp only [text, ofText, ht, hd]
  · simp only [text, ofText, List.takeWhile_append_of_pos hw, List.dropWhile_append_of_pos hw]
    simp

end Decimal

end LoxLexer
