import LoxLexer.Proofs.Lexeme.Head
import LoxLexer.Proofs.Lexing.Reading

/-!
# Tokens side by side

Printed with nothing between them, tokens are read back exactly when no two neighbours clash and no
number, point and number stand in a row where the first number has no fraction. Two words, two
numbers, an operator before an equals sign and two slashes clash; all other kinds may touch.
-/
namespace LoxLexer

/-- Kinds of which the second may not directly follow the first. -/
inductive Kind.Clash : Kind → Kind → Prop
  | word {a b : Kind} : a.IsWord → b.IsWord ∨ b = .number → Clash a b
  | number : Clash .number .number
  | operator {p q : Punctuator} : p ∈ [.equal, .bang, .less, .greater] →
      q ∈ [.equal, .equalEqual] → Clash (.punctuator p) (.punctuator q)
  | slash : Clash (.punctuator .slash) (.punctuator .slash)

namespace Kind

variable {k : Kind}

theorem clash_punctuator_iff {p : Punctuator} : Clash (punctuator p) k ↔
    (p ∈ [.equal, .bang, .less, .greater] ∧ ∃ q ∈ [Punctuator.equal, .equalEqual],
      k = punctuator q) ∨ p = .slash ∧ k = punctuator .slash := by
  constructor
  · rintro (⟨h, _⟩ | _ | ⟨hp, hq⟩ | _)
    · simp [IsWord, isKeyword] at h
    · exact .inl ⟨hp, _, hq, rfl⟩
    · exact .inr ⟨rfl, rfl⟩
  · rintro (⟨hp, q, hq, rfl⟩ | ⟨rfl, rfl⟩)
    · exact .operator hp hq
    · exact .slash

theorem clash_number_iff : Clash number k ↔ k = number := by
  constructor
  · rintro (⟨h, _⟩ | _)
    · simp [IsWord, isKeyword] at h
    · rfl
  · rintro rfl
    exact .number

theorem clash_word_iff {w : Kind} (hw : w.IsWord) : Clash w k ↔ k.IsWord ∨ k = number := by
  constructor
  · rintro (⟨_, h⟩ | _ | _ | _)
    · exact h
    all_goals simp [IsWord, isKeyword] at hw
  · exact .word hw

theorem not_clash_string : ¬ Clash string k := by
  rintro ⟨h, _⟩
  simp [IsWord, isKeyword] at h

end Kind

/-- A number without a point, a point and a number, that are one number side by side. -/
structure Meaning.Fraction (a b c : Meaning) : Prop where
  whole : a.kind = .number ∧ '.' ∉ a.lexeme.toList
  point : b.kind = .punctuator .dot
  digits : c.kind = .number

/-- No neighbours clash, and no three in a row are one number. -/
structure Separable (ms : List Meaning) : Prop where
  pairs : ∀ a b, [a, b] <:+: ms → ¬ a.kind.Clash b.kind
  triples : ∀ a b c, [a, b, c] <:+: ms → ¬ a.Fraction b c

theorem separable_cons {m : Meaning} {ms : List Meaning} :
    Separable (m :: ms) ↔ ((∀ b, [b] <+: ms → ¬ m.kind.Clash b.kind) ∧
      ∀ b c, [b, c] <+: ms → ¬ m.Fraction b c) ∧ Separable ms := by
  constructor
  · rintro ⟨pairs, triples⟩
    refine ⟨⟨?_, ?_⟩, ?_, ?_⟩
    · intro b h
      exact pairs m b (List.cons_prefix_cons.2 ⟨rfl, h⟩).isInfix
    · intro b c h
      exact triples m b c (List.cons_prefix_cons.2 ⟨rfl, h⟩).isInfix
    · intro a b h
      exact pairs a b (List.infix_cons h)
    · intro a b c h
      exact triples a b c (List.infix_cons h)
  · rintro ⟨⟨pair, triple⟩, pairs, triples⟩
    refine ⟨?_, ?_⟩
    · intro a b h
      rcases List.infix_cons_iff.1 h with h | h
      · obtain ⟨rfl, next⟩ := List.cons_prefix_cons.1 h
        exact pair b next
      · exact pairs a b h
    · intro a b c h
      rcases List.infix_cons_iff.1 h with h | h
      · obtain ⟨rfl, next⟩ := List.cons_prefix_cons.1 h
        exact triple b c next
      · exact triples a b c h

theorem Punctuator.withEqual?_isSome_iff {p : Punctuator} :
    p.withEqual?.isSome = true ↔ p ∈ [equal, bang, less, greater] := by
  cases p <;> decide

namespace Lexeme

/-- A lexeme but a number stops at the next one exactly when the two do not clash. -/
theorem stops_iff_not_clash {l next : Lexeme} {rest : List Char} (valid : next.Valid)
    (hl : l.kind ≠ .number) : l.Stops (next.text ++ rest) ↔ ¬ l.kind.Clash next.kind := by
  cases l with
  | number d => exact absurd rfl hl
  | string body => exact iff_of_true trivial Kind.not_clash_string
  | word letters =>
    rw [Kind.clash_word_iff (kind_isWord_iff.2 rfl), Stops,
      forall_head_false_iff valid fun _ => head_isWordPart_iff valid]
  | punctuator p =>
    rw [Stops, kind, Kind.clash_punctuator_iff, head?_text_append valid, Ne, Ne,
      head_eq_equal_iff valid, head_eq_slash_iff valid, Punctuator.withEqual?_isSome_iff, not_or,
      not_and, not_and]

/-- A number without a fraction is read on exactly over a point and another number. -/
theorem point_digit_iff {next : Lexeme} {ls : List Lexeme} (valid : next.Valid)
    (valids : ∀ l ∈ ls, l.Valid) :
    (∀ c cs, next.text ++ ls.flatMap text = '.' :: c :: cs → c.isDigit = false) ↔
      ∀ third ∈ ls.head?, next.kind = .punctuator .dot → third.kind ≠ .number := by
  constructor
  · intro h third hthird hdot hnumber
    obtain rfl := kind_eq_punctuator_iff.1 hdot
    obtain ⟨ls, rfl⟩ := List.head?_eq_some_iff.1 hthird
    have valid := valids third List.mem_cons_self
    obtain ⟨c, cs, htext⟩ := List.exists_cons_of_ne_nil (text_ne_nil valid)
    have hdigit : c.isDigit = true :=
      (head_isDigit_iff valid (by rw [htext]; rfl)).2 hnumber
    have hnot := h c (cs ++ ls.flatMap text) (by rw [List.flatMap_cons, htext]; rfl)
    rw [hdigit] at hnot
    cases hnot
  · intro h c cs htext
    have head := congrArg List.head? htext
    rw [head?_text_append valid] at head
    obtain rfl := eq_dot_of_head valid head
    have tail : ls.flatMap text = c :: cs := (List.cons.inj htext).2
    cases ls with
    | nil => cases tail
    | cons third ls =>
      have valid := valids third List.mem_cons_self
      have hc := congrArg List.head? tail
      rw [List.flatMap_cons, head?_text_append valid] at hc
      rw [Bool.eq_false_iff, Ne, head_isDigit_iff valid hc]
      exact h third rfl rfl

/-- A number stops at the next lexeme exactly when the two do not clash, and when it makes no
number with the next two. -/
theorem stops_number_iff {d : Decimal} {next : Lexeme} {ls : List Lexeme}
    (valid : (number d).Valid) (validNext : next.Valid) (valids : ∀ l ∈ ls, l.Valid) :
    (number d).Stops (next.text ++ ls.flatMap text) ↔ ¬ Kind.Clash .number next.kind ∧
      ∀ third ∈ ls.head?, ¬ (number d).meaning.Fraction next.meaning third.meaning := by
  rw [Stops, forall_head_false_iff validNext fun _ => head_isDigit_iff validNext,
    point_digit_iff validNext valids, Kind.clash_number_iff, ← point_not_mem_text_iff valid]
  have hlexeme : (number d).meaning.lexeme.toList = d.text := toList_meaning _
  apply and_congr_right
  intro _
  constructor
  · intro h third hthird hf
    have hpoint := hf.whole.2
    rw [hlexeme] at hpoint
    exact h hpoint third hthird hf.point hf.digits
  · intro h hpoint third hthird hdot hnumber
    exact h third hthird ⟨⟨rfl, by rwa [hlexeme]⟩, hdot, hnumber⟩

theorem singleton_prefix_iff {b : Meaning} {next : Lexeme} {ls : List Lexeme} :
    [b] <+: (next :: ls).map meaning ↔ b = next.meaning := by
  simp [List.cons_prefix_cons]

theorem pair_prefix_iff {b c : Meaning} {next : Lexeme} {ls : List Lexeme} :
    [b, c] <+: (next :: ls).map meaning ↔
      b = next.meaning ∧ ∃ third ∈ ls.head?, c = third.meaning := by
  cases ls <;> simp [List.cons_prefix_cons]

/-- What may directly follow a lexeme, said of the meanings alone. -/
theorem stops_iff {l : Lexeme} {ls : List Lexeme} (valid : l.Valid) (valids : ∀ l ∈ ls, l.Valid) :
    l.Stops (ls.flatMap text) ↔ (∀ b, [b] <+: ls.map meaning → ¬ l.meaning.kind.Clash b.kind) ∧
      ∀ b c, [b, c] <+: ls.map meaning → ¬ l.meaning.Fraction b c := by
  cases ls with
  | nil => exact iff_of_true (stops_of_blank (by simp)) (by simp)
  | cons next ls =>
    obtain ⟨validNext, valids⟩ := List.forall_mem_cons.1 valids
    simp only [singleton_prefix_iff, pair_prefix_iff, forall_eq, List.flatMap_cons]
    by_cases hl : l.kind = .number
    · obtain ⟨d, rfl⟩ := exists_number_of_kind hl
      rw [stops_number_iff valid validNext valids]
      apply and_congr_right
      intro _
      constructor
      · rintro h b c ⟨rfl, third, hthird, rfl⟩
        exact h third hthird
      · intro h third hthird
        exact h _ _ ⟨rfl, third, hthird, rfl⟩
    · rw [stops_iff_not_clash validNext hl]
      refine ⟨fun h => ⟨h, ?_⟩, And.left⟩
      intro b c _ hf
      exact hl hf.whole.1

end Lexeme

/-- Valid lexemes fit exactly when their meanings are separable. -/
theorem fit_lexemes_iff {ls : List Lexeme} (valid : ∀ l ∈ ls, l.Valid) :
    Fit [] (ls.map Piece.lexeme) ↔ Separable (ls.map Lexeme.meaning) := by
  induction ls with
  | nil => exact iff_of_true trivial ⟨by simp, by simp⟩
  | cons l ls ih =>
    obtain ⟨hl, hls⟩ := List.forall_mem_cons.1 valid
    have following : (ls.map Piece.lexeme).flatMap Piece.text ++ [] = ls.flatMap Lexeme.text := by
      rw [List.append_nil, List.flatMap_map]
      rfl
    rw [List.map_cons, List.map_cons, separable_cons, ← ih hls, ← Lexeme.stops_iff hl hls, Fit,
      following]
    exact ⟨fun h => h.2, fun h => ⟨hl, h⟩⟩

/-- Tokens that are each read back alone are read back side by side, without an error, exactly when
they are separable. -/
theorem lex_join_reads_iff {ms : List Meaning} (alone : ∀ m ∈ ms, (lex m.lexeme).Reads [m]) :
    (lex (String.join (ms.map Meaning.lexeme))).Reads ms ↔ Separable ms := by
  obtain ⟨ls, valid, rfl⟩ := exists_lexemes fun m hm => reads_alone_iff.1 (alone m hm)
  have htext : (String.join ((ls.map Lexeme.meaning).map Meaning.lexeme)).toList =
      ls.flatMap Lexeme.text := by
    simp [List.flatMap_map]
  rw [lex, htext, reads_iff_fit valid, fit_lexemes_iff valid]

/-- After a number with a fraction, a point and a number are not taken into it. -/
theorem lex_join_reads_second_point :
    let ms : List Meaning := [⟨.number, "1.5", some (.number "1.5")⟩,
      ⟨.punctuator .dot, ".", none⟩, ⟨.number, "6", some (.number "6.0")⟩]
    (∀ m ∈ ms, (lex m.lexeme).Reads [m]) ∧ Separable ms ∧ (lex "1.5.6").Reads ms := by
  let ls : List Lexeme :=
    [.number ⟨['1'], some ['5']⟩, .punctuator .dot, .number ⟨['6'], none⟩]
  have valid : ∀ l ∈ ls, l.Valid := by decide
  have alone : ∀ m ∈ ls.map Lexeme.meaning, (lex m.lexeme).Reads [m] := by
    intro m hm
    obtain ⟨l, hl, rfl⟩ := List.mem_map.1 hm
    exact reads_alone_iff.2 (Lexeme.meaning_valid (valid l hl))
  have separable : Separable (ls.map Lexeme.meaning) :=
    (fit_lexemes_iff valid).1 (by decide)
  exact ⟨alone, separable, (lex_join_reads_iff alone).2 separable⟩

end LoxLexer
