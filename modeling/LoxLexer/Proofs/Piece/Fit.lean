import LoxLexer.Proofs.Lexeme.Pattern

/-!
# Pieces that fit together

Pieces fit when each is valid and stops at the text after it. Pieces that fit are what their text is
cut into, and no others are: reading a piece is settled by where it stops, so a text has one cut.
What may follow is asked piece by piece, and a piece that stops may still be read on with other
text after it.
-/
namespace LoxLexer

theorem forall_bne_of_not_mem {a : Char} {xs : List Char} (h : a ∉ xs) :
    ∀ c ∈ xs, (c != a) = true := by
  intro c hc
  simpa using fun he : c = a => h (he ▸ hc)

theorem toNat_of_isBlank {c : Char} (h : isBlank c = true) : c.toNat ≤ 32 ∨ 133 ≤ c.toNat := by
  have table : ∀ r ∈ blankRanges, r.2 ≤ 32 ∨ 133 ≤ r.1 := by decide
  obtain ⟨r, hr, hc⟩ := List.any_eq_true.1 h
  have := table r hr
  simp only [Bool.and_eq_true, decide_eq_true_eq] at hc
  omega

theorem toNat_of_isWordPart {c : Char} (h : isWordPart c = true) :
    48 ≤ c.toNat ∧ c.toNat ≤ 122 := by
  rw [isWordPart_eq, Bool.or_eq_true, Char.isDigit_iff_toNat] at h
  rcases h with hdigit | hw
  · change 48 ≤ c.toNat ∧ c.toNat ≤ 57 at hdigit
    omega
  · rcases toNat_of_isWordStart hw with hupper | hlower | rfl
    · omega
    · omega
    · decide

theorem isBlank_of_isWordPart {c : Char} (h : isWordPart c = true) : isBlank c = false := by
  rw [Bool.eq_false_iff]
  intro hb
  have := toNat_of_isBlank hb
  have := toNat_of_isWordPart h
  omega

theorem isBlank_of_isDigit {c : Char} (h : c.isDigit = true) : isBlank c = false :=
  isBlank_of_isWordPart (isWordPart_of_isDigit h)

/-- A punctuator is one character, or an operator with an equals sign after it. -/
theorem Punctuator.text_cases (p : Punctuator) :
    (∃ c, p.text = [c] ∧ ofChar? c = some p) ∨
      ∃ c q, p.text = [c, '='] ∧ ofChar? c = some q ∧ q.withEqual? = some p := by
  cases p <;> first | exact .inl ⟨_, rfl, rfl⟩ | exact .inr ⟨_, _, rfl, rfl, rfl⟩

namespace Piece

variable {c : Char} {cs rest : List Char}

theorem first_blank (h : isBlank c = true) : first c cs = (blank c, cs) := by
  rw [first, if_pos h]

theorem first_digit (h : c.isDigit = true) :
    first c cs = (lexeme (.number (firstNumber (c :: cs)).1), (firstNumber (c :: cs)).2) := by
  rw [first, if_neg (by simp [isBlank_of_isDigit h]), if_pos h]

theorem first_letter (h : isWordStart c = true) :
    first c cs =
      (lexeme (.word ((c :: cs).takeWhile isWordPart)), (c :: cs).dropWhile isWordPart) := by
  have hblank := isBlank_of_isWordPart (isWordPart_of_isWordStart h)
  have hdigit : ¬ c.isDigit = true := fun hd => by simp [isWordStart_of_isDigit hd] at h
  rw [first, if_neg (by simp [hblank]), if_neg hdigit, if_pos h]

theorem first_quote : first '"' cs = firstString cs := by
  rw [first, if_neg (by decide), if_neg (by decide), if_neg (by decide), if_pos rfl]

theorem first_slashes : first '/' ('/' :: cs) =
    (comment (cs.takeWhile (· != '\n')), cs.dropWhile (· != '\n')) := by
  rw [first, if_neg (by decide), if_neg (by decide), if_neg (by decide), if_neg (by decide),
    if_pos ⟨rfl, rfl⟩]
  rfl

theorem first_operator {p : Punctuator} (h : Punctuator.ofChar? c = some p)
    (slash : c = '/' → cs.head? ≠ some '/') :
    first c cs = (lexeme (.punctuator (firstPunctuator p cs).1), (firstPunctuator p cs).2) := by
  have other : isBlank c = false ∧ c.isDigit = false ∧ isWordStart c = false ∧ c ≠ '"' := by
    have hc := Punctuator.text_of_ofChar? h
    cases p <;> cases hc <;> decide
  obtain ⟨hblank, hdigit, hstart, hquote⟩ := other
  rw [first, if_neg (by simp [hblank]), if_neg (by simp [hdigit]), if_neg (by simp [hstart]),
    if_neg hquote, if_neg fun hs => slash hs.1 hs.2, h]

theorem first_unexpected (h : (unexpected c).Valid) : first c cs = (unexpected c, cs) := by
  obtain ⟨hblank, hdigit, hstart, hquote, hnone⟩ := h
  have hslash : c ≠ '/' := by
    rintro rfl
    cases hnone
  rw [first, if_neg (by simp [hblank]), if_neg (by simp [hdigit]), if_neg (by simp [hstart]),
    if_neg hquote, if_neg fun hs => hslash hs.1, hnone]

theorem firstNumber_append {d : Decimal} (valid : (Lexeme.number d).Valid)
    (stops : (Lexeme.number d).Stops rest) : firstNumber (d.text ++ rest) = (d, rest) := by
  obtain ⟨whole, fraction⟩ := d
  obtain ⟨hwhole, hfraction⟩ := valid
  obtain ⟨hrest, hpoint⟩ := stops
  cases fraction with
  | none =>
    change firstNumber (whole ++ rest) = _
    rw [firstNumber, takeWhile_append_of_head hwhole.2 hrest,
      dropWhile_append_of_head hwhole.2 hrest]
    split
    · rename_i c cs
      rw [if_neg (by simp [hpoint rfl c cs rfl])]
    · rfl
  | some digits =>
    obtain ⟨hne, hdigits⟩ := hfraction digits rfl
    obtain ⟨c, cs, rfl⟩ := List.exists_cons_of_ne_nil hne
    have point : ∀ d ∈ ('.' :: (c :: cs ++ rest)).head?, d.isDigit = false := by
      intro d hd
      cases hd
      decide
    have htext : (Decimal.mk whole (some (c :: cs))).text ++ rest =
        whole ++ '.' :: (c :: cs ++ rest) := by simp [Decimal.text]
    rw [htext, firstNumber, takeWhile_append_of_head hwhole.2 point,
      dropWhile_append_of_head hwhole.2 point]
    change (if c.isDigit = true then (Decimal.mk whole (some ((c :: cs ++ rest).takeWhile _)),
      (c :: cs ++ rest).dropWhile _) else _) = _
    rw [if_pos (hdigits c List.mem_cons_self), takeWhile_append_of_head hdigits hrest,
      dropWhile_append_of_head hdigits hrest]

theorem firstPunctuator_append {p : Punctuator} (stops : (Lexeme.punctuator p).Stops rest) :
    firstPunctuator p rest = (p, rest) := by
  unfold firstPunctuator
  split
  · rename_i q rest hq
    exact absurd rfl (stops.1 (by rw [hq]; rfl))
  · rfl

end Piece

variable {c : Char} {cs rest : List Char} {p : Piece}

theorem cut_of_first (h : Piece.first c cs = (p, rest)) : cut (c :: cs) = p :: cut rest := by
  rw [cut_cons, h]

theorem Lexeme.cut_punctuator {p : Punctuator} (stops : (punctuator p).Stops rest) :
    cut (p.text ++ rest) = .lexeme (punctuator p) :: cut rest := by
  rcases p.text_cases with ⟨d, htext, hd⟩ | ⟨d, q, htext, hd, hq⟩
  · rw [htext]
    apply cut_of_first
    have slash : d = '/' → rest.head? ≠ some '/' := by
      rintro rfl
      cases hd
      exact stops.2 rfl
    change Piece.first d rest = _
    rw [Piece.first_operator hd slash, Piece.firstPunctuator_append stops]
  · rw [htext]
    apply cut_of_first
    have read : Piece.firstPunctuator q ('=' :: rest) = (p, rest) := by
      simp [Piece.firstPunctuator, hq]
    change Piece.first d ('=' :: rest) = _
    rw [Piece.first_operator hd fun _ => by simp, read]

theorem Lexeme.cut_number {d : Decimal} (valid : (number d).Valid) (stops : (number d).Stops rest) :
    cut (d.text ++ rest) = .lexeme (number d) :: cut rest := by
  obtain ⟨c, cs, htext, hc⟩ : ∃ c cs, d.text = c :: cs ∧ c.isDigit = true := by
    obtain ⟨whole, fraction⟩ := d
    obtain ⟨c, cs, rfl⟩ := List.exists_cons_of_ne_nil valid.1.1
    have hc := valid.1.2 c List.mem_cons_self
    cases fraction with
    | none => exact ⟨c, cs, rfl, hc⟩
    | some digits => exact ⟨c, cs ++ '.' :: digits, rfl, hc⟩
  have read := Piece.firstNumber_append valid stops
  rw [htext] at read ⊢
  apply cut_of_first
  change Piece.first c (cs ++ rest) = _
  rw [Piece.first_digit hc]
  change Piece.firstNumber (c :: (cs ++ rest)) = _ at read
  rw [read]

theorem Lexeme.cut_string {body : List Char} (valid : (string body).Valid) :
    cut ('"' :: body ++ ['"'] ++ rest) = .lexeme (string body) :: cut rest := by
  have inside := forall_bne_of_not_mem valid
  have quote : ∀ d ∈ ('"' :: rest).head?, (d != '"') = false := by
    intro d hd
    cases hd
    rfl
  have whole : '"' :: body ++ ['"'] ++ rest = '"' :: (body ++ '"' :: rest) := by simp
  rw [whole]
  apply cut_of_first
  rw [Piece.first_quote, Piece.firstString, takeWhile_append_of_head inside quote,
    dropWhile_append_of_head inside quote]

theorem Lexeme.cut_word {letters : List Char} (valid : (word letters).Valid)
    (stops : (word letters).Stops rest) :
    cut (letters ++ rest) = .lexeme (word letters) :: cut rest := by
  cases letters with
  | nil => exact valid.elim
  | cons c letters =>
    have inside : ∀ d ∈ c :: letters, isWordPart d = true := isWordPart_of_isWord valid
    apply cut_of_first
    rw [Piece.first_letter valid.1]
    change (Piece.lexeme (word ((c :: letters ++ rest).takeWhile _)),
      (c :: letters ++ rest).dropWhile _) = _
    rw [takeWhile_append_of_head inside stops, dropWhile_append_of_head inside stops]

theorem Lexeme.cut_text_append {l : Lexeme} (valid : l.Valid) (stops : l.Stops rest) :
    cut (l.text ++ rest) = .lexeme l :: cut rest := by
  cases l with
  | punctuator p => exact cut_punctuator stops
  | number d => exact cut_number valid stops
  | string body => exact cut_string valid
  | word letters => exact cut_word valid stops

/-- A valid piece that stops at `rest` is cut from the front of it, whatever `rest` is. -/
theorem Piece.cut_text_append (valid : p.Valid) (stops : p.Stops rest) :
    cut (p.text ++ rest) = p :: cut rest := by
  cases p with
  | lexeme l => exact Lexeme.cut_text_append valid stops
  | blank c =>
    apply cut_of_first
    exact first_blank valid
  | comment body =>
    have inside := forall_bne_of_not_mem valid
    have ends : ∀ c ∈ rest.head?, (c != '\n') = false := fun c hc => by simpa using stops c hc
    apply cut_of_first
    change first '/' ('/' :: (body ++ rest)) = _
    rw [first_slashes, takeWhile_append_of_head inside ends, dropWhile_append_of_head inside ends]
  | unexpected c => exact cut_of_first (first_unexpected valid)
  | openString body =>
    obtain rfl : rest = [] := stops
    have inside := forall_bne_of_not_mem valid
    have whole : body.dropWhile (· != '"') = [] := by
      rw [← List.append_nil body, List.dropWhile_append_of_pos inside]
      rfl
    rw [List.append_nil]
    apply cut_of_first
    rw [first_quote, firstString, whole]

/-- No character of a word, no equals sign and no point goes on with a lexeme, and a slash only
with a slash. -/
theorem Lexeme.stops_of_head {l : Lexeme}
    (h : ∀ c ∈ rest.head?, isWordPart c = false ∧ c ≠ '=' ∧ c ≠ '.')
    (slash : l = .punctuator .slash → rest.head? ≠ some '/') : l.Stops rest := by
  cases l with
  | punctuator p => exact ⟨fun _ he => (h _ he).2.1 rfl, fun hp => slash (congrArg _ hp)⟩
  | number d =>
    refine ⟨?_, ?_⟩
    · intro c hc
      rw [Bool.eq_false_iff]
      intro hd
      have part := isWordPart_of_isDigit hd
      rw [(h c hc).1] at part
      cases part
    · rintro _ c cs rfl
      exact absurd rfl (h '.' rfl).2.2
  | string body => trivial
  | word letters => exact fun c hc => (h c hc).1

/-- A lexeme ends before a blank and at the end of the text. -/
theorem Lexeme.stops_of_blank {l : Lexeme} (h : ∀ c ∈ rest.head?, isBlank c = true) :
    l.Stops rest := by
  apply stops_of_head
  · intro c hc
    have blank := h c hc
    refine ⟨?_, ?_, ?_⟩
    · rw [Bool.eq_false_iff]
      intro hw
      rw [isBlank_of_isWordPart hw] at blank
      cases blank
    · rintro rfl
      cases blank
    · rintro rfl
      cases blank
  · rintro _ he
    cases h '/' he

/-- All but an open string ends before a line feed. -/
theorem Piece.stops_newline (closed : ∀ body, p ≠ .openString body) : p.Stops ('\n' :: rest) := by
  have newline : ∀ c ∈ ('\n' :: rest).head?, c = '\n' := by
    rintro _ ⟨⟩
    rfl
  cases p with
  | blank c => trivial
  | comment body => exact newline
  | unexpected c => trivial
  | openString body => exact absurd rfl (closed body)
  | lexeme l =>
    apply Lexeme.stops_of_blank
    rintro _ ⟨⟩
    exact isBlank_newline

/-- A piece stops as before when the text after it goes on, unless that text was empty, or was the
point that a digit would make part of a number. -/
theorem Piece.Stops.append (h : p.Stops cs) (hne : cs ≠ [])
    (point : ∀ d, p = .lexeme (.number d) → d.fraction = none → cs ≠ ['.']) :
    p.Stops (cs ++ rest) := by
  obtain ⟨c, cs, rfl⟩ := List.exists_cons_of_ne_nil hne
  cases p with
  | blank d => trivial
  | comment body => exact h
  | unexpected d => trivial
  | openString body => cases h
  | lexeme l =>
    cases l with
    | punctuator q => exact h
    | string body => trivial
    | word letters => exact h
    | number d =>
      refine ⟨h.1, ?_⟩
      intro hnone e es he
      cases cs with
      | nil =>
        obtain ⟨rfl, _⟩ := List.cons.inj he
        exact absurd rfl (point d rfl hnone)
      | cons f cs =>
        cases he
        exact h.2 hnone e cs rfl

instance (cs : List Char) : Decidable (IsDigits cs) :=
  decidable_of_iff (cs ≠ [] ∧ cs.all Char.isDigit = true) (by simp [IsDigits])

instance : (cs : List Char) → Decidable (IsWord cs)
  | [] => .isFalse id
  | c :: cs =>
    decidable_of_iff (isWordStart c = true ∧ cs.all isWordPart = true) (by simp [IsWord])

instance : (l : Lexeme) → Decidable l.Valid
  | .punctuator _ => .isTrue trivial
  | .number ⟨whole, none⟩ => decidable_of_iff (IsDigits whole) (by simp [Lexeme.Valid])
  | .number ⟨whole, some digits⟩ =>
    decidable_of_iff (IsDigits whole ∧ IsDigits digits) (by simp [Lexeme.Valid])
  | .string body => inferInstanceAs (Decidable ('"' ∉ body))
  | .word letters => inferInstanceAs (Decidable (IsWord letters))

instance decidableHead (p : Char → Bool) :
    (rest : List Char) → Decidable (∀ c ∈ rest.head?, p c = false)
  | [] => .isTrue (by simp)
  | c :: _ => decidable_of_iff (p c = false) (by simp)

instance decidablePoint : (rest : List Char) →
    Decidable (∀ c cs, rest = '.' :: c :: cs → c.isDigit = false)
  | [] => .isTrue (by simp)
  | [_] => .isTrue (by simp)
  | d :: c :: cs => decidable_of_iff (d = '.' → c.isDigit = false) (by simp)

instance (rest : List Char) : (l : Lexeme) → Decidable (l.Stops rest)
  | .punctuator _ => inferInstanceAs (Decidable ((_ → _) ∧ (_ → _)))
  | .number d => inferInstanceAs (Decidable
      ((∀ c ∈ rest.head?, c.isDigit = false) ∧
        (d.fraction = none → ∀ c cs, rest = '.' :: c :: cs → c.isDigit = false)))
  | .string _ => .isTrue trivial
  | .word _ => decidableHead isWordPart rest

instance : (p : Piece) → Decidable p.Valid
  | .blank _ => inferInstanceAs (Decidable (_ = _))
  | .comment body => inferInstanceAs (Decidable ('\n' ∉ body))
  | .lexeme l => inferInstanceAs (Decidable l.Valid)
  | .unexpected _ => inferInstanceAs (Decidable (_ ∧ _))
  | .openString body => inferInstanceAs (Decidable ('"' ∉ body))

instance (rest : List Char) : (p : Piece) → Decidable (p.Stops rest)
  | .blank _ => .isTrue trivial
  | .comment _ => decidable_of_iff (∀ c ∈ rest.head?, (c != '\n') = false) (by simp [Piece.Stops])
  | .lexeme l => inferInstanceAs (Decidable (l.Stops rest))
  | .unexpected _ => .isTrue trivial
  | .openString _ => inferInstanceAs (Decidable (rest = []))

/-- The pieces are valid, and each stops at the pieces after it with `rest` at their end. -/
def Fit (rest : List Char) : List Piece → Prop
  | [] => True
  | p :: ps => p.Valid ∧ p.Stops (ps.flatMap Piece.text ++ rest) ∧ Fit rest ps

instance decidableFit (rest : List Char) : (ps : List Piece) → Decidable (Fit rest ps)
  | [] => .isTrue trivial
  | p :: ps =>
    have := decidableFit rest ps
    inferInstanceAs (Decidable
      (p.Valid ∧ p.Stops (ps.flatMap Piece.text ++ rest) ∧ Fit rest ps))

/-- Pieces that fit are cut from the front of `rest`. -/
theorem Fit.cut_append {ps : List Piece} (h : Fit rest ps) :
    cut (ps.flatMap Piece.text ++ rest) = ps ++ cut rest := by
  induction ps with
  | nil => rfl
  | cons p ps ih =>
    obtain ⟨valid, stops, h⟩ := h
    rw [List.flatMap_cons, List.append_assoc, Piece.cut_text_append valid stops, ih h]
    rfl

/-- Pieces fit with another text after them when each of them stops as before. -/
theorem Fit.imp {rest' : List Char} {ps : List Piece} (h : Fit rest ps)
    (stops : ∀ before q after, ps = before ++ q :: after →
      q.Stops (after.flatMap Piece.text ++ rest) → q.Stops (after.flatMap Piece.text ++ rest')) :
    Fit rest' ps := by
  induction ps with
  | nil => trivial
  | cons p ps ih =>
    refine ⟨h.1, stops [] p ps rfl h.2.1, ih h.2.2 ?_⟩
    rintro before q after rfl
    exact stops (p :: before) q after rfl

theorem fit_append {ps qs : List Piece} :
    Fit rest (ps ++ qs) ↔ Fit (qs.flatMap Piece.text ++ rest) ps ∧ Fit rest qs := by
  induction ps with
  | nil => simp [Fit]
  | cons p ps ih => simp [Fit, ih, and_assoc]

theorem fit_cut (cs : List Char) : Fit [] (cut cs) := by
  induction cs using cut_induction with
  | nil => simp [Fit]
  | cons c cs ih =>
    rw [cut_cons]
    refine ⟨Piece.first_valid c cs, ?_, ih⟩
    rw [cut_text, List.append_nil]
    exact Piece.first_stops c cs

/-- The pieces that a text is cut into are the only ones that fit and make that text. -/
theorem cut_eq_iff {ps : List Piece} : cut cs = ps ↔ Fit [] ps ∧ ps.flatMap Piece.text = cs := by
  constructor
  · rintro rfl
    exact ⟨fit_cut cs, cut_text cs⟩
  · rintro ⟨fit, rfl⟩
    have whole := fit.cut_append
    rwa [List.append_nil, cut_nil, List.append_nil] at whole

end LoxLexer
