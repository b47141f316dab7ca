import LoxLexer.Proofs.Lexeme.Pattern
import LoxLexer.Proofs.Lexing.Placement

/-!
# The texts that are read without an error

A text is read without an error when some cut of it into blanks, comments and lexemes exists, by
longest match or not. Two such cuts of one text may have no piece in common. They agree only on
what is inside a string, inside a comment and outside both, so the text is followed in three modes:
every piece of every cut begins and ends outside, and the cut by longest match is one of them.
-/
namespace LoxLexer

/-- The pieces of text that may stand in front of `rest`. -/
inductive Admitted (rest : List Char) : List Char → Prop
  | blank {c : Char} (h : isBlank c = true) : Admitted rest [c]
  | comment {text : List Char} (h : Pattern.comment.Matches text)
      (ends : ∀ c ∈ rest.head?, c = '\n') : Admitted rest text
  | lexeme {text : List Char} (p : Pattern) (h : p.Matches text) (token : p ≠ .comment)
      (slash : p = .punctuator .slash → rest.head? ≠ some '/') : Admitted rest text

/-- The texts that can be cut into admitted pieces, in any way at all. -/
inductive Accepted : List Char → Prop
  | nil : Accepted []
  | cons {text rest : List Char} (head : Admitted rest text) (tail : Accepted rest) :
      Accepted (text ++ rest)

/-- What a character stands in. -/
inductive Mode
  | code
  | comment
  | string
deriving DecidableEq, Repr

/-- The characters of the pieces that are neither strings nor comments. -/
def isPlain (c : Char) : Bool :=
  isBlank c || isWordPart c || (Punctuator.ofChar? c).isSome

theorem isPlain_of_isWordPart {c : Char} (h : isWordPart c = true) : isPlain c = true := by
  simp [isPlain, h]

theorem Punctuator.isPlain_of_mem_text {p : Punctuator} {c : Char} (h : c ∈ p.text) :
    isPlain c = true := by
  have plain : p.text.all isPlain = true := by cases p <;> decide
  exact List.all_eq_true.1 plain c h

namespace Mode

/-- The mode after `c`, when `ahead` comes next; none where `c` begins no piece. -/
def next? (c : Char) (ahead : Option Char) : Mode → Option Mode
  | code =>
    if c = '"' then some string
    else if c = '/' ∧ ahead = some '/' then some comment
    else if isPlain c then some code
    else none
  | comment => some (if c = '\n' then code else comment)
  | string => some (if c = '"' then code else string)

/-- Each character can be read, and no string is open at the end. -/
def reads (m : Mode) : List Char → Bool
  | [] => m != string
  | c :: cs =>
    match m.next? c cs.head? with
    | some n => n.reads cs
    | none => false

variable {c : Char} {text rest : List Char}

theorem reads_cons {m n : Mode} (h : m.next? c rest.head? = some n) :
    m.reads (c :: rest) = n.reads rest := by
  rw [reads, h]

/-- A text in which every character keeps the mode can be skipped. -/
theorem reads_append {m : Mode} (h : ∀ c ∈ text, ∀ ahead, m.next? c ahead = some m) :
    m.reads (text ++ rest) = m.reads rest := by
  induction text with
  | nil => rfl
  | cons c text ih =>
    rw [List.cons_append, reads_cons (h c List.mem_cons_self _)]
    exact ih fun d hd => h d (List.mem_cons_of_mem c hd)

theorem next?_code {ahead : Option Char} (hc : isPlain c = true)
    (hs : c = '/' → ahead ≠ some '/') : code.next? c ahead = some code := by
  have hq : c ≠ '"' := by
    rintro rfl
    exact absurd hc (by decide)
  rw [next?, if_neg hq, if_neg fun h => hs h.1 h.2, if_pos hc]

theorem reads_code (h : ∀ c ∈ text, isPlain c = true) (hs : '/' ∉ text) :
    code.reads (text ++ rest) = code.reads rest := by
  apply reads_append
  intro c hc ahead
  apply next?_code (h c hc)
  rintro rfl
  exact absurd hc hs

theorem reads_comment (h : '\n' ∉ text) : comment.reads (text ++ rest) = comment.reads rest := by
  apply reads_append
  intro c hc ahead
  have hne : c ≠ '\n' := fun he => h (he ▸ hc)
  rw [next?, if_neg hne]

theorem reads_string (h : '"' ∉ text) : string.reads (text ++ rest) = string.reads rest := by
  apply reads_append
  intro c hc ahead
  have hne : c ≠ '"' := fun he => h (he ▸ hc)
  rw [next?, if_neg hne]

/-- A comment is left at its end as if it had never been entered. -/
theorem reads_comment_end (h : ∀ c ∈ rest.head?, c = '\n') :
    comment.reads rest = code.reads rest := by
  cases rest with
  | nil => rfl
  | cons c rest =>
    obtain rfl := h c rfl
    rw [reads_cons (m := comment) (n := code) rfl]
    exact (reads_cons (next?_code (by decide) fun h => absurd h (by decide))).symm

end Mode

theorem Pattern.digit_or_point_of_mem {cs : List Char} {c : Char}
    (h : Pattern.number.Matches cs) (hc : c ∈ cs) : c.isDigit = true ∨ c = '.' := by
  rcases h with h | ⟨whole, digits, hw, hd, rfl⟩
  · exact .inl (h.2 c hc)
  · rcases List.mem_append.1 hc with hc | hc
    · exact .inl (hw.2 c hc)
    · rcases List.mem_cons.1 hc with rfl | hc
      · exact .inr rfl
      · exact .inl (hd.2 c hc)

theorem Pattern.plain_of_number {cs : List Char} (h : Pattern.number.Matches cs) :
    (∀ c ∈ cs, isPlain c = true) ∧ '/' ∉ cs := by
  constructor
  · intro c hc
    rcases digit_or_point_of_mem h hc with hc | rfl
    · exact isPlain_of_isWordPart (isWordPart_of_isDigit hc)
    · decide
  · intro hc
    rcases digit_or_point_of_mem h hc with hc | hc <;> exact absurd hc (by decide)

theorem plain_of_isWord {cs : List Char} (h : IsWord cs) :
    (∀ c ∈ cs, isPlain c = true) ∧ '/' ∉ cs := by
  have part := isWordPart_of_isWord h
  constructor
  · intro c hc
    exact isPlain_of_isWordPart (part c hc)
  · intro hc
    exact absurd (part '/' hc) (by decide)

theorem Punctuator.slash_not_mem_text {p : Punctuator} (h : p ≠ slash) : '/' ∉ p.text := by
  cases p <;> first | exact absurd rfl h | decide

namespace Admitted

open Mode

variable {text rest : List Char}

theorem reads_number (h : Pattern.number.Matches text) :
    code.reads (text ++ rest) = code.reads rest := by
  obtain ⟨plain, slash⟩ := Pattern.plain_of_number h
  exact reads_code plain slash

theorem reads_quoted (h : Pattern.string.Matches text) :
    code.reads (text ++ rest) = code.reads rest := by
  obtain ⟨body, hbody, rfl⟩ := h
  calc code.reads ('"' :: (body ++ ['"']) ++ rest)
      = string.reads (body ++ ['"'] ++ rest) := reads_cons rfl
    _ = string.reads (body ++ '"' :: rest) := by rw [List.append_assoc]; rfl
    _ = string.reads ('"' :: rest) := reads_string hbody
    _ = code.reads rest := reads_cons rfl

theorem reads_word (h : Pattern.word.Matches text) :
    code.reads (text ++ rest) = code.reads rest := by
  obtain ⟨plain, slash⟩ := plain_of_isWord h
  exact reads_code plain slash

theorem reads_punctuator {p : Punctuator} (slash : p = .slash → rest.head? ≠ some '/') :
    code.reads (p.text ++ rest) = code.reads rest := by
  by_cases hp : p = .slash
  · subst hp
    exact reads_cons (next?_code (by decide) fun _ => slash rfl)
  · exact reads_code (fun c => Punctuator.isPlain_of_mem_text) (Punctuator.slash_not_mem_text hp)

theorem reads_line_comment (h : Pattern.comment.Matches text)
    (ends : ∀ c ∈ rest.head?, c = '\n') : code.reads (text ++ rest) = code.reads rest := by
  obtain ⟨body, hbody, rfl⟩ := h
  have hslash : '\n' ∉ '/' :: body := by simpa using hbody
  calc code.reads ('/' :: '/' :: body ++ rest)
      = Mode.comment.reads ('/' :: body ++ rest) := reads_cons rfl
    _ = Mode.comment.reads rest := reads_comment hslash
    _ = code.reads rest := reads_comment_end ends

/-- Whatever an admitted piece is, the text is in the same mode after it as before it. -/
theorem reads_append (h : Admitted rest text) : code.reads (text ++ rest) = code.reads rest := by
  cases h with
  | @blank c h =>
    apply reads_cons
    apply next?_code
    · simp [isPlain, h]
    · rintro rfl
      exact absurd h (by decide)
  | comment h ends => exact reads_line_comment h ends
  | lexeme p h token slash =>
    cases p with
    | number => exact reads_number h
    | string => exact reads_quoted h
    | word => exact reads_word h
    | punctuator p =>
      obtain rfl : text = p.text := h
      exact reads_punctuator fun hp => slash (congrArg Pattern.punctuator hp)
    | comment => exact absurd rfl token

end Admitted

theorem Accepted.reads {cs : List Char} (h : Accepted cs) : Mode.code.reads cs = true := by
  induction h with
  | nil => rfl
  | cons head _ ih => rw [head.reads_append, ih]

/-- The pieces that leave no error behind. -/
def Piece.Sound : Piece → Prop
  | unexpected _ => False
  | openString _ => False
  | _ => True

/-- A piece of the cut without an error is admitted in front of the pieces after it. -/
theorem Piece.admitted {p : Piece} {rest : List Char} (sound : p.Sound) (valid : p.Valid)
    (stops : p.Stops rest) : Admitted rest p.text := by
  cases p with
  | blank c => exact .blank valid
  | comment body => exact .comment ⟨body, valid, rfl⟩ stops
  | lexeme l =>
    apply Admitted.lexeme l.pattern (Lexeme.matches_text valid)
    · cases l <;> simp [Lexeme.pattern]
    · intro hp
      cases l with
      | punctuator p => exact stops.2 (Pattern.punctuator.inj hp)
      | number d => cases hp
      | string body => cases hp
      | word letters => cases hp
  | unexpected c => exact sound.elim
  | openString body => exact sound.elim

/-- An unexpected character begins no piece. -/
theorem Piece.next?_unexpected {c : Char} (valid : (unexpected c).Valid) (ahead : Option Char) :
    Mode.code.next? c ahead = none := by
  obtain ⟨hblank, hdigit, hstart, hquote, hnone⟩ := valid
  have hplain : ¬ isPlain c = true := by
    simp_all [isPlain, isWordPart, isWordStart, Char.isAlphanum]
  have hslash : ¬ (c = '/' ∧ ahead = some '/') := by
    rintro ⟨rfl, _⟩
    cases hnone
  rw [Mode.next?, if_neg hquote, if_neg hslash, if_neg hplain]

/-- A text that can be read in modes begins with a piece without an error. -/
theorem Piece.sound_of_reads {p : Piece} {rest : List Char} (valid : p.Valid)
    (stops : p.Stops rest) (h : Mode.code.reads (p.text ++ rest) = true) : p.Sound := by
  cases p with
  | unexpected c =>
    change Mode.code.reads (c :: rest) = true at h
    rw [Mode.reads, next?_unexpected valid] at h
    cases h
  | openString body =>
    obtain rfl : rest = [] := stops
    change Mode.code.reads ('"' :: (body ++ [])) = true at h
    rw [Mode.reads_cons (n := .string) rfl, Mode.reads_string valid] at h
    cases h
  | blank c => trivial
  | comment body => trivial
  | lexeme l => trivial

theorem sound_of_reads {cs : List Char} (h : Mode.code.reads cs = true) :
    ∀ p ∈ cut cs, p.Sound := by
  induction cs using cut_induction with
  | nil => simp
  | cons c cs ih =>
    have valid := Piece.first_valid c cs
    have stops := Piece.first_stops c cs
    rw [← Piece.first_text] at h
    have sound := Piece.sound_of_reads valid stops h
    rw [(Piece.admitted sound valid stops).reads_append] at h
    rw [cut_cons]
    exact List.forall_mem_cons.2 ⟨sound, ih h⟩

theorem accepted_of_sound {cs : List Char} (h : ∀ p ∈ cut cs, p.Sound) : Accepted cs := by
  induction cs using cut_induction with
  | nil => exact .nil
  | cons c cs ih =>
    rw [cut_cons] at h
    obtain ⟨sound, h⟩ := List.forall_mem_cons.1 h
    rw [← Piece.first_text]
    exact .cons (Piece.admitted sound (Piece.first_valid c cs) (Piece.first_stops c cs)) (ih h)

/-- Some cut is admitted exactly when every character can be read in its mode. -/
theorem accepted_iff_reads {cs : List Char} : Accepted cs ↔ Mode.code.reads cs = true := by
  constructor
  · exact Accepted.reads
  · intro h
    exact accepted_of_sound (sound_of_reads h)

instance (cs : List Char) : Decidable (Accepted cs) :=
  decidable_of_iff _ accepted_iff_reads.symm

/-- An error is left exactly where a piece of the cut has one. -/
theorem hadError_eq_false_iff {cs : List Char} :
    (lexChars cs).hadError = false ↔ ∀ p ∈ cut cs, p.Sound := by
  rw [Lexing.hadError, Bool.not_eq_false', List.isEmpty_iff, List.eq_nil_iff_forall_not_mem]
  constructor
  · intro h p hp
    obtain ⟨ps, qs, hcut⟩ := List.append_of_mem hp
    have between : CutBetween cs (ps.flatMap Piece.text) p (qs.flatMap Piece.text) :=
      ⟨ps, qs, hcut, rfl, rfl⟩
    cases p with
    | unexpected c => exact h _ (mem_errors_lexChars.2 (.inl ⟨_, c, _, between, rfl⟩))
    | openString body => exact h _ (mem_errors_lexChars.2 (.inr ⟨_, body, _, between, rfl⟩))
    | blank c => trivial
    | comment body => trivial
    | lexeme l => trivial
  · intro h e he
    rcases mem_errors_lexChars.1 he with ⟨_, c, _, hcut, _⟩ | ⟨_, body, _, hcut, _⟩
    · obtain ⟨ps, qs, hcut, _, _⟩ := hcut
      exact h (.unexpected c) (by simp [hcut])
    · obtain ⟨ps, qs, hcut, _, _⟩ := hcut
      exact h (.openString body) (by simp [hcut])

/-- A source is read without an error exactly when it can be cut into admitted pieces. -/
theorem lex_hadError_eq_false_iff (source : String) :
    (lex source).hadError = false ↔ Accepted source.toList := by
  rw [lex, hadError_eq_false_iff]
  constructor
  · exact accepted_of_sound
  · intro h
    exact sound_of_reads h.reads

/-- Two slashes begin a comment, so what looks like a string after them is none. -/
example : ¬ Accepted ['/', '/', '"', '\n', '@', '"'] := by
  decide

end LoxLexer
