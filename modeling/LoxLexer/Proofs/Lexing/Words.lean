import Mathlib.Data.List.Induction
import LoxLexer.Proofs.Lexing.Acceptance
import LoxLexer.Proofs.Lexing.ClosingQuote
import LoxLexer.Proofs.Lexing.LongestMatch

/-!
# Words of the code

A word of the source is maximal when no longer word stands around it. Outside strings and comments
the maximal words are exactly the words that are read. What a character stands in is told by the
modes of the text in front of it; where a piece ends, the next one is read as code.
-/
namespace LoxLexer

namespace Mode

/-- The mode after `c`; a character that begins no piece changes nothing. -/
def step (m : Mode) (c : Char) (ahead : Option Char) : Mode :=
  (m.next? c ahead).getD .code

/-- The mode after a text in front of `rest`. -/
def after (m : Mode) : List Char → List Char → Mode
  | [], _ => m
  | c :: text, rest => (m.step c (text ++ rest).head?).after text rest

/-- Reading goes on as in code. -/
def Resumes (m : Mode) (rest : List Char) : Prop :=
  ∀ c ∈ rest.head?, ∀ ahead, m.step c ahead = code.step c ahead

variable {m : Mode} {text rest : List Char}

theorem after_append (m : Mode) (xs ys rest : List Char) :
    m.after (xs ++ ys) rest = (m.after xs (ys ++ rest)).after ys rest := by
  induction xs generalizing m with
  | nil => rfl
  | cons x xs ih =>
    rw [List.cons_append, after, ih, List.append_assoc]
    rfl

theorem after_eq_self (h : ∀ c ∈ text, ∀ ahead, m.next? c ahead = some m) :
    m.after text rest = m := by
  induction text with
  | nil => rfl
  | cons c text ih =>
    rw [after, step, h c List.mem_cons_self]
    exact ih fun d hd => h d (List.mem_cons_of_mem c hd)

theorem after_code (h : ∀ c ∈ text, isPlain c = true) (hs : '/' ∉ text) :
    code.after text rest = code := by
  apply after_eq_self
  intro c hc ahead
  apply next?_code (h c hc)
  rintro rfl
  exact absurd hc hs

theorem after_slash (h : rest.head? ≠ some '/') : code.after ['/'] rest = code := by
  change code.step '/' rest.head? = code
  rw [step, next?_code (by decide) fun _ => h]
  rfl

theorem after_comment (h : '\n' ∉ text) : comment.after text rest = comment := by
  apply after_eq_self
  intro c hc ahead
  have hne : c ≠ '\n' := fun he => h (he ▸ hc)
  rw [next?, if_neg hne]

theorem after_string (h : '"' ∉ text) : string.after text rest = string := by
  apply after_eq_self
  intro c hc ahead
  have hne : c ≠ '"' := fun he => h (he ▸ hc)
  rw [next?, if_neg hne]

theorem resumes_code (rest : List Char) : code.Resumes rest :=
  fun _ _ _ => rfl

theorem Resumes.after_eq (h : m.Resumes (text ++ rest)) (hne : text ≠ []) :
    m.after text rest = code.after text rest := by
  obtain ⟨c, text, rfl⟩ := List.exists_cons_of_ne_nil hne
  rw [after, after, h c rfl]

/-- In front of a letter, only code is read as code. -/
theorem Resumes.eq_code {c : Char} (h : m.Resumes (c :: rest)) (hc : isWordStart c = true) :
    m = code := by
  have same := h c rfl none
  have part := isWordPart_of_isWordStart hc
  have plain : code.step c none = code := by
    rw [step, next?_code (isPlain_of_isWordPart part) (by simp)]
    rfl
  rw [plain] at same
  cases m with
  | code => rfl
  | comment =>
    have hne : c ≠ '\n' := by
      rintro rfl
      exact absurd part (by decide)
    rw [step, next?, if_neg hne] at same
    cases same
  | string =>
    have hne : c ≠ '"' := by
      rintro rfl
      exact absurd part (by decide)
    rw [step, next?, if_neg hne] at same
    cases same

end Mode

open Mode

/-- A lexeme is read in code from its start to its end. -/
theorem Lexeme.after_text {l : Lexeme} {rest : List Char} (valid : l.Valid) (stops : l.Stops rest) :
    code.after l.text rest = code := by
  cases l with
  | punctuator p =>
    by_cases hp : p = .slash
    · subst hp
      exact after_slash (stops.2 rfl)
    · exact after_code (fun c => Punctuator.isPlain_of_mem_text) (Punctuator.slash_not_mem_text hp)
  | number d =>
    obtain ⟨plain, slash⟩ := Pattern.plain_of_number (matches_text (l := .number d) valid)
    exact after_code plain slash
  | string body =>
    calc code.after ('"' :: (body ++ ['"'])) rest
        = Mode.string.after (body ++ ['"']) rest := rfl
      _ = Mode.string.after ['"'] rest := by rw [after_append, after_string valid]
      _ = code := rfl
  | word letters =>
    obtain ⟨plain, slash⟩ := plain_of_isWord valid
    exact after_code plain slash

namespace Piece

variable {p : Piece} {rest : List Char}

/-- Read from its start in code, a piece ends where reading goes on as in code. -/
theorem resumes (valid : p.Valid) (stops : p.Stops rest) :
    (code.after p.text rest).Resumes rest := by
  cases p with
  | blank c =>
    have hc : code.after [c] rest = code := by
      apply after_code
      · simp [isPlain, show isBlank c = true from valid]
      · rintro h
        rw [List.mem_singleton] at h
        subst h
        exact absurd valid (by decide)
    rw [text, hc]
    exact resumes_code rest
  | comment body =>
    have hbody : '\n' ∉ '/' :: body := by simpa using show '\n' ∉ body from valid
    have hc : code.after ('/' :: '/' :: body) rest = .comment := after_comment hbody
    rw [text, hc]
    intro c h ahead
    obtain rfl := stops c h
    rfl
  | lexeme l =>
    rw [text, Lexeme.after_text valid stops]
    exact resumes_code rest
  | unexpected c =>
    have hc : code.after [c] rest = code := by
      rw [after, step, next?_unexpected valid]
      rfl
    rw [text, hc]
    exact resumes_code rest
  | openString body =>
    obtain rfl : rest = [] := stops
    intro c h
    cases h

/-- The pieces that hold a letter, with what stands in front of it and behind it in the piece. -/
inductive Holds (left right : List Char) : Piece → Prop
  | comment {body front : List Char} (hleft : left = '/' :: '/' :: front) (inside : '\n' ∉ front) :
      Holds left right (.comment body)
  | string {body front : List Char} (hleft : left = '"' :: front) (inside : '"' ∉ front)
      (closes : '"' ∈ right) : Holds left right (.lexeme (.string body))
  | openString {body front : List Char} (hleft : left = '"' :: front) (inside : '"' ∉ front) :
      Holds left right (.openString body)
  | word {letters : List Char} : Holds left right (.lexeme (.word letters))

variable {c : Char} {left right : List Char}

/-- A letter stands behind whatever other character the text begins with. -/
theorem exists_cons_of_letter {d : Char} {body : List Char} (hc : isWordStart c = true)
    (hd : isWordStart d = false) (h : d :: body = left ++ c :: right) :
    ∃ front, left = d :: front ∧ body = front ++ c :: right := by
  cases left with
  | nil =>
    cases h
    exact absurd hc (by simp [hd])
  | cons e front =>
    cases h
    exact ⟨front, rfl, rfl⟩

/-- Only comments, strings and words hold letters. -/
theorem holds (valid : p.Valid) (hc : isWordStart c = true) (h : p.text = left ++ c :: right) :
    p.Holds left right := by
  have mem : c ∈ p.text := by simp [h]
  have part := isWordPart_of_isWordStart hc
  cases p with
  | blank d =>
    obtain rfl := List.mem_singleton.1 mem
    have other : isBlank c = false := isBlank_of_isWordPart part
    simp_all [Valid]
  | comment body =>
    obtain ⟨slash, rfl, hslash⟩ := exists_cons_of_letter hc (by decide) h
    obtain ⟨front, rfl, rfl⟩ := exists_cons_of_letter hc (by decide) hslash
    exact .comment rfl fun hm => valid (List.mem_append_left _ hm)
  | lexeme l =>
    cases l with
    | punctuator q =>
      have other : isWordPart c = false := by
        have table : q.text.all (fun d => !isWordPart d) = true := by cases q <;> decide
        simpa using List.all_eq_true.1 table c mem
      simp_all
    | number d =>
      have number : Pattern.number.Matches d.text := Lexeme.matches_text (l := .number d) valid
      rcases Pattern.digit_or_point_of_mem number mem with hd | rfl
      · exact absurd hc (by simp [isWordStart_of_isDigit hd])
      · exact absurd hc (by decide)
    | string body =>
      obtain ⟨front, rfl, hbody⟩ := exists_cons_of_letter hc (by decide) h
      have hquote : c ≠ '"' := by
        rintro rfl
        exact absurd hc (by decide)
      -- The letter is not the closing quote, so that is still to come.
      rcases List.append_eq_append_iff.1 hbody with ⟨more, _, hend⟩ | ⟨more, rfl, hend⟩
      · have last : c ∈ ['"'] := by simp [hend]
        exact absurd (List.mem_singleton.1 last) hquote
      · have closes : '"' ∈ right := by
          cases more with
          | nil =>
            cases hend
            exact absurd rfl hquote
          | cons d more =>
            cases hend
            simp
        exact .string rfl (fun hm => valid (List.mem_append_left _ hm)) closes
    | word letters => exact .word
  | unexpected d =>
    obtain rfl := List.mem_singleton.1 mem
    simp_all [Valid]
  | openString body =>
    obtain ⟨front, rfl, rfl⟩ := exists_cons_of_letter hc (by decide) h
    exact .openString rfl fun hm => valid (List.mem_append_left _ hm)

/-- A letter that is read in code is held by a word. -/
theorem Holds.exists_word (h : p.Holds left right) (hcode : code.after left rest = code) :
    ∃ letters, p = .lexeme (.word letters) := by
  cases h with
  | @comment body front hleft inside =>
    have read : Mode.comment.after ('/' :: front) rest = code := by rwa [hleft] at hcode
    rw [after_comment (by simpa using inside)] at read
    cases read
  | string hleft inside closes =>
    rename_i front
    have read : Mode.string.after front rest = code := by rwa [hleft] at hcode
    rw [after_string inside] at read
    cases read
  | openString hleft inside =>
    rename_i front
    have read : Mode.string.after front rest = code := by rwa [hleft] at hcode
    rw [after_string inside] at read
    cases read
  | @word letters => exact ⟨letters, rfl⟩

/-- With nothing but parts of words behind its letter, a piece does not end in front of another. -/
theorem Holds.not_stops (h : p.Holds left right) (inside : ∀ d ∈ right, isWordPart d = true)
    (next : rest.head? = some c) (hc : isWordPart c = true) : ¬ p.Stops rest := by
  intro stops
  cases h with
  | comment =>
    obtain rfl := stops c next
    exact absurd hc (by decide)
  | string _ _ closes => exact absurd (inside '"' closes) (by decide)
  | openString =>
    obtain rfl : rest = [] := stops
    cases next
  | word =>
    have other : isWordPart c = false := stops c next
    simp [other] at hc

end Piece

variable {cs before word rest : List Char}

/-- Where a piece of the cut begins, reading goes on as in code. -/
theorem resumes_of_cut {ps qs : List Piece} (h : cut cs = ps ++ qs) :
    (code.after (ps.flatMap Piece.text) (qs.flatMap Piece.text)).Resumes
      (qs.flatMap Piece.text) := by
  induction ps using List.reverseRecOn generalizing qs with
  | nil => exact resumes_code _
  | append_singleton ps p ih =>
    rw [List.append_assoc, List.singleton_append] at h
    obtain ⟨valid, stops⟩ := valid_stops_of_cut h
    have reached := ih h
    rw [List.flatMap_cons] at reached
    rw [List.flatMap_append, List.flatMap_singleton, after_append,
      reached.after_eq (Piece.text_ne_nil valid)]
    exact p.resumes valid stops

/-- A letter has the mode that reading its piece from the start gives it. -/
theorem after_eq_code_of_cut {ps qs : List Piece} {p : Piece} {left right : List Char} {c : Char}
    (h : cut cs = ps ++ p :: qs) (hp : p.text = left ++ c :: right)
    (hc : isWordStart c = true) :
    code.after (ps.flatMap Piece.text ++ left) (c :: (right ++ qs.flatMap Piece.text)) = code ↔
      code.after left (c :: (right ++ qs.flatMap Piece.text)) = code := by
  have reached := resumes_of_cut h
  rw [List.flatMap_cons, hp, List.append_assoc, List.cons_append] at reached
  rw [after_append]
  by_cases hleft : left = []
  · subst hleft
    exact iff_of_true (reached.eq_code hc) rfl
  · rw [reached.after_eq hleft]

/-- `word` stands behind `before` and in front of `rest`, and no longer word stands around it. -/
structure MaximalWord (before word rest : List Char) : Prop where
  isWord : IsWord word
  maximal : ∀ left right, left <:+ before → right <+: rest → IsWord (left ++ word ++ right) →
    left = [] ∧ right = []

theorem CutBetween.maximalWord (h : CutBetween cs before (.lexeme (.word word)) rest) :
    MaximalWord before word rest := by
  have hne : word ≠ [] := Piece.text_ne_nil h.valid
  refine ⟨h.valid, ?_⟩
  rintro left right ⟨outer, rfl⟩ ⟨other, rfl⟩ longer
  have part := isWordPart_of_isWord longer
  have stops : ∀ c ∈ (right ++ other).head?, isWordPart c = false := h.stops
  constructor
  · cases left with
    | nil => rfl
    | cons d left =>
      -- The piece with the first letter would have to end in the middle of the longer word.
      obtain ⟨ps, qs, hcut, hps, _⟩ := h
      obtain ⟨front, p, back, inner, behind, rfl, _, hp, rfl⟩ := exists_piece_at hps
      have hcut' : cut cs = front ++ p :: (back ++ .lexeme (.word word) :: qs) := by
        simpa using hcut
      obtain ⟨valid, stops⟩ := valid_stops_of_cut hcut'
      obtain ⟨c, tail, hnext⟩ : ∃ c tail, back.flatMap Piece.text ++ word = c :: tail :=
        List.exists_cons_of_ne_nil (List.append_ne_nil_of_right_ne_nil _ hne)
      have next : (back ++ .lexeme (.word word) :: qs).flatMap Piece.text =
          c :: (tail ++ qs.flatMap Piece.text) := by
        rw [List.flatMap_append, List.flatMap_cons, ← List.append_assoc]
        exact congrArg (· ++ _) hnext
      have letter : c ∈ back.flatMap Piece.text ++ word := by simp [hnext]
      refine absurd stops ((Piece.holds valid longer.1 hp).not_stops ?_ (congrArg _ next) ?_)
      · intro e he
        exact part e (by simp [he])
      · apply part c
        rcases List.mem_append.1 letter with hc | hc <;> simp [hc]
  · cases right with
    | nil => rfl
    | cons c right =>
      have letter : isWordPart c = true := part c (by simp)
      rw [stops c rfl] at letter
      cases letter

/-- The words that are read are the maximal words of the code. -/
theorem cutBetween_word_iff : CutBetween cs before (.lexeme (.word word)) rest ↔
    cs = before ++ word ++ rest ∧ MaximalWord before word rest ∧
      code.after before (word ++ rest) = code := by
  constructor
  · intro h
    refine ⟨h.text_eq, h.maximalWord, ?_⟩
    have hword : IsWord word := h.valid
    obtain ⟨ps, qs, hcut, rfl, rfl⟩ := h
    cases word with
    | nil => exact hword.elim
    | cons c letters =>
      have hp : (Piece.lexeme (.word (c :: letters))).text = [] ++ c :: letters := rfl
      have start := after_eq_code_of_cut hcut hp hword.1
      rw [List.append_nil] at start
      exact start.2 rfl
  · rintro ⟨htext, ⟨hword, maximal⟩, hcode⟩
    obtain ⟨c, letters, rfl⟩ : ∃ c letters, word = c :: letters := by
      cases word with
      | nil => exact hword.elim
      | cons c letters => exact ⟨c, letters, rfl⟩
    have whole : (cut cs).flatMap Piece.text = before ++ c :: (letters ++ rest) := by
      rw [cut_text, htext, List.append_assoc]
      rfl
    obtain ⟨front, p, back, left, right, hcut, rfl, hp, hrest⟩ := exists_piece_at whole
    obtain ⟨valid, stops⟩ := valid_stops_of_cut hcut
    rw [List.cons_append, hrest, after_eq_code_of_cut hcut hp hword.1] at hcode
    obtain ⟨found, rfl⟩ := (Piece.holds valid hword.1 hp).exists_word hcode
    -- The piece goes on at least as far as the word, which is not longer than any other word.
    obtain ⟨more, rfl⟩ : letters <+: right :=
      prefix_of_prefix_append hword.2 ⟨rest, hrest⟩ stops
    rw [List.append_assoc, List.append_cancel_left_eq] at hrest
    obtain rfl := hrest
    have around : found = left ++ c :: letters ++ more := by
      rw [List.append_assoc]
      exact hp
    obtain ⟨rfl, rfl⟩ := maximal left more (List.suffix_append _ _) (List.prefix_append _ _)
      (around ▸ valid)
    rw [List.nil_append, List.append_nil] at around
    subst around
    exact ⟨front, back, hcut, (List.append_nil _).symm, rfl⟩

end LoxLexer
