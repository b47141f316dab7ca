import LoxLexer.CommandLine.Outcome
import LoxLexer.Proofs.Json.Scalars
import LoxLexer.Proofs.Lexing.LongestMatch
import LoxLexer.Proofs.Lexing.Reading

/-!
# What printed lines tell

Tokens and errors are printed one after another with a line feed behind each. The text of a string
is printed twice and as it is, line feeds included, so a token may fill several lines, and some of
them may look like tokens. Still no other tokens are printed alike: the name of a kind ends at the
first space, a string at its second quote, any other lexeme at the next space, and the literal hangs
on the lexeme. The report of an error is one line. Where a token stands is not printed.
-/
namespace LoxLexer

/-- The text in front of the first `a` and the text behind it are known from the whole. -/
theorem append_cons_unique {a : Char} {xs xs' ys ys' : List Char}
    (h : xs ++ a :: ys = xs' ++ a :: ys') (hx : a ∉ xs) (hx' : a ∉ xs') : xs = xs' ∧ ys = ys' := by
  have stop (zs : List Char) : ∀ c ∈ (a :: zs).head?, (c != a) = false := by simp
  obtain ⟨hxs, hys⟩ := run_unique h (forall_bne_of_not_mem hx) (forall_bne_of_not_mem hx')
    (stop ys) (stop ys')
  exact ⟨hxs, (List.cons.inj hys).2⟩

/-- Members that print alike only if `told` is the same of both, whatever is printed after them, are
told from a list of them that is printed without a break. -/
theorem map_eq_of_flatMap_eq {α β : Type} {P : α → Prop} {print : α → List Char} {told : α → β}
    (apart : ∀ x y us vs, P x → P y → print x ++ us = print y ++ vs → told x = told y ∧ us = vs)
    (nonempty : ∀ x, print x ≠ []) {xs ys : List α} (hx : ∀ x ∈ xs, P x) (hy : ∀ y ∈ ys, P y)
    (h : xs.flatMap print = ys.flatMap print) : xs.map told = ys.map told := by
  induction xs generalizing ys with
  | nil =>
    cases ys with
    | nil => rfl
    | cons y ys => exact absurd (List.append_eq_nil_iff.1 h.symm).1 (nonempty y)
  | cons x xs ih =>
    cases ys with
    | nil => exact absurd (List.append_eq_nil_iff.1 h).1 (nonempty x)
    | cons y ys =>
      obtain ⟨hx, hxs⟩ := List.forall_mem_cons.1 hx
      obtain ⟨hy, hys⟩ := List.forall_mem_cons.1 hy
      obtain ⟨same, rest⟩ := apart x y _ _ hx hy h
      rw [List.map_cons, List.map_cons, same, ih hxs hys rest]

namespace Kind

theorem name_injective {k k' : Kind} (h : k.name = k'.name) : k = k' := by
  have found := ofName?_eq_some_iff.2 h
  rw [ofName?_eq_some_iff.2 rfl] at found
  exact Option.some.inj found

theorem space_not_mem_name (k : Kind) : ' ' ∉ k.name.toList := by
  have table : ∀ k ∈ all, ' ' ∉ k.name.toList := by decide
  exact table k k.mem_all

end Kind

namespace Lexeme

variable {l l' : Lexeme} {xs ys : List Char}

theorem exists_string_of_kind (h : l.kind = .string) : ∃ body, l = string body := by
  cases l with
  | string body => exact ⟨body, rfl⟩
  | word letters => cases hk : Keyword.ofText? letters <;> simp [kind, hk] at h
  | _ => cases h

/-- Only a string holds a space. -/
theorem space_not_mem_text (valid : l.Valid) (h : l.kind ≠ .string) : ' ' ∉ l.text := by
  intro hm
  cases l with
  | punctuator p =>
    have table : ∀ p ∈ Punctuator.all, ' ' ∉ p.text := by decide
    exact table p p.mem_all hm
  | number d =>
    have number : Pattern.number.Matches d.text := matches_text (l := .number d) valid
    rcases Pattern.digit_or_point_of_mem number hm with hdigit | hpoint
    · exact absurd hdigit (by decide)
    · exact absurd hpoint (by decide)
  | string body => exact h rfl
  | word letters => exact absurd (isWordPart_of_isWord valid ' ' hm) (by decide)

/-- In front of a space, a lexeme is known once its kind is. -/
theorem eq_of_kind_of_text (valid : l.Valid) (valid' : l'.Valid) (hkind : l.kind = l'.kind)
    (h : l.text ++ ' ' :: xs = l'.text ++ ' ' :: ys) : l = l' := by
  by_cases hl : l.kind = .string
  · obtain ⟨body, rfl⟩ := exists_string_of_kind hl
    obtain ⟨body', rfl⟩ := exists_string_of_kind (hkind.symm.trans hl)
    -- A string may hold spaces, but no quote before the closing one.
    have quoted : body ++ '"' :: ' ' :: xs = body' ++ '"' :: ' ' :: ys := by simpa [text] using h
    rw [(append_cons_unique quoted valid valid').1]
  · have space := space_not_mem_text valid hl
    have space' := space_not_mem_text valid' (hkind ▸ hl)
    exact text_injective valid valid' (append_cons_unique h space space').1

end Lexeme

namespace Meaning

/-- What a token means that was read from some source: a lexeme, or the end of the input. -/
def Lexed (m : Meaning) : Prop :=
  (∃ l : Lexeme, l.Valid ∧ m = l.meaning) ∨ m = .eof

/-- What is printed of a token, with the line feed behind it. -/
def line (m : Meaning) : List Char :=
  m.kind.name.toList ++ ' ' :: (m.lexeme.toList ++ ' ' ::
    ((m.literal.elim "null" Literal.text).toList ++ ['\n']))

theorem line_ne_nil (m : Meaning) : m.line ≠ [] :=
  List.append_ne_nil_of_right_ne_nil _ (List.cons_ne_nil _ _)

variable {m m' : Meaning} {us vs : List Char}

theorem Lexed.eq_of_kind_of_lexeme {xs ys : List Char} (h : m.Lexed) (h' : m'.Lexed)
    (hkind : m.kind = m'.kind)
    (hlexeme : m.lexeme.toList ++ ' ' :: xs = m'.lexeme.toList ++ ' ' :: ys) : m = m' := by
  rcases h with ⟨l, valid, rfl⟩ | rfl
  · rcases h' with ⟨l', valid', rfl⟩ | rfl
    · rw [Lexeme.toList_meaning, Lexeme.toList_meaning] at hlexeme
      rw [Lexeme.eq_of_kind_of_text valid valid' hkind hlexeme]
    · exact absurd hkind l.kind_ne_eof
  · rcases h' with ⟨l', valid', rfl⟩ | rfl
    · exact absurd hkind.symm l'.kind_ne_eof
    · rfl

/-- A printed token is known from any text that it begins. -/
theorem Lexed.line_append_injective (h : m.Lexed) (h' : m'.Lexed)
    (heq : m.line ++ us = m'.line ++ vs) : m = m' ∧ us = vs := by
  have fields : m.kind.name.toList ++ ' ' :: (m.lexeme.toList ++ ' ' ::
        ((m.literal.elim "null" Literal.text).toList ++ '\n' :: us)) =
      m'.kind.name.toList ++ ' ' :: (m'.lexeme.toList ++ ' ' ::
        ((m'.literal.elim "null" Literal.text).toList ++ '\n' :: vs)) := by
    simpa [line] using heq
  obtain ⟨name, behind⟩ :=
    append_cons_unique fields m.kind.space_not_mem_name m'.kind.space_not_mem_name
  have kind : m.kind = m'.kind := Kind.name_injective (String.toList_inj.1 name)
  obtain rfl : m = m' := h.eq_of_kind_of_lexeme h' kind behind
  exact ⟨rfl, List.append_cancel_left heq⟩

end Meaning

theorem Token.toList_text_append (t : Token) (u : String) :
    (t.text ++ "\n" ++ u).toList = t.meaning.line ++ u.toList := by
  obtain ⟨kind, lexeme, literal, span⟩ := t
  cases literal <;> simp [text, meaning, Meaning.line]

theorem Token.lexed_meaning {cs : List Char} {t : Token} (h : t ∈ (lexChars cs).tokens) :
    t.meaning.Lexed := by
  rcases mem_tokens_lexChars.1 h with ⟨before, l, rest, hcut, rfl⟩ | rfl
  · exact .inl ⟨l, hcut.valid, rfl⟩
  · exact .inr rfl

namespace LexError

@[simp] theorem Cause.message_unexpectedCharacter (ch : Char) :
    (unexpectedCharacter ch).message = "Unexpected character: " ++ ch.toString := rfl

@[simp] theorem Cause.message_unterminatedString :
    unterminatedString.message = "Unterminated string." := rfl

theorem Cause.message_injective {c c' : Cause} (h : c.message = c'.message) : c = c' := by
  have chars := congrArg String.toList h
  cases c with
  | unexpectedCharacter d =>
    cases c' with
    | unexpectedCharacter d' => simpa using chars
    | unterminatedString => simp at chars
  | unterminatedString =>
    cases c' with
    | unexpectedCharacter d' => simp at chars
    | unterminatedString => rfl

/-- The report names the line and the cause of an error and nothing else. -/
theorem report_injective {e e' : LexError} (h : e.report = e'.report) :
    e.line = e'.line ∧ e.cause = e'.cause := by
  have bracket (n : Nat) : ']' ∉ Nat.toDigits 10 n := by
    intro hm
    exact absurd (Json.Symbol.isDigit_of_mem_toDigits ']' hm) (by decide)
  have chars := congrArg String.toList h
  simp only [report, Nat.toString_eq_ofList_toDigits, String.toList_append, String.toList_ofList,
    List.append_assoc] at chars
  obtain ⟨digits, rest⟩ := append_cons_unique (List.append_cancel_left chars)
    (bracket e.line) (bracket e'.line)
  refine ⟨?_, Cause.message_injective ?_⟩
  · rw [← Nat.ofDigitChars_ten_toDigits (n := e.line), digits, Nat.ofDigitChars_ten_toDigits]
  · have messages : e.message.toList = e'.message.toList := List.append_cancel_left rest
    exact String.toList_inj.1 messages

/-- A line feed is a blank and never unexpected, so a report has none. -/
theorem newline_not_mem_report {cs : List Char} {e : LexError} (h : e ∈ (lexChars cs).errors) :
    '\n' ∉ e.report.toList := by
  have digits : '\n' ∉ Nat.toDigits 10 e.line := by
    intro hm
    exact absurd (Json.Symbol.isDigit_of_mem_toDigits '\n' hm) (by decide)
  have message : '\n' ∉ e.message.toList := by
    rw [LexError.message]
    rcases mem_errors_lexChars.1 h with ⟨_, c, _, hcut, rfl⟩ | ⟨_, _, _, _, rfl⟩
    · have hc : c ≠ '\n' := by
        rintro rfl
        exact absurd hcut.valid.1 (by decide)
      simpa using hc.symm
    · simp
  simp [report, digits, message]

end LexError

namespace CommandLine

theorem toList_lines (texts : List String) :
    (lines texts).toList = texts.flatMap fun t => t.toList ++ ['\n'] := by
  simp [lines, List.flatMap_map]

/-- What is printed of two lexings tells their tokens and their errors apart, but for where tokens
stand and in which column errors do. -/
structure PrintsApart (r r' : Lexing) : Prop where
  token : ∀ t ∈ r.tokens, ∀ t' ∈ r'.tokens, ∀ u v : String,
    t.text ++ "\n" ++ u = t'.text ++ "\n" ++ v → t.meaning = t'.meaning ∧ u = v
  tokens : lines (r.tokens.map Token.text) = lines (r'.tokens.map Token.text) →
    r.tokens.map Token.meaning = r'.tokens.map Token.meaning
  one_line : ∀ e ∈ r.errors, '\n' ∉ e.report.toList
  reports : lines (reports r) = lines (reports r') →
    (r.errors.map fun e => (e.line, e.cause)) = r'.errors.map fun e => (e.line, e.cause)

variable {cs cs' : List Char}

theorem meanings_of_lines
    (h : lines ((lexChars cs).tokens.map Token.text) =
      lines ((lexChars cs').tokens.map Token.text)) :
    (lexChars cs).tokens.map Token.meaning = (lexChars cs').tokens.map Token.meaning := by
  have print (t : Token) : t.text.toList ++ ['\n'] = t.meaning.line := by
    simpa using t.toList_text_append ""
  have chars := congrArg String.toList h
  simp only [toList_lines, List.flatMap_map, print] at chars
  exact map_eq_of_flatMap_eq (P := fun t => t.meaning.Lexed)
    (fun _ _ _ _ ht ht' => ht.line_append_injective ht') (fun t => t.meaning.line_ne_nil)
    (fun t => Token.lexed_meaning) (fun t => Token.lexed_meaning) chars

theorem errors_of_lines (h : lines (reports (lexChars cs)) = lines (reports (lexChars cs'))) :
    ((lexChars cs).errors.map fun e => (e.line, e.cause)) =
      (lexChars cs').errors.map fun e => (e.line, e.cause) := by
  have chars := congrArg String.toList h
  simp only [toList_lines, reports, List.flatMap_map] at chars
  refine map_eq_of_flatMap_eq (P := fun e => '\n' ∉ e.report.toList) ?_ (by simp)
    (fun e => LexError.newline_not_mem_report) (fun e => LexError.newline_not_mem_report) chars
  intro e e' us vs he he' heq
  rw [List.append_assoc, List.append_assoc] at heq
  obtain ⟨report, rest⟩ := append_cons_unique heq he he'
  obtain ⟨line, cause⟩ := LexError.report_injective (String.toList_inj.1 report)
  exact ⟨Prod.ext line cause, rest⟩

/-- No source makes a token or an error look like others that were not read. -/
theorem lex_printsApart (source source' : String) : PrintsApart (lex source) (lex source') where
  token t ht t' ht' u v h := by
    have chars := congrArg String.toList h
    rw [Token.toList_text_append, Token.toList_text_append] at chars
    obtain ⟨meaning, rest⟩ :=
      (Token.lexed_meaning ht).line_append_injective (Token.lexed_meaning ht') chars
    exact ⟨meaning, String.toList_inj.1 rest⟩
  tokens := meanings_of_lines
  one_line e he := LexError.newline_not_mem_report he
  reports := errors_of_lines

/-- A string with a line in it that looks like the end of the input, laid out in two ways. -/
theorem lex_printsApart_end_in_string :
    let source := "\"\nEOF  null\n\"@"
    let source' := " \"\nEOF  null\n\" @//"
    lines ((lex source).tokens.map Token.text) = lines ((lex source').tokens.map Token.text) ∧
      lines (reports (lex source)) = lines (reports (lex source')) ∧
      (lex source).tokens.map Token.meaning = (lex source').tokens.map Token.meaning ∧
      ((lex source).errors.map fun e => (e.line, e.cause)) =
        (lex source').errors.map fun e => (e.line, e.cause) := by
  intro source source'
  have hcut : cut source.toList =
      [.lexeme (.string "\nEOF  null\n".toList), .unexpected '@'] := cut_eq_iff.2 (by decide)
  have hcut' : cut source'.toList =
      [.blank ' ', .lexeme (.string "\nEOF  null\n".toList), .blank ' ', .unexpected '@',
        .comment []] := cut_eq_iff.2 (by decide)
  have tokens : lines ((lex source).tokens.map Token.text) =
      lines ((lex source').tokens.map Token.text) := by
    rw [lex, lex, lexChars, lexChars, items, items, hcut, hcut']
    decide
  have errors : lines (reports (lex source)) = lines (reports (lex source')) := by
    rw [lex, lex, lexChars, lexChars, items, items, hcut, hcut']
    decide
  have apart := lex_printsApart source source'
  exact ⟨tokens, errors, apart.tokens tokens, apart.reports errors⟩

end CommandLine

end LoxLexer
