import Mathlib.Data.List.Forall2
import LoxLexer.Proofs.Lexing.Positions
import LoxLexer.Proofs.Lexing.Words
import LoxLexer.Proofs.Report.Counts

/-!
# What a report tells of the source

A report is made from the kinds of the tokens and from the last of them alone. Its counts are still
those of the source: the reserved words are the maximal words of the code with a reserved spelling,
and the lines are those that the line feeds make. Its diagnostics stand where the faults do.
-/
namespace LoxLexer

def IsReserved (word : List Char) : Prop :=
  ∃ k : Keyword, word = k.text

instance (word : List Char) : Decidable (IsReserved word) :=
  decidable_of_iff ((Keyword.ofText? word).isSome = true) (by
    simp only [Option.isSome_iff_exists, Keyword.ofText?_eq_some_iff, IsReserved])

/-- Byte `n` of the source is where a reserved word starts, as a maximal word outside strings and
comments. -/
def ReservedAt (source : List Char) (n : Nat) : Prop :=
  ∃ before word rest, source = before ++ word ++ rest ∧ n = byteLength before ∧
    MaximalWord before word rest ∧ Mode.code.after before (word ++ rest) = .code ∧ IsReserved word

/-- `d` tells in `file` of the error `e`: of the character that begins no token, or of the quote
with no other after it, at its line and column in the source. -/
structure Diagnoses (source : List Char) (file : String) (e : LexError) (d : Diagnostic) :
    Prop where
  file : d.location.file = file
  line : d.location.line = e.span.line
  column : d.location.column = e.span.column
  fault : ∃ before c rest, source = before ++ c :: rest ∧ e.span.StartsAfter before ∧
    (e.cause = .unexpectedCharacter c ∧ d.code = "E0001" ∧
        d.message = "Unexpected character: " ++ c.toString ∨
      e.cause = .unterminatedString ∧ c = '"' ∧ '"' ∉ rest ∧ d.code = "E0002" ∧
        d.message = "Unterminated string.")

/-- The report says of the source and its lexing what holds of them. -/
structure Report.Agrees (r : Report) (source : String) (file : String) : Prop where
  tokens : r.tokens = (lex source).tokens
  tokenCount : r.stats.tokenCount + 1 = r.tokens.length
  reservedTokens : r.stats.keywordCount = r.tokens.countP fun t => IsReserved t.lexeme.toList
  reservedWords : ∃ places : List Nat, places.Pairwise (· < ·) ∧
    (∀ n, n ∈ places ↔ ReservedAt source.toList n) ∧ r.stats.keywordCount = places.length
  kinds : ∀ t ∈ r.tokens, t.kind.isKeyword = true ↔
    t.lexeme = t.kind.name.toLower ∧ IsReserved t.lexeme.toList
  lineCount : r.stats.lineCount = 1 + source.toList.count '\n'
  errorCount : r.stats.errorCount = r.diagnostics.length
  success : r.success = true ↔ r.diagnostics = []
  diagnostics : List.Forall₂ (Diagnoses source.toList file) (lex source).errors r.diagnostics
  rise : r.diagnostics.Pairwise fun d d' =>
    Above (d.location.line, d.location.column) (d'.location.line, d'.location.column)

theorem Keyword.toList_toLower_name (k : Keyword) : k.name.toLower.toList = k.text := by
  change (String.map Char.toLower k.name).toList = k.text
  rw [String.toList_map]
  cases k <;> decide

variable {cs : List Char}

theorem Lexeme.exists_keyword {l : Lexeme} (h : l.kind.isKeyword = true) :
    ∃ k : Keyword, l = .word k.text ∧ l.kind = .keyword k := by
  cases l with
  | word letters =>
    cases hk : Keyword.ofText? letters with
    | none => simp [kind, hk, Kind.isKeyword] at h
    | some k => exact ⟨k, by rw [Keyword.ofText?_eq_some_iff.1 hk], by rw [kind, hk]⟩
  | _ => cases h

/-- A valid lexeme has a reserved spelling exactly when it has the kind of a reserved word. -/
theorem Lexeme.isKeyword_iff {l : Lexeme} (valid : l.Valid) :
    l.kind.isKeyword = true ↔ IsReserved l.text := by
  constructor
  · intro h
    obtain ⟨k, rfl, _⟩ := exists_keyword h
    exact ⟨k, rfl⟩
  · rintro ⟨k, hk⟩
    have reserved : (word k.text).Valid := by
      cases k <;> exact ⟨by decide, List.all_eq_true.1 (by decide)⟩
    obtain rfl : l = word k.text := text_injective valid reserved hk
    rw [kind, Keyword.ofText?_eq_some_iff.2 rfl]
    rfl

namespace Lexing

theorem isKeyword_token_iff {t : Token} (h : t ∈ (lexChars cs).tokens) :
    t.kind.isKeyword = true ↔ IsReserved t.lexeme.toList := by
  rcases mem_tokens_lexChars.1 h with ⟨before, l, rest, hcut, rfl⟩ | rfl
  · rw [Lexeme.token, String.toList_ofList]
    exact Lexeme.isKeyword_iff hcut.valid
  · refine iff_of_false Bool.false_ne_true ?_
    rintro ⟨k, hk⟩
    cases k <;> cases hk

/-- The lexeme of a reserved word is the name of its kind in small letters. -/
theorem lexeme_of_isKeyword {t : Token} (h : t ∈ (lexChars cs).tokens)
    (hk : t.kind.isKeyword = true) : t.lexeme = t.kind.name.toLower := by
  rcases mem_tokens_lexChars.1 h with ⟨before, l, rest, _, rfl⟩ | rfl
  · obtain ⟨k, rfl, hkind⟩ := Lexeme.exists_keyword hk
    rw [Lexeme.token, hkind, ← String.toList_inj, String.toList_ofList]
    exact k.toList_toLower_name.symm
  · cases hk

/-- Where the reserved words stand among the tokens. -/
def keywordStarts (r : Lexing) : List Nat :=
  (r.tokens.filter fun t => t.kind.isKeyword).map fun t => t.span.start

theorem keywordStarts_rise (cs : List Char) : (lexChars cs).keywordStarts.Pairwise (· < ·) := by
  rw [keywordStarts, List.pairwise_map]
  exact ((tokens_lexChars_precede cs).imp Span.Precedes.start_lt_start).filter _

theorem mem_keywordStarts {n : Nat} :
    n ∈ (lexChars cs).keywordStarts ↔ ReservedAt cs n := by
  simp only [keywordStarts, List.mem_map, List.mem_filter]
  constructor
  · rintro ⟨t, ⟨ht, hk⟩, rfl⟩
    rcases mem_tokens_lexChars.1 ht with ⟨before, l, rest, hcut, rfl⟩ | rfl
    · obtain ⟨k, rfl, _⟩ := Lexeme.exists_keyword hk
      obtain ⟨htext, hmax, hcode⟩ := cutBetween_word_iff.1 hcut
      refine ⟨before, k.text, rest, htext, ?_, hmax, hcode, k, rfl⟩
      rw [Lexeme.token, Span.ofText_eq]
    · cases hk
  · rintro ⟨before, word, rest, htext, rfl, hmax, hcode, hword⟩
    have hcut := cutBetween_word_iff.2 ⟨htext, hmax, hcode⟩
    refine ⟨_, ⟨mem_tokens_lexChars.2 (.inl ⟨before, _, rest, hcut, rfl⟩), ?_⟩, ?_⟩
    · exact (Lexeme.isKeyword_iff (l := .word word) hcut.valid).2 hword
    · rw [Lexeme.token, Span.ofText_eq]

end Lexing

/-- An error is told of with its character and place. -/
theorem diagnoses {e : LexError} (file : String) (h : e ∈ (lexChars cs).errors) :
    Diagnoses cs file e (e.diagnostic file) := by
  refine ⟨rfl, rfl, rfl, ?_⟩
  rcases mem_errors_lexChars.1 h with ⟨before, c, rest, hcut, rfl⟩ |
    ⟨before, body, rest, hcut, rfl⟩
  · refine ⟨before, c, rest, ?_, Span.startsAfter_ofText _ _, .inl ⟨rfl, rfl, rfl⟩⟩
    rw [hcut.text_eq]
    simp [Piece.text]
  · obtain rfl : rest = [] := hcut.stops
    refine ⟨before, '"', body, ?_, Span.startsAfter_ofText _ _,
      .inr ⟨rfl, rfl, hcut.valid, rfl, rfl⟩⟩
    rw [hcut.text_eq, List.append_nil]
    rfl

/-- The report of a source agrees with the source. -/
theorem report_agrees (source file : String) :
    (Report.ofLexing file (lex source)).Agrees source file where
  tokens := rfl
  tokenCount := Lexing.tokenCount_add_one _
  reservedTokens := by
    apply List.countP_congr
    intro t ht
    rw [decide_eq_true_eq]
    exact Lexing.isKeyword_token_iff ht
  reservedWords := by
    refine ⟨_, Lexing.keywordStarts_rise _, fun _ => Lexing.mem_keywordStarts, ?_⟩
    rw [Lexing.keywordStarts, List.length_map]
    exact List.countP_eq_length_filter
  kinds t ht := by
    constructor
    · intro hk
      exact ⟨Lexing.lexeme_of_isKeyword ht hk, (Lexing.isKeyword_token_iff ht).1 hk⟩
    · rintro ⟨_, hword⟩
      exact (Lexing.isKeyword_token_iff ht).2 hword
  lineCount := Lexing.finalLine_lexChars _
  errorCount := (List.length_map _).symm
  success := by
    simp [Report.ofLexing, Lexing.hadError]
  diagnostics := by
    rw [Report.ofLexing, List.forall₂_map_right_iff, List.forall₂_same]
    exact fun e he => diagnoses file he
  rise := by
    rw [Report.ofLexing, List.pairwise_map]
    exact (errors_precede _).imp Span.Precedes.above

end LoxLexer
