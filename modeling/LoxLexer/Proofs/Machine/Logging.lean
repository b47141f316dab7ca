import LoxLexer.Proofs.Machine.Faultless

/-!
# What is logged and when

The log of a source is its tokens and errors merged by where they start, and the counts after them.
The machine, which keeps tokens and errors apart and writes a record wherever it adds one of them,
ends with the same log: later rounds find what stands further on.
-/
namespace LoxLexer

/-- The machine logs what is logged of its text. -/
theorem Machine.log_eq {m : Machine} (room : m.Roomy) (v : Verbosity) :
    m.log v = .ok (logChars v m.text) := by
  obtain ⟨s, run, _, _, records⟩ := exists_run room
  rw [log, run, logChars, ← records]
  rfl

namespace Lexing

/-- What is logged of a lexing: its tokens and errors, merged by where they start, and one record of
the counts and of the line of the last token. Without the tokens that is what is left of it at a
lower level, and nothing at the lowest ones. -/
structure Logged (r : Lexing) (log : Verbosity → List LogRecord) : Prop where
  complete : r.merged.Perm (r.readTokens.map Item.token ++ r.errors.map Item.error)
  rise : r.merged.Pairwise fun x y => x.span.start < y.span.start
  trace : ∃ last, r.tokens.getLast? = some last ∧ last.kind = .eof ∧
    log (.upTo .trace) =
      (r.merged.map fun
        | .token t => ⟨.trace, "token " ++ t.text⟩
        | .error e => ⟨.debug, e.report⟩) ++
      [⟨.debug, "scanned " ++ toString r.tokens.length ++ " tokens over " ++ toString last.line ++
        " lines, " ++ toString r.errors.length ++ " errors"⟩]
  debug : log (.upTo .debug) = (log (.upTo .trace)).filter fun x => x.level != .trace
  quiet : ∀ v ∈ [.off, .upTo .error, .upTo .warn, .upTo .info], log v = []

end Lexing

/-- Records have the two most talkative levels. -/
theorem level_of_mem_recordsOf {cs : List Char} {x : LogRecord} (h : x ∈ recordsOf cs) :
    x.level = .trace ∨ x.level = .debug := by
  rcases List.mem_append.1 h with h | h
  · obtain ⟨item, _, rfl⟩ := List.mem_map.1 h
    cases item with
    | token t => exact .inl rfl
    | error e => exact .inr rfl
  · rw [List.mem_singleton.1 h]
    exact .inr rfl

theorem logged_lexChars (cs : List Char) : (lexChars cs).Logged fun v => logChars v cs where
  complete := List.merge_perm_append _
  rise := by
    rw [Lexing.merged_lexChars]
    exact (items_precede cs).imp Span.Precedes.start_lt_start
  trace := by
    refine ⟨endToken cs, List.getLast?_concat, rfl, ?_⟩
    have all : logChars (.upTo .trace) cs = recordsOf cs := by
      apply List.filter_eq_self.2
      intro x hx
      rcases level_of_mem_recordsOf hx with h | h <;> rw [h] <;> rfl
    rw [all, Lexing.merged_lexChars]
    refine congrArg (· ++ _) (List.map_congr_left ?_)
    intro x _
    cases x <;> rfl
  debug := by
    rw [logChars, logChars, List.filter_filter]
    apply List.filter_congr
    intro x hx
    rcases level_of_mem_recordsOf hx with h | h <;> rw [h] <;> rfl
  quiet := by
    intro v hv
    apply List.filter_eq_nil_iff.2
    intro x hx
    simp only [List.mem_cons, List.not_mem_nil, or_false] at hv
    rcases hv with rfl | rfl | rfl | rfl <;>
      rcases level_of_mem_recordsOf hx with h | h <;> rw [h] <;> decide

/-- Every source is logged in the order of its text, and the machine logs it in the same way. -/
theorem lex_logged (source : String) : ((lex source).Logged fun v => log v source) ∧
    ∀ maxCount, source.utf8ByteSize ≤ maxCount / 2 → ∀ v,
      (Machine.mk maxCount source.toList).log v = .ok (log v source) := by
  refine ⟨logged_lexChars source.toList, ?_⟩
  intro maxCount h v
  exact Machine.log_eq (Machine.roomy_of_utf8ByteSize h) v

/-- The records of a name, an error and a string over two lines, as the machine writes them. -/
theorem lex_logged_between :
    "x@\"a\nb\"".utf8ByteSize ≤ (UInt64.size - 1) / 2 ∧
      (Machine.mk (UInt64.size - 1) "x@\"a\nb\"".toList).log (.upTo .trace) =
        .ok [⟨.trace, "token IDENTIFIER x null"⟩,
          ⟨.debug, "[line 1] Error: Unexpected character: @"⟩,
          ⟨.trace, "token STRING \"a\nb\" a\nb"⟩,
          ⟨.debug, "scanned 3 tokens over 2 lines, 1 errors"⟩] := by
  have small : "x@\"a\nb\"".utf8ByteSize ≤ (UInt64.size - 1) / 2 := by decide
  have hcut : cut "x@\"a\nb\"".toList = [.lexeme (.word ['x']), .unexpected '@',
      .lexeme (.string ['a', '\n', 'b'])] := cut_eq_iff.2 (by decide)
  refine ⟨small, ((lex_logged "x@\"a\nb\"").2 _ small (.upTo .trace)).trans ?_⟩
  rw [log, logChars, recordsOf, items, hcut]
  exact congrArg Except.ok (by decide)

end LoxLexer
