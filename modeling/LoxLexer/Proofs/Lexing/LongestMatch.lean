import LoxLexer.Proofs.Lexeme.Pattern
import LoxLexer.Proofs.Lexing.Placement

/-!
# Every token is the longest match

A token is the longest beginning of the text at its start that any pattern matches, comments
included, and it has the kind and the literal of the one pattern that matches it. An unexpected
character stands where no pattern matches, and an unterminated string begins at the last quote.
-/
namespace LoxLexer

/-- A prefix that stays within a class of characters ends before the first other character. -/
theorem prefix_of_prefix_append {p : Char → Bool} {xs ys zs : List Char}
    (hx : ∀ c ∈ xs, p c = true) (h : xs <+: ys ++ zs) (hz : ∀ c ∈ zs.head?, p c = false) :
    xs <+: ys := by
  rcases List.prefix_or_prefix_of_prefix h (List.prefix_append ys zs) with h' | ⟨t, rfl⟩
  · exact h'
  · rw [List.prefix_append_right_inj] at h
    cases t with
    | nil => simp
    | cons c t =>
      obtain ⟨_, rfl⟩ := h
      have hc := hx c (by simp)
      rw [hz c rfl] at hc
      cases hc

/-- A text has only one cut between a run of a class and a character outside it. -/
theorem run_unique {p : Char → Bool} {xs xs' ys ys' : List Char} (h : xs ++ ys = xs' ++ ys')
    (hx : ∀ c ∈ xs, p c = true) (hx' : ∀ c ∈ xs', p c = true)
    (hy : ∀ c ∈ ys.head?, p c = false) (hy' : ∀ c ∈ ys'.head?, p c = false) :
    xs = xs' ∧ ys = ys' := by
  have taken := takeWhile_append_of_head hx hy
  have left := dropWhile_append_of_head hx hy
  rw [h, takeWhile_append_of_head hx' hy'] at taken
  rw [h, dropWhile_append_of_head hx' hy'] at left
  exact ⟨taken.symm, left.symm⟩

namespace Lexeme

variable {other rest : List Char}

/-- Digits are followed by no digit and, without a fraction, by no point before a digit. -/
theorem longest_number {d : Decimal} (valid : (number d).Valid) (stops : (number d).Stops rest)
    (hm : Pattern.number.Matches other) (hp : other <+: d.text ++ rest) : other <+: d.text := by
  obtain ⟨whole, fraction⟩ := d
  obtain ⟨hwhole, hfraction⟩ := valid
  obtain ⟨hrest, hpoint⟩ := stops
  have point : ∀ (cs : List Char), ∀ c ∈ ('.' :: cs).head?, c.isDigit = false := by
    intro cs c hc
    cases hc
    decide
  cases fraction with
  | none =>
    rcases hm with hother | ⟨w, f, hw, hf, rfl⟩
    · exact prefix_of_prefix_append hother.2 hp hrest
    · obtain ⟨z, hz⟩ := hp
      rw [List.append_assoc] at hz
      obtain ⟨rfl, htail⟩ := run_unique hz hw.2 hwhole.2 (point _) hrest
      -- The other match goes on after a point, where this one stopped.
      obtain ⟨c, f, rfl⟩ := List.exists_cons_of_ne_nil hf.1
      have hdigit := hf.2 c List.mem_cons_self
      rw [hpoint rfl c (f ++ z) htail.symm] at hdigit
      cases hdigit
  | some digits =>
    change other <+: whole ++ '.' :: digits ++ rest at hp
    rw [List.append_assoc] at hp
    rcases hm with hother | ⟨w, f, hw, hf, rfl⟩
    · exact (prefix_of_prefix_append hother.2 hp (point _)).trans (List.prefix_append _ _)
    · obtain ⟨z, hz⟩ := hp
      rw [List.append_assoc] at hz
      obtain ⟨rfl, htail⟩ := run_unique hz hw.2 hwhole.2 (point _) (point _)
      have hfrac := prefix_of_prefix_append hf.2 ⟨z, (List.cons.inj htail).2⟩ hrest
      exact (List.prefix_append_right_inj _).2 (List.cons_prefix_cons.2 ⟨rfl, hfrac⟩)

theorem longest_string {body : List Char} (valid : (string body).Valid)
    (hm : Pattern.string.Matches other) (hp : other <+: (string body).text ++ rest) :
    other <+: (string body).text := by
  obtain ⟨inner, hinner, rfl⟩ := hm
  obtain ⟨z, hz⟩ := hp
  have plain {cs : List Char} (h : '"' ∉ cs) : ∀ c ∈ cs, (c != '"') = true := by
    intro c hc
    simpa using fun he : c = '"' => h (he ▸ hc)
  have quote : ∀ (cs : List Char), ∀ c ∈ ('"' :: cs).head?, (c != '"') = false := by
    intro cs c hc
    cases hc
    rfl
  have hbody : inner ++ '"' :: z = body ++ '"' :: rest := by simpa [text] using hz
  obtain ⟨rfl, _⟩ := run_unique hbody (plain hinner) (plain valid) (quote _) (quote _)
  exact List.prefix_refl _

theorem longest_punctuator {p : Punctuator} {q : Pattern} (stops : (punctuator p).Stops rest)
    (hq : q.opening = .operator) (hm : q.Matches other) (hp : other <+: p.text ++ rest) :
    other <+: p.text := by
  obtain ⟨hequal, hslash⟩ := stops
  have hlen := p.length_text
  cases q with
  | number => cases hq
  | string => cases hq
  | word => cases hq
  | punctuator r =>
    obtain rfl : other = r.text := hm
    rcases List.prefix_or_prefix_of_prefix hp (List.prefix_append p.text rest) with h | ⟨t, ht⟩
    · exact h
    -- A longer operator would be `p` with an equals sign, which does not follow.
    by_cases hnil : t = []
    · rw [hnil, List.append_nil] at ht
      exact ⟨[], by rw [List.append_nil, ht]⟩
    exfalso
    have hpos := List.length_pos_iff.2 hnil
    have htwo := r.length_text
    have hsum := congrArg List.length ht
    rw [List.length_append] at hsum
    obtain ⟨c, hc⟩ := Punctuator.text_of_two (p := r) (by omega)
    obtain ⟨d, hd⟩ := List.length_eq_one_iff.1 (by omega : p.text.length = 1)
    rw [hd, hc] at ht
    cases ht
    have hsome : p.withEqual?.isSome = true := by
      rw [Punctuator.withEqual?, List.find?_isSome]
      exact ⟨r, r.mem_all, by rw [hc, hd]; exact beq_self_eq_true _⟩
    rw [hc, hd] at hp
    obtain ⟨z, hz⟩ := hp
    obtain rfl : '=' :: z = rest := (List.cons.inj hz).2
    exact hequal hsome rfl
  | comment =>
    obtain ⟨body, _, rfl⟩ := hm
    obtain ⟨c, cs, htext, _⟩ := p.text_opening
    obtain ⟨z, hz⟩ := hp
    have hhead : p.text.head? = some '/' := by
      rw [htext] at hz ⊢
      rw [← (List.cons.inj hz).1]
      rfl
    obtain rfl := Punctuator.eq_slash_of_head hhead
    obtain rfl : '/' :: body ++ z = rest := (List.cons.inj hz).2
    exact absurd rfl (hslash rfl)

/-- What follows a valid lexeme when it stops never makes a longer match. -/
theorem longest {l : Lexeme} {q : Pattern} (valid : l.Valid) (stops : l.Stops rest)
    (hm : q.Matches other) (hp : other <+: l.text ++ rest) : other <+: l.text := by
  have opens := hm.opening_eq (matches_text valid) hp (List.prefix_append _ _)
  cases l with
  | punctuator p => exact longest_punctuator stops opens hm hp
  | number d => cases q <;> first | exact longest_number valid stops hm hp | cases opens
  | string body => cases q <;> first | exact longest_string valid hm hp | cases opens
  | word letters =>
    cases q <;> first
      | exact prefix_of_prefix_append (isWordPart_of_isWord hm) hp stops
      | cases opens

end Lexeme

namespace CutBetween

/-- A piece that is cut from a source stands at the start of its span. -/
theorem dropBytes?_start {cs before rest : List Char} {piece : Piece}
    (h : CutBetween cs before piece rest) :
    dropBytes? (Span.ofText before piece.text).start cs = some (piece.text ++ rest) := by
  rw [h.text_eq, List.append_assoc, Span.ofText_eq]
  exact dropBytes?_append _ _

end CutBetween

namespace Lexing

/-- Longest match and classification, of the tokens by their lexemes and of the errors by what
stands at their start. -/
structure MaximalMunch (r : Lexing) (source : String) : Prop where
  token : ∀ t ∈ r.tokens, t.kind ≠ .eof → ∃ text p,
    dropBytes? t.span.start source.toList = some text ∧ t.lexeme.toList <+: text ∧
      p.Matches t.lexeme.toList ∧ (∀ q : Pattern, q.Matches t.lexeme.toList → q = p) ∧
      (∀ (q : Pattern) (other : List Char), q.Matches other → other <+: text →
        other.length ≤ t.lexeme.length) ∧
      p.Classifies t.lexeme.toList t.kind t.literal
  slash : ∀ t ∈ r.tokens, t.kind = .punctuator .slash → ∃ rest,
    dropBytes? t.span.start source.toList = some ('/' :: rest) ∧ rest.head? ≠ some '/'
  unexpected : ∀ e ∈ r.errors, ∀ c, e.cause = .unexpectedCharacter c → ∃ rest,
    dropBytes? e.span.start source.toList = some (c :: rest) ∧
      (∀ (q : Pattern) (other : List Char), q.Matches other → ¬ other <+: c :: rest) ∧
      isBlank c = false ∧ c ≠ '"' ∧
      ∀ (q : Pattern) (other : List Char), q.Matches other → other.head? ≠ some c
  unterminated : ∀ e ∈ r.errors, e.cause = .unterminatedString → ∃ body,
    dropBytes? e.span.start source.toList = some ('"' :: body) ∧ '"' ∉ body ∧
      e.span.stop = source.utf8ByteSize

end Lexing

theorem Lexeme.eq_slash_of_kind {l : Lexeme} (h : l.kind = .punctuator .slash) :
    l = .punctuator .slash :=
  kind_eq_punctuator_iff.1 h

/-- Every source is cut by longest match, and its tokens are classified by what they match. -/
theorem lex_maximalMunch (source : String) : (lex source).MaximalMunch source where
  token t ht hkind := by
    rcases mem_tokens_lexChars.1 ht with ⟨before, l, rest, hcut, rfl⟩ | rfl
    · have hlexeme : (l.token (Span.ofText before l.text)).lexeme.toList = l.text :=
        String.toList_ofList
      refine ⟨l.text ++ rest, l.pattern, hcut.dropBytes?_start, ?_⟩
      rw [hlexeme, ← String.length_toList, hlexeme]
      refine ⟨List.prefix_append _ _, Lexeme.matches_text hcut.valid, ?_, ?_,
        Lexeme.classifies_text hcut.valid⟩
      · intro q hq
        exact Lexeme.eq_pattern_of_matches hcut.valid hq
      · intro q other hq hother
        exact (Lexeme.longest hcut.valid hcut.stops hq hother).length_le
    · exact (hkind rfl).elim
  slash t ht hkind := by
    rcases mem_tokens_lexChars.1 ht with ⟨before, l, rest, hcut, rfl⟩ | rfl
    · obtain rfl := Lexeme.eq_slash_of_kind hkind
      exact ⟨rest, hcut.dropBytes?_start, hcut.stops.2 rfl⟩
    · cases hkind
  unexpected e he c hc := by
    rcases mem_errors_lexChars.1 he with ⟨before, d, rest, hcut, rfl⟩ | ⟨_, _, _, _, rfl⟩
    · cases hc
      have begins : ∀ (q : Pattern) (other : List Char), q.Matches other →
          other.head? ≠ some c := by
        intro q other hq
        exact hq.head_ne_unexpected hcut.valid
      refine ⟨rest, hcut.dropBytes?_start, ?_, hcut.valid.1, hcut.valid.2.2.2.1, begins⟩
      rintro q other hq ⟨z, hz⟩
      obtain ⟨c, cs, rfl, _⟩ := hq.opening
      obtain ⟨rfl, _⟩ := List.cons.inj hz
      exact begins q _ hq rfl
    · cases hc
  unterminated e he hc := by
    rcases mem_errors_lexChars.1 he with ⟨_, _, _, _, rfl⟩ | ⟨before, body, rest, hcut, rfl⟩
    · cases hc
    · have htext := hcut.text_eq
      obtain rfl : rest = [] := hcut.stops
      refine ⟨body, ?_, hcut.valid, ?_⟩
      · simpa [Piece.text] using hcut.dropBytes?_start
      · rw [← byteLength_toList, htext, Span.ofText_eq, List.append_nil, byteLength_append]
        rfl

end LoxLexer
