import LoxLexer.Lexing.Basic
import LoxLexer.Proofs.Lexeme.Pattern

/-!
# What a token says

The meaning of a token is its kind, its lexeme and its literal, without the place where it stands.
A meaning is valid when the lexeme matches a pattern that gives it this kind and this literal. The
valid meanings are those of the valid lexemes, and different valid lexemes mean different things.
-/
namespace LoxLexer

structure Meaning where
  kind : Kind
  lexeme : String
  literal : Option Literal
deriving DecidableEq, Repr

def Token.meaning (t : Token) : Meaning :=
  ⟨t.kind, t.lexeme, t.literal⟩

def Lexeme.meaning (l : Lexeme) : Meaning :=
  ⟨l.kind, String.ofList l.text, l.literal⟩

/-- The meaning of the end of the input. -/
def Meaning.eof : Meaning :=
  ⟨.eof, "", none⟩

/-- Some pattern matches the lexeme, and gives it the kind and the literal. -/
def Meaning.Valid (m : Meaning) : Prop :=
  ∃ p : Pattern, p.Matches m.lexeme.toList ∧ p.Classifies m.lexeme.toList m.kind m.literal

@[simp] theorem Lexeme.toList_meaning (l : Lexeme) : l.meaning.lexeme.toList = l.text :=
  String.toList_ofList

theorem Lexeme.meaning_token (l : Lexeme) (span : Span) : (l.token span).meaning = l.meaning := rfl

theorem Decimal.text_injective {d e : Decimal} (hd : '.' ∉ d.whole) (he : '.' ∉ e.whole)
    (h : d.text = e.text) : d = e := by
  rw [← ofText_text hd, h, ofText_text he]

theorem IsDigits.point_not_mem {cs : List Char} (h : IsDigits cs) : '.' ∉ cs :=
  fun hm => absurd (h.2 '.' hm) (by decide)

theorem Decimal.canonical_text {d : Decimal} (valid : (Lexeme.number d).Valid) :
    canonical d.text = d.normalize.text := by
  rw [canonical, ofText_text valid.1.point_not_mem]

theorem Lexeme.point_not_mem_text_iff {d : Decimal} (valid : (number d).Valid) :
    '.' ∉ d.text ↔ d.fraction = none := by
  obtain ⟨whole, fraction⟩ := d
  cases fraction with
  | none => exact iff_of_true valid.1.point_not_mem rfl
  | some digits => simp [Decimal.text]

namespace Pattern

/-- What a pattern but the one for comments matches is the text of a lexeme. -/
theorem Matches.exists_lexeme {p : Pattern} {cs : List Char} (h : p.Matches cs)
    (token : p ≠ comment) : ∃ l : Lexeme, l.Valid ∧ l.pattern = p ∧ l.text = cs := by
  cases p with
  | number =>
    rcases h with h | ⟨whole, digits, hw, hd, rfl⟩
    · exact ⟨.number ⟨cs, none⟩, ⟨h, by simp⟩, rfl, rfl⟩
    · refine ⟨.number ⟨whole, some digits⟩, ⟨hw, ?_⟩, rfl, rfl⟩
      rintro _ ⟨⟩
      exact hd
  | string =>
    obtain ⟨body, hbody, rfl⟩ := h
    exact ⟨.string body, hbody, rfl, rfl⟩
  | word => exact ⟨.word cs, h, rfl, rfl⟩
  | punctuator p => exact ⟨.punctuator p, trivial, rfl, h.symm⟩
  | comment => exact absurd rfl token

/-- A pattern gives a text one kind and one literal. -/
theorem Classifies.unique {p : Pattern} {cs : List Char} {k k' : Kind} {x x' : Option Literal}
    (h : p.Classifies cs k x) (h' : p.Classifies cs k' x') : k = k' ∧ x = x' := by
  cases p with
  | number => exact ⟨h.1.trans h'.1.symm, h.2.trans h'.2.symm⟩
  | punctuator p => exact ⟨h.1.trans h'.1.symm, h.2.trans h'.2.symm⟩
  | comment => exact h.elim
  | string =>
    obtain ⟨rfl, body, htext, rfl⟩ := h
    obtain ⟨rfl, body', htext', rfl⟩ := h'
    obtain rfl : body = body' := by simpa using htext.symm.trans htext'
    exact ⟨rfl, rfl⟩
  | word =>
    obtain ⟨rfl, h⟩ := h
    obtain ⟨rfl, h'⟩ := h'
    refine ⟨?_, rfl⟩
    rcases h with ⟨w, hw, rfl⟩ | ⟨hno, rfl⟩ <;> rcases h' with ⟨w', hw', rfl⟩ | ⟨hno', rfl⟩
    · have same := Keyword.ofText?_eq_some_iff.2 hw
      rw [Keyword.ofText?_eq_some_iff.2 hw'] at same
      rw [Option.some.inj same]
    · exact absurd hw (hno' w)
    · exact absurd hw' (hno w')
    · rfl

end Pattern

namespace Lexeme

variable {l l' : Lexeme}

/-- A valid lexeme is known by its text. -/
theorem text_injective (h : l.Valid) (h' : l'.Valid) (heq : l.text = l'.text) : l = l' := by
  have same : l'.pattern = l.pattern := eq_pattern_of_matches h (heq ▸ matches_text h')
  cases l with
  | punctuator p =>
    cases l' with
    | punctuator q => rw [Punctuator.text_injective heq]
    | number d => cases same
    | string body => cases same
    | word letters => cases same
  | number d =>
    cases l' with
    | number e => rw [Decimal.text_injective h.1.point_not_mem h'.1.point_not_mem heq]
    | punctuator q => cases same
    | string body => cases same
    | word letters => cases same
  | string body =>
    cases l' with
    | string body' =>
      obtain rfl : body = body' := by simpa [text] using heq
      rfl
    | punctuator q => cases same
    | number d => cases same
    | word letters => cases same
  | word letters =>
    cases l' with
    | word letters' => exact congrArg word heq
    | punctuator q => cases same
    | number d => cases same
    | string body => cases same

theorem meaning_injective (h : l.Valid) (h' : l'.Valid) (heq : l.meaning = l'.meaning) :
    l = l' := by
  apply text_injective h h'
  have := congrArg (String.toList ∘ Meaning.lexeme) heq
  simpa [meaning] using this

theorem meaning_valid (h : l.Valid) : l.meaning.Valid := by
  refine ⟨l.pattern, ?_, ?_⟩
  · rw [meaning, String.toList_ofList]
    exact matches_text h
  · rw [meaning, String.toList_ofList]
    exact classifies_text h

end Lexeme

/-- A valid meaning is the one of a valid lexeme. -/
theorem Meaning.Valid.exists_lexeme {m : Meaning} (h : m.Valid) :
    ∃ l : Lexeme, l.Valid ∧ l.meaning = m := by
  obtain ⟨kind, lexeme, literal⟩ := m
  obtain ⟨p, hm, hc⟩ := h
  have token : p ≠ .comment := by
    rintro rfl
    exact hc
  obtain ⟨l, valid, rfl, htext⟩ := hm.exists_lexeme token
  have own := Lexeme.classifies_text valid
  rw [htext] at own
  obtain ⟨rfl, rfl⟩ := hc.unique own
  refine ⟨l, valid, ?_⟩
  rw [Lexeme.meaning, htext, String.ofList_toList]

theorem exists_lexemes {ms : List Meaning} (h : ∀ m ∈ ms, m.Valid) :
    ∃ ls : List Lexeme, (∀ l ∈ ls, l.Valid) ∧ ls.map Lexeme.meaning = ms := by
  induction ms with
  | nil => exact ⟨[], by simp, rfl⟩
  | cons m ms ih =>
    obtain ⟨hm, hms⟩ := List.forall_mem_cons.1 h
    obtain ⟨l, valid, rfl⟩ := hm.exists_lexeme
    obtain ⟨ls, valids, rfl⟩ := ih hms
    exact ⟨l :: ls, List.forall_mem_cons.2 ⟨valid, valids⟩, rfl⟩

theorem map_meaning_injective {ls ls' : List Lexeme} (valid : ∀ l ∈ ls, l.Valid)
    (valid' : ∀ l ∈ ls', l.Valid) (h : ls.map Lexeme.meaning = ls'.map Lexeme.meaning) :
    ls = ls' := by
  induction ls generalizing ls' with
  | nil => exact (List.map_eq_nil_iff.1 h.symm).symm
  | cons l ls ih =>
    obtain ⟨l', ls', rfl, hl, hls⟩ := List.map_eq_cons_iff.1 h.symm
    obtain ⟨vl, vls⟩ := List.forall_mem_cons.1 valid
    obtain ⟨vl', vls'⟩ := List.forall_mem_cons.1 valid'
    rw [Lexeme.meaning_injective vl vl' hl.symm, ih vls vls' hls.symm]

end LoxLexer
