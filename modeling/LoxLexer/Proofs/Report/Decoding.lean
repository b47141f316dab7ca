import LoxLexer.Proofs.Json.Fields
import LoxLexer.Proofs.Report.RoundTrip

/-!
# What is decoded

Of each type it is said which JSON values write one of its values down, from the fields of a record
inwards, and that just these are decoded. Decoding does not depend on the order of the entries in an
object, on entries with unknown keys, or on whether the record is an object or an array. Two types
do not follow the pattern: the literal of a token may be missing from an object, and the type of a
literal may be written in an object as it may not be in an array.
-/
namespace LoxLexer

open Json

/-- The count that stands at each field must be written as a plain number and fit in 64 bits. -/
def Span.Written (j : Json) (s : Span) : Prop :=
  HasAll ["start", "end", "line", "column"] j
    [.nat s.start, .nat s.stop, .nat s.line, .nat s.column] ∧ s.Fits

def Location.Written (j : Json) (l : Location) : Prop :=
  HasAll ["file", "line", "column"] j [.string l.file, .nat l.line, .nat l.column] ∧ l.Fits

def Stats.Written (j : Json) (s : Stats) : Prop :=
  HasAll ["token_count", "keyword_count", "error_count", "line_count"] j
    [.nat s.tokenCount, .nat s.keywordCount, .nat s.errorCount, .nat s.lineCount] ∧ s.Fits

def Diagnostic.Written (j : Json) (d : Diagnostic) : Prop :=
  ∃ severity location,
    HasAll ["code", "severity", "message", "location"] j
      [.string d.code, severity, .string d.message, location] ∧
    severity.Names d.severity.name ∧ Location.Written location d.location

/-- In an array the type is a string. In an object it is a plain name. -/
inductive Literal.Written : Json → Literal → Prop
  | array (l : Literal) : Written (.array [.string l.typeName, .string l.text]) l
  | object {entries : List (String × Json)} {l : Literal} {type : Json}
      (fields : HasAll ["type", "value"] (.object entries) [type, .string l.text])
      (typed : type.Names l.typeName) : Written (.object entries) l

/-- No literal is written as null or not at all. -/
inductive Literal.OptionWritten : Option Json → Option Literal → Prop
  | absent : OptionWritten none none
  | null : OptionWritten (some .null) none
  | some {j : Json} {l : Literal} (literal : l.Written j) : OptionWritten (some j) (some l)

def Token.Written (j : Json) (t : Token) : Prop :=
  ∃ kind literal span,
    HasFields ["kind", "lexeme", "literal", "span"] j
      [some kind, some (.string t.lexeme), literal, some span] ∧
    kind.Names t.kind.name ∧ Literal.OptionWritten literal t.literal ∧ Span.Written span t.span

def Report.Written (j : Json) (r : Report) : Prop :=
  ∃ tokens diagnostics stats,
    HasAll ["success", "source_file", "tokens", "diagnostics", "stats"] j
      [.bool r.success, .string r.sourceFile, .array tokens, .array diagnostics, stats] ∧
    List.Forall₂ Token.Written tokens r.tokens ∧
    List.Forall₂ Diagnostic.Written diagnostics r.diagnostics ∧ Stats.Written stats r.stats

section Scalars

variable {j : Json}

theorem Kind.ofJson?_eq_some {k : Kind} : ofJson? j = some k ↔ j.Names k.name := by
  rw [ofJson?, Option.bind_eq_some_iff, ← plainName?_eq_some]
  constructor
  · rintro ⟨name, hname, h⟩
    rw [hname, ofName?_eq_some_iff.1 h]
  · intro h
    exact ⟨k.name, h, ofName?_eq_some_iff.2 rfl⟩

theorem Severity.ofJson?_eq_some {s : Severity} : ofJson? j = some s ↔ j.Names s.name := by
  rw [ofJson?, Option.bind_eq_some_iff, ← plainName?_eq_some]
  constructor
  · rintro ⟨name, hname, h⟩
    have same := List.find?_some h
    rw [hname, eq_of_beq same]
  · intro h
    cases s
    exact ⟨error.name, h, rfl⟩

theorem Literal.ofTypeName?_eq_some {name text : String} {l : Literal} :
    ofTypeName? name text = some l ↔ name = l.typeName ∧ text = l.text := by
  constructor
  · intro h
    rw [ofTypeName?] at h
    split at h
    · next number =>
      cases h
      exact ⟨number, rfl⟩
    · split at h
      · next string =>
        cases h
        exact ⟨string, rfl⟩
      · cases h
  · rintro ⟨rfl, rfl⟩
    cases l <;> rfl

end Scalars

section Records

variable {i j : Json}

namespace Span

theorem ofJson?_eq_some {s : Span} : ofJson? j = some s ↔ Written j s := by
  constructor
  · intro h
    obtain ⟨values, fields, h⟩ := Option.bind_eq_some_iff.1 h
    split at h
    · simp only [Option.bind_eq_bind, Option.bind_eq_some_iff, count?_eq_some] at h
      obtain ⟨_, ⟨rfl, hstart⟩, _, ⟨rfl, hstop⟩, _, ⟨rfl, hline⟩, _, ⟨rfl, hcolumn⟩, h⟩ := h
      cases h
      exact ⟨record?_eq_some.1 fields, hstart, hstop, hline, hcolumn⟩
    · cases h
  · rintro ⟨fields, h⟩
    rw [ofJson?, record?_eq_some.2 fields]
    simp [count?_nat h.start, count?_nat h.stop, count?_nat h.line, count?_nat h.column]

theorem ofJson?_congr (h : i.fields? ["start", "end", "line", "column"] =
    j.fields? ["start", "end", "line", "column"]) : ofJson? i = ofJson? j := by
  rw [ofJson?, ofJson?, record?, record?, h]

end Span

namespace Location

theorem ofJson?_eq_some {l : Location} : ofJson? j = some l ↔ Written j l := by
  constructor
  · intro h
    obtain ⟨values, fields, h⟩ := Option.bind_eq_some_iff.1 h
    split at h
    · simp only [Option.bind_eq_bind, Option.bind_eq_some_iff, string?_eq_some,
        count?_eq_some] at h
      obtain ⟨_, rfl, _, ⟨rfl, hline⟩, _, ⟨rfl, hcolumn⟩, h⟩ := h
      cases h
      exact ⟨record?_eq_some.1 fields, hline, hcolumn⟩
    · cases h
  · rintro ⟨fields, h⟩
    rw [ofJson?, record?_eq_some.2 fields]
    simp [string?, count?_nat h.line, count?_nat h.column]

theorem ofJson?_congr (h : i.fields? ["file", "line", "column"] =
    j.fields? ["file", "line", "column"]) : ofJson? i = ofJson? j := by
  rw [ofJson?, ofJson?, record?, record?, h]

end Location

namespace Stats

theorem ofJson?_eq_some {s : Stats} : ofJson? j = some s ↔ Written j s := by
  constructor
  · intro h
    obtain ⟨values, fields, h⟩ := Option.bind_eq_some_iff.1 h
    split at h
    · simp only [Option.bind_eq_bind, Option.bind_eq_some_iff, count?_eq_some] at h
      obtain ⟨_, ⟨rfl, htokens⟩, _, ⟨rfl, hkeywords⟩, _, ⟨rfl, herrors⟩, _, ⟨rfl, hlines⟩, h⟩ := h
      cases h
      exact ⟨record?_eq_some.1 fields, htokens, hkeywords, herrors, hlines⟩
    · cases h
  · rintro ⟨fields, h⟩
    rw [ofJson?, record?_eq_some.2 fields]
    simp [count?_nat h.tokens, count?_nat h.keywords, count?_nat h.errors, count?_nat h.lines]

theorem ofJson?_congr (h : i.fields? ["token_count", "keyword_count", "error_count", "line_count"] =
    j.fields? ["token_count", "keyword_count", "error_count", "line_count"]) :
    ofJson? i = ofJson? j := by
  rw [ofJson?, ofJson?, record?, record?, h]

end Stats

namespace Diagnostic

theorem ofJson?_eq_some {d : Diagnostic} : ofJson? j = some d ↔ Written j d := by
  constructor
  · intro h
    obtain ⟨values, fields, h⟩ := Option.bind_eq_some_iff.1 h
    split at h
    · simp only [Option.bind_eq_bind, Option.bind_eq_some_iff, string?_eq_some,
        Severity.ofJson?_eq_some, Location.ofJson?_eq_some] at h
      obtain ⟨_, rfl, _, severity, _, rfl, _, location, h⟩ := h
      cases h
      exact ⟨_, _, record?_eq_some.1 fields, severity, location⟩
    · cases h
  · rintro ⟨_, _, fields, severity, location⟩
    rw [ofJson?, record?_eq_some.2 fields]
    simp [string?, Severity.ofJson?_eq_some.2 severity, Location.ofJson?_eq_some.2 location]

theorem ofJson?_congr (h : i.fields? ["code", "severity", "message", "location"] =
    j.fields? ["code", "severity", "message", "location"]) : ofJson? i = ofJson? j := by
  rw [ofJson?, ofJson?, record?, record?, h]

end Diagnostic

namespace Literal

theorem ofJson?_eq_some {l : Literal} : ofJson? j = some l ↔ Written j l := by
  constructor
  · intro h
    obtain ⟨values, fields, h⟩ := Option.bind_eq_some_iff.1 h
    split at h
    · simp only [Option.bind_eq_bind, Option.bind_eq_some_iff, string?_eq_some,
        ofTypeName?_eq_some] at h
      obtain ⟨name, typed, _, rfl, rfl, rfl⟩ := h
      have fields := record?_eq_some.1 fields
      -- Only here does the form of the record decide how a field is read.
      cases j with
      | array items =>
        cases string?_eq_some.1 typed
        cases fields.array_eq
        exact .array l
      | object entries => exact .object fields (plainName?_eq_some.1 typed)
      | _ => cases fields
    · cases h
  · intro h
    cases h with
    | array l => cases l <;> rfl
    | object fields typed =>
      rw [ofJson?, record?_eq_some.2 fields]
      have typed := plainName?_eq_some.2 typed
      simp [typeName?, typed, string?, ofTypeName?_eq_some]

theorem ofJson?_object {entries entries' : List (String × Json)}
    (h : (object entries).fields? ["type", "value"] = (object entries').fields? ["type", "value"]) :
    ofJson? (.object entries) = ofJson? (.object entries') := by
  rw [ofJson?, ofJson?, record?, record?, h]
  rfl

theorem optionOfJson?_eq_some {found : Option Json} {l : Option Literal} :
    (found.getD .null).orNull? ofJson? = some l ↔ OptionWritten found l := by
  rw [orNull?_eq_some]
  -- A missing literal is read as null, and no literal is written as null.
  constructor
  · rintro (⟨isNull, rfl⟩ | ⟨notNull, x, decoded, rfl⟩)
    · cases found with
      | none => exact .absent
      | some j =>
        cases isNull
        exact .null
    · cases found with
      | none => exact absurd rfl notNull
      | some j => exact .some (ofJson?_eq_some.1 decoded)
  · intro h
    cases h with
    | absent => exact .inl ⟨rfl, rfl⟩
    | null => exact .inl ⟨rfl, rfl⟩
    | some literal =>
      refine .inr ⟨?_, _, ofJson?_eq_some.2 literal, rfl⟩
      cases literal <;> nofun

end Literal

namespace Token

theorem ofJson?_eq_some {t : Token} : ofJson? j = some t ↔ Written j t := by
  constructor
  · intro h
    obtain ⟨values, fields, h⟩ := Option.bind_eq_some_iff.1 h
    split at h
    · simp only [Option.bind_eq_bind, Option.bind_eq_some_iff, string?_eq_some,
        Kind.ofJson?_eq_some, Literal.optionOfJson?_eq_some, Span.ofJson?_eq_some] at h
      obtain ⟨_, kind, _, rfl, _, literal, _, span, h⟩ := h
      cases h
      exact ⟨_, _, _, fields?_eq_some.1 fields, kind, literal, span⟩
    · cases h
  · rintro ⟨_, _, _, fields, kind, literal, span⟩
    rw [ofJson?, fields?_eq_some.2 fields]
    simp [string?, Kind.ofJson?_eq_some.2 kind, Literal.optionOfJson?_eq_some.2 literal,
      Span.ofJson?_eq_some.2 span]

theorem ofJson?_congr (h : i.fields? ["kind", "lexeme", "literal", "span"] =
    j.fields? ["kind", "lexeme", "literal", "span"]) : ofJson? i = ofJson? j := by
  rw [ofJson?, ofJson?, h]

end Token

namespace Report

theorem ofJson?_eq_some {r : Report} : ofJson? j = some r ↔ Written j r := by
  constructor
  · intro h
    obtain ⟨values, fields, h⟩ := Option.bind_eq_some_iff.1 h
    split at h
    · simp only [Option.bind_eq_bind, Option.bind_eq_some_iff, string?_eq_some, bool?_eq_some,
        list?_eq_some, Token.ofJson?_eq_some, Diagnostic.ofJson?_eq_some,
        Stats.ofJson?_eq_some] at h
      obtain ⟨_, rfl, _, rfl, _, ⟨_, rfl, tokens⟩, _, ⟨_, rfl, diagnostics⟩, _, stats, h⟩ := h
      cases h
      exact ⟨_, _, _, record?_eq_some.1 fields, tokens, diagnostics, stats⟩
    · cases h
  · rintro ⟨_, _, _, fields, tokens, diagnostics, stats⟩
    rw [ofJson?, record?_eq_some.2 fields]
    have tokens := list?_eq_some.2 ⟨_, rfl, tokens.imp fun _ _ => Token.ofJson?_eq_some.2⟩
    have diagnostics :=
      list?_eq_some.2 ⟨_, rfl, diagnostics.imp fun _ _ => Diagnostic.ofJson?_eq_some.2⟩
    simp [bool?, string?, tokens, diagnostics, Stats.ofJson?_eq_some.2 stats]

theorem ofJson?_congr
    (h : i.fields? ["success", "source_file", "tokens", "diagnostics", "stats"] =
      j.fields? ["success", "source_file", "tokens", "diagnostics", "stats"]) :
    ofJson? i = ofJson? j := by
  rw [ofJson?, ofJson?, record?, record?, h]

end Report

end Records

/-- The values that are written down are decoded, and nothing else is. The order of the entries and
unknown keys do not matter, nor does the form of a record if its values are `Alike` in both. -/
structure Json.DecodesRecords {α : Type} (names : List String) (decode : Json → Option α)
    (Written : Json → α → Prop) (Alike : List Json → Prop) : Prop where
  accepts : ∀ j x, decode j = some x ↔ Written j x
  rejects : ∀ j, decode j = none ↔ ∀ x, ¬ Written j x
  reordered : ∀ entries entries' : List (String × Json), entries.Perm entries' →
    decode (object entries) = decode (object entries')
  unknown : ∀ (before after : List (String × Json)) (e : String × Json), e.1 ∉ names →
    decode (object (before ++ e :: after)) = decode (object (before ++ after))
  form : ∀ entries : List (String × Json), entries.map Prod.fst = names →
    Alike (entries.map Prod.snd) → decode (object entries) = decode (array (entries.map Prod.snd))

theorem Json.decodesRecords {α : Type} {names : List String} {decode : Json → Option α}
    {Written : Json → α → Prop} {Alike : List Json → Prop} (different : names.Nodup)
    (accepts : ∀ j x, decode j = some x ↔ Written j x)
    (objects : ∀ entries entries',
      (object entries).fields? names = (object entries').fields? names →
      decode (object entries) = decode (object entries'))
    (forms : ∀ entries items, Alike items →
      (object entries).fields? names = (array items).fields? names →
      decode (object entries) = decode (array items)) :
    DecodesRecords names decode Written Alike where
  accepts := accepts
  rejects j := by simp only [Option.eq_none_iff_forall_ne_some, ne_eq, accepts]
  reordered _ _ h := objects _ _ (fields?_perm h)
  unknown _ _ _ h := objects _ _ (fields?_drop h)
  form _ h alike := forms _ _ alike (fields?_array h different)

/-- The type of a literal is a string, as it must be in an array. -/
def Literal.StringTyped (values : List Json) : Prop :=
  ∃ name, values.head? = some (.string name)

theorem Literal.ofJson?_form {entries : List (String × Json)} {items : List Json}
    (h : StringTyped items)
    (same : (object entries).fields? ["type", "value"] = (array items).fields? ["type", "value"]) :
    ofJson? (.object entries) = ofJson? (.array items) := by
  have record :
      (object entries).record? ["type", "value"] = (array items).record? ["type", "value"] := by
    rw [record?, record?, same]
  cases found : (array items).record? ["type", "value"] with
  | none =>
    rw [ofJson?, ofJson?, record, found]
    rfl
  | some values =>
    cases (record?_eq_some.1 found).array_eq
    obtain ⟨name, hname⟩ := h
    obtain ⟨rest, rfl⟩ := List.head?_eq_some_iff.1 hname
    rw [ofJson?, ofJson?, record, found]
    rcases rest with _ | ⟨text, _ | ⟨_, _⟩⟩ <;> rfl

/-- Each type is decoded from its records, and a literal from those that write its type in either of
two ways. -/
theorem report_decodesRecords :
    DecodesRecords ["start", "end", "line", "column"] Span.ofJson? Span.Written (fun _ => True) ∧
    DecodesRecords ["file", "line", "column"] Location.ofJson? Location.Written (fun _ => True) ∧
    DecodesRecords ["code", "severity", "message", "location"] Diagnostic.ofJson?
      Diagnostic.Written (fun _ => True) ∧
    DecodesRecords ["token_count", "keyword_count", "error_count", "line_count"] Stats.ofJson?
      Stats.Written (fun _ => True) ∧
    DecodesRecords ["success", "source_file", "tokens", "diagnostics", "stats"] Report.ofJson?
      Report.Written (fun _ => True) ∧
    DecodesRecords ["kind", "lexeme", "literal", "span"] Token.ofJson? Token.Written
      (fun _ => True) ∧
    DecodesRecords ["type", "value"] Literal.ofJson? Literal.Written Literal.StringTyped := by
  refine ⟨?span, ?location, ?diagnostic, ?stats, ?report, ?token, ?literal⟩
  case span =>
    exact decodesRecords (by decide) (fun _ _ => Span.ofJson?_eq_some)
      (fun _ _ => Span.ofJson?_congr) fun _ _ _ => Span.ofJson?_congr
  case location =>
    exact decodesRecords (by decide) (fun _ _ => Location.ofJson?_eq_some)
      (fun _ _ => Location.ofJson?_congr) fun _ _ _ => Location.ofJson?_congr
  case diagnostic =>
    exact decodesRecords (by decide) (fun _ _ => Diagnostic.ofJson?_eq_some)
      (fun _ _ => Diagnostic.ofJson?_congr) fun _ _ _ => Diagnostic.ofJson?_congr
  case stats =>
    exact decodesRecords (by decide) (fun _ _ => Stats.ofJson?_eq_some)
      (fun _ _ => Stats.ofJson?_congr) fun _ _ _ => Stats.ofJson?_congr
  case report =>
    exact decodesRecords (by decide) (fun _ _ => Report.ofJson?_eq_some)
      (fun _ _ => Report.ofJson?_congr) fun _ _ _ => Report.ofJson?_congr
  case token =>
    exact decodesRecords (by decide) (fun _ _ => Token.ofJson?_eq_some)
      (fun _ _ => Token.ofJson?_congr) fun _ _ _ => Token.ofJson?_congr
  case literal =>
    exact decodesRecords (by decide) (fun _ _ => Literal.ofJson?_eq_some)
      (fun _ _ => Literal.ofJson?_object) fun _ _ => Literal.ofJson?_form

/-- A token without its literal, with a repeated unknown key, and a literal in both forms. -/
theorem report_decodesRecords_unordered :
    Token.Written
      (.object
        [("span", .array [.nat 0, .nat 1, .nat 1, .nat 1]), ("x", .null),
          ("kind", .object [("SEMICOLON", .null)]), ("x", .unpaired), ("lexeme", .string ";")])
      ⟨.punctuator .semicolon, ";", none, ⟨0, 1, 1, 1⟩⟩ ∧
    Literal.StringTyped [.string "number", .string "1.0"] ∧
    Literal.ofJson? (.object [("value", .string "1.0"), ("x", .null), ("type", .string "number")]) =
      Literal.ofJson? (.array [.string "number", .string "1.0"]) := by
  obtain ⟨-, -, -, -, -, token, literal⟩ := report_decodesRecords
  have typed : Literal.StringTyped [.string "number", .string "1.0"] := ⟨"number", rfl⟩
  have known := literal.unknown [("value", .string "1.0")] [("type", .string "number")]
    ("x", .null) (by decide)
  have ordered := literal.reordered _ _
    (List.Perm.swap ("type", .string "number") ("value", .string "1.0") [])
  have form := literal.form [("type", .string "number"), ("value", .string "1.0")] rfl typed
  exact ⟨(token.accepts _ _).1 rfl, typed, known.trans (ordered.trans form)⟩

/-- The type of a literal need not be a string in an object, but must be one in an array. -/
theorem literal_type_not_string :
    let type : Json := .object [("number", .null)]
    let j : Json := .object [("value", .string "1"), ("type", type)]
    ¬ ((Literal.ofJson? j).isSome = true ↔
      ∃ name text, name ∈ ["number", "string"] ∧
        HasAll ["type", "value"] j [.string name, .string text]) ∧
    Literal.ofJson? j ≠ Literal.ofJson? (.array [type, .string "1"]) := by
  intro type j
  have fields : j.record? ["type", "value"] = some [type, .string "1"] := rfl
  refine ⟨?_, nofun⟩
  intro h
  obtain ⟨name, text, -, asString⟩ := h.1 rfl
  rw [record?_eq_some.2 asString] at fields
  simp [type] at fields

end LoxLexer
