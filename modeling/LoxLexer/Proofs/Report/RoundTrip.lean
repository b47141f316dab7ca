import LoxLexer.Proofs.Json.RoundTrip
import LoxLexer.Report.Encoding

/-!
# Reports read back

A report whose counts fit in 64 bits is decoded from its text, on one line or indented, and so is
every part of it. Two reports with the same text are equal.
-/
namespace LoxLexer

/-- Offsets, line and column fit in 64 bits. -/
structure Span.Fits (s : Span) : Prop where
  start : s.start < UInt64.size
  stop : s.stop < UInt64.size
  line : s.line < UInt64.size
  column : s.column < UInt64.size

def Token.Fits (t : Token) : Prop :=
  t.span.Fits

structure Location.Fits (l : Location) : Prop where
  line : l.line < UInt64.size
  column : l.column < UInt64.size

def Diagnostic.Fits (d : Diagnostic) : Prop :=
  d.location.Fits

structure Stats.Fits (s : Stats) : Prop where
  tokens : s.tokenCount < UInt64.size
  keywords : s.keywordCount < UInt64.size
  errors : s.errorCount < UInt64.size
  lines : s.lineCount < UInt64.size

/-- Every count in the report fits in 64 bits; its texts and lists may be of any length. -/
structure Report.Fits (r : Report) : Prop where
  tokens : ∀ t ∈ r.tokens, t.Fits
  diagnostics : ∀ d ∈ r.diagnostics, d.Fits
  stats : r.stats.Fits

open Json

/-- What is encoded is decoded again from its text, and so two values never have the same text. -/
structure Json.RoundTrips {α : Type} (encode : α → Json) (decode : Json → Option α)
    (Fits : α → Prop) : Prop where
  compact : ∀ x, Fits x → (parse? (encode x).compact).bind decode = some x
  pretty : ∀ x, Fits x → (parse? (encode x).pretty).bind decode = some x
  compact_injective : ∀ x y, Fits x → Fits y → (encode x).compact = (encode y).compact → x = y
  pretty_injective : ∀ x y, Fits x → Fits y → (encode x).pretty = (encode y).pretty → x = y

theorem Json.roundTrips {α : Type} {encode : α → Json} {decode : Json → Option α} {Fits : α → Prop}
    (plain : ∀ x, (encode x).Plain) (decodes : ∀ x, Fits x → decode (encode x) = some x) :
    RoundTrips encode decode Fits := by
  have reads (layout : Layout) (x : α) (hx : Fits x) :
      (parse? ((encode x).write layout 0)).bind decode = some x := by
    rw [parse?_write (plain x), Option.bind_some, decodes x hx]
  have injective (layout : Layout) (x y : α) (hx : Fits x) (hy : Fits y)
      (h : (encode x).write layout 0 = (encode y).write layout 0) : x = y := by
    have same := reads layout x hx
    rw [h, reads layout y hy] at same
    exact (Option.some.inj same).symm
  exact ⟨reads .compact, reads .indented, injective .compact, injective .indented⟩

attribute [simp] Plain.null Plain.bool Plain.nat Plain.string

namespace Span

theorem plain_toJson (s : Span) : s.toJson.Plain :=
  .object (by simp)

theorem ofJson?_toJson {s : Span} (h : s.Fits) : ofJson? s.toJson = some s := by
  have fields : s.toJson.record? ["start", "end", "line", "column"] =
      some [.nat s.start, .nat s.stop, .nat s.line, .nat s.column] :=
    record?_object rfl (by decide)
  simp [ofJson?, fields, count?_nat h.start, count?_nat h.stop, count?_nat h.line,
    count?_nat h.column]

end Span

theorem Kind.ofJson?_toJson (k : Kind) : ofJson? k.toJson = some k :=
  ofName?_eq_some_iff.2 rfl

namespace Literal

theorem plain_toJson (l : Literal) : l.toJson.Plain :=
  .object (by simp)

theorem ofJson?_toJson (l : Literal) : ofJson? l.toJson = some l := by
  have fields : l.toJson.record? ["type", "value"] = some [.string l.typeName, .string l.text] :=
    record?_object rfl (by decide)
  rw [ofJson?, fields]
  cases l <;> rfl

theorem plain_optionToJson (l : Option Literal) : (optionToJson l).Plain := by
  cases l with
  | none => exact .null
  | some l => exact l.plain_toJson

theorem orNull?_optionToJson (l : Option Literal) :
    (optionToJson l).orNull? ofJson? = some l := by
  cases l with
  | none => rfl
  | some l =>
    rw [optionToJson, orNull?, ofJson?_toJson]
    · rfl
    · simp [toJson]

end Literal

namespace Token

theorem plain_toJson (t : Token) : t.toJson.Plain :=
  .object (by simp [Kind.toJson, Literal.plain_optionToJson, Span.plain_toJson])

theorem ofJson?_toJson {t : Token} (h : t.Fits) : ofJson? t.toJson = some t := by
  have fields : t.toJson.fields? ["kind", "lexeme", "literal", "span"] =
      some [some t.kind.toJson, some (.string t.lexeme), some (Literal.optionToJson t.literal),
        some t.span.toJson] := fields?_object rfl (by decide)
  simp [ofJson?, fields, Kind.ofJson?_toJson, string?, Literal.orNull?_optionToJson,
    Span.ofJson?_toJson h]

end Token

theorem Severity.ofJson?_toJson (s : Severity) : ofJson? s.toJson = some s := by
  cases s
  rfl

namespace Location

theorem plain_toJson (l : Location) : l.toJson.Plain :=
  .object (by simp)

theorem ofJson?_toJson {l : Location} (h : l.Fits) : ofJson? l.toJson = some l := by
  have fields : l.toJson.record? ["file", "line", "column"] =
      some [.string l.file, .nat l.line, .nat l.column] := record?_object rfl (by decide)
  simp [ofJson?, fields, string?, count?_nat h.line, count?_nat h.column]

end Location

namespace Diagnostic

theorem plain_toJson (d : Diagnostic) : d.toJson.Plain :=
  .object (by simp [Severity.toJson, Location.plain_toJson])

theorem ofJson?_toJson {d : Diagnostic} (h : d.Fits) : ofJson? d.toJson = some d := by
  have fields : d.toJson.record? ["code", "severity", "message", "location"] =
      some [.string d.code, d.severity.toJson, .string d.message, d.location.toJson] :=
    record?_object rfl (by decide)
  simp [ofJson?, fields, string?, Severity.ofJson?_toJson, Location.ofJson?_toJson h]

end Diagnostic

namespace Stats

theorem plain_toJson (s : Stats) : s.toJson.Plain :=
  .object (by simp)

theorem ofJson?_toJson {s : Stats} (h : s.Fits) : ofJson? s.toJson = some s := by
  have fields : s.toJson.record? ["token_count", "keyword_count", "error_count", "line_count"] =
      some [.nat s.tokenCount, .nat s.keywordCount, .nat s.errorCount, .nat s.lineCount] :=
    record?_object rfl (by decide)
  simp [ofJson?, fields, count?_nat h.tokens, count?_nat h.keywords, count?_nat h.errors,
    count?_nat h.lines]

end Stats

namespace Report

theorem plain_toJson (r : Report) : r.toJson.Plain := by
  have tokens : (Json.array (r.tokens.map Token.toJson)).Plain :=
    .array (by simp [Token.plain_toJson])
  have diagnostics : (Json.array (r.diagnostics.map Diagnostic.toJson)).Plain :=
    .array (by simp [Diagnostic.plain_toJson])
  exact .object (by simp [tokens, diagnostics, Stats.plain_toJson])

theorem ofJson?_toJson {r : Report} (h : r.Fits) : ofJson? r.toJson = some r := by
  have fields : r.toJson.record? ["success", "source_file", "tokens", "diagnostics", "stats"] =
      some [.bool r.success, .string r.sourceFile, .array (r.tokens.map Token.toJson),
        .array (r.diagnostics.map Diagnostic.toJson), r.stats.toJson] :=
    record?_object rfl (by decide)
  have tokens := list?_array fun t ht => Token.ofJson?_toJson (h.tokens t ht)
  have diagnostics := list?_array fun d hd => Diagnostic.ofJson?_toJson (h.diagnostics d hd)
  simp [ofJson?, fields, bool?, string?, tokens, diagnostics, Stats.ofJson?_toJson h.stats]

end Report

/-- Reports and all their parts are decoded from their texts. -/
theorem report_roundTrips :
    (∀ r : Report, r.Fits → (parse? r.text).bind Report.ofJson? = some r) ∧
    RoundTrips Report.toJson Report.ofJson? Report.Fits ∧
    RoundTrips Token.toJson Token.ofJson? Token.Fits ∧
    RoundTrips Literal.toJson Literal.ofJson? (fun _ => True) ∧
    RoundTrips Span.toJson Span.ofJson? Span.Fits ∧
    RoundTrips Location.toJson Location.ofJson? Location.Fits ∧
    RoundTrips Diagnostic.toJson Diagnostic.ofJson? Diagnostic.Fits ∧
    RoundTrips Stats.toJson Stats.ofJson? Stats.Fits := by
  have report : RoundTrips Report.toJson Report.ofJson? Report.Fits :=
    roundTrips Report.plain_toJson fun _ => Report.ofJson?_toJson
  refine ⟨report.pretty, report, ?_, ?_, ?_, ?_, ?_, ?_⟩
  · exact roundTrips Token.plain_toJson fun _ => Token.ofJson?_toJson
  · exact roundTrips Literal.plain_toJson fun l _ => l.ofJson?_toJson
  · exact roundTrips Span.plain_toJson fun _ => Span.ofJson?_toJson
  · exact roundTrips Location.plain_toJson fun _ => Location.ofJson?_toJson
  · exact roundTrips Diagnostic.plain_toJson fun _ => Diagnostic.ofJson?_toJson
  · exact roundTrips Stats.plain_toJson fun _ => Stats.ofJson?_toJson

/-- A report made by hand: its texts hold quotes, a backslash, control characters and a character
beyond the basic plane, and its counts are the largest ones. -/
theorem report_roundTrips_extremes :
    let last : Span := ⟨18446744073709551615, 0, 18446744073709551615, 0⟩
    let r : Report :=
      ⟨true, "dir\\\"a\".lox\t",
        [⟨.string, "\"\u0001😀\"", some (.string "\u0001😀"), last⟩, ⟨.eof, "\n", none, last⟩],
        [⟨"E9", .error, "", ⟨"\r", 18446744073709551615, 0⟩⟩],
        ⟨0, 18446744073709551615, 1, 7⟩⟩
    r.Fits ∧ (parse? r.text).bind Report.ofJson? = some r := by
  intro last r
  have hlast : last.Fits := ⟨by decide, by decide, by decide, by decide⟩
  have fits : r.Fits := by
    refine ⟨?_, ?_, ⟨by decide, by decide, by decide, by decide⟩⟩
    · intro t ht
      simp only [r, List.mem_cons, List.not_mem_nil, or_false] at ht
      rcases ht with rfl | rfl <;> exact hlast
    · intro d hd
      simp only [r, List.mem_singleton] at hd
      subst hd
      exact ⟨by decide, by decide⟩
  exact ⟨fits, report_roundTrips.1 r fits⟩

end LoxLexer
