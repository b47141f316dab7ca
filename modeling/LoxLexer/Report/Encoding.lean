import LoxLexer.Report.Basic
import LoxLexer.Token.Encoding

/-!
# Reports as JSON

Each structure is an object with its fields in a fixed order, and decodes from any record of them.
The report of a lexing is printed with one element a line.
-/
namespace LoxLexer

def Severity.toJson (s : Severity) : Json :=
  .string s.name

def Severity.ofJson? (j : Json) : Option Severity :=
  j.plainName?.bind fun name => Severity.all.find? fun s => s.name == name

def Location.toJson (l : Location) : Json :=
  .object [("file", .string l.file), ("line", .nat l.line), ("column", .nat l.column)]

def Location.ofJson? (j : Json) : Option Location := do
  let [file, line, column] ← j.record? ["file", "line", "column"] | none
  return ⟨← file.string?, ← line.count?, ← column.count?⟩

def Diagnostic.toJson (d : Diagnostic) : Json :=
  .object
    [("code", .string d.code), ("severity", d.severity.toJson), ("message", .string d.message),
      ("location", d.location.toJson)]

def Diagnostic.ofJson? (j : Json) : Option Diagnostic := do
  let [code, severity, message, location] ←
    j.record? ["code", "severity", "message", "location"] | none
  return ⟨← code.string?, ← Severity.ofJson? severity, ← message.string?,
    ← Location.ofJson? location⟩

def Stats.toJson (s : Stats) : Json :=
  .object
    [("token_count", .nat s.tokenCount), ("keyword_count", .nat s.keywordCount),
      ("error_count", .nat s.errorCount), ("line_count", .nat s.lineCount)]

def Stats.ofJson? (j : Json) : Option Stats := do
  let [tokens, keywords, errors, lines] ←
    j.record? ["token_count", "keyword_count", "error_count", "line_count"] | none
  return ⟨← tokens.count?, ← keywords.count?, ← errors.count?, ← lines.count?⟩

def Report.toJson (r : Report) : Json :=
  .object
    [("success", .bool r.success), ("source_file", .string r.sourceFile),
      ("tokens", .array (r.tokens.map Token.toJson)),
      ("diagnostics", .array (r.diagnostics.map Diagnostic.toJson)), ("stats", r.stats.toJson)]

def Report.ofJson? (j : Json) : Option Report := do
  let [success, file, tokens, diagnostics, stats] ←
    j.record? ["success", "source_file", "tokens", "diagnostics", "stats"] | none
  return ⟨← success.bool?, ← file.string?, ← tokens.list? Token.ofJson?,
    ← diagnostics.list? Diagnostic.ofJson?, ← Stats.ofJson? stats⟩

def Report.text (r : Report) : String :=
  r.toJson.pretty

end LoxLexer
