import LoxLexer.Json.Record
import LoxLexer.Token.Basic

/-!
# Tokens as JSON

A token is an object of its kind, lexeme, literal and span. A kind is its name; a literal is an
object with its type and its text, or null. Decoding accepts any record of these fields. Two
details hang on the form of the record: a token may leave out its literal only in an object, and
the type of a literal is a plain name in an object but must be a string in an array.
-/
namespace LoxLexer

def Span.toJson (s : Span) : Json :=
  .object
    [("start", .nat s.start), ("end", .nat s.stop), ("line", .nat s.line),
      ("column", .nat s.column)]

def Span.ofJson? (j : Json) : Option Span := do
  let [start, stop, line, column] ← j.record? ["start", "end", "line", "column"] | none
  return ⟨← start.count?, ← stop.count?, ← line.count?, ← column.count?⟩

def Kind.toJson (k : Kind) : Json :=
  .string k.name

def Kind.ofJson? (j : Json) : Option Kind :=
  j.plainName?.bind Kind.ofName?

def Literal.typeName : Literal → String
  | number _ => "number"
  | string _ => "string"

def Literal.ofTypeName? (name : String) (text : String) : Option Literal :=
  if name = "number" then some (.number text)
  else if name = "string" then some (.string text)
  else none

def Literal.toJson (l : Literal) : Json :=
  .object [("type", .string l.typeName), ("value", .string l.text)]

/-- The name that the type of a literal holds, when `j` is the whole literal. -/
def Literal.typeName? (j type : Json) : Option String :=
  match j with
  | .array _ => type.string?
  | _ => type.plainName?

def Literal.ofJson? (j : Json) : Option Literal := do
  let [type, text] ← j.record? ["type", "value"] | none
  Literal.ofTypeName? (← Literal.typeName? j type) (← text.string?)

def Literal.optionToJson : Option Literal → Json
  | none => .null
  | some l => l.toJson

def Token.toJson (t : Token) : Json :=
  .object
    [("kind", t.kind.toJson), ("lexeme", .string t.lexeme),
      ("literal", Literal.optionToJson t.literal), ("span", t.span.toJson)]

def Token.ofJson? (j : Json) : Option Token := do
  let [some kind, some lexeme, literal, some span] ←
    j.fields? ["kind", "lexeme", "literal", "span"] | none
  return ⟨← Kind.ofJson? kind, ← lexeme.string?,
    ← (literal.getD .null).orNull? Literal.ofJson?, ← Span.ofJson? span⟩

end LoxLexer
