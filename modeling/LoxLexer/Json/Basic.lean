/-!
# JSON values

Objects keep their entries in order and may repeat a key. A number is a natural number when it is
written as one; any other number keeps its text, since nothing here computes with it.
-/
namespace LoxLexer

/--
The value `unpaired` stands for a string in which half of a surrogate pair is escaped alone, and
for an object with such a key. It is well-formed JSON without a text, so nothing decodes it, but
it can be ignored.
-/
inductive Json
  | null
  | bool (b : Bool)
  | nat (n : Nat)
  | number (text : String)
  | string (s : String)
  | unpaired
  | array (items : List Json)
  | object (entries : List (String × Json))

namespace Json

/-- How a document is laid out: on one line without blanks, or with one element a line. -/
inductive Layout
  | compact
  | indented
deriving DecidableEq, Repr

namespace Layout

/-- What separates two elements at a depth of nesting. -/
def lineBreak : Layout → Nat → String
  | compact, _ => ""
  | indented, depth => String.ofList ('\n' :: List.replicate (2 * depth) ' ')

def colon : Layout → String
  | compact => ":"
  | indented => ": "

end Layout

/-- A digit below 16 in lower case. -/
def hexDigit (n : Nat) : Char :=
  if n < 10 then Char.ofNat (48 + n) else Char.ofNat (87 + n)

/-- A character inside a string: control characters, quotes and backslashes are escaped. -/
def escape (c : Char) : List Char :=
  if c = '"' then ['\\', '"']
  else if c = '\\' then ['\\', '\\']
  else if c = '\x08' then ['\\', 'b']
  else if c = '\x0c' then ['\\', 'f']
  else if c = '\n' then ['\\', 'n']
  else if c = '\r' then ['\\', 'r']
  else if c = '\t' then ['\\', 't']
  else if c.toNat < 0x20 then
    ['\\', 'u', '0', '0', hexDigit (c.toNat / 16), hexDigit (c.toNat % 16)]
  else [c]

def quote (s : String) : String :=
  String.ofList ('"' :: s.toList.flatMap escape ++ ['"'])

/-- Parts between brackets; without parts the brackets stand side by side. -/
def bracket (layout : Layout) (depth : Nat) (opening closing : String) (parts : List String) :
    String :=
  if parts.isEmpty then opening ++ closing
  else
    opening ++ layout.lineBreak (depth + 1) ++
      String.intercalate ("," ++ layout.lineBreak (depth + 1)) parts ++
      layout.lineBreak depth ++ closing

theorem sizeOf_value_lt {e : String × Json} {entries : List (String × Json)} (h : e ∈ entries) :
    sizeOf e.2 < sizeOf (object entries) := by
  have := List.sizeOf_lt_of_mem h
  obtain ⟨key, value⟩ := e
  simp only [Prod.mk.sizeOf_spec, object.sizeOf_spec] at *
  omega

/-- The text of a value inside `depth` arrays and objects. -/
def write (layout : Layout) (depth : Nat) : Json → String
  | null => "null"
  | bool b => if b then "true" else "false"
  | nat n => toString n
  | number text => text
  | string s => quote s
  | unpaired => "\"\\ud800\""
  | array items => bracket layout depth "[" "]" (items.map (write layout (depth + 1)))
  | object entries =>
    bracket layout depth "\x7b" "\x7d"
      (entries.map fun e => quote e.1 ++ layout.colon ++ write layout (depth + 1) e.2)
termination_by j => sizeOf j
decreasing_by
  · have := List.sizeOf_lt_of_mem ‹_ ∈ items›
    simp_wf
    omega
  · exact sizeOf_value_lt ‹e ∈ entries›

def compact (j : Json) : String :=
  j.write .compact 0

def pretty (j : Json) : String :=
  j.write .indented 0

end Json

end LoxLexer
