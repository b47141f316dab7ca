import LoxLexer.Json.Symbol

/-!
# From symbols to a value

Symbols are read from left to right with the arrays and objects still open as a stack. One step
reads one symbol or refuses it, and a text is accepted when its last symbol closes the only value.
There is no limit on the depth of nesting.
-/
namespace LoxLexer.Json

/--
An array or object still open, with what it holds so far, the last first. A key without a text is
kept as `none`.
-/
inductive Frame
  | array (before : List Json)
  | object (before : List (Option String × Json)) (key : Option String)

/-- What may come next inside the open arrays and objects. -/
inductive State
  | value (stack : List Frame)
  | firstElement (stack : List Frame)
  | firstKey (stack : List Frame)
  | key (before : List (Option String × Json)) (stack : List Frame)
  | colon (before : List (Option String × Json)) (key : Option String) (stack : List Frame)
  | closed (j : Json) (stack : List Frame)

/-- An object, unless one of its keys has no text. -/
def ofEntries (entries : List (Option String × Json)) : Json :=
  match entries.mapM fun e => e.1.map fun key => (key, e.2) with
  | some entries => object entries
  | none => unpaired

/-- Reads the symbol with which a value begins. -/
def beginValue? (stack : List Frame) : Symbol → Option State
  | .openArray => some (.firstElement stack)
  | .openObject => some (.firstKey stack)
  | .null => some (.closed null stack)
  | .bool b => some (.closed (bool b) stack)
  | .nat n => some (.closed (nat n) stack)
  | .number text => some (.closed (number text) stack)
  | .string (some s) => some (.closed (string s) stack)
  | .string none => some (.closed unpaired stack)
  | _ => none

def State.step? : State → Symbol → Option State
  | value stack, s => beginValue? stack s
  | firstElement stack, .closeArray => some (closed (array []) stack)
  | firstElement stack, s => beginValue? (.array [] :: stack) s
  | firstKey stack, .closeObject => some (closed (object []) stack)
  | firstKey stack, .string k => some (colon [] k stack)
  | key before stack, .string k => some (colon before k stack)
  | colon before k stack, .colon => some (value (.object before k :: stack))
  | closed j (.array before :: stack), .comma => some (value (.array (j :: before) :: stack))
  | closed j (.array before :: stack), .closeArray =>
    some (closed (array (j :: before).reverse) stack)
  | closed j (.object before k :: stack), .comma => some (key ((k, j) :: before) stack)
  | closed j (.object before k :: stack), .closeObject =>
    some (closed (ofEntries ((k, j) :: before).reverse) stack)
  | _, _ => none

def ofSymbols? (symbols : List Symbol) : Option Json :=
  match symbols.foldlM State.step? (.value []) with
  | some (.closed j []) => some j
  | _ => none

/-- The value of a JSON text. -/
def parse? (text : String) : Option Json :=
  (symbols? text.toList).bind ofSymbols?

end LoxLexer.Json
