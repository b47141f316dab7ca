import LoxLexer.Json.Basic

/-!
# Decoding records

A record is an object in which each known key occurs once, in any order and among any other
entries, or an array of exactly the fields in their order. Scalars are never converted into one
another. A plain name is a string, or an object whose only entry has the name as its key and the
value null; a field that must be a string is not a plain name.
-/
namespace LoxLexer.Json

def string? : Json → Option String
  | string s => some s
  | _ => none

def bool? : Json → Option Bool
  | bool b => some b
  | _ => none

/-- A count that fits in 64 bits. -/
def count? : Json → Option Nat
  | nat n => if n < UInt64.size then some n else none
  | _ => none

def list? {α : Type} (decode : Json → Option α) : Json → Option (List α)
  | array items => items.mapM decode
  | _ => none

/-- Null for no value. -/
def orNull? {α : Type} (decode : Json → Option α) : Json → Option (Option α)
  | null => some none
  | j => (decode j).map some

/-- The value of a key that occurs at most once; `none` when it occurs more often. -/
def atKey? (key : String) (entries : List (String × Json)) : Option (Option Json) :=
  match entries.filter fun e => e.1 == key with
  | [] => some none
  | [e] => some (some e.2)
  | _ => none

/-- The fields of a record by name, an absent key as `none`; an array must hold them all. -/
def fields? (names : List String) : Json → Option (List (Option Json))
  | array items => if items.length = names.length then some (items.map some) else none
  | object entries => names.mapM fun name => atKey? name entries
  | _ => none

/-- The fields of a record that must all be present. -/
def record? (names : List String) (j : Json) : Option (List Json) :=
  (fields? names j).bind fun values => values.mapM id

def plainName? : Json → Option String
  | string s => some s
  | object [(name, null)] => some name
  | _ => none

end LoxLexer.Json
