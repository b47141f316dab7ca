import LoxLexer.Lexing.Basic

/-!
# The log of a lexing

Every token and error is logged when it is met, and the counts at the end. A verbosity keeps the
records up to a level, in their order.
-/
namespace LoxLexer

inductive Level
  | error
  | warn
  | info
  | debug
  | trace
deriving DecidableEq, Repr

namespace Level

/-- Levels by falling importance. -/
def rank : Level → Nat
  | error => 1
  | warn => 2
  | info => 3
  | debug => 4
  | trace => 5

def name : Level → String
  | error => "ERROR"
  | warn => "WARN"
  | info => "INFO"
  | debug => "DEBUG"
  | trace => "TRACE"

def all : List Level :=
  [error, warn, info, debug, trace]

end Level

inductive Verbosity
  | off
  | upTo (level : Level)
deriving DecidableEq, Repr

namespace Verbosity

def allows (v : Verbosity) (level : Level) : Bool :=
  match v with
  | off => false
  | upTo most => level.rank ≤ most.rank

/-- A level's name or `off`, in letters of any case. -/
def ofName? (name : String) : Option Verbosity :=
  let upper := name.map Char.toUpper
  if upper = "OFF" then some off
  else (Level.all.find? fun level => level.name == upper).map upTo

end Verbosity

structure LogRecord where
  level : Level
  message : String
deriving DecidableEq, Repr

def Token.logRecord (t : Token) : LogRecord :=
  ⟨.trace, "token " ++ t.text⟩

def LexError.logRecord (e : LexError) : LogRecord :=
  ⟨.debug, e.report⟩

def Item.logRecord : Item → LogRecord
  | token t => t.logRecord
  | error e => e.logRecord

/-- The last record: how many tokens, with the end of input, lines and errors there were. -/
def LogRecord.summary (tokens lines errors : Nat) : LogRecord :=
  ⟨.debug,
    "scanned " ++ toString tokens ++ " tokens over " ++ toString lines ++ " lines, " ++
      toString errors ++ " errors"⟩

/-- All records of lexing a text: of what is found, in source order, and of the counts. -/
def recordsOf (cs : List Char) : List LogRecord :=
  let last := endToken cs
  let found := items cs
  let r := Lexing.ofItems found last
  found.map Item.logRecord ++ [.summary r.tokens.length last.line r.errors.length]

/-- The records of lexing a text that a verbosity allows. -/
def logChars (v : Verbosity) (cs : List Char) : List LogRecord :=
  (recordsOf cs).filter fun r => v.allows r.level

def log (v : Verbosity) (source : String) : List LogRecord :=
  logChars v source.toList

end LoxLexer
