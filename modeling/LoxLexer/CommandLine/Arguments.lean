/-!
# Arguments of the command line

There are two commands, each on one file, and a question for the version. Only `tokenize` has an
option, the format of its output, which may stand before or after the file. Two dashes end the
options; a single dash is a file name.
-/
namespace LoxLexer.CommandLine

inductive Format
  | text
  | json
deriving DecidableEq, Repr

namespace Format

def name : Format → String
  | text => "text"
  | json => "json"

def all : List Format :=
  [text, json]

def ofName? (name : String) : Option Format :=
  all.find? fun f => f.name == name

/-- The format that an argument chooses by itself. -/
def ofOption? (arg : String) : Option Format :=
  all.find? fun f => "--format=" ++ f.name == arg

end Format

inductive Command
  | version
  | tokenize (file : String) (format : Format)
  | check (file : String)
deriving DecidableEq, Repr

/-- What the arguments of a command have chosen so far. -/
structure Choice where
  file : Option String
  format : Option Format
deriving DecidableEq, Repr

namespace Choice

def none : Choice :=
  ⟨.none, .none⟩

/-- Takes the only file; its name is not empty. -/
def withFile? (c : Choice) (name : String) : Option Choice :=
  if name = "" ∨ c.file.isSome then .none else some { c with file := some name }

/-- Takes the format, once at most. -/
def withFormat? (c : Choice) (format : Option Format) : Option Choice :=
  match c.format, format with
  | .none, some f => some { c with format := some f }
  | _, _ => .none

end Choice

def isOption (arg : String) : Bool :=
  arg.toList.head? == some '-' && arg != "-"

/-- Reads the arguments after a command's name; `formats` tells whether it has the option. -/
def readChoice? (formats : Bool) (c : Choice) : List String → Option Choice
  | [] => some c
  | "--" :: files => files.foldlM Choice.withFile? c
  | "--format" :: value :: args =>
    if formats then (c.withFormat? (Format.ofName? value)).bind fun c => readChoice? formats c args
    else none
  | arg :: args =>
    if isOption arg then
      if formats then
        (c.withFormat? (Format.ofOption? arg)).bind fun c => readChoice? formats c args
      else none
    else (c.withFile? arg).bind fun c => readChoice? formats c args

/-- The command that the arguments ask for, unless they are refused. -/
def Command.ofArguments? : List String → Option Command
  | "tokenize" :: args => do
    let c ← readChoice? true Choice.none args
    return tokenize (← c.file) (c.format.getD .text)
  | "check" :: args => do
    let c ← readChoice? false Choice.none args
    return check (← c.file)
  | arg :: _ =>
    if arg = "--version" ∨ ['-', 'V'] <+: arg.toList then some version else none
  | [] => none

end LoxLexer.CommandLine
