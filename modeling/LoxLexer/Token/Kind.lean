/-!
# Kinds of tokens

The nineteen punctuators, the sixteen reserved words, the three open classes and the end of the
input. Punctuators and reserved words are listed in the order of the language's definition; each
has one spelling, and each kind one upper-case name.
-/
namespace LoxLexer

inductive Punctuator
  | leftParen | rightParen | leftBrace | rightBrace | comma | dot | semicolon
  | plus | minus | star | slash
  | equal | equalEqual | bang | bangEqual | less | lessEqual | greater | greaterEqual
deriving DecidableEq, Repr

namespace Punctuator

def all : List Punctuator :=
  [leftParen, rightParen, leftBrace, rightBrace, comma, dot, semicolon, plus, minus, star, slash,
    equal, equalEqual, bang, bangEqual, less, lessEqual, greater, greaterEqual]

theorem mem_all (p : Punctuator) : p ∈ all := by
  cases p <;> decide

def text : Punctuator → List Char
  | leftParen => ['(']
  | rightParen => [')']
  | leftBrace => ['\x7b']
  | rightBrace => ['\x7d']
  | comma => [',']
  | dot => ['.']
  | semicolon => [';']
  | plus => ['+']
  | minus => ['-']
  | star => ['*']
  | slash => ['/']
  | equal => ['=']
  | equalEqual => ['=', '=']
  | bang => ['!']
  | bangEqual => ['!', '=']
  | less => ['<']
  | lessEqual => ['<', '=']
  | greater => ['>']
  | greaterEqual => ['>', '=']

def name : Punctuator → String
  | leftParen => "LEFT_PAREN"
  | rightParen => "RIGHT_PAREN"
  | leftBrace => "LEFT_BRACE"
  | rightBrace => "RIGHT_BRACE"
  | comma => "COMMA"
  | dot => "DOT"
  | semicolon => "SEMICOLON"
  | plus => "PLUS"
  | minus => "MINUS"
  | star => "STAR"
  | slash => "SLASH"
  | equal => "EQUAL"
  | equalEqual => "EQUAL_EQUAL"
  | bang => "BANG"
  | bangEqual => "BANG_EQUAL"
  | less => "LESS"
  | lessEqual => "LESS_EQUAL"
  | greater => "GREATER"
  | greaterEqual => "GREATER_EQUAL"

/-- The punctuator spelt by one character. -/
def ofChar? (c : Char) : Option Punctuator :=
  all.find? fun p => p.text == [c]

/-- The operator that an equals sign directly after `p` turns it into. -/
def withEqual? (p : Punctuator) : Option Punctuator :=
  all.find? fun q => q.text == p.text ++ ['=']

theorem text_of_ofChar? {c : Char} {p : Punctuator} (h : ofChar? c = some p) : p.text = [c] := by
  simpa using List.find?_some h

theorem text_of_withEqual? {p q : Punctuator} (h : p.withEqual? = some q) :
    q.text = p.text ++ ['='] := by
  simpa using List.find?_some h

end Punctuator

inductive Keyword
  | kwAnd | kwClass | kwElse | kwFalse | kwFor | kwFun | kwIf | kwNil
  | kwOr | kwPrint | kwReturn | kwSuper | kwThis | kwTrue | kwVar | kwWhile
deriving DecidableEq, Repr

namespace Keyword

def all : List Keyword :=
  [kwAnd, kwClass, kwElse, kwFalse, kwFor, kwFun, kwIf, kwNil, kwOr, kwPrint, kwReturn, kwSuper,
    kwThis, kwTrue, kwVar, kwWhile]

theorem mem_all (k : Keyword) : k ∈ all := by
  cases k <;> decide

def text : Keyword → List Char
  | kwAnd => ['a', 'n', 'd']
  | kwClass => ['c', 'l', 'a', 's', 's']
  | kwElse => ['e', 'l', 's', 'e']
  | kwFalse => ['f', 'a', 'l', 's', 'e']
  | kwFor => ['f', 'o', 'r']
  | kwFun => ['f', 'u', 'n']
  | kwIf => ['i', 'f']
  | kwNil => ['n', 'i', 'l']
  | kwOr => ['o', 'r']
  | kwPrint => ['p', 'r', 'i', 'n', 't']
  | kwReturn => ['r', 'e', 't', 'u', 'r', 'n']
  | kwSuper => ['s', 'u', 'p', 'e', 'r']
  | kwThis => ['t', 'h', 'i', 's']
  | kwTrue => ['t', 'r', 'u', 'e']
  | kwVar => ['v', 'a', 'r']
  | kwWhile => ['w', 'h', 'i', 'l', 'e']

def name : Keyword → String
  | kwAnd => "AND"
  | kwClass => "CLASS"
  | kwElse => "ELSE"
  | kwFalse => "FALSE"
  | kwFor => "FOR"
  | kwFun => "FUN"
  | kwIf => "IF"
  | kwNil => "NIL"
  | kwOr => "OR"
  | kwPrint => "PRINT"
  | kwReturn => "RETURN"
  | kwSuper => "SUPER"
  | kwThis => "THIS"
  | kwTrue => "TRUE"
  | kwVar => "VAR"
  | kwWhile => "WHILE"

/-- The reserved word with exactly this spelling; case matters. -/
def ofText? (word : List Char) : Option Keyword :=
  all.find? fun k => k.text == word

/-- A word is reserved exactly as one spelling of the table. -/
theorem ofText?_eq_some_iff {word : List Char} {k : Keyword} :
    ofText? word = some k ↔ word = k.text := by
  constructor
  · intro h
    have hk := List.find?_some h
    exact (eq_of_beq hk).symm
  · rintro rfl
    cases k <;> rfl

end Keyword

inductive Kind
  | punctuator (p : Punctuator)
  | number
  | string
  | identifier
  | keyword (k : Keyword)
  | eof
deriving DecidableEq, Repr

namespace Kind

def all : List Kind :=
  Punctuator.all.map punctuator ++ [number, string, identifier] ++ Keyword.all.map keyword ++ [eof]

theorem mem_all (k : Kind) : k ∈ all := by
  cases k <;> simp [all, Punctuator.mem_all, Keyword.mem_all]

def name : Kind → String
  | punctuator p => p.name
  | number => "NUMBER"
  | string => "STRING"
  | identifier => "IDENTIFIER"
  | keyword k => k.name
  | eof => "EOF"

def ofName? (name : String) : Option Kind :=
  all.find? fun k => k.name == name

def isKeyword : Kind → Bool
  | keyword _ => true
  | _ => false

/-- A name determines its kind, and every kind is found under its name. -/
theorem ofName?_eq_some_iff {n : String} {k : Kind} : ofName? n = some k ↔ n = k.name := by
  constructor
  · intro h
    have hk := List.find?_some h
    exact (eq_of_beq hk).symm
  · rintro rfl
    cases k with
    | punctuator p => cases p <;> rfl
    | keyword k => cases k <;> rfl
    | _ => rfl

end Kind

end LoxLexer
