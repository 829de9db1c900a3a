import FuzzLang.Location
import FuzzLang.Number

/-!
# Tokens

A token has a kind, the text or number it was read from, and the place where it begins.
-/

namespace FuzzLang

namespace Token

inductive Kind where
  | declare
  | print
  | function
  | result
  | loop
  | number
  | string
  | identifier
  | arrow
  | operator
  | equals
  | leftBrace
  | rightBrace
  | leftBracket
  | rightBracket
  | leftParen
  | rightParen
  | semicolon
  | comma
  | colon
  deriving DecidableEq, Repr

namespace Kind

def all : List Kind :=
  [.declare, .print, .function, .result, .loop, .number, .string, .identifier, .arrow, .operator,
    .equals, .leftBrace, .rightBrace, .leftBracket, .rightBracket, .leftParen, .rightParen,
    .semicolon, .comma, .colon]

theorem mem_all (k : Kind) : k ∈ all := by cases k <;> decide

/-- The name of a kind in log lines. -/
def name : Kind → String
  | .declare => "Declare"
  | .print => "Print"
  | .function => "Function"
  | .result => "Return"
  | .loop => "Loop"
  | .number => "Number"
  | .string => "String"
  | .identifier => "Identifier"
  | .arrow => "Arrow"
  | .operator => "Operator"
  | .equals => "Equals"
  | .leftBrace => "LBrace"
  | .rightBrace => "RBrace"
  | .leftBracket => "LBracket"
  | .rightBracket => "RBracket"
  | .leftParen => "LParen"
  | .rightParen => "RParen"
  | .semicolon => "Semicolon"
  | .comma => "Comma"
  | .colon => "Colon"

def ofName? (s : String) : Option Kind := all.find? (·.name == s)

/-- The one spelling of a kind that has just one. -/
def spelling? : Kind → Option String
  | .declare => some "fuzzy"
  | .print => some "labs"
  | .function => some "suzy"
  | .result => some "flabs"
  | .loop => some "every"
  | .arrow => some "->"
  | .equals => some "="
  | .leftBrace => some "\x7b"
  | .rightBrace => some "\x7d"
  | .leftBracket => some "["
  | .rightBracket => some "]"
  | .leftParen => some "("
  | .rightParen => some ")"
  | .semicolon => some ";"
  | .comma => some ","
  | .colon => some ":"
  | .number | .string | .identifier | .operator => none

/-- What a reader is told to supply when a token of this kind is missing. -/
def describe : Kind → String
  | .number => "number"
  | .string => "string literal"
  | .identifier => "identifier"
  | .operator => "operator"
  | k => "'" ++ k.spelling?.getD "" ++ "'"

end Kind

/-- What a token was read from. Only numbers are kept as numbers. -/
inductive Lexeme where
  | text (value : String)
  | number (value : Number)
  deriving DecidableEq, Repr

namespace Lexeme

def shown : Lexeme → String
  | .text s => s
  | .number n => n.text

end Lexeme

end Token

open Token in
structure Token where
  kind : Kind
  lexeme : Lexeme
  location : Location := {}
  deriving DecidableEq, Repr

namespace Token

/-- A token as messages name it. -/
def shown (t : Token) : String :=
  match t.kind with
  | .identifier => "identifier '" ++ t.lexeme.shown ++ "'"
  | .number => "number " ++ t.lexeme.shown
  | .string => "string literal " ++ t.lexeme.shown
  | _ => "'" ++ t.lexeme.shown ++ "'"

/-- The name of an identifier. -/
def name? (t : Token) : Option String :=
  match t.kind, t.lexeme with
  | .identifier, .text s => some s
  | _, _ => none

/-- The value of a number. -/
def number? (t : Token) : Option Number :=
  match t.kind, t.lexeme with
  | .number, .number n => some n
  | _, _ => none

/-- The text of a string literal, quotes included. -/
def string? (t : Token) : Option String :=
  match t.kind, t.lexeme with
  | .string, .text s => some s
  | _, _ => none

end Token

end FuzzLang
