import FuzzLang.Expr
import FuzzLang.Location

/-!
# Statements

A program is read as a flat list of statements. The braces that close a loop are a statement of
their own, and a function is a header whose body is the statements after it.
-/

namespace FuzzLang

/-- The header of a function. -/
structure Signature where
  name : String
  argument : String
  inputType : String
  outputType : String
  deriving DecidableEq, Repr

inductive Node where
  | declare (name : String) (type : VarType) (value : Expr)
  | loop (element collection : String)
  | endLoop
  | function (signature : Signature)
  | result (value : Expr)
  | print (value : Expr)
  deriving DecidableEq, Repr

namespace Node

/-- The word for the sort of a statement. -/
def kindName : Node → String
  | .declare .. => "let"
  | .loop .. => "loop"
  | .endLoop => "end-loop"
  | .function _ => "function"
  | .result _ => "return"
  | .print _ => "print"

/-- A statement on one line. -/
def summary : Node → String
  | .declare name type value => "let " ++ name ++ ": " ++ type.name ++ " = " ++ value.text
  | .loop element collection => "loop " ++ element ++ " in " ++ collection
  | .endLoop => "end-loop"
  | .function s =>
    "function " ++ s.name ++ "(" ++ s.argument ++ ": " ++ s.inputType ++ ") -> " ++ s.outputType
  | .result value => "return " ++ value.text
  | .print value => "print " ++ value.text

end Node

/-- A range of token positions; `stop` is not in it. -/
structure Span where
  start : Nat := 0
  stop : Nat := 0
  deriving DecidableEq, Repr

/-- A statement with the tokens it was read from and the place of the first. -/
structure Entry where
  node : Node
  span : Span := {}
  location : Location := {}
  deriving DecidableEq, Repr

end FuzzLang
