import FuzzLang.Node

/-!
# Outlines

The outline of a program gathers the bodies of its functions and loops. Functions stand apart from
the items of the main body, and loops nest.
-/

namespace FuzzLang

/-- A declared variable. -/
structure Binding where
  name : String
  type : VarType
  value : Expr
  location : Location
  deriving DecidableEq, Repr

/-- A function with its body: variables, then the value it returns. -/
structure FunctionDef where
  signature : Signature
  body : List Binding
  returns : Expr
  location : Location
  deriving DecidableEq, Repr

/-- What a body holds. -/
inductive Item where
  | declare (binding : Binding)
  | print (value : Expr)
  | loop (element collection : String) (body : List Item) (location : Location)
  deriving Repr

structure Outline where
  functions : List FunctionDef := []
  main : List Item := []
  deriving Repr

namespace Outline

/-- Why a list of statements has no outline. -/
inductive Fault where
  /-- A statement of the kind `found` stands in a function where only variables and the returned
  value can. -/
  | functionBody (function found : String) (location : Location)
  | missingReturn (function : String) (location : Location)
  | unexpectedNode (kind : String) (location : Location)
  | unmatchedEndLoop (location : Location)
  | unclosedLoop (collection : String) (location : Location)
  | duplicateFunction (name : String) (location : Location)
  deriving DecidableEq, Repr

namespace Fault

def location : Fault → Location
  | .functionBody _ _ l | .missingReturn _ l | .unexpectedNode _ l | .unmatchedEndLoop l
  | .unclosedLoop _ l | .duplicateFunction _ l => l

def message : Fault → String
  | .functionBody function found l =>
    "Function '" ++ function ++ "' at " ++ l.text ++ ": a " ++ found ++
      " statement cannot appear in a function body"
  | .missingReturn function l =>
    "Function '" ++ function ++ "' at " ++ l.text ++ " has no return statement"
  | .unexpectedNode kind l =>
    "Cannot generate code for a " ++ kind ++ " statement at " ++ l.text
  | .unmatchedEndLoop l => "Closing brace at " ++ l.text ++ " does not match any open loop"
  | .unclosedLoop collection l =>
    "Loop over '" ++ collection ++ "' opened at " ++ l.text ++ " is never closed"
  | .duplicateFunction name l => "Function '" ++ name ++ "' at " ++ l.text ++ " is already defined"

end Fault

end Outline

end FuzzLang
