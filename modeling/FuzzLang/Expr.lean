import FuzzLang.Number

/-!
# Types and expressions

The declared types of variables, the four operators, and the expressions that initialise, print
and return values. A string literal keeps its quotes.
-/

namespace FuzzLang

/-- The declared type of a variable. -/
inductive VarType where
  | int
  | float
  | string
  | array
  deriving DecidableEq, Repr

namespace VarType

def name : VarType → String
  | .int => "int"
  | .float => "float"
  | .string => "string"
  | .array => "array"

def ofName? : String → Option VarType
  | "int" => some .int
  | "float" => some .float
  | "string" => some .string
  | "array" => some .array
  | _ => none

@[simp] theorem ofName?_name (t : VarType) : ofName? t.name = some t := by cases t <;> rfl

end VarType

inductive Operator where
  | add
  | sub
  | mul
  | div
  deriving DecidableEq, Repr

namespace Operator

def symbol : Operator → String
  | .add => "+"
  | .sub => "-"
  | .mul => "*"
  | .div => "/"

def ofSymbol? : String → Option Operator
  | "+" => some .add
  | "-" => some .sub
  | "*" => some .mul
  | "/" => some .div
  | _ => none

@[simp] theorem ofSymbol?_symbol (o : Operator) : ofSymbol? o.symbol = some o := by
  cases o <;> rfl

end Operator

/-- A bracketed list of numbers with the element type and length of its declaration. -/
structure ArrayLiteral where
  elementType : String
  length : Nat
  values : List Number
  deriving DecidableEq, Repr

inductive Expr where
  | variable (name : String)
  | number (value : Number)
  | string (text : String)
  | call (function : String) (argument : Expr)
  | binary (left : Expr) (operator : Operator) (right : Expr)
  | array (literal : ArrayLiteral)
  deriving DecidableEq, Repr

namespace Expr

/-- A literal is a number, a string or an array. -/
def isLiteral : Expr → Bool
  | .number _ | .string _ | .array _ => true
  | .variable _ | .call _ _ | .binary _ _ _ => false

/-- An expression as the target language writes it. -/
def text : Expr → String
  | .variable name => name
  | .number n => n.text
  | .string s => s
  | .call function argument => function ++ "(" ++ argument.text ++ ")"
  | .binary left operator right => left.text ++ " " ++ operator.symbol ++ " " ++ right.text
  | .array literal => "[" ++ ", ".intercalate (literal.values.map Number.text) ++ "]"

end Expr

end FuzzLang
