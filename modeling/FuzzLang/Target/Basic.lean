import FuzzLang.Expr
import FuzzLang.Location

/-!
# The target language

Programs are written as Rust: the words for the scalar types, the type of an array, and indented
lines of text.
-/

namespace FuzzLang.Target

/-- Why an outline cannot be written. -/
inductive Fault where
  | unknownType (name : String) (location : Location)
  | missingArrayLiteral (name : String) (location : Location)
  deriving DecidableEq, Repr

namespace Fault

def location : Fault → Location
  | .unknownType _ l | .missingArrayLiteral _ l => l

def message : Fault → String
  | .unknownType name l =>
    "Type error at " ++ l.text ++ ": '" ++ name ++ "' is not a valid fuzz-lang type"
  | .missingArrayLiteral name l =>
    "Array binding '" ++ name ++ "' at " ++ l.text ++ " has no array literal"

end Fault

/-- The word for a scalar type. -/
def scalarWord? : String → Option String
  | "int" => some "i32"
  | "float" => some "f32"
  | "string" => some "&str"
  | _ => none

/-- The word for the scalar type that a program names at a place. -/
def scalarWord (name : String) (location : Location) : Except Fault String :=
  match scalarWord? name with
  | some word => .ok word
  | none => .error (.unknownType name location)

/-- The type of an array literal. -/
def arrayType (literal : ArrayLiteral) (location : Location) : Except Fault String :=
  match scalarWord literal.elementType location with
  | .error fault => .error fault
  | .ok word => .ok ("[" ++ word ++ "; " ++ toString literal.length ++ "]")

/-- A line of text, `depth` levels deep. -/
structure Line where
  depth : Nat
  text : String
  deriving DecidableEq, Repr

namespace Line

/-- A line with its indentation and a line feed. -/
def render (indent : String) (l : Line) : String :=
  String.join (List.replicate l.depth indent) ++ l.text ++ "\n"

end Line

/-- The text of lines. -/
def render (indent : String) (lines : List Line) : String :=
  String.join (lines.map (Line.render indent))

end FuzzLang.Target
