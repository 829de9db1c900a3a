import FuzzLang.Outline.Basic
import FuzzLang.Target.Basic

/-!
# Writing an outline

Functions come first, in the order of the program, then `main`. A body is one level deeper than the
lines that open and close it.
-/

namespace FuzzLang.Target

/-- The type that a variable is declared with. -/
def writtenType (b : Binding) : Except Fault String :=
  match b.type, b.value with
  | .array, .array literal => arrayType literal b.location
  | .array, _ => .error (.missingArrayLiteral b.name b.location)
  | type, _ => scalarWord type.name b.location

def bindingLine (depth : Nat) (b : Binding) : Except Fault Line :=
  match writtenType b with
  | .error fault => .error fault
  | .ok type => .ok ⟨depth, "let " ++ b.name ++ ": " ++ type ++ " = " ++ b.value.text ++ ";"⟩

def bindingLines (depth : Nat) : List Binding → Except Fault (List Line)
  | [] => .ok []
  | b :: bs =>
    match bindingLine depth b, bindingLines depth bs with
    | .error fault, _ => .error fault
    | _, .error fault => .error fault
    | .ok line, .ok lines => .ok (line :: lines)

def printLine (depth : Nat) (value : Expr) : Line :=
  ⟨depth, "println!(\"\x7b\x7d\", " ++ value.text ++ ");"⟩

def loopLine (depth : Nat) (element collection : String) : Line :=
  ⟨depth, "for " ++ element ++ " in " ++ collection ++ ".iter() \x7b"⟩

def closeLine (depth : Nat) : Line := ⟨depth, "\x7d"⟩

mutual

/-- The lines of an item at a depth. -/
def itemLines (depth : Nat) : Item → Except Fault (List Line)
  | .declare b =>
    match bindingLine depth b with
    | .error fault => .error fault
    | .ok line => .ok [line]
  | .print value => .ok [printLine depth value]
  | .loop element collection body _ =>
    match bodyLines (depth + 1) body with
    | .error fault => .error fault
    | .ok lines => .ok (loopLine depth element collection :: lines ++ [closeLine depth])

/-- The lines of the items of a body. -/
def bodyLines (depth : Nat) : List Item → Except Fault (List Line)
  | [] => .ok []
  | item :: items =>
    match itemLines depth item, bodyLines depth items with
    | .error fault, _ => .error fault
    | _, .error fault => .error fault
    | .ok lines, .ok more => .ok (lines ++ more)

end

/-- The line that opens a function. -/
def headerLine (f : FunctionDef) : Except Fault Line :=
  match scalarWord f.signature.inputType f.location,
    scalarWord f.signature.outputType f.location with
  | .error fault, _ => .error fault
  | _, .error fault => .error fault
  | .ok input, .ok output =>
    .ok ⟨0, "fn " ++ f.signature.name ++ "(" ++ f.signature.argument ++ ": " ++ input ++ ") -> " ++
      output ++ " \x7b"⟩

def returnLine (value : Expr) : Line := ⟨1, "return " ++ value.text ++ ";"⟩

def functionLines (f : FunctionDef) : Except Fault (List Line) :=
  match headerLine f, bindingLines 1 f.body with
  | .error fault, _ => .error fault
  | _, .error fault => .error fault
  | .ok header, .ok body => .ok (header :: body ++ [returnLine f.returns, closeLine 0])

def functionsLines : List FunctionDef → Except Fault (List Line)
  | [] => .ok []
  | f :: fs =>
    match functionLines f, functionsLines fs with
    | .error fault, _ => .error fault
    | _, .error fault => .error fault
    | .ok lines, .ok more => .ok (lines ++ more)

def mainLine : Line := ⟨0, "fn main() \x7b"⟩

/-- The lines of a program. -/
def programLines (o : Outline) : Except Fault (List Line) :=
  match functionsLines o.functions, bodyLines 1 o.main with
  | .error fault, _ => .error fault
  | _, .error fault => .error fault
  | .ok functions, .ok body => .ok (functions ++ mainLine :: body ++ [closeLine 0])

/-- The text of a program. -/
def write (indent : String) (o : Outline) : Except Fault String :=
  (programLines o).map (render indent)

end FuzzLang.Target
