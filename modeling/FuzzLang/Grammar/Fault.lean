import FuzzLang.Node
import FuzzLang.Token.Basic

/-!
# What can be wrong with a program

A slot is a position in the grammar that some token has to fill. Most faults are a slot filled by
the wrong token or left empty at the end of the input; the others concern the value of a
declaration.
-/

namespace FuzzLang.Grammar

/-- A position in the grammar. -/
inductive Slot where
  | typeName
  | arrayOpen
  | elementType
  | shapeSeparator
  | arrayLength
  | shapeClose
  | variableName
  | equals
  | operand
  | operator
  | rightOperand
  | callArgument
  | callClose
  | arrayItem
  | loopElement
  | loopIn
  | loopCollection
  | loopOpen
  | functionName
  | functionOpen (name : String)
  | argumentName
  | argumentColon
  | inputType
  | argumentClose
  | arrow
  | outputType
  | bodyOpen
  | resultValue
  | bodyClose
  | printOpen
  | printValue
  | printClose
  deriving DecidableEq, Repr

/-- The kinds of faults that messages are filed under. -/
inductive FaultKind where
  | unexpectedToken
  | missingToken
  | unexpectedEnd
  | invalidType
  | invalidArrayLiteral
  | arrayLengthMismatch
  | typeMismatch
  deriving DecidableEq, Repr

namespace Slot

/-- The kind of fault it is to fill a slot with the wrong token. -/
def kind : Slot → FaultKind
  | .typeName => .invalidType
  | .arrayItem => .invalidArrayLiteral
  | .arrayOpen | .shapeSeparator | .shapeClose | .equals | .callClose | .loopIn | .loopOpen
  | .functionOpen _ | .argumentColon | .argumentClose | .arrow | .bodyOpen | .bodyClose
  | .printOpen | .printClose => .missingToken
  | _ => .unexpectedToken

/-- The complaint about a slot that `found` does not fill. -/
def complaint (slot : Slot) (found : Token) : String :=
  let expected (what : String) := what ++ ", found " ++ found.shown
  match slot with
  | .typeName => "Invalid type: " ++ found.lexeme.shown
  | .arrayOpen => expected "Expected '[' after 'array'"
  | .elementType => expected "Expected identifier as array element type"
  | .shapeSeparator => expected "Expected ';' after array element type"
  | .arrayLength => expected "Expected array length"
  | .shapeClose => expected "Expected ']' after array length"
  | .variableName => expected "Expected identifier as variable name"
  | .equals => expected "Expected '=' after variable declaration"
  | .operand =>
    if found.kind = .operator then "No left expression declared before " ++ found.shown
    else expected "No expression declared"
  | .operator => "Unknown operator " ++ found.shown
  | .rightOperand => expected "No right expression declared"
  | .callArgument => expected "Function arguments must be identifiers or numbers"
  | .callClose => expected "Expected ')' after function argument"
  | .arrayItem => expected "Array literals may only contain numbers"
  | .loopElement => expected "Expected identifier as loop element"
  | .loopIn => expected "Expected 'in' after loop element"
  | .loopCollection => expected "Expected identifier as loop collection"
  | .loopOpen => expected "Expected '\x7b' to open loop body"
  | .functionName => expected "Expected identifier as function name"
  | .functionOpen name => expected ("Function '" ++ name ++ "' is not constructed properly")
  | .argumentName => "Unexpected argument value: " ++ found.lexeme.shown
  | .argumentColon => expected "Expected ':' after argument name"
  | .inputType => expected "Expected identifier as argument type"
  | .argumentClose => expected "Expected ')' after argument type"
  | .arrow => expected "Expected '->' after parameter list"
  | .outputType => expected "Expected identifier as return type"
  | .bodyOpen => expected "Expected '\x7b' to open function body"
  | .resultValue => expected "Can only return identifiers or numbers"
  | .bodyClose => expected "Expected '\x7d' to close function body"
  | .printOpen => expected "Expected '(' after 'labs'"
  | .printValue => expected "Can only print identifiers or numbers"
  | .printClose => expected "Expected ')' after printed value"

/-- What a slot waits for. -/
def awaits : Slot → String
  | .typeName => "a type name"
  | .arrayOpen => "'['"
  | .shapeSeparator => "';'"
  | .arrayLength => "an array length"
  | .shapeClose => "']'"
  | .equals => "'='"
  | .operand | .rightOperand => "an expression"
  | .operator => "an operator"
  | .callArgument | .resultValue | .printValue => "an identifier or number"
  | .callClose | .argumentClose | .printClose => "')'"
  | .arrayItem => "']' to close array literal"
  | .loopIn => "'in'"
  | .loopOpen | .bodyOpen => "'\x7b'"
  | .functionOpen _ | .printOpen => "'('"
  | .argumentName => "a function argument"
  | .argumentColon => "':'"
  | .arrow => "'->'"
  | .bodyClose => "'\x7d'"
  | .elementType | .variableName | .loopElement | .loopCollection | .functionName | .inputType
  | .outputType => "identifier"

/-- The complaint about a slot that the end of the input leaves empty. -/
def endComplaint : Slot → String
  | .rightOperand => "No right operand declared"
  | slot => "Expected " ++ slot.awaits ++ ", found end of input"

end Slot

/-- Why a list of tokens is no program. -/
inductive Fault where
  /-- No statement begins with this token. -/
  | stray (found : Token)
  /-- A slot is filled by the wrong token. -/
  | wrong (slot : Slot) (found : Token)
  /-- The input ends before a slot is filled. -/
  | ended (slot : Slot)
  /-- An array literal where no array is declared. -/
  | bracketsOutsideArray (location : Location)
  /-- An array declared with something else than a literal. -/
  | literalRequired (location : Location)
  | lengthMismatch (declared supplied : Nat) (location : Location)
  /-- A literal of the wrong sort for the declared type. -/
  | typeMismatch (type : VarType) (value : Expr) (location : Location)
  deriving DecidableEq, Repr

/-- A literal as messages name it. -/
def describeLiteral : Expr → String
  | .number n => "literal " ++ n.text
  | .string s => "literal " ++ s
  | .array literal => literal.elementType ++ " array literal"
  | _ => "expression"

namespace Fault

def kind : Fault → FaultKind
  | .stray _ => .unexpectedToken
  | .wrong slot _ => slot.kind
  | .ended _ => .unexpectedEnd
  | .bracketsOutsideArray _ | .literalRequired _ => .invalidArrayLiteral
  | .lengthMismatch .. => .arrayLengthMismatch
  | .typeMismatch .. => .typeMismatch

def message : Fault → String
  | .stray found => "Unexpected token: " ++ found.lexeme.shown
  | .wrong slot found => slot.complaint found
  | .ended slot => slot.endComplaint
  | .bracketsOutsideArray _ => "Using square brackets in non-array based value"
  | .literalRequired _ => "Array declaration requires a bracketed literal"
  | .lengthMismatch declared supplied _ =>
    "Array declared with length " ++ toString declared ++ " but " ++ toString supplied ++
      " values supplied"
  | .typeMismatch type value _ =>
    "Cannot initialize " ++ type.name ++ " binding with " ++ describeLiteral value

/-- The place of a fault. Where the input ends there is none. -/
def location? : Fault → Option Location
  | .stray found | .wrong _ found => some found.location
  | .ended _ => none
  | .bracketsOutsideArray l | .literalRequired l | .lengthMismatch _ _ l
  | .typeMismatch _ _ l => some l

end Fault

/-- A fault and its place. -/
structure Error where
  fault : Fault
  location : Location
  deriving DecidableEq, Repr

namespace Error

def message (e : Error) : String :=
  "Parse error at line " ++ toString e.location.line ++ ", column " ++
    toString e.location.column ++ ": " ++ e.fault.message

end Error

end FuzzLang.Grammar
