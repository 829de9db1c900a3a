import FuzzLang.Grammar.Rule

/-!
# The grammar of statements

One rule per statement, each for what follows the first token. The value of a declaration is an
operand, or an operand, an operator and a name or number.
-/

namespace FuzzLang.Grammar

open Rule

/-! ## Values -/

/-- A name or a number. -/
def atom? (t : Token) : Option Expr :=
  match t.name?, t.number? with
  | some name, _ => some (.variable name)
  | none, some n => some (.number n)
  | none, none => none

/-- The element type and the length of a declared array. -/
structure Shape where
  elementType : String
  length : Nat
  deriving DecidableEq, Repr

/-- What an operand begins with. -/
inductive OperandHead where
  | name (value : String)
  | number (value : Number)
  | string (text : String)
  | bracket
  deriving DecidableEq, Repr

def operandHead? (t : Token) : Option OperandHead :=
  match t.kind, t.lexeme with
  | .identifier, .text s => some (.name s)
  | .number, .number n => some (.number n)
  | .string, .text s => some (.string s)
  | .leftBracket, _ => some .bracket
  | _, _ => none

/-- The numbers of an array literal up to its closing bracket. Commas stand anywhere. -/
def arrayItems : Rule (List Number)
  | [] => .error (.ended .arrayItem)
  | t :: ts =>
    match t.kind, t.lexeme with
    | .number, .number n =>
      match arrayItems ts with
      | .error fault => .error fault
      | .ok (ns, rest) => .ok (n :: ns, rest)
    | .comma, _ => arrayItems ts
    | .rightBracket, _ => .ok ([], ts)
    | _, _ => .error (.wrong .arrayItem t)

/-- An array literal after its opening bracket, which stands at `start`. -/
def arrayLiteral (start : Location) : Option Shape → Rule Expr
  | none => fail (.bracketsOutsideArray start)
  | some shape => do
    let values ← arrayItems
    if values.length = shape.length then
      return .array ⟨shape.elementType, shape.length, values⟩
    else fail (.lengthMismatch shape.length values.length start)

/-- A name alone, or the call of a function with a name or a number. -/
def nameOrCall (name : String) : Rule Expr := do
  if ← accept .leftParen then
    let argument ← fill .callArgument atom?
    expect .callClose .rightParen
    return .call name argument
  else return .variable name

/-- The operand that begins at `start`. -/
def operand (start : Location) (shape : Option Shape) : Rule Expr := do
  match ← fill .operand operandHead? with
  | .name s => nameOrCall s
  | .number n => return .number n
  | .string s => return .string s
  | .bracket => arrayLiteral start shape

/-- The operator of a token. -/
def operator? (t : Token) : Option Operator :=
  match t.lexeme with
  | .text s => Operator.ofSymbol? s
  | .number _ => none

/-- What may follow the first operand: an operator with a name or number. -/
def operatorTail (left : Expr) : Rule Expr := fun ts =>
  match ts with
  | t :: _ =>
    if t.kind = .operator then
      (do
        let operator ← fill .operator operator?
        let right ← fill .rightOperand atom?
        return .binary left operator right : Rule Expr) ts
    else .ok (left, ts)
  | [] => .ok (left, ts)

/-- Whether a literal cannot initialise a variable of a type. -/
def mismatched : VarType → Expr → Bool
  | .int, .number n => n.isFloat
  | .float, .number n => !n.isFloat
  | .int, .string _ | .float, .string _ => true
  | .string, .number _ => true
  | .array, .array literal =>
    match literal.elementType with
    | "int" => literal.values.any Number.isFloat
    | "float" => literal.values.any fun n => !n.isFloat
    | _ => false
  | _, _ => false

def isArray : Expr → Bool
  | .array _ => true
  | _ => false

/-- The value of a declaration, if it suits the declared type. -/
def checked (type : VarType) (start : Location) (value : Expr) : Rule Expr :=
  if type = .array ∧ isArray value = false then fail (.literalRequired start)
  else if mismatched type value then fail (.typeMismatch type value start)
  else return value

/-- The value of a declaration. -/
def initializer (type : VarType) (shape : Option Shape) : Rule Expr := do
  let start ← place
  let left ← operand start shape
  let value ← operatorTail left
  checked type start value

/-! ## Statements -/

/-- The text of a token, empty for a number. -/
def typeText (t : Token) : String :=
  match t.lexeme with
  | .text s => s
  | .number _ => ""

/-- A length is a number from zero up, whatever the kind of its token. -/
def length? (t : Token) : Option Nat :=
  match t.lexeme with
  | .number (.int n) => if 0 ≤ n then some n.toNat else none
  | _ => none

/-- The shape that follows the word `array`. -/
def arrayShape : Rule Shape := do
  expect .arrayOpen .leftBracket
  let elementType ← fill .elementType Token.name?
  expect .shapeSeparator .semicolon
  let length ← fill .arrayLength length?
  expect .shapeClose .rightBracket
  return ⟨elementType, length⟩

/-- The shape of a declared type; only arrays have one. -/
def shapeOf : VarType → Rule (Option Shape)
  | .array => do return some (← arrayShape)
  | _ => return none

def declaration : Rule Node := do
  let type ← fill .typeName fun t => VarType.ofName? (typeText t)
  let shape ← shapeOf type
  let name ← fill .variableName Token.name?
  expect .equals .equals
  let value ← initializer type shape
  return .declare name type value

def loop : Rule Node := do
  let element ← fill .loopElement Token.name?
  fill .loopIn fun t => if t.name? = some "in" then some () else none
  let collection ← fill .loopCollection Token.name?
  expect .loopOpen .leftBrace
  return .loop element collection

def function : Rule Node := do
  let name ← fill .functionName Token.name?
  expect (.functionOpen name) .leftParen
  let argument ← fill .argumentName Token.name?
  expect .argumentColon .colon
  let inputType ← fill .inputType Token.name?
  expect .argumentClose .rightParen
  expect .arrow .arrow
  let outputType ← fill .outputType Token.name?
  expect .bodyOpen .leftBrace
  return .function ⟨name, argument, inputType, outputType⟩

def result : Rule Node := do
  let value ← fill .resultValue atom?
  let _ ← accept .semicolon
  expect .bodyClose .rightBrace
  return .result value

def print : Rule Node := do
  expect .printOpen .leftParen
  let value ← fill .printValue atom?
  expect .printClose .rightParen
  return .print value

/-- The statement that begins with a token. -/
def statementAfter (first : Token) : Rule Node :=
  match first.kind with
  | .declare => declaration
  | .loop => loop
  | .rightBrace => return .endLoop
  | .function => function
  | .result => result
  | .print => print
  | _ => fail (.stray first)

/-- The statement that begins with a token, and a semicolon if one follows. -/
def terminated (first : Token) : Rule Node := do
  let node ← statementAfter first
  let _ ← accept .semicolon
  return node

/-! ## Every rule leaves a suffix -/

theorem trims_arrayItems : Trims arrayItems := by
  intro ts
  induction ts with
  | nil => intro a rest h; cases h
  | cons t ts ih =>
    intro a rest h
    simp only [arrayItems] at h
    split at h
    · split at h
      · cases h
      · rename_i ns mid hm
        cases h
        exact (ih _ _ hm).trans (List.suffix_cons _ _)
    · exact (ih _ _ h).trans (List.suffix_cons _ _)
    · cases h; exact List.suffix_cons _ _
    · cases h

theorem trims_arrayLiteral (start : Location) (shape : Option Shape) :
    Trims (arrayLiteral start shape) := by
  cases shape with
  | none => exact trims_fail _
  | some shape =>
    refine trims_arrayItems.bind fun values => ?_
    split
    · exact trims_pure _
    · exact trims_fail _

theorem trims_nameOrCall (name : String) : Trims (nameOrCall name) := by
  refine (trims_accept _).bind fun b => ?_
  split
  · exact (trims_fill _ _).bind fun _ => (trims_expect _ _).bind fun _ => trims_pure _
  · exact trims_pure _

theorem trims_operand (start : Location) (shape : Option Shape) : Trims (operand start shape) := by
  refine (trims_fill _ _).bind fun head => ?_
  cases head with
  | name s => exact trims_nameOrCall s
  | number n => exact trims_pure _
  | string s => exact trims_pure _
  | bracket => exact trims_arrayLiteral start shape

theorem trims_operatorTail (left : Expr) : Trims (operatorTail left) := by
  intro ts a rest h
  unfold operatorTail at h
  split at h
  · split at h
    · exact ((trims_fill _ _).bind fun _ => (trims_fill _ _).bind fun _ => trims_pure _) _ _ _ h
    · cases h; exact List.suffix_refl _
  · cases h; exact List.suffix_refl _

theorem trims_checked (type : VarType) (start : Location) (value : Expr) :
    Trims (checked type start value) := by
  unfold checked
  split
  · exact trims_fail _
  · split
    · exact trims_fail _
    · exact trims_pure _

theorem trims_initializer (type : VarType) (shape : Option Shape) :
    Trims (initializer type shape) :=
  trims_place.bind fun start => (trims_operand start shape).bind fun left =>
    (trims_operatorTail left).bind fun value => trims_checked type start value

theorem trims_arrayShape : Trims arrayShape :=
  (trims_expect _ _).bind fun _ => (trims_fill _ _).bind fun _ => (trims_expect _ _).bind fun _ =>
    (trims_fill _ _).bind fun _ => (trims_expect _ _).bind fun _ => trims_pure _

theorem trims_shapeOf (type : VarType) : Trims (shapeOf type) := by
  cases type with
  | array => exact trims_arrayShape.bind fun _ => trims_pure _
  | int => exact trims_pure _
  | float => exact trims_pure _
  | string => exact trims_pure _

theorem trims_declaration : Trims declaration :=
  (trims_fill _ _).bind fun type => (trims_shapeOf type).bind fun shape =>
    (trims_fill _ _).bind fun _ => (trims_expect _ _).bind fun _ =>
      (trims_initializer type shape).bind fun _ => trims_pure _

theorem trims_loop : Trims loop :=
  (trims_fill _ _).bind fun _ => (trims_fill _ _).bind fun _ => (trims_fill _ _).bind fun _ =>
    (trims_expect _ _).bind fun _ => trims_pure _

theorem trims_function : Trims function :=
  (trims_fill _ _).bind fun _ => (trims_expect _ _).bind fun _ => (trims_fill _ _).bind fun _ =>
    (trims_expect _ _).bind fun _ => (trims_fill _ _).bind fun _ => (trims_expect _ _).bind fun _ =>
      (trims_expect _ _).bind fun _ => (trims_fill _ _).bind fun _ =>
        (trims_expect _ _).bind fun _ => trims_pure _

theorem trims_result : Trims result :=
  (trims_fill _ _).bind fun _ => (trims_accept _).bind fun _ => (trims_expect _ _).bind fun _ =>
    trims_pure _

theorem trims_print : Trims print :=
  (trims_expect _ _).bind fun _ => (trims_fill _ _).bind fun _ => (trims_expect _ _).bind fun _ =>
    trims_pure _

theorem trims_statementAfter (first : Token) : Trims (statementAfter first) := by
  unfold statementAfter
  split
  · exact trims_declaration
  · exact trims_loop
  · exact trims_pure _
  · exact trims_function
  · exact trims_result
  · exact trims_print
  · exact trims_fail _

theorem trims_terminated (first : Token) : Trims (terminated first) :=
  (trims_statementAfter first).bind fun _ => (trims_accept _).bind fun _ => trims_pure _

end FuzzLang.Grammar
