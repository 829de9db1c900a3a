import FuzzLang.Shell.State

/-!
# Words to fields

A word stands for the texts that come from its parts: parameters are replaced by their values,
commands by what they print and sums by their results. What comes from such a replacement is split
at blanks unless it is quoted.
-/

namespace FuzzLang.Shell

/-! ## Sums -/

namespace Sum

inductive Symbol where
  | number (value : Int64)
  | sign (c : Char)
  deriving DecidableEq

/-- The number that digits spell. -/
def ofDigits (ds : List Char) : Int64 :=
  ds.foldl (fun n d => n * 10 + Int64.ofNat (d.toNat - '0'.toNat)) 0

/-- The symbols of an expression. Names stand for numbers, with or without a dollar sign. -/
def symbols (valueOf : List Char → Int64) : (size : Nat) → List Char → List Symbol
  | 0, _ | _, [] => []
  | n + 1, c :: cs =>
    if c.isDigit then
      let digits := c :: cs.takeWhile Char.isDigit
      .number (ofDigits digits) :: symbols valueOf n (cs.dropWhile Char.isDigit)
    else if isNameStart c then
      .number (valueOf (c :: cs.takeWhile isNameChar)) ::
        symbols valueOf n (cs.dropWhile isNameChar)
    else if c = '$' then
      match cs with
      | d :: rest =>
        if d.isDigit ∨ d = '#' ∨ d = '?' then .number (valueOf [d]) :: symbols valueOf n rest
        else symbols valueOf n cs
      | [] => []
    else if c = ' ' ∨ c = '\t' ∨ c = '\n' then symbols valueOf n cs
    else .sign c :: symbols valueOf n cs

/-- The operators, those that bind less first. -/
def levels : List (List Char) := [['+', '-'], ['*', '/', '%']]

/-- Apply an operator. There is no quotient by zero. -/
def apply (sign : Char) (a b : Int64) : Except String Int64 :=
  match sign with
  | '+' => .ok (a + b)
  | '-' => .ok (a - b)
  | '*' => .ok (a * b)
  | _ =>
    if b = 0 then .error "division by zero" else .ok (if sign = '/' then a / b else a % b)

mutual

/-- The value of the operands that the operators of some levels join, and what follows them. -/
def joined : (depth : Nat) → List (List Char) → List Symbol → Except String (Int64 × List Symbol)
  | n + 1, signs :: tighter, symbols => do
    let (a, rest) ← joined n tighter symbols
    further n signs tighter a rest
  | _, [], .number a :: rest => .ok (a, rest)
  | n + 1, [], .sign '-' :: rest => do
    let (a, rest) ← joined n [] rest
    return (-a, rest)
  | n + 1, [], .sign '(' :: rest => do
    match ← joined n levels rest with
    | (a, .sign ')' :: rest) => return (a, rest)
    | _ => .error "expecting ')'"
  | _, _, _ => .error "expecting primary"

/-- Join further operands to the value `a`, from the left to the right. -/
def further : (depth : Nat) → (signs : List Char) → List (List Char) → (a : Int64) → List Symbol →
    Except String (Int64 × List Symbol)
  | n + 1, signs, tighter, a, .sign c :: rest =>
    if signs.contains c then do
      let (b, rest) ← joined n tighter rest
      further n signs tighter (← apply c a b) rest
    else .ok (a, .sign c :: rest)
  | _, _, _, a, rest => .ok (a, rest)

end

/-- The value of an expression. -/
def value (valueOf : List Char → Int64) (text : String) : Except String Int64 := do
  let all := symbols valueOf text.length text.toList
  match ← joined (4 * all.length + 4) levels all with
  | (a, []) => return a
  | _ => .error "expecting EOF"

end Sum

/-! ## Parts -/

/-- What a part adds to the fields of a word. -/
inductive Piece where
  /-- A text as it is. -/
  | whole (text : String)
  /-- A text that is split at blanks. -/
  | loose (text : String)
  /-- The end of a field. -/
  | border
  deriving DecidableEq, Repr

namespace Piece

def ofText (quoted : Bool) (s : String) : Piece := if quoted then .whole s else .loose s

def text : Piece → String
  | .whole s | .loose s => s
  | .border => " "

end Piece

namespace Expand

/-- The number of the process that a script runs in. -/
def processNumber : Nat := 4242

/-- The value of a parameter. -/
def value (s : State) (name : String) : String :=
  match name with
  | "#" => toString s.arguments.length
  | "?" => toString s.status
  | "$" => toString processNumber
  | "0" => s.script
  | "*" => " ".intercalate s.arguments
  | _ =>
    match name.toNat? with
    | some n => s.arguments.getD (n - 1) ""
    | none => (s.values.lookup name).getD ""

/-- The number that a parameter stands for in a sum. -/
def number (s : State) (name : List Char) : Int64 :=
  Int64.ofInt (((value s (String.ofList name)).toInt?).getD 0)

/-- The output of a command, without the line ends at its end. -/
def output (e : Engine) (body : Command) : Act String := do
  let target ← Act.openText ""
  let _ ← Act.apart e 1 target body
  let (text, world) := (← get).world.read target
  modify ({ · with world })
  return String.ofList (text.toList.reverse.dropWhile (· == '\n')).reverse

def pieces (e : Engine) : Part → Act (List Piece)
  | .text s => return [.whole s]
  | .parameter "@" quoted => do
    return [Piece.border].intercalate ((← get).arguments.map ([Piece.ofText quoted ·]))
  | .parameter name quoted => do return [.ofText quoted (value (← get) name)]
  | .output body quoted => do return [.ofText quoted (← output e body)]
  | .sum expression => do
    match Sum.value (number (← get)) expression with
    | .ok n => return [.whole (toString n.toInt)]
    | .error message =>
      Act.fatal ("arithmetic expression: " ++ message ++ ": \"" ++ expression ++ "\"")

def wordPieces (e : Engine) (w : Word) : Act (List Piece) := do return (← w.mapM (pieces e)).flatten

/-- The one text of a word that is not split. -/
def single (e : Engine) (w : Word) : Act String := do
  return String.join ((← wordPieces e w).map Piece.text)

/-! ## Fields -/

/-- Fields under way: those that are finished, the last first, and the one that is open. -/
structure Splitting where
  done : List String := []
  open? : Option String := none

namespace Splitting

def close (s : Splitting) : Splitting := { done := s.open?.toList ++ s.done }

def add (s : Splitting) (text : String) : Splitting :=
  { s with open? := some (s.open?.getD "" ++ text) }

def step (s : Splitting) : Piece → Splitting
  | .whole text => s.add text
  | .border => s.close
  | .loose text => text.toList.foldl (fun s c =>
      if c = ' ' ∨ c = '\t' ∨ c = '\n' then s.close else s.add (String.singleton c)) s

end Splitting

/-- The fields of a word. -/
def fields (e : Engine) (w : Word) : Act (List String) := do
  return ((← wordPieces e w).foldl Splitting.step {}).close.done.reverse

def allFields (e : Engine) (ws : List Word) : Act (List String) := do
  return (← ws.mapM (fields e)).flatten

end Expand

end FuzzLang.Shell
