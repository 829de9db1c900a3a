import FuzzLang.Shell.Expand

/-!
# The shell's own commands

Commands that print, test, and change the shell itself.
-/

namespace FuzzLang.Shell.Builtin

open Act
open Host (Tree FileEntry)

/-! ## Printing -/

/-- What a backslash and a character stand for. -/
def escaped : Char → List Char
  | 'n' => ['\n']
  | 't' => ['\t']
  | 'r' => ['\r']
  | '\\' => ['\\']
  | c => ['\\', c]

def unescape : List Char → List Char
  | '\\' :: c :: cs => escaped c ++ unescape cs
  | c :: cs => c :: unescape cs
  | [] => []

def echo (args : List String) : Act Nat := do
  match args with
  | "-n" :: words => write 1 (String.ofList (unescape (" ".intercalate words).toList))
  | words => write 1 (String.ofList (unescape (" ".intercalate words).toList ++ ['\n']))
  return 0

/-- One pass over a layout: the text, and the arguments that are left. -/
def layout : List Char → List String → List Char × List String
  | '%' :: '%' :: cs, args =>
    let (text, left) := layout cs args
    ('%' :: text, left)
  | '%' :: 's' :: cs, args =>
    let (text, left) := layout cs (args.drop 1)
    ((args.headD "").toList ++ text, left)
  | '%' :: 'd' :: cs, args =>
    let (text, left) := layout cs (args.drop 1)
    ((toString ((args.headD "").toInt?.getD 0)).toList ++ text, left)
  | '\\' :: c :: cs, args =>
    let (text, left) := layout cs args
    (escaped c ++ text, left)
  | c :: cs, args =>
    let (text, left) := layout cs args
    (c :: text, left)
  | [], args => ([], args)

/-- Pass over a layout as long as that uses up arguments. -/
def layouts (cs : List Char) : Nat → List String → List Char
  | 0, _ => []
  | n + 1, args =>
    let (text, left) := layout cs args
    if left.isEmpty ∨ left.length = args.length then text else text ++ layouts cs n left

def printf (args : List String) : Act Nat := do
  match args with
  | [] => refuse "printf: usage: printf format [arg ...]" 2
  | cs :: rest =>
    write 1 (String.ofList (layouts cs.toList (rest.length + 1) rest))
    return 0

/-! ## Conditions -/

/-- The tests that compare numbers. -/
def comparisons : List (String × (Int → Int → Bool)) :=
  [("-eq", (· == ·)), ("-ne", (· != ·)), ("-ge", (· ≥ ·)), ("-gt", (· > ·)), ("-le", (· ≤ ·)),
    ("-lt", (· < ·))]

/-- The tests on a text or the file that it names. -/
def checks (t : Tree) : List (String × (String → Bool)) :=
  let file (test : FileEntry → Bool) (path : String) : Bool :=
    match t.find path with
    | .ok entry => test entry
    | .error _ => false
  [("-n", fun s => !s.isEmpty), ("-z", String.isEmpty), ("-e", file fun _ => true),
    ("-d", t.isDirectory), ("-f", fun path => file (fun _ => true) path && !t.isDirectory path),
    ("-s", file fun e => match e with
      | .file content _ => 0 < content.size
      | _ => true),
    ("-x", file fun e => match e with
      | .file _ executable => executable
      | _ => true)]

/-- The number that a test compares. -/
def operand (s : String) : Except String Int :=
  match s.toInt? with
  | some n => .ok n
  | none => .error ("Illegal number: " ++ s)

/-- Whether a condition holds. -/
def holds (t : Tree) : List String → Except String Bool
  | [] => .ok false
  | [s] => .ok (!s.isEmpty)
  | [a, "=", b] => .ok (a == b)
  | [a, "!=", b] => .ok (a != b)
  | "!" :: rest => (holds t rest).map not
  | [op, a] =>
    match (checks t).lookup op with
    | some test => .ok (test a)
    | none => .error (op ++ ": unexpected operator")
  | [a, op, b] =>
    match comparisons.lookup op with
    | some test => do return test (← operand a) (← operand b)
    | none => .error (a ++ ": unexpected operator")
  | a :: _ => .error (a ++ ": unexpected operator")

def condition (name : String) (args : List String) : Act Nat := do
  match holds (← get).world.tree args with
  | .ok true => return 0
  | .ok false => return 1
  | .error message => refuse (name ++ ": " ++ message) 2

/-! ## The shell itself -/

/-- The number that the first argument is, if there is one. -/
def natArgument (name : String) (args : List String) (default : Nat) : Act Nat :=
  match args with
  | [] => return default
  | s :: _ =>
    match s.toNat? with
    | some n => return n
    | none => fatal (name ++ ": Illegal number: " ++ s)

def shift (args : List String) : Act Nat := do
  let count ← natArgument "shift" args 1
  let s ← get
  if s.arguments.length < count then fatal "shift: can't shift that many"
  set { s with arguments := s.arguments.drop count }
  return 0

/-- The number of a signal that is given by number or name. -/
def signal? (s : String) : Option Nat :=
  match s.toNat? with
  | some n => some n
  | none => (Host.signalNames.findIdx? (· == "SIG" ++ s)).map (· + 1)

/-- Send a signal; there is no other process than the shell itself. -/
def kill (args : List String) : Act Nat := do
  let (name, target) := match args with
    | [target] => ("-TERM", target)
    | name :: target :: _ => (name, target)
    | [] => ("", "")
  match if name.startsWith "-" then signal? (String.ofList (name.toList.drop 1)) else none with
  | none => refuse ("kill: Illegal option " ++ name) 2
  | some signal =>
    if target = toString Expand.processNumber then throw (.killed signal)
    else refuse "kill: No such process" 1

/-- Run the commands of a file. -/
def source (e : Engine) (args : List String) : Act Nat := do
  match args with
  | [] => return 0
  | path :: _ =>
    match textOf (← get).world.tree path with
    | .ok text => e.run (.text text.toList)
    | .error _ => fatal (".: cannot open " ++ path ++ ": No such file")

/-- The commands by their names. -/
def all (e : Engine) : List (String × (List String → Act Nat)) :=
  [(":", fun _ => return 0), (".", source e), ("[", fun args =>
      if args.getLast? = some "]" then condition "[" args.dropLast else refuse "[: missing ]" 2),
    ("echo", echo), ("exit", fun args => do
      throw (.exit (← natArgument "exit" args (← get).status))),
    ("kill", kill), ("printf", printf), ("shift", shift), ("test", condition "test")]

end FuzzLang.Shell.Builtin
