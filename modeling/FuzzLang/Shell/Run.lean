import FuzzLang.Shell.Builtin
import FuzzLang.Shell.Reader

/-!
# Running commands

How each sort of command runs: where it reads and writes, and what its status is. Commands inside
of others and programs are run by an engine.
-/

namespace FuzzLang.Shell

open Host (Tree Place SystemError Status)

/-! ## Programs by name -/

/-- The directories that programs without a path are looked up in. -/
def searchPath : List Place := [["usr", "bin"], ["bin"]]

/-- The path of the program of a name: a path is taken as it is, a bare name is looked up. -/
def programPath (t : Tree) (name : String) : Except SystemError String :=
  if name.isEmpty then .error .noEntry
  else if name.contains '/' then .ok name
  else
    let found := searchPath.map fun dir =>
      ({ t with here := dir }.find name).map fun _ => "/" ++ "/".intercalate (dir ++ [name])
    match found.findSome? Except.toOption, found with
    | some path, _ => .ok path
    | none, first :: _ => first
    | none, [] => .error .noEntry

namespace Run

open Act

/-! ## Redirections -/

/-- Open a file for a descriptor. Gives whether that succeeded. -/
def openFile (fd : Nat) (mode : OpenMode) (path : String) : Act Bool := do
  let s ← get
  match s.world.openFile mode path with
  | .ok (target, world) =>
    set { s with world, descriptors := (fd, target) :: s.descriptors }
    return true
  | .error fault =>
    let missing := fault = .noEntry ∨ fault = .notDirectory
    let message := if mode = .read then
        "cannot open " ++ path ++ ": " ++ if missing then "No such file" else fault.text
      else
        "cannot create " ++ path ++ ": " ++ if missing then "Directory nonexistent" else fault.text
    let _ ← refuse message 2
    return false

/-- Let a descriptor stand for what another one stands for. -/
def copyDescriptor (fd : Nat) (source : String) : Act Bool := do
  let s ← get
  match source.toNat?.bind (s.descriptors.lookup ·) with
  | some target =>
    set { s with descriptors := (fd, target) :: s.descriptors }
    return true
  | none =>
    let _ ← refuse (source ++ ": Bad file descriptor") 2
    return false

/-- Follow redirections one by one, up to the first that fails. -/
def redirect (e : Engine) : List Redirect → Act Bool
  | [] => return true
  | r :: rest => do
    let done ← match r with
      | .file fd mode path => do openFile fd mode (← Expand.single e path)
      | .copy fd source => do copyDescriptor fd (← Expand.single e source)
      | .here fd text => do
        let target ← openText (← Expand.single e text)
        modify fun s => { s with descriptors := (fd, target) :: s.descriptors }
        pure true
    if done then redirect e rest else return false

/-- Run an action behind redirections, which end with it. -/
def redirected (e : Engine) (redirects : List Redirect) (a : Act Nat) : Act Nat := do
  let before := (← get).descriptors
  try
    if ← redirect e redirects then a else return 2
  finally
    modify ({ · with descriptors := before })

/-! ## Simple commands -/

/-- Start a program and wait for its end. -/
def program (e : Engine) (name : String) (args : List String) :
    Act (Except SystemError Status) := do
  let s ← get
  match programPath s.world.tree name with
  | .error fault => return .error fault
  | .ok path =>
    let (result, world) := e.start
      { program := path, name, arguments := args, values := s.values,
        descriptors := s.descriptors } s.world
    set { s with world }
    return result

/-- Report on a program that cannot be started. -/
def unstarted (name : String) : SystemError → Act Nat
  | .noEntry | .notDirectory => refuse (name ++ ": not found") 127
  | fault => refuse (name ++ ": " ++ fault.text) 126

def external (e : Engine) (name : String) (args : List String) : Act Nat := do
  match ← program e name args with
  | .ok (.exited n) => return n
  | .ok (.signaled n) => return 128 + n
  | .error fault => unstarted name fault

/-- Let a program take the place of the shell. -/
def replace (e : Engine) (name : String) (args : List String) : Act Nat := do
  match ← program e name args with
  | .ok (.exited n) => throw (.exit n)
  | .ok (.signaled n) => throw (.killed n)
  | .error fault => throw (.exit (← unstarted ("exec: " ++ name) fault))

def callFunction (e : Engine) (body : Command) (args : List String) : Act Nat := do
  let before := (← get).arguments
  modify ({ · with arguments := args })
  try
    e.run (.command body)
  finally
    modify ({ · with arguments := before })

/-- Run what a name and arguments stand for. -/
def dispatch (e : Engine) (name : String) (args : List String) : Act Nat := do
  match (← get).functions.lookup name, (Builtin.all e).lookup name, name, args with
  | some body, _, _, _ => callFunction e body args
  | none, some builtin, _, _ => builtin args
  | none, none, "exec", program :: rest => replace e program rest
  | none, none, _, _ => external e name args

/-! ## All commands -/

/-- How many turns a loop may take. -/
def maxTurns : Nat := 1000000

/-- Repeat a command while a test succeeds, or until it does. -/
def loop (e : Engine) (untilTrue : Bool) (test body : Command) : Nat → (status : Nat) → Act Nat
  | 0, _ => throw .spent
  | n + 1, status => do
    if ((← e.run (.command test)) == 0) = untilTrue then return status
    else loop e untilTrue test body n (← e.run (.command body))

/-- Run a command once for each value of a variable. -/
def each (e : Engine) (name : String) (body : Command) : List String → (status : Nat) → Act Nat
  | [], status => return status
  | value :: rest, _ => do
    assign name value
    each e name body rest (← e.run (.command body))

def sequence (e : Engine) : List Command → (status : Nat) → Act Nat
  | [], status => return status
  | c :: rest, _ => do sequence e rest (← e.run (.command c))

def command (e : Engine) : Command → Act Nat
  | .simple line assignments words redirects => do
    modify ({ · with line })
    let fields ← Expand.allFields e words
    redirected e redirects do
      for (name, w) in assignments do assign name (← Expand.single e w)
      match fields with
      | [] => return 0
      | name :: args => dispatch e name args
  | .redirected line body redirects => do
    modify ({ · with line })
    redirected e redirects (e.run (.command body))
  | .pipe first second => do
    let target ← openText ""
    let _ ← apart e 1 target first
    apart e 0 target second
  | .negate body => do return if (← e.run (.command body)) = 0 then 1 else 0
  | .both first second => do
    let status ← e.run (.command first)
    if status = 0 then e.run (.command second) else return status
  | .either first second => do
    let status ← e.run (.command first)
    if status = 0 then return status else e.run (.command second)
  | .sequence commands => sequence e commands 0
  | .choose test yes no => do
    if (← e.run (.command test)) = 0 then e.run (.command yes) else e.run (.command no)
  | .loop untilTrue test body => loop e untilTrue test body maxTurns 0
  | .each name words body => do each e name body (← Expand.allFields e words) 0
  | .define name body => do
    modify fun s => { s with functions := (name, body) :: s.functions }
    return 0

/-- Run a text line by line. -/
def text (e : Engine) : Nat → Source → (status : Nat) → Act Nat
  | 0, _, status => return status
  | n + 1, source, status => do
    match Reader.line?.run source with
    | .error misreading =>
      modify ({ · with line := misreading.line })
      fatal misreading.message
    | .ok (none, _) => return status
    | .ok (some c, next) => text e n next (← e.run (.command c))

/-- Run what is asked for, and keep its status. -/
def step (e : Engine) (r : Request) : Act Nat := do
  let status ← match r with
    | .command body => command e body
    | .text cs => text e (cs.length + 1) { rest := cs } 0
  modify ({ · with status })
  return status

end Run

end FuzzLang.Shell
