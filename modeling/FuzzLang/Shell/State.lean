import FuzzLang.Host.Tree
import FuzzLang.Shell.Script

/-!
# The state of a shell

All programs that run see the same files, and write and read texts that their descriptors name. A
shell has variables, functions, descriptors and arguments of its own. An action of a shell changes
its state, and may stop what runs around it.
-/

namespace FuzzLang.Shell

open Host (Tree Place FileEntry SystemError Status)

/-- The files, and the texts that programs write to and read from. -/
structure World where
  tree : Tree
  texts : Array String := #[]

/-- What a descriptor stands for. -/
inductive Target where
  | text (index : Nat)
  | file (place : Place)
  | nothing
  deriving DecidableEq, Repr

/-- Descriptors by their numbers; the first entry of a number counts. -/
abbrev Descriptors := List (Nat × Target)

/-- The text of a file. What is no text is read as if it were empty. -/
def textOf (t : Tree) (path : String) : Except SystemError String := do
  match ← t.find path with
  | .file content _ => return (String.fromUTF8? content).getD ""
  | .directory => throw .isDirectory
  | .tool _ => return ""

namespace World

/-- Write behind what is there. -/
def write (w : World) (target? : Option Target) (text : String) : World :=
  match target? with
  | some (.text i) => { w with texts := w.texts.modify i (· ++ text) }
  | some (.file place) =>
    match w.tree.get? place with
    | some (.file content executable) =>
      { w with tree := w.tree.put place (.file (content ++ text.toUTF8) executable) }
    | _ => w
  | _ => w

/-- Read all that is left. -/
def read (w : World) (target? : Option Target) : String × World :=
  match target? with
  | some (.text i) => (w.texts.getD i "", { w with texts := w.texts.modify i fun _ => "" })
  | _ => ("", w)

/-- Open a new text. -/
def openText (w : World) (text : String) : Target × World :=
  (.text w.texts.size, { w with texts := w.texts.push text })

/-- Open a file. One that is written to is emptied first, one that is appended to is kept. -/
def openFile (w : World) (mode : OpenMode) (path : String) :
    Except SystemError (Target × World) := do
  if mode = .read then return w.openText (← textOf w.tree path)
  let kept := match mode, w.tree.find path with
    | .append, .ok (.file content _) => content
    | _, _ => ByteArray.empty
  let tree ← w.tree.write path kept
  let place ← tree.locate path
  return (if place = ["dev", "null"] then .nothing else .file place, { w with tree })

end World

/-- A program to be started. -/
structure Process where
  /-- The path of the program. -/
  program : String
  /-- The name that the program is called by. -/
  name : String
  arguments : List String
  values : List (String × String) := []
  descriptors : Descriptors := []

/-- What a shell has at hand while it runs. -/
structure State where
  world : World
  descriptors : Descriptors
  /-- The name of the script. -/
  script : String
  arguments : List String
  /-- The variables, which programs are given too; the first entry of a name counts. -/
  values : List (String × String)
  functions : List (String × Command) := []
  /-- The line of the command that runs. -/
  line : Nat := 1
  /-- The status of the last command. -/
  status : Nat := 0

/-- Why what runs is stopped. -/
inductive Stop where
  /-- The shell ends with a status. -/
  | exit (status : Nat)
  /-- The shell ends by a signal. -/
  | killed (signal : Nat)
  /-- The run took more steps than it may. -/
  | spent
  deriving DecidableEq, Repr

/-- An action of a shell. -/
abbrev Act := ExceptT Stop (StateM State)

/-- What a shell can be asked to run. -/
inductive Request where
  | command (body : Command)
  | text (text : List Char)

/-- The means to run commands and programs inside of others. -/
structure Engine where
  run : Request → Act Nat
  start : Process → World → Except SystemError Status × World

namespace Act

/-- Write a text. A descriptor that stands for nothing takes none. -/
def write (fd : Nat) (text : String) : Act Unit := modify fun s =>
  { s with world := s.world.write (s.descriptors.lookup fd) text }

/-- Report on the line that runs, and give the status of the failure. -/
def refuse (message : String) (status : Nat) : Act Nat := do
  let s ← get
  write 2 (s.script ++ ": " ++ toString s.line ++ ": " ++ message ++ "\n")
  return status

/-- Report on the line that runs, and end the shell. -/
def fatal {α : Type} (message : String) : Act α := do throw (.exit (← refuse message 2))

def assign (name value : String) : Act Unit := modify fun s =>
  { s with values := (name, value) :: s.values.filter (·.1 != name) }

/-- Run a command in a shell of its own, in which a descriptor stands for a target. Only what it
does to the world lasts. -/
def apart (e : Engine) (fd : Nat) (target : Target) (body : Command) : Act Nat := do
  let before ← get
  set { before with descriptors := (fd, target) :: before.descriptors }
  let result ← ExceptT.mk (Except.ok <$> (e.run (.command body)).run)
  set { before with world := (← get).world }
  match result with
  | .ok status | .error (.exit status) => return status
  | .error stop => throw stop

/-- Open a new text. -/
def openText (text : String) : Act Target := do
  let s ← get
  let (target, world) := s.world.openText text
  set { s with world }
  return target

end Act

end FuzzLang.Shell
