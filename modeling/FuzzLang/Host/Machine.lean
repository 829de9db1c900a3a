import FuzzLang.Host.Program
import FuzzLang.Host.Session
import FuzzLang.Text.Lines

/-!
# A machine in memory

A machine has files, standard streams and programs: the tools of the system and scripts among the
files. It serves as a host, so a session can be tried without touching anything else.
-/

namespace FuzzLang.Host

/-- A machine: its files, what was written to its streams, and which log lines it keeps. -/
structure Machine where
  tree : Tree := {}
  stdout : String := ""
  stderr : String := ""
  /-- The variables that programs are given. -/
  environment : List (String × String) := []
  filter : Log.Filter := ⟨some .info⟩
  /-- Whether there is a terminal to show the viewer on. -/
  terminal : Bool := false

namespace Machine

/-- A tree with the tools of the system and an empty current directory. -/
def freshTree : Tree where
  entries :=
    [["usr"], ["usr", "bin"], ["bin"], ["dev"], ["root"], ["tmp"], ["tmp", "session"]].map
        (·, FileEntry.directory) ++
      (["dev", "null"], .file ByteArray.empty false) ::
      Program.names.flatMap fun n =>
        [(["usr", "bin", n], FileEntry.tool n), (["bin", n], FileEntry.tool n)]
  here := ["tmp", "session"]

/-! ## The machine as a host -/

def hasNul (s : String) : Bool := s.contains '\x00'

def readFile (path : String) : StateM Machine (Except Fault String) := do
  let machine ← get
  if hasNul path then return .error .nulInName
  match machine.tree.find path with
  | .error e => return .error (.system e)
  | .ok .directory => return .error (.system .isDirectory)
  | .ok (.tool _) => return .error .notText
  | .ok (.file content _) =>
    match String.fromUTF8? content with
    | some s => return .ok s
    | none => return .error .notText

def writeFile (path text : String) : StateM Machine (Except Fault Unit) := do
  let machine ← get
  if hasNul path then return .error .nulInName
  match machine.tree.write path text.toUTF8 with
  | .error e => return .error (.system e)
  | .ok tree =>
    set { machine with tree }
    return .ok ()

def makeDirs (path : String) : StateM Machine (Except Fault Unit) := do
  let machine ← get
  if hasNul path then return .error .nulInName
  let (tree, failure?) := machine.tree.makeDirs path
  set { machine with tree }
  match failure? with
  | some e => return .error (.system e)
  | none => return .ok ()

/-- The variables that every program is given. -/
def baseEnvironment : List (String × String) :=
  [("HOME", "/root"), ("PATH", "/usr/local/sbin:/usr/local/bin:/usr/sbin:/usr/bin:/sbin:/bin")]

/-- Start a program that reads nothing and writes to the streams of the machine. -/
def launch (program : String) (args : List String) : StateM Machine (Except Fault Status) := do
  let machine ← get
  if hasNul program || args.any hasNul then return .error .nulInArgument
  match Shell.programPath machine.tree program with
  | .error e => return .error (.system e)
  | .ok path =>
    let (result, world) := Program.start Program.maxDepth
      { program := path, name := program, arguments := args
        values := baseEnvironment ++ machine.environment
        descriptors := [(0, .nothing), (1, .text 0), (2, .text 1)] }
      { tree := machine.tree, texts := #["", ""] }
    match result with
    | .error e => return .error (.system e)
    | .ok status =>
      set { machine with
        tree := world.tree
        stdout := machine.stdout ++ world.texts.getD 0 ""
        stderr := machine.stderr ++ world.texts.getD 1 "" }
      return .ok status

/-- What was written to standard error, line by line. -/
def errorLines (machine : Machine) : List String :=
  (Text.lines machine.stderr.toList).map String.ofList

/-- The machine as the world outside of a session. -/
def host : Host (StateM Machine) where
  read := readFile
  createDirs := makeDirs
  write := writeFile
  launch := launch
  print text := modify fun machine => { machine with stdout := machine.stdout ++ text }
  log line := modify fun machine =>
    if machine.filter.shows line.level then
      { machine with
        stderr := machine.stderr ++ line.text ++ "\n" }
    else machine
  view _ _ := do
    if (← get).terminal then return .ok () else return .error (.system .noDevice)

end Machine

end FuzzLang.Host
