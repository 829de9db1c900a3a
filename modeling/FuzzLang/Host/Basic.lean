import FuzzLang.Log
import FuzzLang.Settings
import FuzzLang.Viewer.Panes

/-!
# The world outside

A host does what a session asks of the world outside: read and write files, start programs, print,
log and show the viewer. Each request can fail, and a program that was started can end badly.
-/

namespace FuzzLang.Host

/-- The failures that an operating system reports. -/
inductive SystemError where
  | noEntry
  | noDevice
  | notExecutable
  | denied
  | alreadyExists
  | notDirectory
  | isDirectory
  | nameTooLong
  deriving DecidableEq, Repr

namespace SystemError

def code : SystemError → Nat
  | .noEntry => 2
  | .noDevice => 6
  | .notExecutable => 8
  | .denied => 13
  | .alreadyExists => 17
  | .notDirectory => 20
  | .isDirectory => 21
  | .nameTooLong => 36

def text : SystemError → String
  | .noEntry => "No such file or directory"
  | .noDevice => "No such device or address"
  | .notExecutable => "Exec format error"
  | .denied => "Permission denied"
  | .alreadyExists => "File exists"
  | .notDirectory => "Not a directory"
  | .isDirectory => "Is a directory"
  | .nameTooLong => "File name too long"

end SystemError

/-- Why a request fails. -/
inductive Fault where
  | system (error : SystemError)
  | notText
  | nulInName
  | nulInArgument
  | other (message : String)
  deriving DecidableEq, Repr

namespace Fault

def message : Fault → String
  | .system e => e.text ++ " (os error " ++ toString e.code ++ ")"
  | .notText => "stream did not contain valid UTF-8"
  | .nulInName => "file name contained an unexpected NUL byte"
  | .nulInArgument => "nul byte found in provided data"
  | .other s => s

end Fault

/-- How a program that was started ended. -/
inductive Status where
  | exited (code : Nat)
  | signaled (signal : Nat)
  deriving DecidableEq, Repr

/-- The names of the signals, from number one on. -/
def signalNames : List String :=
  ["SIGHUP", "SIGINT", "SIGQUIT", "SIGILL", "SIGTRAP", "SIGABRT", "SIGBUS", "SIGFPE", "SIGKILL",
    "SIGUSR1", "SIGSEGV", "SIGUSR2", "SIGPIPE", "SIGALRM", "SIGTERM", "SIGSTKFLT", "SIGCHLD",
    "SIGCONT", "SIGSTOP", "SIGTSTP", "SIGTTIN", "SIGTTOU", "SIGURG", "SIGXCPU", "SIGXFSZ",
    "SIGVTALRM", "SIGPROF", "SIGWINCH", "SIGIO", "SIGPWR", "SIGSYS"]

namespace Status

def isSuccess (s : Status) : Bool := s == .exited 0

def text : Status → String
  | .exited code => "exit status: " ++ toString code
  | .signaled signal =>
    "signal: " ++ toString signal ++
      match signalNames[signal - 1]? with
      | some name => " (" ++ name ++ ")"
      | none => ""

end Status

/-- Why a session fails. -/
inductive Failure where
  | compile (error : Compilation.Error)
  | io (path : String) (fault : Fault)
  | tool (program : String) (status : Status)
  deriving DecidableEq, Repr

namespace Failure

def message : Failure → String
  | .compile e => e.message
  | .io path fault => "I/O error on " ++ path ++ ": " ++ fault.message
  | .tool program status => program ++ " exited with " ++ status.text

end Failure

end Host

open Host in
/-- What a session asks of the world outside, in a monad `m`. -/
structure Host (m : Type → Type) where
  /-- The text of a file. -/
  read : (path : String) → m (Except Fault String)
  /-- Make a directory and those it lies in, as far as they are missing. -/
  createDirs : (path : String) → m (Except Fault Unit)
  /-- Give a file a new content. -/
  write : (path text : String) → m (Except Fault Unit)
  /-- Start a program and wait for its end. -/
  launch : (program : String) → (arguments : List String) → m (Except Fault Status)
  print : (text : String) → m Unit
  log : Log.Line → m Unit
  /-- Show a source and its compilation until the viewer is left. -/
  view : (source : String) → Viewer.Outcome → m (Except Fault Unit)

namespace Host

variable {m : Type → Type} [Monad m]

/-- Read the source. -/
def readInput (h : Host m) (s : Settings) : m (Except Failure String) := do
  match ← h.read s.input with
  | .error fault => return .error (.io s.input fault)
  | .ok source => return .ok source

/-- Write the generated text, and give the path it went to. -/
def writeOutput (h : Host m) (s : Settings) (text : String) : m (Except Failure String) := do
  match ← h.createDirs s.outDir with
  | .error fault => return .error (.io s.outDir fault)
  | .ok () =>
    match ← h.write s.textPath text with
    | .error fault => return .error (.io s.textPath fault)
    | .ok () =>
      h.log (.info ("Wrote " ++ s.textPath))
      return .ok s.textPath

/-- Compile the generated text at a path, and give the path of the built program. -/
def build (h : Host m) (s : Settings) (textPath : String) : m (Except Failure String) := do
  h.log (.info ("Compiling " ++ textPath ++ " with " ++ s.compiler))
  match ← h.launch s.compiler [textPath, "-o", s.binaryPath] with
  | .error fault => return .error (.io s.compiler fault)
  | .ok status =>
    if status.isSuccess then
      h.log (.info ("Built " ++ s.binaryPath))
      return .ok s.binaryPath
    else return .error (.tool s.compiler status)

/-- Run a built program. -/
def runProgram (h : Host m) (path : String) : m (Except Failure Unit) := do
  h.log (.info ("Running " ++ path))
  match ← h.launch path [] with
  | .error fault => return .error (.io path fault)
  | .ok status => return if status.isSuccess then .ok () else .error (.tool path status)

end Host

end FuzzLang
