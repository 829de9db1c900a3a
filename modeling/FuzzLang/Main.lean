import FuzzLang.CommandLine.Execute
import FuzzLang.Viewer.Keys

/-!
# The command line program

The files are those of the system, and the viewer draws on standard output and takes its keys from
standard input, line by line. Other programs are not started from here.
-/

namespace FuzzLang.Main

open Viewer

/-- Try an action, and tell why it failed. -/
def attempt {α : Type} (action : IO α) : IO (Except Host.Fault α) := do
  try
    return .ok (← action)
  catch e => return .error (.other (toString e))

/-- The size that screens are drawn in. -/
def width : Nat := 80

def height : Nat := 24

/-- Draw, take a line of keys, and go on until the viewer is left or the input ends. -/
partial def viewLoop (s : State) : IO Unit := do
  let (drawn, canvas) := s.draw width height
  for row in canvas do
    IO.println (Screen.rowText row)
  let line ← (← IO.getStdin).getLine
  let next := drawn.receiveAll height (Report.ofChars (line.toList.filter (· != '\n')))
  if !line.isEmpty && !next.quit then viewLoop next

def host (filter : Log.Filter) : Host IO where
  read path := attempt (IO.FS.readFile path)
  createDirs path := attempt (if path.isEmpty then pure () else IO.FS.createDirAll path)
  write path text := attempt (IO.FS.writeFile path text)
  launch _ _ := return .error (.other "starting programs is not supported")
  print text := IO.print text
  log line := if filter.shows line.level then IO.eprintln line.text else pure ()
  view source outcome := attempt (viewLoop (State.start source outcome))

end FuzzLang.Main

open FuzzLang in
def main (args : List String) : IO UInt32 := do
  let filter := Log.Filter.ofWord (← IO.getEnv "RUST_LOG")
  let status ← CommandLine.execute (Main.host filter) (← IO.getEnv "RUSTC") args
  if status = 2 then IO.eprintln "error: invalid arguments, try '--help'"
  return status.toUInt32
