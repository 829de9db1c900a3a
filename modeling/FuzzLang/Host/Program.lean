import FuzzLang.Shell.Run
import FuzzLang.Shell.Tool

/-!
# Programs

A program is a tool of the system or an executable file whose first line names the program that
reads it; the shell is the tool that reads scripts.
-/

namespace FuzzLang.Host.Program

open FuzzLang.Shell

/-- The names of the programs that belong to the system. -/
def names : List String := "sh" :: Tool.all.map (·.1)

/-- Run a tool. -/
def runTool (tool : Call → Report) (p : Process) (w : World) : Status × World :=
  let (input, w) := w.read (p.descriptors.lookup 0)
  let r := tool { name := p.name, arguments := p.arguments, input, tree := w.tree }
  (.exited r.status, r.writes.foldl (fun w (fd, text) => w.write (p.descriptors.lookup fd) text)
    { w with tree := r.tree })

/-- Run the script that the first argument names to its end. -/
def runShell (e : Engine) (p : Process) (w : World) : Status × World :=
  match p.arguments with
  | [] => (.exited 0, w)
  | script :: arguments =>
    match textOf w.tree script with
    | .error _ =>
      (.exited 2, w.write (p.descriptors.lookup 2)
        (p.name ++ ": 0: cannot open " ++ script ++ ": No such file\n"))
    | .ok text =>
      let shell : State :=
        { world := w, descriptors := p.descriptors, script, arguments, values := p.values }
      match (e.run (.text text.toList)).run.run shell with
      | (.ok status, s) | (.error (.exit status), s) => (.exited (status % 256), s.world)
      | (.error (.killed signal), s) => (.signaled signal, s.world)
      | (.error .spent, s) => (.signaled 24, s.world)

/-- The program that the first line of a file names to read it. -/
def interpreter? (content : ByteArray) : Option String :=
  match ((String.fromUTF8? content).getD "").toList with
  | '#' :: '!' :: rest =>
    let path := (rest.dropWhile (· == ' ')).takeWhile fun c => c != '\n' && c != ' '
    if path.isEmpty then none else some (String.ofList path)
  | _ => none

/-- Start the program at a path. -/
def launch (e : Engine) (p : Process) (w : World) : Except SystemError Status × World :=
  match w.tree.find p.program with
  | .error fault => (.error fault, w)
  | .ok .directory | .ok (.file _ false) => (.error .denied, w)
  | .ok (.tool name) =>
    let (status, w) := match Tool.all.lookup name with
      | some tool => runTool tool p w
      | none => runShell e p w
    (.ok status, w)
  | .ok (.file content true) =>
    match interpreter? content with
    | none => (.error .notExecutable, w)
    | some path =>
      e.start { p with program := path, name := path, arguments := p.program :: p.arguments } w

mutual

/-- Run what a shell is asked for, at most so deep. -/
def perform : (depth : Nat) → Request → Act Nat
  | 0, _ => throw .spent
  | n + 1, r => Run.step ⟨perform n, start n⟩ r

/-- Start a program, at most so deep. -/
def start : (depth : Nat) → Process → World → Except SystemError Status × World
  | 0, _, w => (.error .notExecutable, w)
  | n + 1, p, w => launch ⟨perform n, start n⟩ p w

end

/-- How deep commands and programs may run inside of one another. -/
def maxDepth : Nat := 20000

end FuzzLang.Host.Program
