import FuzzLang.Compile
import FuzzLang.Path

/-!
# Settings

What to compile, under which name and where to put the result, and what to do with it.
-/

namespace FuzzLang

/-- What to do with a compiled program. -/
inductive Action where
  | write
  | print
  | build
  | run
  | view
  deriving DecidableEq, Repr

structure Settings where
  input : String
  program : String
  outDir : String := "__transpiled__"
  compiler : String := "rustc"
  action : Action := .write
  indent : String := Compilation.defaultIndent
  deriving DecidableEq, Repr

namespace Settings

/-- The name of a program is the stem of its source file, if it has one. -/
def programName (input : String) : String := (Path.stem? input).getD "main"

/-- The settings for a source file when nothing else is asked for. -/
def ofInput (input : String) : Settings where
  input := input
  program := programName input

/-- Where the generated text goes. -/
def textPath (s : Settings) : String := Path.join s.outDir (s.program ++ ".rs")

/-- Where the built program goes. -/
def binaryPath (s : Settings) : String := Path.join s.outDir s.program

end Settings

end FuzzLang
