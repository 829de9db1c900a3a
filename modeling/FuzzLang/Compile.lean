import FuzzLang.Grammar.Program
import FuzzLang.Outline.Build
import FuzzLang.Target.Write
import FuzzLang.Token.Scan

/-!
# Compiling

A source is read into tokens, the tokens into statements, the statements are given their outline,
and the outline is written in the target language. Each step ends before the next begins.
-/

namespace FuzzLang

namespace Compilation

/-- Why statements cannot be written. -/
inductive GenerateError where
  | outline (fault : Outline.Fault)
  | target (fault : Target.Fault)
  deriving DecidableEq, Repr

namespace GenerateError

def message : GenerateError → String
  | .outline fault => fault.message
  | .target fault => fault.message

def location : GenerateError → Location
  | .outline fault => fault.location
  | .target fault => fault.location

end GenerateError

/-- Why a source cannot be compiled. -/
inductive Error where
  | lex (error : Token.Error)
  | parse (error : Grammar.Error)
  | generate (error : GenerateError)
  deriving DecidableEq, Repr

namespace Error

def message : Error → String
  | .lex e => e.message
  | .parse e => e.message
  | .generate e => e.message

def location : Error → Location
  | .lex e => e.location
  | .parse e => e.location
  | .generate e => e.location

end Error

/-- Four spaces. -/
def defaultIndent : String := "    "

/-- The text of a list of statements, indented by `indent` per level. -/
def generate (indent : String) (entries : List Entry) : Except GenerateError String :=
  match Outline.ofEntries entries with
  | .error fault => .error (.outline fault)
  | .ok o =>
    match Target.write indent o with
    | .error fault => .error (.target fault)
    | .ok text => .ok text

/-- The statements of a source, with its tokens. -/
def read (source : String) : Except Error (List Token × List Entry) :=
  match Token.tokenize source with
  | .error e => .error (.lex e)
  | .ok tokens =>
    match Grammar.parse tokens with
    | .error e => .error (.parse e)
    | .ok entries => .ok (tokens, entries)

end Compilation

/-- What compiling a source yields at each step. -/
structure Compilation where
  tokens : List Token
  entries : List Entry
  output : String
  deriving DecidableEq, Repr

open Compilation in
/-- Compile a source. -/
def compile (indent source : String) : Except Compilation.Error Compilation :=
  match Compilation.read source with
  | .error e => .error e
  | .ok (tokens, entries) =>
    match generate indent entries with
    | .error e => .error (.generate e)
    | .ok output => .ok ⟨tokens, entries, output⟩

end FuzzLang
