import FuzzLang.CommandLine.Args
import FuzzLang.Host.Session

/-!
# Carrying out a command line
-/

namespace FuzzLang.CommandLine

variable {m : Type → Type} [Monad m]

/-- Do what the arguments ask for, and give the exit status. Arguments that make no sense end with
status `2`. -/
def execute (h : Host m) (environment? : Option String) (args : List String) : m Nat := do
  match parse environment? args with
  | .run settings => h.session settings
  | .help =>
    h.print (helpText environment?)
    return 0
  | .version =>
    h.print versionText
    return 0
  | .misuse => return 2

end FuzzLang.CommandLine
