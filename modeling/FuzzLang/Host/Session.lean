import FuzzLang.Host.Basic

/-!
# Sessions

A session reads a source, compiles it and does with the result what the settings ask for. It ends
with status `0` if every step succeeded and with `1` otherwise.
-/

namespace FuzzLang.Host

variable {m : Type → Type} [Monad m]

/-- Do with the generated text what the settings ask for. -/
def dispatch (h : Host m) (s : Settings) (text : String) : m (Except Failure Unit) := do
  match s.action with
  | .print =>
    h.print text
    return .ok ()
  | .write =>
    match ← h.writeOutput s text with
    | .error failure => return .error failure
    | .ok _ => return .ok ()
  | .build =>
    match ← h.writeOutput s text with
    | .error failure => return .error failure
    | .ok textPath =>
      match ← h.build s textPath with
      | .error failure => return .error failure
      | .ok _ => return .ok ()
  | .run =>
    match ← h.writeOutput s text with
    | .error failure => return .error failure
    | .ok textPath =>
      match ← h.build s textPath with
      | .error failure => return .error failure
      | .ok binary => h.runProgram binary
  | .view => return .ok ()

/-- Log why a session failed, and give its status. -/
def failed (h : Host m) (message : String) : m Nat := do
  h.log (.error message)
  return 1

/-- The session after its source was compiled. -/
def conclude (h : Host m) (s : Settings) (source : String) (outcome : Viewer.Outcome) :
    m Nat := do
  if s.action = .view then
    match ← h.view source outcome with
    | .error fault => h.failed ("Viewer error: " ++ fault.message)
    | .ok () => return 0
  else
    match outcome with
    | .error e => h.failed (Failure.compile e).message
    | .ok c =>
      match ← h.dispatch s c.output with
      | .error failure => h.failed failure.message
      | .ok () => return 0

/-- A whole session. -/
def session (h : Host m) (s : Settings) : m Nat := do
  match ← h.readInput s with
  | .error failure => h.failed failure.message
  | .ok source =>
    h.log (.info ("Compiling " ++ s.input))
    (Log.compilationLines source).forM h.log
    h.conclude s source (compile s.indent source)

end FuzzLang.Host
