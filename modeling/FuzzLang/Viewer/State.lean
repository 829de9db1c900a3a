import FuzzLang.Viewer.Panes

/-!
# The viewer

The viewer shows a source and what compiling it came to. Keys move the focus from pane to pane, the
cursor line through the source, the selection through the statements, and the output up and down.
Of all that a terminal reports, only the presses of keys do so. Drawing settles the scrolls, so a
state is drawn between any two keys.
-/

namespace FuzzLang.Viewer

open Screen

inductive Focus where
  | source
  | program
  | output
  deriving DecidableEq, Repr

namespace Focus

def next : Focus → Focus
  | .source => .program
  | .program => .output
  | .output => .source

def previous : Focus → Focus
  | .source => .output
  | .program => .source
  | .output => .program

@[simp] theorem previous_next (f : Focus) : f.next.previous = f := by cases f <;> rfl

@[simp] theorem next_previous (f : Focus) : f.previous.next = f := by cases f <;> rfl

end Focus

inductive Key where
  | up
  | down
  | tab
  | backTab
  | escape
  | char (c : Char)
  | other
  deriving DecidableEq, Repr

/-- What is done with a key. -/
inductive Stroke where
  | press
  /-- A key that is held down reports itself again and again. -/
  | repetition
  | release
  deriving DecidableEq, Repr

/-- What a terminal reports: a stroke of a key, or something that is not about keys. -/
inductive Report where
  | key (stroke : Stroke) (key : Key)
  | other
  deriving DecidableEq, Repr

structure State where
  source : String
  outcome : Outcome
  focus : Focus := .source
  selected : Nat := 0
  cursorLine : Nat := 1
  sourceScroll : SourceScroll := {}
  programScroll : Nat := 0
  outputScroll : Nat := 0
  quit : Bool := false

namespace State

/-- The statements of a compilation that succeeded. -/
def entries (s : State) : List Entry :=
  match s.outcome with
  | .ok c => c.entries
  | .error _ => []

/-- The line of the error of a compilation that failed. -/
def errorLine? (s : State) : Option Nat :=
  match s.outcome with
  | .ok _ => none
  | .error e => some e.location.line

def failed (s : State) : Bool :=
  match s.outcome with
  | .ok _ => false
  | .error _ => true

def status (s : State) : String :=
  match s.outcome with
  | .ok c =>
    toString c.tokens.length ++ " tokens, " ++ toString c.entries.length ++ " nodes, " ++
      toString (Text.lines c.output.toList).length ++ " lines of Rust"
  | .error e => e.message

/-- Select a statement, if it exists, and go to its line. -/
def select (s : State) (n : Nat) : State :=
  match s.entries[n]? with
  | some e => { s with selected := n, cursorLine := e.location.line }
  | none => s

/-- The number of source lines, taken as one when there are none. -/
def lineCount (s : State) : Nat := max 1 (Text.lines s.source.toList).length

/-- Go to a source line, or the nearest there is, and select the first statement that begins on
it. -/
def goToLine (s : State) (line : Nat) : State :=
  let line := min (max line 1) s.lineCount
  let s := { s with cursorLine := line }
  match s.entries.findIdx? (·.location.line == line) with
  | some n => { s with selected := n }
  | none => s

/-- The viewer at its start. -/
def start (source : String) (outcome : Outcome) : State :=
  ({ source := source, outcome := outcome } : State).select 0

def moveUp (s : State) : State :=
  match s.focus with
  | .source => s.goToLine (s.cursorLine - 1)
  | .program => s.select (s.selected - 1)
  | .output => { s with outputScroll := s.outputScroll - 1 }

def moveDown (s : State) : State :=
  match s.focus with
  | .source => s.goToLine (s.cursorLine + 1)
  | .program => s.select (s.selected + 1)
  | .output => { s with outputScroll := s.outputScroll + 1 }

/-- The viewer after a key. -/
def press (s : State) : Key → State
  | .up => s.moveUp
  | .down => s.moveDown
  | .tab => { s with focus := s.focus.next }
  | .backTab => { s with focus := s.focus.previous }
  | .escape => { s with quit := true }
  | .char c => if c = 'q' ∨ c = 'Q' then { s with quit := true } else s
  | .other => s

/-- The viewer after a report. Only the press of a key counts. -/
def receive (s : State) : Report → State
  | .key .press k => s.press k
  | _ => s

/-! ## Drawing -/

/-- The rows above the status bar. -/
def paneRows (height : Nat) : Nat := height - 1

/-- The rows of the statement pane: two fifths of the right column. -/
def programRows (height : Nat) : Nat := (4 * paneRows height + 5) / 10

def outputRows (height : Nat) : Nat := paneRows height - programRows height

/-- The viewer with its scrolls settled for a screen of some height. -/
def settle (s : State) (height : Nat) : State :=
  { s with
    sourceScroll := s.sourceScroll.settle (paneRows height) (Text.lines s.source.toList).length
      (s.errorLine?.getD s.cursorLine)
    programScroll := settleProgram (programRows height) s.selected s.programScroll
    outputScroll := settleOutput (outputRows height) s.outcome s.outputScroll }

/-- The screen of a settled viewer. -/
def screen (s : State) (width height : Nat) : Canvas :=
  let left := leftWidth width
  let right := width - left
  let sourceColumn := sourcePane left (paneRows height) (s.focus == .source) s.source s.cursorLine
    s.errorLine? s.sourceScroll
  let program := programPane right (programRows height) (s.focus == .program) s.entries s.selected
    s.programScroll
  let output := outputPane right (outputRows height) (s.focus == .output) s.outcome s.outputScroll
  beside sourceColumn (program ++ output) ++
    statusBar width (height - paneRows height) s.status s.selected s.entries.length s.failed

/-- The viewer after drawing, and what was drawn. -/
def draw (s : State) (width height : Nat) : State × Canvas :=
  let s := s.settle height
  (s, s.screen width height)

end State

end FuzzLang.Viewer
