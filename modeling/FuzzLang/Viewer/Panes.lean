import FuzzLang.Compile
import FuzzLang.Screen.Wrap
import FuzzLang.Text.Lines
import FuzzLang.Viewer.Highlight

/-!
# The panes of the viewer

The source with the current or the faulty line marked, the list of statements, the output or the
error, and a bar with the status. A pane first settles what it shows, from its height and from what
has to be in view, and then draws it.
-/

namespace FuzzLang.Viewer

open Screen

/-- What a compilation came to. -/
abbrev Outcome := Except Compilation.Error Compilation

/-- The number of rows inside a frame, taken as one when there are none. -/
def visibleRows (height : Nat) : Nat := max 1 (height - 2)

/-! ## Source -/

/-- The first line in view, less one, and the row that the line in focus is kept on. -/
structure SourceScroll where
  offset : Nat := 0
  targetRow? : Option Nat := none
  deriving DecidableEq, Repr

namespace SourceScroll

/-- Bring a line into view, in a pane of some height over some lines. -/
def settle (s : SourceScroll) (height total focus : Nat) : SourceScroll :=
  let visible := visibleRows height
  let target := min (s.targetRow?.getD (visible / 2)) (visible - 1)
  let offset :=
    if 0 < focus ∧ focus ≤ total ∧ visible < total then
      min (focus - 1 - target) (total - visible)
    else 0
  ⟨offset, some target⟩

end SourceScroll

def errorLineStyle : Style := { fg := .white, bg := Theme.error, bold := true }

/-- A numbered source line. -/
def sourceLine (currentLine : Nat) (errorLine? : Option Nat) (number : Nat) (line : List Char) :
    StyledLine :=
  let content := highlight .source line
  let label (style : Style) : Segment :=
    .ofString (Text.padLeft 4 (toString number) ++ " ") style
  if errorLine? = some number then
    label { fg := Theme.error, bold := true } ::
      content.map fun s => { s with style := errorLineStyle }
  else if number = currentLine ∧ errorLine? = none then
    label { fg := Theme.secondary, bold := true } ::
      content.map fun s => { s with style := { s.style with bg := Theme.currentLine } }
  else label { fg := Theme.comment } :: content

/-- The source pane for a settled scroll. -/
def sourcePane (width height : Nat) (focused : Bool) (source : String) (currentLine : Nat)
    (errorLine? : Option Nat) (scroll : SourceScroll) : Canvas :=
  let numbered := (Text.lines source.toList).zipIdx 1
  let visible := (numbered.drop scroll.offset).take (visibleRows height)
  framed width height " Source " (Theme.border focused)
    (visible.map fun (line, n) => StyledLine.cells (sourceLine currentLine errorLine? n line))

/-! ## Statements -/

/-- The number of the first statement in view: the selected one is always among them. -/
def settleProgram (height selected scroll : Nat) : Nat :=
  let visible := visibleRows height
  if selected < scroll then selected
  else if scroll + visible ≤ selected then selected + 1 - visible
  else scroll

/-- A numbered statement with its tokens and its place. -/
def programLine (selected number : Nat) (e : Entry) : StyledLine :=
  let chosen := number == selected
  let marker := if chosen then "▶" else " "
  let style : Style :=
    if chosen then { fg := Theme.fg, bg := Theme.currentLine, bold := true }
    else { fg := Theme.fg }
  [.ofString (marker ++ " " ++ Text.padLeft 3 (toString number) ++ " ") { fg := Theme.secondary },
    .ofString (Text.padLeft 3 (toString e.span.start) ++ ".." ++
      Text.padRight 3 (toString e.span.stop)) { fg := Theme.comment },
    .ofString (" " ++ Text.padLeft 6 e.location.text ++ " ") { fg := Theme.comment },
    .ofString e.node.summary style]

/-- The statement pane for a settled scroll. -/
def programPane (width height : Nat) (focused : Bool) (entries : List Entry)
    (selected scroll : Nat) : Canvas :=
  let visible := (entries.zipIdx.drop scroll).take (visibleRows height)
  let rows := visible.map fun (e, n) => StyledLine.cells (programLine selected n e)
  let empty := [(Segment.ofString "(no program)" { fg := Theme.comment }).cells]
  framed width height " Program " (Theme.border focused) (if rows.isEmpty then empty else rows)

/-! ## Output -/

/-- The lines of the output, or the error as one line. -/
def outputLines : Outcome → List StyledLine
  | .ok c => (Text.lines c.output.toList).map (highlight .target)
  | .error e => [[.ofString e.message { fg := Theme.error, bold := true }]]

/-- The number of rows scrolled past, no more than the lines that do not fit. -/
def settleOutput (height : Nat) (outcome : Outcome) (scroll : Nat) : Nat :=
  min scroll ((outputLines outcome).length - visibleRows height)

/-- The output pane for a settled scroll, which is taken modulo `2 ^ 16`. -/
def outputPane (width height : Nat) (focused : Bool) (outcome : Outcome) (scroll : Nat) :
    Canvas :=
  let title := match outcome with
    | .ok _ => " Rust "
    | .error _ => " Error "
  let rows := (outputLines outcome).flatMap fun l => wrap (width - 2) (StyledLine.cells l)
  framed width height title (Theme.border focused) (rows.drop (scroll % UInt16.size))

/-! ## Status -/

def leftWidth (width : Nat) : Nat := (width + 1) / 2

/-- The background of the status bar. -/
def barStyle : Style := { bg := Theme.currentLine }

def statusLine (message : String) (node total : Nat) (failed : Bool) : StyledLine :=
  let badge :=
    if failed then " FAILED "
    else if total = 0 then " Node 0/0 "
    else " Node " ++ toString (node + 1) ++ "/" ++ toString total ++ " "
  [.ofString badge
      { fg := .black, bg := if failed then Theme.error else Theme.success, bold := true },
    .ofString " | " { barStyle with fg := Theme.comment },
    .ofString (" " ++ message ++ " ")
      { barStyle with fg := if failed then Theme.error else Theme.fg }]

def helpLine : StyledLine :=
  let key (s : String) : Segment := .ofString s { fg := .black, bg := Theme.comment }
  let what (s : String) : Segment := .ofString s { barStyle with fg := Theme.fg }
  let rule : Segment := .ofString "│" { barStyle with fg := Theme.comment }
  [key " ↑/↓ ", what " move ", rule, what " ", key " ⇥ ", what " pane ", rule, what " ", key "q",
    what " quit "]

/-- Rows of one background with a text in the first, at the left or at the right end. -/
def bar (width height : Nat) (line : StyledLine) (right : Bool) : Canvas :=
  let cells := line.cells
  let fill : Cell := { style := barStyle }
  let shift := if right then width - cells.length else 0
  fitAll width height fill [List.replicate shift fill ++ cells]

/-- The status bar: the message in the left half, the keys in the right half. -/
def statusBar (width height : Nat) (message : String) (node total : Nat) (failed : Bool) : Canvas :=
  let left := leftWidth width
  beside (bar left height (statusLine message node total failed) false)
    (bar (width - left) height helpLine true)

end FuzzLang.Viewer
