/-!
# Screens

A canvas is rows of styled cells. Text is drawn as segments of one style each; frames and panels
are put side by side and on top of each other.

Every character takes one cell. A terminal gives two cells to a wide character and none to a
combining one, so a canvas stands for what a terminal shows only where a text has no such
characters.
-/

namespace FuzzLang.Screen

inductive Color where
  /-- The terminal's own colour. -/
  | default
  | black
  | white
  | rgb (red green blue : UInt8)
  deriving DecidableEq, Repr

structure Style where
  fg : Color := .default
  bg : Color := .default
  bold : Bool := false
  deriving DecidableEq, Repr

structure Cell where
  char : Char := ' '
  style : Style := {}
  deriving DecidableEq, Repr

abbrev Row := List Cell

abbrev Canvas := List Row

/-- A text in one style. -/
structure Segment where
  text : List Char
  style : Style := {}
  deriving DecidableEq, Repr

namespace Segment

def ofString (s : String) (style : Style) : Segment := ⟨s.toList, style⟩

/-- One cell for each character. -/
def cells (s : Segment) : Row := s.text.map fun c => ⟨c, s.style⟩

end Segment

/-- A line of text in several styles. -/
abbrev StyledLine := List Segment

namespace StyledLine

def cells (l : StyledLine) : Row := l.flatMap Segment.cells

/-- A line without its styles. -/
def text (l : StyledLine) : List Char := l.flatMap Segment.text

end StyledLine

/-- A row cut or filled up to a width. -/
def fit (width : Nat) (fill : Cell) (row : Row) : Row :=
  row.take width ++ List.replicate (width - row.length) fill

@[simp] theorem length_fit (width : Nat) (fill : Cell) (row : Row) :
    (fit width fill row).length = width := by
  simp [fit]; omega

/-- Rows cut or filled up to a size. -/
def fitAll (width height : Nat) (fill : Cell) (rows : Canvas) : Canvas :=
  (rows.take height).map (fit width fill) ++
    List.replicate (height - rows.length) (List.replicate width fill)

@[simp] theorem length_fitAll (width height : Nat) (fill : Cell) (rows : Canvas) :
    (fitAll width height fill rows).length = height := by
  simp [fitAll]; omega

/-- A row between two ends. A row of width one has only the first end. -/
def between (width : Nat) (first last : Char) (style : Style) (middle : Row) : Row :=
  if width = 0 then []
  else if width = 1 then [⟨first, style⟩]
  else ⟨first, style⟩ :: middle ++ [⟨last, style⟩]

/-- A frame with a title around some rows. What does not fit inside is cut off. -/
def framed (width height : Nat) (title : String) (style : Style) (rows : Canvas) : Canvas :=
  let inner := width - 2
  let rule : Cell := ⟨'─', style⟩
  let top := between width '┌' '┐' style
    (fit inner rule (title.toList.map fun c => ⟨c, style⟩))
  let bottom := between width '└' '┘' style (List.replicate inner rule)
  let inside := (fitAll inner (height - 2) {} rows).map (between width '│' '│' style)
  match height with
  | 0 => []
  | 1 => [top]
  | _ => top :: inside ++ [bottom]

/-- Two canvases of one height side by side. -/
def beside (left right : Canvas) : Canvas := List.zipWith (· ++ ·) left right

/-- The maximal runs of equally styled cells of a row, with their lengths. -/
def runs : Row → List (Nat × Style)
  | [] => []
  | c :: cs =>
    match runs cs with
    | (n, s) :: rest => if s = c.style then (n + 1, s) :: rest else (1, c.style) :: (n, s) :: rest
    | [] => [(1, c.style)]

/-- A row without its styles. -/
def rowText (row : Row) : String := String.ofList (row.map Cell.char)

end FuzzLang.Screen
