import FuzzLang.Screen.Canvas
import FuzzLang.Text.Blank

/-!
# Wrapping lines

A line that is too wide goes on in further rows. It is broken where white space begins after a
word; the white space that does not fit is dropped, and a word wider than a row is broken anywhere.
-/

namespace FuzzLang.Screen

/-- A line on its way to rows: the rows that are finished, the row being filled, and the white
space and the word that wait for their end. -/
structure Wrapping where
  rows : List Row := []
  line : Row := []
  space : Row := []
  word : Row := []
  /-- Whether the last cell that was taken belongs to a word. -/
  inWord : Bool := false
  deriving Repr

namespace Wrapping

/-- Move the waiting white space and word into the row. -/
def settle (w : Wrapping) : Wrapping :=
  { w with line := w.line ++ w.space ++ w.word, space := [], word := [] }

/-- Finish the row, and drop the white space that would have filled it. -/
def endRow (width : Nat) (w : Wrapping) : Wrapping :=
  { w with rows := w.rows ++ [w.line], line := [], space := w.space.drop (width - w.line.length) }

/-- Put a cell behind those that wait. -/
def append (w : Wrapping) (cell : Cell) (blank : Bool) : Wrapping :=
  if blank then { w with space := w.space ++ [cell], inWord := false }
  else { w with word := w.word ++ [cell], inWord := true }

/-- Take the next cell. -/
def take (width : Nat) (w : Wrapping) (cell : Cell) : Wrapping :=
  let blank := Text.isBreakable cell.char
  let w :=
    if (w.inWord && blank) || (w.line.isEmpty && width < w.word.length + w.space.length + 1) then
      w.settle
    else w
  if width ≤ w.line.length || width ≤ w.line.length + w.space.length + w.word.length then
    let w := w.endRow width
    if blank && w.space.isEmpty then w else w.append cell blank
  else w.append cell blank

/-- The rows when the line has ended. -/
def finish (w : Wrapping) : List Row :=
  let early :=
    if w.line.isEmpty && w.word.isEmpty && !w.space.isEmpty then w.rows ++ [[]] else w.rows
  let last := w.line ++ w.space ++ w.word
  let all := if last.isEmpty then early else early ++ [last]
  if all.isEmpty then [[]] else all

end Wrapping

/-- The rows of a line in a given width. -/
def wrap (width : Nat) (line : Row) : List Row :=
  (line.foldl (Wrapping.take width) {}).finish

end FuzzLang.Screen
