/-!
# Paths

A path is text cut at slashes. Its parts are names, steps up and, at the front only, the root or
the current directory; empty parts and other dots are nothing.
-/

namespace FuzzLang.Path

/-- The pieces of a text between slashes. -/
def segments : List Char → List (List Char)
  | [] => [[]]
  | c :: cs =>
    if c = '/' then [] :: segments cs
    else
      match segments cs with
      | [] => [[c]]
      | s :: ss => (c :: s) :: ss

inductive Part where
  | root
  | here
  | up
  | name (value : String)
  deriving DecidableEq, Repr

/-- The part that a segment is, if it is one. -/
def part? (segment : List Char) : Option Part :=
  if segment = [] ∨ segment = ['.'] then none
  else if segment = ['.', '.'] then some .up
  else some (.name (String.ofList segment))

def isAbsolute (path : String) : Bool := path.toList.head? == some '/'

/-- The parts of a path. -/
def parts (path : String) : List Part :=
  match segments path.toList with
  | [] => []
  | first :: rest =>
    let front :=
      if isAbsolute path then [.root]
      else if first = ['.'] then [.here]
      else (part? first).toList
    front ++ rest.filterMap part?

/-- The name that a path ends in. -/
def fileName? (path : String) : Option String :=
  match (parts path).getLast? with
  | some (.name s) => some s
  | _ => none

/-- A name without its extension: what stands before the last dot, unless that is nothing. -/
def stemOf (name : String) : String :=
  match name.toList.reverse.dropWhile (· != '.') with
  | [] => name
  | [_] => name
  | _ :: before => String.ofList before.reverse

/-- The name that a path ends in, without its extension. -/
def stem? (path : String) : Option String := (fileName? path).map stemOf

/-- One path after another. An absolute path stands alone. -/
def join (first second : String) : String :=
  if isAbsolute second then second
  else if first.toList.getLast?.all (· == '/') then first ++ second
  else first ++ "/" ++ second

/-- The text of a part other than the root. -/
def Part.text : Part → String
  | .root => ""
  | .here => "."
  | .up => ".."
  | .name s => s

/-- The path made of parts. -/
def ofParts : List Part → String
  | .root :: ps => "/" ++ "/".intercalate (ps.map Part.text)
  | ps => "/".intercalate (ps.map Part.text)

/-- The path without its last part. The root has none, nor has the empty path. -/
def parent? (path : String) : Option String :=
  match (parts path).getLast? with
  | none | some .root => none
  | some _ => some (ofParts (parts path).dropLast)

end FuzzLang.Path
