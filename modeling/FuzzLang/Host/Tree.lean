import FuzzLang.Host.Basic

/-!
# Files in memory

A tree of files and directories below a root, with a current directory. Paths are walked part by
part: what is walked through has to be a directory, and no name may be too long.
-/

namespace FuzzLang.Host

/-- What stands at a place in the tree. -/
inductive FileEntry where
  | directory
  | file (content : ByteArray) (executable : Bool)
  /-- A program that belongs to the system. -/
  | tool (name : String)

/-- A place in the tree: the names from the root down. -/
abbrev Place := List String

structure Tree where
  /-- All entries but the root, which is a directory. -/
  entries : List (Place × FileEntry) := []
  /-- The current directory. -/
  here : Place := []

namespace Tree

def get? (t : Tree) (p : Place) : Option FileEntry :=
  if p.isEmpty then some .directory else (t.entries.find? (·.1 == p)).map (·.2)

def put (t : Tree) (p : Place) (e : FileEntry) : Tree :=
  { t with entries := t.entries.filter (·.1 != p) ++ [(p, e)] }

def remove (t : Tree) (p : Place) : Tree := { t with entries := t.entries.filter (·.1 != p) }

/-- The names between the slashes of a path. -/
def names (path : String) : List String := (Path.segments path.toList).map String.ofList

def isTooLong (name : String) : Bool := 255 < name.utf8ByteSize

/-- The place that names lead to from a place. -/
def walk (t : Tree) (p : Place) : List String → Except SystemError Place
  | [] => .ok p
  | name :: rest =>
    match t.get? p with
    | none => .error .noEntry
    | some .directory =>
      if name = "" ∨ name = "." then t.walk p rest
      else if name = ".." then t.walk p.dropLast rest
      else if isTooLong name then .error .nameTooLong
      else if (t.get? (p ++ [name])).isNone then .error .noEntry
      else t.walk (p ++ [name]) rest
    | some _ => .error .notDirectory

/-- Where a path begins. -/
def origin (t : Tree) (path : String) : Place := if Path.isAbsolute path then [] else t.here

/-- Refuse paths that are empty or too long. -/
def checkPath (path : String) : Except SystemError Unit :=
  if path.isEmpty then .error .noEntry
  else if 4096 ≤ path.utf8ByteSize then .error .nameTooLong
  else .ok ()

/-- The place of an existing entry. -/
def locate (t : Tree) (path : String) : Except SystemError Place := do
  checkPath path
  t.walk (t.origin path) (names path)

/-- The entry at a path. -/
def find (t : Tree) (path : String) : Except SystemError FileEntry := do
  let p ← t.locate path
  match t.get? p with
  | some e => return e
  | none => .error .noEntry

def isDirectory (t : Tree) (path : String) : Bool :=
  match t.find path with
  | .ok .directory => true
  | _ => false

/-- Where a path would put a new entry: the directory, the name, and whether slashes follow the
name. -/
structure Site where
  directory : Place
  name : String
  slash : Bool

/-- The site of a path. -/
def site (t : Tree) (path : String) : Except SystemError Site := do
  checkPath path
  let all := names path
  let trimmed := (all.reverse.dropWhile (· == "")).reverse
  let directory ← t.walk (t.origin path) trimmed.dropLast
  match t.get? directory with
  | some .directory =>
    let name := trimmed.getLast?.getD "."
    if isTooLong name then .error .nameTooLong
    else return ⟨directory, name, trimmed.length < all.length⟩
  | some _ => .error .notDirectory
  | none => .error .noEntry

/-- Whether a site names a directory by dots. -/
def Site.isDots (s : Site) : Bool := s.name == "." || s.name == ".."

def Site.place (s : Site) : Place := s.directory ++ [s.name]

/-- Give the file at a path a new content. -/
def write (t : Tree) (path : String) (content : ByteArray) : Except SystemError Tree := do
  let s ← t.site path
  if s.isDots || s.slash then .error .isDirectory
  else
    match t.get? s.place with
    | none => return t.put s.place (.file content false)
    | some (.file _ executable) => return t.put s.place (.file content executable)
    | some .directory => .error .isDirectory
    | some (.tool _) => .error .denied

/-- Make one directory. -/
def makeDir (t : Tree) (path : String) : Except SystemError Tree := do
  let s ← t.site path
  if s.isDots || (t.get? s.place).isSome then .error .alreadyExists
  else return t.put s.place .directory

/-- The path and those it lies in, from the inside out, up to the root or the current directory. -/
def ancestors (path : String) : List String :=
  go (Path.parts path).length path
where
  /-- Recursion ends after as many steps as there are parts. -/
  go : Nat → String → List String
    | 0, _ => []
    | n + 1, p =>
      match Path.parent? p with
      | some up => p :: go n up
      | none => []

/-- Make directories from the inside out until one could be made or is there, and collect those
whose directory is missing, outermost first. -/
def climb (t : Tree) (missing : List String) : List String → Except SystemError (Tree × List String)
  | [] => .ok (t, missing)
  | p :: rest =>
    match t.makeDir p with
    | .ok next => .ok (next, missing)
    | .error .noEntry => t.climb (p :: missing) rest
    | .error .alreadyExists =>
      if t.isDirectory p then .ok (t, missing) else .error .alreadyExists
    | .error e => .error e

/-- Make the missing directories; what was made before a failure stays. -/
def descend (t : Tree) : List String → Tree × Option SystemError
  | [] => (t, none)
  | p :: rest =>
    match t.makeDir p with
    | .ok next => next.descend rest
    | .error .alreadyExists =>
      if t.isDirectory p then t.descend rest else (t, some .alreadyExists)
    | .error e => (t, some e)

/-- Make a directory and all it lies in. -/
def makeDirs (t : Tree) (path : String) : Tree × Option SystemError :=
  match t.climb [] (ancestors path) with
  | .error e => (t, some e)
  | .ok (next, missing) => next.descend missing

/-- Put an entry at a path below the current directory, with the directories it lies in. -/
def plant (t : Tree) (path : String) (e : FileEntry) : Tree :=
  let p := t.here ++ (names path).filter (· != "")
  let above := (List.range p.length).filterMap fun n =>
    if t.here.length < n then some (p.take n) else none
  let housed := above.foldl (fun t d => if (t.get? d).isSome then t else t.put d .directory) t
  housed.put p e

/-- The entries below the current directory, by their paths from there. -/
def listing (t : Tree) : List (String × FileEntry) :=
  t.entries.filterMap fun (p, e) =>
    if t.here.isPrefixOf p ∧ t.here.length < p.length then
      some ("/".intercalate (p.drop t.here.length), e)
    else none

end Tree

end FuzzLang.Host
