import FuzzLang.Shell.State

/-!
# Tools

The programs of the system that scripts use: they copy, make and mark files, and print, count and
change texts. Each knows those of its arguments that such scripts give it.
-/

namespace FuzzLang.Shell

open Host (Tree FileEntry SystemError)

/-- A call of a tool. -/
structure Call where
  /-- The name that the tool is called by. -/
  name : String
  arguments : List String
  input : String
  tree : Tree

/-- What a call did. -/
structure Report where
  tree : Tree
  /-- What was written, to standard output as `1` or to standard error as `2`. -/
  writes : List (Nat × String) := []
  status : Nat := 0

namespace Report

def print (r : Report) (text : String) : Report := { r with writes := r.writes ++ [(1, text)] }

/-- Report a failure and go on. -/
def blame (r : Report) (name message : String) : Report :=
  { r with writes := r.writes ++ [(2, name ++ ": " ++ message ++ "\n")], status := 1 }

end Report

namespace Call

/-- The report of a call that did nothing yet. -/
def begin (c : Call) : Report := { tree := c.tree }

/-- The report of a call that was not understood. -/
def misuse (c : Call) : Report := c.begin.blame c.name "invalid arguments"

/-- Go through the texts of files, or through the input if there are none. What cannot be read is
reported. -/
def overTexts (c : Call) (paths : List String) (step : Report → (path text : String) → Report) :
    Report :=
  if paths.isEmpty then step c.begin "" c.input
  else paths.foldl (fun r path =>
    match textOf r.tree path with
    | .ok text => step r path text
    | .error fault => r.blame c.name (path ++ ": " ++ fault.text)) c.begin

/-- Go through files and change the tree for each. What fails is reported as what could not be
done. -/
def overFiles (c : Call) (paths : List String) (could : String)
    (step : Tree → (path : String) → Except SystemError Tree) : Report :=
  paths.foldl (fun r path =>
    match step r.tree path with
    | .ok tree => { r with tree }
    | .error fault =>
      r.blame c.name ("cannot " ++ could ++ " '" ++ path ++ "': " ++ fault.text)) c.begin

end Call

namespace Tool

/-! ## Files -/

/-- Copy a file to a path, or into the directory that is there. A new file has the marks of the
copied one. -/
def copy (c : Call) : Report :=
  match c.arguments with
  | [source, goal] =>
    let target := if c.tree.isDirectory goal then
        Path.join goal ((Path.fileName? source).getD source) else goal
    match c.tree.find source with
    | .error fault => c.begin.blame c.name ("cannot stat '" ++ source ++ "': " ++ fault.text)
    | .ok .directory =>
      c.begin.blame c.name ("-r not specified; omitting directory '" ++ source ++ "'")
    | .ok entry =>
      let content := match entry with
        | .file content _ => content
        | _ => ByteArray.empty
      c.overFiles [target] "create regular file" fun t path => do
        let isNew := (t.find path).toOption.isNone
        let written ← t.write path content
        if isNew then return written.put (← written.locate path) entry else return written
  | _ => c.misuse

/-- Whether a file can be started under a mode, given whether it could be before. -/
def executableUnder? (mode : List Char) (before : Bool) : Option Bool :=
  if mode.all Char.isDigit then
    some (mode.any fun d => (d.toNat - '0'.toNat) % 2 == 1)
  else
    match mode.dropWhile fun c => "ugoa".toList.contains c with
    | '+' :: marks => some (before || marks.contains 'x')
    | '-' :: marks => some (before && !marks.contains 'x')
    | _ => none

/-- Change the marks of files. -/
def changeMode (c : Call) : Report :=
  match c.arguments with
  | mode :: paths =>
    if (executableUnder? mode.toList false).isNone then c.misuse
    else c.overFiles paths "access" fun t path => do
      let place ← t.locate path
      match t.get? place with
      | some (.file content before) =>
        return t.put place (.file content ((executableUnder? mode.toList before).getD before))
      | _ => return t
  | [] => c.misuse

def makeDirectories (c : Call) : Report :=
  match c.arguments with
  | "-p" :: paths => c.overFiles paths "create directory" fun t path =>
      match t.makeDirs path with
      | (tree, none) => .ok tree
      | (_, some fault) => .error fault
  | paths => c.overFiles paths "create directory" Tree.makeDir

def remove (c : Call) : Report :=
  let forced := c.arguments.head? = some "-f"
  c.overFiles (if forced then c.arguments.drop 1 else c.arguments) "remove" fun t path =>
    match t.locate path with
    | .ok place => if t.isDirectory path then .error .isDirectory else .ok (t.remove place)
    | .error fault => if forced then .ok t else .error fault

/-- Make files that are missing. -/
def touch (c : Call) : Report :=
  c.overFiles c.arguments "touch" fun t path =>
    match t.find path with
    | .ok _ => .ok t
    | .error _ => t.write path ByteArray.empty

/-! ## Texts -/

/-- The last name of a path, without an ending. -/
def baseName (c : Call) : Report :=
  let cut (path ending : String) : Report :=
    let name := ((Path.fileName? path).getD path).toList
    let shorter := name.take (name.length - ending.length)
    let kept := if shorter ++ ending.toList = name ∧ ¬ shorter.isEmpty then shorter else name
    c.begin.print (String.ofList kept ++ "\n")
  match c.arguments with
  | [path] => cut path ""
  | [path, ending] => cut path ending
  | _ => c.misuse

def concatenate (c : Call) : Report := c.overTexts c.arguments fun r _ text => r.print text

def countLines (c : Call) : Report :=
  match c.arguments with
  | "-l" :: paths => c.overTexts paths fun r path text =>
      let count := toString (text.toList.count '\n')
      r.print ((if path.isEmpty then count else count ++ " " ++ path) ++ "\n")
  | _ => c.misuse

/-- The characters of a set with ranges. -/
def charSet : List Char → List Char
  | a :: '-' :: b :: cs =>
    (List.range (b.toNat + 1 - a.toNat)).map (fun k => Char.ofNat (a.toNat + k)) ++ charSet cs
  | c :: cs => c :: charSet cs
  | [] => []

/-- Put the characters of one set in the places of those of another, or take them away. -/
def translate (c : Call) : Report :=
  match c.arguments with
  | ["-d", set] =>
    c.begin.print (String.ofList (c.input.toList.filter (!(charSet set.toList).contains ·)))
  | [source, goal] =>
    let images := charSet goal.toList
    let image (ch : Char) : Char :=
      match (charSet source.toList).findIdx? (· == ch) with
      | some k => (images[k]? <|> images.getLast?).getD ch
      | none => ch
    c.begin.print (c.input.map image)
  | _ => c.misuse

/-- A line with a text in the place of another, once or each time. -/
def substituted (old new : String) (each : Bool) (line : String) : String :=
  match line.splitOn old with
  | first :: second :: rest =>
    if each then new.intercalate (first :: second :: rest)
    else first ++ new ++ old.intercalate (second :: rest)
  | _ => line

/-- Substitute texts line by line. The text to look for stands for itself. -/
def substitute (c : Call) : Report :=
  match c.arguments with
  | script :: paths =>
    match script.splitOn "/" with
    | ["s", old, new, flags] => c.overTexts paths fun r _ text =>
        let lines := (text.splitOn "\n").map (substituted old new (flags == "g"))
        r.print ("\n".intercalate lines)
    | _ => c.misuse
  | [] => c.misuse

/-- The tools by their names. -/
def all : List (String × (Call → Report)) :=
  [("basename", baseName), ("cat", concatenate), ("chmod", changeMode), ("cp", copy),
    ("false", fun c => { c.begin with status := 1 }), ("mkdir", makeDirectories), ("rm", remove),
    ("sed", substitute), ("touch", touch), ("tr", translate), ("true", Call.begin),
    ("wc", countLines)]

end Tool

end FuzzLang.Shell
