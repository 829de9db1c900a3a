import FuzzLang.Compile

/-!
# Log lines

What the program tells about its work, line by line, each at a level. The lines of a compilation
follow from its steps: what was read and written before it succeeded or failed.
-/

namespace FuzzLang.Log

inductive Level where
  | error
  | warn
  | info
  | debug
  | trace
  deriving DecidableEq, Repr

namespace Level

def name : Level → String
  | .error => "ERROR"
  | .warn => "WARN"
  | .info => "INFO"
  | .debug => "DEBUG"
  | .trace => "TRACE"

/-- How much a level lets through; the more, the higher. -/
def rank : Level → Nat
  | .error => 1
  | .warn => 2
  | .info => 3
  | .debug => 4
  | .trace => 5

end Level

/-- Which lines are shown: those up to a level, or none. -/
structure Filter where
  level? : Option Level
  deriving DecidableEq, Repr

namespace Filter

/-- The filter that a word asks for; `info` if it asks for nothing known. -/
def ofWord (word : Option String) : Filter :=
  match word.map fun w => String.ofList (w.toList.map Char.toLower) with
  | some "off" => ⟨none⟩
  | some "error" | some "" => ⟨some .error⟩
  | some "warn" => ⟨some .warn⟩
  | some "debug" => ⟨some .debug⟩
  | some "trace" => ⟨some .trace⟩
  | _ => ⟨some .info⟩

def shows (f : Filter) (level : Level) : Bool :=
  match f.level? with
  | some limit => level.rank ≤ limit.rank
  | none => false

end Filter

structure Line where
  level : Level
  /-- The work that a line belongs to. -/
  span : String := ""
  message : String
  deriving DecidableEq, Repr

/-- A character that could steer a terminal, spelled out. -/
def spellOut (c : Char) : List Char :=
  let n := c.toNat
  if n = 0x1b ∨ n = 7 ∨ n = 8 ∨ n = 0x0c ∨ n = 0x7f then
    let digits := Nat.toDigits 16 n
    "\\x".toList ++ List.replicate (2 - digits.length) '0' ++ digits
  else if 0x80 ≤ n ∧ n ≤ 0x9f then "\\u\x7b".toList ++ Nat.toDigits 16 n ++ ['\x7d']
  else [c]

namespace Line

def text (l : Line) : String :=
  l.level.name ++ " " ++ (if l.span.isEmpty then "" else l.span ++ ": ") ++
    String.ofList (l.message.toList.flatMap spellOut)

def info (message : String) : Line := { level := .info, message }

def error (message : String) : Line := { level := .error, message }

end Line

/-! ## The lines of a compilation -/

/-- A value in quotes. -/
def quoted (s : String) : String := "\"" ++ s ++ "\""

def dispatchLine (span : String) (position : Nat) (kind : Token.Kind) : Line where
  level := .trace
  span := span
  message := "dispatching position=" ++ toString position ++ " kind=" ++ kind.name

def nodeLine (span : String) (e : Entry) : Line where
  level := .debug
  span := span
  message := "parsed node kind=" ++ quoted e.node.kindName ++ " tokens=" ++
    toString e.span.start ++ ".." ++ toString e.span.stop

/-- The line that tells which statement begins at a position. -/
def dispatchAt (span : String) (tokens : List Token) (position : Nat) : List Line :=
  (tokens[position]?.map fun t => dispatchLine span position t.kind).toList

/-- The lines of reading statements. -/
def readingLines (tokens : List Token) : List Line :=
  let span := "parse_program\x7btokens=" ++ toString tokens.length ++ "\x7d"
  let reading := Grammar.read 0 tokens
  let read := reading.entries.flatMap fun e =>
    dispatchAt span tokens e.span.start ++ [nodeLine span e]
  let failed := match reading.fault? with
    | some _ => dispatchAt span tokens ((reading.entries.getLast?.map (·.span.stop)).getD 0)
    | none => []
  read ++ failed

/-- The functions that writing comes to: it stops after the first whose body cannot be written,
and before the first whose header cannot. -/
def announced : List FunctionDef → List FunctionDef
  | [] => []
  | f :: fs =>
    match Target.headerLine f, Target.bindingLines 1 f.body with
    | .error _, _ => []
    | .ok _, .error _ => [f]
    | .ok _, .ok _ => f :: announced fs

/-- The lines of writing statements. -/
def generatingLines (entries : List Entry) : List Line :=
  let span := "generate_with_config\x7bnodes=" ++ toString entries.length ++ "\x7d"
  let line (message : String) : Line := { level := .debug, span, message }
  let draft := (Outline.Draft.extendAll {} entries).1
  let collected := draft.functions.map fun f =>
    line ("collected function body function=" ++ quoted f.signature.name ++ " bindings=" ++
      toString f.body.length)
  let emitted := match Outline.ofEntries entries with
    | .error _ => []
    | .ok o => (announced o.functions).map fun f =>
      line ("emitting function function=" ++ quoted f.signature.name)
  collected ++ emitted

/-- The lines of compiling a source. -/
def compilationLines (source : String) : List Line :=
  match Token.tokenize source with
  | .error _ => []
  | .ok tokens =>
    let count := toString tokens.length
    let lexed : List Line :=
      [{ level := .trace, message := "tokenized source count=" ++ count },
        { level := .debug, message := "lexed source tokens=" ++ count }]
    let parsed := match Grammar.parse tokens with
      | .error _ => []
      | .ok entries =>
        { level := .debug, message := "parsed program nodes=" ++ toString entries.length } ::
          generatingLines entries
    lexed ++ readingLines tokens ++ parsed

end FuzzLang.Log
