import FuzzLang.Shell.Script

/-!
# Reading scripts

Scripts are read from the left, with one look ahead: blanks, words and their quotations, operators
and the words that are reserved where a command begins. A script is read line by line, so that what
stands before a mistake runs before the mistake is found.
-/

namespace FuzzLang.Shell

/-- Why a script cannot be read, and on which line. -/
structure Misreading where
  line : Nat
  message : String
  deriving DecidableEq, Repr

/-- What is left of a script. -/
structure Source where
  rest : List Char
  line : Nat := 1
  /-- How many lines were taken out behind the end of the current line. -/
  taken : Nat := 0

abbrev Reading := StateT Source (Except Misreading)

namespace Reader

def fail {α : Type} (message : String) : Reading α := fun s =>
  .error ⟨s.line, "Syntax error: " ++ message⟩

def tooDeep {α : Type} : Reading α := fail "too deep"

/-- Pass over characters. -/
def pass (count : Nat) : Reading Unit := modify fun s =>
  let ends := (s.rest.take count).count '\n'
  { s with
    rest := s.rest.drop count
    line := s.line + ends + (if ends = 0 then 0 else s.taken)
    taken := if ends = 0 then s.taken else 0 }

/-! ## Blanks and reserved words -/

/-- Drop blanks, and a comment behind them. -/
def dropBlanks (cs : List Char) : List Char :=
  match cs.dropWhile fun c => c == ' ' || c == '\t' with
  | '#' :: rest => rest.dropWhile (· != '\n')
  | rest => rest

def skipBlanks : Reading Unit := modify fun s => { s with rest := dropBlanks s.rest }

def skipLinesWithin : Nat → Reading Unit
  | 0 => pure ()
  | n + 1 => do
    skipBlanks
    if (← get).rest.head? = some '\n' then
      pass 1
      skipLinesWithin n

/-- Skip blanks and line ends. -/
def skipLines : Reading Unit := do skipLinesWithin ((← get).rest.length + 1)

/-- Whether a character ends a word. -/
def isMeta (c : Char) : Bool := " \t\n;&|<>()".toList.contains c

/-- The words that end a list of commands. -/
def closingWords : List String := ["do", "done", "elif", "else", "fi", "then", "\x7d"]

def reservedWords : List String :=
  closingWords ++ ["!", "for", "if", "in", "until", "while", "\x7b"]

/-- The reserved word that stands next. -/
def reserved? (s : Source) : Option String :=
  let word := String.ofList (s.rest.takeWhile fun c => !isMeta c)
  if reservedWords.contains word then some word else none

def quotedName (s : String) : String := "\"" ++ s ++ "\""

/-- Fail because of what stands next. -/
def unexpected {α : Type} : Reading α := do
  let s ← get
  let name := match s.rest with
    | [] => "end of file"
    | '\n' :: _ => "newline"
    | c :: _ =>
      if isMeta c then quotedName (String.singleton c)
      else ((reserved? s).map quotedName).getD "word"
  fail (name ++ " unexpected")

/-- Whether a list of commands has to end here. -/
def atListEnd (s : Source) : Bool :=
  match s.rest with
  | [] | ')' :: _ => true
  | _ => (reserved? s).any closingWords.contains

/-- Pass over a reserved word that has to stand next. -/
def expectWord (w : String) : Reading Unit := do
  skipLines
  if reserved? (← get) = some w then pass w.length else unexpected

/-- Pass over a character that has to stand next. -/
def expectChar (c : Char) : Reading Unit := do
  skipBlanks
  if (← get).rest.head? = some c then pass 1 else unexpected

/-! ## Words -/

/-- What a text stands in. -/
inductive Quoting where
  | bare
  | double
  /-- A text that stands in the script as input. -/
  | here
  deriving DecidableEq, Repr

/-- Whether a backslash takes away the meaning of a character. -/
def Quoting.escapes (q : Quoting) (c : Char) : Bool :=
  q == .bare || c == '$' || c == '\\' || (c == '"' && q == .double)

/-- The readers for what stands inside of something else. -/
structure Inner where
  parts : Quoting → Reading Word
  list : Reading Command
  command : Reading Command

/-- Put a text behind the parts, of which the last is the first. -/
def push (parts : List Part) (cs : List Char) : List Part :=
  match parts with
  | .text v :: rest => .text (v ++ String.ofList cs) :: rest
  | _ => .text (String.ofList cs) :: parts

/-- The name of the parameter that a text begins with. -/
def parameterName : List Char → List Char
  | [] => []
  | c :: cs =>
    if isNameStart c then c :: cs.takeWhile isNameChar
    else if "@*#?$0123456789".toList.contains c then [c]
    else []

/-- The characters of a sum up to the brackets that close it. `depth` counts its open brackets. -/
def sumText : (depth : Nat) → List Char → Option (List Char)
  | _, [] => none
  | 0, ')' :: ')' :: _ => some []
  | depth, c :: cs =>
    let next := if c = '(' then depth + 1 else if c = ')' then depth - 1 else depth
    (sumText next cs).map (c :: ·)

/-- What follows a dollar sign. -/
def dollar (inner : Inner) (quoted : Bool) (acc : List Part) : Reading (List Part) := do
  pass 1
  match (← get).rest with
  | '(' :: '(' :: cs =>
    match sumText 0 cs with
    | some text =>
      pass (text.length + 4)
      return .sum (String.ofList text) :: acc
    | none => fail "Missing '))'"
  | '(' :: _ =>
    pass 1
    let body ← inner.list
    skipLines
    expectChar ')'
    return .output body quoted :: acc
  | '\x7b' :: cs =>
    let name := parameterName cs
    if name.isEmpty ∨ (cs.drop name.length).head? ≠ some '\x7d' then fail "Bad substitution"
    else
      pass (name.length + 2)
      return .parameter (String.ofList name) quoted :: acc
  | cs =>
    let name := parameterName cs
    if name.isEmpty then return push acc ['$']
    else
      pass name.length
      return .parameter (String.ofList name) quoted :: acc

/-- One more piece of a word, that begins with the character `c`. -/
def piece (inner : Inner) (q : Quoting) (c : Char) (acc : List Part) : Reading (List Part) := do
  let rest := (← get).rest.drop 1
  if c = '\\' then
    match rest with
    | '\n' :: _ =>
      pass 2
      return acc
    | e :: _ =>
      pass 2
      return push acc (if q.escapes e then [e] else ['\\', e])
    | [] =>
      pass 1
      return push acc ['\\']
  else if c = '\x27' ∧ q = .bare then
    let body := rest.takeWhile (· != '\x27')
    pass (body.length + 2)
    if rest.length ≤ body.length then fail "Unterminated quoted string"
    else return push acc body
  else if c = '"' ∧ q = .bare then
    pass 1
    let parts ← inner.parts .double
    -- An empty quotation is a text; nothing else makes a word of no characters.
    return if parts.isEmpty then push acc [] else parts.reverse ++ acc
  else if c = '$' then dollar inner (q != .bare) acc
  else
    pass 1
    return push acc [c]

/-- The parts up to the end of a quoting. -/
def partsWithin (inner : Inner) (q : Quoting) : Nat → List Part → Reading Word
  | 0, _ => tooDeep
  | n + 1, acc => do
    match (← get).rest with
    | [] => if q = .double then fail "Unterminated quoted string" else return acc.reverse
    | c :: _ =>
      if q = .bare ∧ isMeta c then return acc.reverse
      else if q = .double ∧ c = '"' then
        pass 1
        return acc.reverse
      else partsWithin inner q n (← piece inner q c acc)

/-- A word that has to stand next. -/
def word (inner : Inner) : Reading Word := do
  skipBlanks
  if (← get).rest.head?.all isMeta then unexpected else inner.parts .bare

/-! ## Redirections -/

/-- The lines before the one that ends an input text, what follows that line, and the number of
all these lines. -/
def document (stop : List Char) : Nat → List Char → List Char × List Char × Nat
  | 0, cs => ([], cs, 0)
  | _, [] => ([], [], 0)
  | n + 1, cs =>
    let line := cs.takeWhile (· != '\n')
    let rest := cs.drop line.length
    if line = stop then ([], rest.drop 1, 1)
    else
      let (more, after, count) := document stop n (rest.drop 1)
      (line ++ rest.take 1 ++ more, after, count + 1)

/-- The input text of a redirection. It begins on the next line and is taken out of the script.
A delimiter in quotation marks keeps it as it is. -/
def hereText (inner : Inner) : Reading Word := do
  skipBlanks
  let isQuote (c : Char) : Bool := c == '\x27' || c == '"'
  let delimiter := (← get).rest.takeWhile fun c => !isMeta c
  if delimiter.isEmpty then unexpected
  pass delimiter.length
  let s ← get
  let before := s.rest.takeWhile (· != '\n')
  let after := s.rest.drop (before.length + 1)
  let (text, rest, lines) := document (delimiter.filter (!isQuote ·)) (after.length + 1) after
  let parts ← if delimiter.any isQuote then pure [.text (String.ofList text)]
    else do
      set { s with rest := text }
      inner.parts .here
  set { s with rest := before ++ (s.rest.drop before.length).take 1 ++ rest
               taken := s.taken + lines }
  return parts

/-- A redirection, if one stands next. -/
def redirect? (inner : Inner) : Reading (Option Redirect) := do
  let cs := (← get).rest
  let digits := (cs.takeWhile Char.isDigit).take 1
  let fd (default : Nat) : Nat := (digits.head?.map fun d => d.toNat - '0'.toNat).getD default
  match cs.drop digits.length with
  | '<' :: '<' :: _ =>
    pass (digits.length + 2)
    return some (.here (fd 0) (← hereText inner))
  | '<' :: _ =>
    pass (digits.length + 1)
    return some (.file (fd 0) .read (← word inner))
  | '>' :: '>' :: _ =>
    pass (digits.length + 2)
    return some (.file (fd 1) .append (← word inner))
  | '>' :: '&' :: _ =>
    pass (digits.length + 2)
    return some (.copy (fd 1) (← word inner))
  | '>' :: _ =>
    pass (digits.length + 1)
    return some (.file (fd 1) .write (← word inner))
  | _ => return none

/-! ## Commands -/

/-- The variable and the value of a word that is an assignment. -/
def assignment? : Word → Option (String × Word)
  | .text s :: rest =>
    let name := s.toList.takeWhile (· != '=')
    if isName name ∧ name.length < s.length then
      some (String.ofList name, .text (String.ofList (s.toList.drop (name.length + 1))) :: rest)
    else none
  | _ => none

/-- A simple command under way; its lists are in reverse. -/
structure Draft where
  assignments : List (String × Word) := []
  words : List Word := []
  redirects : List Redirect := []

def simpleWithin (inner : Inner) : Nat → Draft → Reading Draft
  | 0, _ => tooDeep
  | n + 1, d => do
    skipBlanks
    match ← redirect? inner with
    | some r => simpleWithin inner n { d with redirects := r :: d.redirects }
    | none =>
      if (← get).rest.head?.all isMeta then return d
      else
        let w ← inner.parts .bare
        match if d.words.isEmpty then assignment? w else none with
        | some a => simpleWithin inner n { d with assignments := a :: d.assignments }
        | none => simpleWithin inner n { d with words := w :: d.words }

/-- A simple command, or the definition of a function. -/
def simple (inner : Inner) : Reading Command := do
  let s ← get
  let d ← simpleWithin inner (s.rest.length + 1) {}
  match (← get).rest.head?, d.words, d.redirects with
  | some '(', [[.text name]], [] =>
    pass 1
    expectChar ')'
    unless isName name.toList do fail "Bad function name"
    skipLines
    return .define name (← inner.command)
  | _, _, _ => return .simple s.line d.assignments.reverse d.words.reverse d.redirects.reverse

/-- The rest of a choice behind its first branch. -/
def otherwise (inner : Inner) : Nat → Reading Command
  | 0 => tooDeep
  | n + 1 => do
    match reserved? (← get) with
    | some "elif" =>
      pass 4
      let test ← inner.list
      expectWord "then"
      let yes ← inner.list
      return .choose test yes (← otherwise inner n)
    | some "else" =>
      pass 4
      let no ← inner.list
      expectWord "fi"
      return no
    | _ =>
      expectWord "fi"
      return .sequence []

/-- Words up to the next operator. -/
def wordsWithin (inner : Inner) : Nat → Reading (List Word)
  | 0 => pure []
  | n + 1 => do
    skipBlanks
    if (← get).rest.head?.all isMeta then return []
    else
      let w ← inner.parts .bare
      return w :: (← wordsWithin inner n)

/-- The body of a loop. -/
def loopBody (inner : Inner) : Reading Command := do
  expectWord "do"
  let body ← inner.list
  expectWord "done"
  return body

/-- A loop over words, or over the arguments if it names no words. -/
def forLoop (inner : Inner) : Reading Command := do
  skipBlanks
  let s ← get
  let name := s.rest.takeWhile fun c => !isMeta c
  unless isName name do fail "Bad for loop variable"
  pass name.length
  skipBlanks
  let words ← if reserved? (← get) = some "in" then do
      pass 2
      wordsWithin inner (s.rest.length + 1)
    else pure [[.parameter "@" true]]
  if (← get).rest.head? = some ';' then pass 1
  return .each (String.ofList name) words (← loopBody inner)

/-- The command that a reserved word begins. -/
def compound (inner : Inner) (opening : String) : Reading Command := do
  let size := (← get).rest.length + 1
  pass opening.length
  match opening with
  | "if" =>
    let test ← inner.list
    expectWord "then"
    let yes ← inner.list
    return .choose test yes (← otherwise inner size)
  | "while" | "until" =>
    let test ← inner.list
    return .loop (opening == "until") test (← loopBody inner)
  | "for" => forLoop inner
  | _ =>
    let body ← inner.list
    expectWord "\x7d"
    return body

def redirectsWithin (inner : Inner) : Nat → Reading (List Redirect)
  | 0 => pure []
  | n + 1 => do
    skipBlanks
    match ← redirect? inner with
    | some r => return r :: (← redirectsWithin inner n)
    | none => return []

/-- Any command, with the redirections behind it. -/
def commandWith (inner : Inner) : Reading Command := do
  skipBlanks
  let s ← get
  match reserved? s, s.rest.head? with
  | some opening, _ =>
    if ["if", "while", "until", "for", "\x7b"].contains opening then
      let body ← compound inner opening
      let redirects ← redirectsWithin inner (s.rest.length + 1)
      return if redirects.isEmpty then body else .redirected s.line body redirects
    else unexpected
  | none, some c => if isMeta c ∧ c ≠ '<' ∧ c ≠ '>' then unexpected else simple inner
  | none, none => unexpected

/-- Commands that read what the one before them prints. -/
def stagesWithin (inner : Inner) : Nat → Reading Command
  | 0 => tooDeep
  | n + 1 => do
    let first ← inner.command
    skipBlanks
    match (← get).rest with
    | '|' :: '|' :: _ => return first
    | '|' :: _ =>
      pass 1
      skipLines
      return .pipe first (← stagesWithin inner n)
    | _ => return first

def pipeline (inner : Inner) : Reading Command := do
  skipBlanks
  let s ← get
  let negated := reserved? s = some "!"
  if negated then pass 1
  let all ← stagesWithin inner (s.rest.length + 1)
  return if negated then .negate all else all

/-- The further pipelines behind `first`. -/
def andOrWithin (inner : Inner) : Nat → Command → Reading Command
  | 0, _ => tooDeep
  | n + 1, first => do
    skipBlanks
    match (← get).rest with
    | '&' :: '&' :: _ =>
      pass 2
      skipLines
      andOrWithin inner n (.both first (← pipeline inner))
    | '|' :: '|' :: _ =>
      pass 2
      skipLines
      andOrWithin inner n (.either first (← pipeline inner))
    | _ => return first

def andOr (inner : Inner) : Reading Command := do
  let size := (← get).rest.length + 1
  andOrWithin inner size (← pipeline inner)

/-- Commands up to something that ends the list. -/
def listWithin (inner : Inner) : Nat → Reading (List Command)
  | 0 => tooDeep
  | n + 1 => do
    skipLines
    if atListEnd (← get) then return []
    let first ← andOr inner
    skipBlanks
    match (← get).rest.head? with
    | some ';' =>
      pass 1
      return first :: (← listWithin inner n)
    | some '\n' => return first :: (← listWithin inner n)
    | _ => return [first]

/-- A list of commands, with at least one. -/
def listWith (inner : Inner) : Reading Command := do
  let commands ← listWithin inner ((← get).rest.length + 1)
  if commands.isEmpty then unexpected else return .sequence commands

mutual

/-- The parts up to the end of a quoting, at most so deep. -/
def parts : (depth : Nat) → Quoting → Reading Word
  | 0, _ => tooDeep
  | n + 1, q => do
    partsWithin ⟨parts n, list n, command n⟩ q ((← get).rest.length + 1) []

def list : (depth : Nat) → Reading Command
  | 0 => tooDeep
  | n + 1 => listWith ⟨parts n, list n, command n⟩

def command : (depth : Nat) → Reading Command
  | 0 => tooDeep
  | n + 1 => commandWith ⟨parts n, list n, command n⟩

end

/-- The commands up to the end of the line. -/
def lineWithin (inner : Inner) : Nat → Reading (List Command)
  | 0 => tooDeep
  | n + 1 => do
    let first ← andOr inner
    skipBlanks
    match (← get).rest.head? with
    | none => return [first]
    | some '\n' =>
      pass 1
      return [first]
    | some ';' =>
      pass 1
      skipBlanks
      if (← get).rest.head?.all (· == '\n') then return [first]
      else return first :: (← lineWithin inner n)
    | _ => unexpected

/-- The commands of the next line that has some. -/
def line? : Reading (Option Command) := do
  skipLines
  let depth := (← get).rest.length + 1
  if depth = 1 then return none
  return some (.sequence (← lineWithin ⟨parts depth, list depth, command depth⟩ depth))

end Reader

end FuzzLang.Shell
