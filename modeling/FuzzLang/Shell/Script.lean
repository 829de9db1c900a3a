/-!
# Scripts

The language of the shell that a machine runs its scripts by. A command is simple, or made of other
commands; its words are made of parts that stand for text, and its redirections say where it reads
and writes.
-/

namespace FuzzLang.Shell

/-- How a file is opened. -/
inductive OpenMode where
  | read
  | write
  | append
  deriving DecidableEq, Repr

mutual

/-- A part of a word. What is quoted is not split. -/
inductive Part where
  | text (value : String)
  | parameter (name : String) (quoted : Bool)
  /-- What a command prints. -/
  | output (body : Command) (quoted : Bool)
  /-- The value of an expression over whole numbers. -/
  | sum (expression : String)

inductive Redirect where
  | file (fd : Nat) (mode : OpenMode) (path : List Part)
  /-- A descriptor stands for what another one stands for. -/
  | copy (fd : Nat) (source : List Part)
  /-- Input that stands in the script itself. -/
  | here (fd : Nat) (text : List Part)

inductive Command where
  | simple (line : Nat) (assignments : List (String × List Part)) (words : List (List Part))
      (redirects : List Redirect)
  | redirected (line : Nat) (body : Command) (redirects : List Redirect)
  /-- The second reads what the first prints. -/
  | pipe (first second : Command)
  | negate (body : Command)
  /-- The second runs if the first succeeds. -/
  | both (first second : Command)
  /-- The second runs if the first fails. -/
  | either (first second : Command)
  | sequence (commands : List Command)
  | choose (test yes no : Command)
  /-- Repeat while the test succeeds, or until it does. -/
  | loop (untilTrue : Bool) (test body : Command)
  /-- Run for each of the words. -/
  | each (name : String) (words : List (List Part)) (body : Command)
  | define (name : String) (body : Command)

end

/-- A word is a list of parts. -/
abbrev Word := List Part

def isNameStart (c : Char) : Bool := c.isAlpha || c == '_'

def isNameChar (c : Char) : Bool := c.isAlphanum || c == '_'

/-- Whether a text can name a variable or a function. -/
def isName : List Char → Bool
  | [] => false
  | c :: cs => isNameStart c && cs.all isNameChar

end FuzzLang.Shell
