import FuzzLang.Token.Basic

/-!
# The patterns of the source text

Every piece of a source is blank space, a comment or a token of some kind. `Pattern.length` says
how long a start of the text a pattern covers at most; the longest pattern is taken, and a keyword
comes before the identifier it also is.
-/

namespace FuzzLang.Token

/-- What a piece of source text can be. -/
inductive Pattern where
  | blank
  | comment
  | token (kind : Kind)
  deriving DecidableEq, Repr

/-- Space that separates tokens. -/
def isBlank (c : Char) : Bool :=
  c == ' ' || c == '\t' || c == '\r' || c == '\n' || c == '\x0c'

/-- Whether a character can begin an identifier: an ASCII letter or an underscore. -/
def isNameStart (c : Char) : Bool := c.isAlpha || c == '_'

/-- Whether a character can continue an identifier. -/
def isNameRest (c : Char) : Bool := isNameStart c || c.isDigit

def isOperator (c : Char) : Bool := c == '+' || c == '-' || c == '*' || c == '/'

/-- The word that begins a comment, which lasts to the end of the line. -/
def commentMark : List Char := "comment:".toList

namespace Pattern

/-- The length of a fixed word if the text starts with it. -/
def wordLength (word cs : List Char) : Nat := if word.isPrefixOf cs then word.length else 0

/-- The length of an identifier at the start of the text. -/
def nameLength : List Char → Nat
  | c :: cs => if isNameStart c then 1 + (cs.takeWhile isNameRest).length else 0
  | [] => 0

/-- The length of a string literal at the start of the text: a quote, anything but quotes and line
feeds, a quote. -/
def stringLength : List Char → Nat
  | '"' :: cs =>
    let body := cs.takeWhile fun c => c != '"' && c != '\n'
    match cs.drop body.length with
    | '"' :: _ => body.length + 2
    | _ => 0
  | _ => 0

/-- The length of a number without a sign: digits, or digits after a point, before which there may
be more digits. -/
def unsignedLength (cs : List Char) : Nat :=
  let whole := cs.takeWhile Char.isDigit
  match cs.drop whole.length with
  | '.' :: rest =>
    let fraction := rest.takeWhile Char.isDigit
    if fraction.isEmpty then whole.length else whole.length + 1 + fraction.length
  | _ => whole.length

/-- The length of a number at the start of the text. A sign belongs to the number after it. -/
def numberLength (cs : List Char) : Nat :=
  match cs with
  | '+' :: rest | '-' :: rest =>
    let n := unsignedLength rest
    if n = 0 then 0 else n + 1
  | _ => unsignedLength cs

/-- The length of the longest start of the text that a pattern covers, `0` if it covers none. -/
def length (p : Pattern) (cs : List Char) : Nat :=
  match p with
  | .blank => (cs.takeWhile isBlank).length
  | .comment =>
    if commentMark.isPrefixOf cs then (cs.takeWhile (· != '\n')).length else 0
  | .token .number => numberLength cs
  | .token .string => stringLength cs
  | .token .identifier => nameLength cs
  | .token .operator =>
    match cs with
    | c :: _ => if isOperator c then 1 else 0
    | [] => 0
  | .token kind => wordLength (kind.spelling?.getD "").toList cs

/-- All patterns, the keywords before the identifiers. -/
def all : List Pattern := .blank :: .comment :: Kind.all.filterMap fun k =>
  if k = .identifier then none else some (.token k)

/-- The first of the patterns that cover most of the text, with the length it covers. -/
def longestOf (cs : List Char) : List Pattern → Option (Pattern × Nat)
  | [] => none
  | p :: ps =>
    match longestOf cs ps with
    | some (q, n) => if n ≤ p.length cs then some (p, p.length cs) else some (q, n)
    | none => if 0 < p.length cs then some (p, p.length cs) else none

/-- The pattern of the first piece of the text, with the length of the piece. -/
def longest (cs : List Char) : Option (Pattern × Nat) := longestOf cs (all ++ [.token .identifier])

theorem longestOf_pos {cs : List Char} {ps : List Pattern} {p : Pattern} {n : Nat}
    (h : longestOf cs ps = some (p, n)) : 0 < n := by
  induction ps generalizing p n with
  | nil => cases h
  | cons q qs ih =>
    unfold longestOf at h
    split at h
    · rename_i r m hr
      have := ih hr
      split at h <;> (simp only [Option.some.injEq, Prod.mk.injEq] at h; omega)
    · split at h
      · simp only [Option.some.injEq, Prod.mk.injEq] at h; omega
      · cases h

/-- A piece is never empty. -/
theorem longest_pos {cs : List Char} {p : Pattern} {n : Nat} (h : longest cs = some (p, n)) :
    0 < n := longestOf_pos h

theorem longest_nil : longest [] = none := by decide

/-- Cutting off the first piece shortens the text. -/
theorem length_drop_lt {cs : List Char} {p : Pattern} {n : Nat} (h : longest cs = some (p, n)) :
    (cs.drop n).length < cs.length := by
  have := longest_pos h
  cases cs with
  | nil => rw [longest_nil] at h; cases h
  | cons c cs => simp only [List.length_drop, List.length_cons]; omega

end Pattern

end FuzzLang.Token
