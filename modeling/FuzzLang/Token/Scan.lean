import FuzzLang.Token.Pattern

/-!
# Reading tokens

A source is cut into pieces from left to right, each the longest that any pattern covers. Pieces of
blank space and comments are dropped, the others become tokens. Reading stops at the first integer
that does not fit and at the first text that no pattern covers.
-/

namespace FuzzLang.Token

/-- A piece of source text and the pattern it was taken by. -/
structure Piece where
  pattern : Pattern
  text : List Char
  deriving DecidableEq, Repr

/-- The pieces of a text and the rest that no pattern covers. -/
def cut (cs : List Char) : List Piece × List Char :=
  match _h : Pattern.longest cs with
  | none => ([], cs)
  | some (p, n) =>
    let (pieces, rest) := cut (cs.drop n)
    (⟨p, cs.take n⟩ :: pieces, rest)
termination_by cs.length
decreasing_by exact Pattern.length_drop_lt ‹_›

/-- Why a source has no tokens. -/
inductive Fault where
  | unexpected (slice : String)
  | outOfRange (slice : String)
  deriving DecidableEq, Repr

namespace Fault

def message : Fault → String
  | .unexpected s => "Unexpected character: " ++ s
  | .outOfRange s => "Numeric literal out of range: " ++ s

end Fault

/-- A fault and its place. -/
structure Error where
  fault : Fault
  location : Location
  deriving DecidableEq, Repr

namespace Error

def message (e : Error) : String :=
  "Lex error at line " ++ toString e.location.line ++ ", column " ++ toString e.location.column ++
    ": " ++ e.fault.message

end Error

namespace Piece

/-- The lexeme of a piece taken as a token. -/
def lexeme? (kind : Kind) (text : List Char) : Except Fault Lexeme :=
  match kind with
  | .number =>
    match Number.ofLiteral? text with
    | some n => .ok (.number n)
    | none => .error (.outOfRange (String.ofList text))
  | _ => .ok (.text (String.ofList text))

end Piece

/-- The tokens of pieces that begin at `offset`. -/
def ofPieces (table : LineTable) (offset : Nat) : List Piece → Except Error (List Token)
  | [] => .ok []
  | piece :: rest =>
    let next := offset + utf8Length piece.text
    match piece.pattern with
    | .blank | .comment => ofPieces table next rest
    | .token kind =>
      match Piece.lexeme? kind piece.text with
      | .error fault => .error ⟨fault, table.locate offset⟩
      | .ok lexeme =>
        match ofPieces table next rest with
        | .error e => .error e
        | .ok tokens => .ok (⟨kind, lexeme, table.locate offset⟩ :: tokens)

/-- The text that is to blame when no pattern covers any of it: a quote that opens a string shows
with the rest of its line, anything else alone. -/
def offending (cs : List Char) : List Char :=
  match cs with
  | '"' :: _ => cs.takeWhile (· != '\n')
  | _ => cs.take 1

/-- The tokens of a source. -/
def scan (source : List Char) : Except Error (List Token) :=
  let table := LineTable.ofSource source
  let (pieces, rest) := cut source
  match ofPieces table 0 pieces with
  | .error e => .error e
  | .ok tokens =>
    if rest.isEmpty then .ok tokens
    else
      let offset := utf8Length (pieces.flatMap (·.text))
      .error ⟨.unexpected (String.ofList (offending rest)), table.locate offset⟩

/-- The tokens of a source text. -/
def tokenize (source : String) : Except Error (List Token) := scan source.toList

end FuzzLang.Token
