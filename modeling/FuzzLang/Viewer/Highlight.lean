import FuzzLang.Text.Alphanumeric
import FuzzLang.Viewer.Theme

/-!
# Highlighting

A line is cut into words, string literals, single marks and at most one comment, each in its
colour. The two dialects differ only in their words and in what begins a comment.
-/

namespace FuzzLang.Viewer

open Screen

/-- What highlighting knows of a language. -/
structure Dialect where
  commentMark : List Char
  keywords : List String
  types : List String

namespace Dialect

def source : Dialect where
  commentMark := "comment:".toList
  keywords := ["fuzzy", "labs", "suzy", "flabs", "every", "in"]
  types := ["int", "float", "string", "array"]

def target : Dialect where
  commentMark := "//".toList
  keywords := ["fn", "let", "for", "in", "return"]
  types := ["i32", "f32", "str"]

end Dialect

namespace Highlight

/-- Whether a word is made of ASCII digits and points. -/
def isNumber (word : List Char) : Bool :=
  !word.isEmpty && word.all fun c => c.isDigit || c == '.'

def isBracket (c : Char) : Bool :=
  c == '\x7b' || c == '\x7d' || c == '(' || c == ')' || c == '[' || c == ']'

/-- The style of a word, which may be the name of a called function. -/
def wordStyle (d : Dialect) (word : List Char) (called : Bool) : Style :=
  if d.keywords.contains (String.ofList word) then { fg := Theme.keyword, bold := true }
  else if d.types.contains (String.ofList word) then { fg := Theme.typeName }
  else if isNumber word then { fg := Theme.number }
  else if called then { fg := Theme.function }
  else { fg := Theme.fg }

/-- The segment of a word, if there is one. -/
def flush (d : Dialect) (word : List Char) (called : Bool) : StyledLine :=
  if word.isEmpty then [] else [⟨word, wordStyle d word called⟩]

def stringSegment (text : List Char) : Segment := ⟨text, { fg := Theme.string }⟩

def markSegment (c : Char) : Segment :=
  ⟨[c], { fg := if isBracket c then Theme.primary else Theme.fg }⟩

/-- Whether a character goes on with a word. -/
def continues (word : List Char) (c : Char) : Bool :=
  Text.isAlphanumeric c || c == '_' || (c == '.' && isNumber word)

/-- What has been read of the segment under way. -/
inductive Pending where
  | word (text : List Char)
  | string (text : List Char)
  deriving DecidableEq, Repr

/-- The segments of a text after the part that is under way. -/
def segments (d : Dialect) : Pending → List Char → StyledLine
  | .word word, [] => flush d word false
  | .string text, [] => [stringSegment text]
  | .string text, c :: cs =>
    if c = '"' then stringSegment (text ++ [c]) :: segments d (.word []) cs
    else segments d (.string (text ++ [c])) cs
  | .word word, c :: cs =>
    if d.commentMark.isPrefixOf (c :: cs) then
      flush d word false ++ [⟨c :: cs, { fg := Theme.comment }⟩]
    else if c = '"' then flush d word false ++ segments d (.string [c]) cs
    else if continues word c then segments d (.word (word ++ [c])) cs
    else flush d word (c == '(') ++ markSegment c :: segments d (.word []) cs

end Highlight

/-- A line in the colours of a dialect. -/
def highlight (d : Dialect) (line : List Char) : StyledLine := Highlight.segments d (.word []) line

end FuzzLang.Viewer
