import FuzzLang.Frontier

/-!
# Places in a source

A place is a line and a column, both counted from one; the column counts bytes of UTF-8. A
`LineTable` holds the byte offset at which each line starts and turns an offset into a place.
-/

namespace FuzzLang

/-- A line and a column; `⟨0, 0⟩` stands for no place at all. -/
structure Location where
  line : Nat := 0
  column : Nat := 0
  deriving DecidableEq, Repr, Inhabited

namespace Location

/-- A place written `line:column`. -/
def text (l : Location) : String := toString l.line ++ ":" ++ toString l.column

end Location

/-- The number of bytes that characters take in UTF-8. -/
def utf8Length (cs : List Char) : Nat := cs.foldr (fun c n => c.utf8Size + n) 0

@[simp] theorem utf8Length_nil : utf8Length [] = 0 := rfl

@[simp] theorem utf8Length_cons (c : Char) (cs : List Char) :
    utf8Length (c :: cs) = c.utf8Size + utf8Length cs := rfl

@[simp] theorem utf8Length_append (cs ds : List Char) :
    utf8Length (cs ++ ds) = utf8Length cs + utf8Length ds := by
  induction cs with
  | nil => simp
  | cons c cs ih => rw [List.cons_append, utf8Length_cons, utf8Length_cons, ih, Nat.add_assoc]

/-- The offsets just after each line feed of a text that begins at `offset`. -/
def lineStarts (offset : Nat) : List Char → List Nat
  | [] => []
  | c :: cs =>
    let next := offset + c.utf8Size
    if c = '\n' then next :: lineStarts next cs else lineStarts next cs

/-- The byte offsets at which the lines of a source start, in order. The first is always `0`. -/
structure LineTable where
  starts : Array Nat

namespace LineTable

def ofSource (source : List Char) : LineTable := ⟨(0 :: lineStarts 0 source).toArray⟩

/-- Whether line `n`, counted from one, exists and starts no later than `offset`. -/
def reaches (t : LineTable) (offset n : Nat) : Bool :=
  match t.starts[n - 1]? with
  | some start => start ≤ offset
  | none => false

/-- The number of the line that holds the byte at `offset`: the last that starts no later. -/
def lineAt (t : LineTable) (offset : Nat) : Nat :=
  frontier (t.reaches offset) (t.starts.size.log2 + 1) 0

/-- The place of the byte at `offset`. -/
def locate (t : LineTable) (offset : Nat) : Location :=
  let line := t.lineAt offset
  ⟨line, offset - t.starts.getD (line - 1) 0 + 1⟩

end LineTable

end FuzzLang
