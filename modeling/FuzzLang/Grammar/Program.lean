import FuzzLang.Grammar.Statement

/-!
# Reading programs

A program is statement after statement to the end of the tokens. Each statement is kept with the
range of its tokens, the semicolon after it included. A fault where the input ends is placed at the
last token.
-/

namespace FuzzLang.Grammar

/-- What reading a token list yields: the statements before the first fault, and the fault. -/
structure Reading where
  entries : List Entry
  fault? : Option Fault
  deriving DecidableEq, Repr

/-- The statements of tokens of which the first stands at `position`. -/
def read (position : Nat) (ts : List Token) : Reading :=
  match ts with
  | [] => ⟨[], none⟩
  | first :: rest =>
    match _h : terminated first rest with
    | .error fault => ⟨[], some fault⟩
    | .ok (node, later) =>
      let stop := position + ((first :: rest).length - later.length)
      let following := read stop later
      ⟨⟨node, ⟨position, stop⟩, first.location⟩ :: following.entries, following.fault?⟩
termination_by ts.length
decreasing_by
  have := (trims_terminated first rest node later ‹_›).length_le
  simp only [List.length_cons]; omega

/-- The place of the last token. -/
def endLocation (ts : List Token) : Location := (ts.getLast?.map (·.location)).getD {}

/-- The statements of a token list. -/
def parse (ts : List Token) : Except Error (List Entry) :=
  let reading := read 0 ts
  match reading.fault? with
  | none => .ok reading.entries
  | some fault => .error ⟨fault, fault.location?.getD (endLocation ts)⟩

end FuzzLang.Grammar
