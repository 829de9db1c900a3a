import FuzzLang.Viewer.State

/-!
# Typed keys

A terminal sends keys as characters: most as themselves, the arrows and the backward tab as an
escape character, a bracket and a letter. Each of them is the press of a key.
-/

namespace FuzzLang.Viewer

/-- The key that a letter after an escape character and a bracket stands for. -/
def Key.ofLetter : Char → Key
  | 'A' => .up
  | 'B' => .down
  | 'Z' => .backTab
  | _ => .other

/-- The keys that characters stand for. -/
def Key.ofChars : List Char → List Key
  | [] => []
  | '\x1b' :: '[' :: c :: cs => Key.ofLetter c :: Key.ofChars cs
  | c :: cs =>
    (if c = '\x1b' then .escape else if c = '\t' then .tab else .char c) :: Key.ofChars cs

def Report.ofChars (cs : List Char) : List Report := (Key.ofChars cs).map (.key .press)

/-- The viewer after reports, with a drawing before each. It stops where it is left. -/
def State.receiveAll (s : State) (height : Nat) : List Report → State
  | [] => s
  | r :: rs =>
    let next := (s.settle height).receive r
    if next.quit then next else next.receiveAll height rs

end FuzzLang.Viewer
