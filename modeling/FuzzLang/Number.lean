import FuzzLang.Double.Text

/-!
# Numbers

A number is an integer of 64 bits or a double. A literal with a point is a double, any other an
integer.
-/

attribute [local instance (high)] instPowNat

namespace FuzzLang

inductive Number where
  | int (value : Int)
  | float (value : Double)
  deriving DecidableEq, Repr

namespace Number

def text : Number → String
  | .int n => toString n
  | .float x => x.text

def isFloat : Number → Bool
  | .int _ => false
  | .float _ => true

/-- An integer that fits 64 bits with a sign. -/
def ofInt? (n : Int) : Option Number :=
  if -2 ^ (63 : Nat) ≤ n ∧ n < 2 ^ (63 : Nat) then some (.int n) else none

/-- The sign of a literal and what follows it. -/
def splitSign : List Char → Bool × List Char
  | '-' :: cs => (true, cs)
  | '+' :: cs => (false, cs)
  | cs => (false, cs)

/-- The number that a literal spells, or `none` for an integer out of range. -/
def ofLiteral? (literal : List Char) : Option Number :=
  let (negative, body) := splitSign literal
  let whole := body.takeWhile Char.isDigit
  match body.dropWhile Char.isDigit with
  | [] => ofInt? (if negative then -(digitsValue whole : Int) else digitsValue whole)
  | _ :: fraction => some (.float ((Decimal.ofPlaces whole fraction).toDouble negative))

end Number

end FuzzLang
