import FuzzLang.Double.Shortest

/-!
# Doubles as text

Doubles are written with the digits of their shortest decimal. A value from `10 ^ -4` up to below
`10 ^ 16` is positional and always has a fraction; any other has one digit before the point and an
exponent. Reading takes any decimal text, with or without a fraction or an exponent.
-/

namespace FuzzLang

/-- The number that decimal digits spell. -/
def digitsValue (digits : List Char) : Nat :=
  digits.foldl (fun n c => 10 * n + (c.toNat - '0'.toNat)) 0

/-- The decimal spelled by the digits before and after the point. -/
def Decimal.ofPlaces (whole fraction : List Char) : Decimal :=
  ⟨digitsValue (whole ++ fraction), -(fraction.length : Int)⟩

namespace Double

/-- Digits without the zeros at their end. -/
def significant (digits : List Char) : List Char :=
  (digits.reverse.dropWhile (· == '0')).reverse

/-- Digits with a point after the first `places`, filled up with zeros on both sides. -/
def positional (digits : List Char) (places : Nat) : List Char :=
  let whole := digits.take places
  let fraction := digits.drop places
  whole ++ List.replicate (places - whole.length) '0' ++
    '.' :: (if fraction.isEmpty then ['0'] else fraction)

/-- Digits with a point after the first, if there are more, and an exponent. -/
def scientific (digits : List Char) (exponent : Int) : List Char :=
  let tail := digits.drop 1
  digits.take 1 ++ (if tail.isEmpty then [] else '.' :: tail) ++ 'e' :: (toString exponent).toList

/-- A decimal above zero as text. -/
def decimalText (x : Decimal) : List Char :=
  let all := Nat.toDigits 10 x.digits
  let digits := significant all
  let exponent := (all.length : Int) - 1 + x.exponent
  if exponent < -4 ∨ 16 ≤ exponent then scientific digits exponent
  else if exponent < 0 then
    '0' :: '.' :: (List.replicate (-exponent - 1).toNat '0' ++ digits)
  else positional digits (exponent.toNat + 1)

def sign (negative : Bool) : List Char := if negative then ['-'] else []

/-- A double as text. -/
def toText : Double → List Char
  | .nan => "NaN".toList
  | .infinite negative => sign negative ++ "inf".toList
  | .finite negative rank =>
    sign negative ++ if rank.val = 0 then "0.0".toList else decimalText (shortest rank)

def text (x : Double) : String := String.ofList x.toText

/-- The value of an exponent part: nothing, or `e`, a sign and digits. -/
def exponentOf? : List Char → Option Int
  | [] => some 0
  | e :: cs =>
    let (negative, digits) := match cs with
      | '-' :: ds => (true, ds)
      | '+' :: ds => (false, ds)
      | ds => (false, ds)
    if e.toLower = 'e' ∧ digits ≠ [] ∧ digits.all Char.isDigit then
      some (if negative then -(digitsValue digits : Int) else digitsValue digits)
    else none

/-- Read a decimal without a sign. -/
def decimalOf? (cs : List Char) : Option Decimal :=
  let whole := cs.takeWhile Char.isDigit
  let (fraction, rest) := match cs.dropWhile Char.isDigit with
    | '.' :: ds => (ds.takeWhile Char.isDigit, ds.dropWhile Char.isDigit)
    | ds => ([], ds)
  if whole = [] ∧ fraction = [] then none
  else
    (exponentOf? rest).map fun e =>
      let x := Decimal.ofPlaces whole fraction
      ⟨x.digits, x.exponent + e⟩

/-- Read a double from decimal text or from the name of a value that is no number. -/
def ofText? (text : String) : Option Double :=
  let (negative, body) := match text.toList with
    | '-' :: cs => (true, cs)
    | '+' :: cs => (false, cs)
    | cs => (false, cs)
  match String.ofList (body.map Char.toLower) with
  | "nan" => some .nan
  | "inf" | "infinity" => some (.infinite negative)
  | _ => (decimalOf? body).map (·.toDouble negative)

end Double

end FuzzLang
