import FuzzLang.Frontier

/-!
# Doubles

A double is a binary floating-point number of 64 bits. The values from zero up, infinity left out,
are numbered in order of size: the number of a value is its rank. Rank `r` is worth
`mantissa r * 2 ^ scale r` units of `2 ^ -1074`, and the spacing above it is `2 ^ scale r` units.
-/

attribute [local instance (high)] instPowNat

namespace FuzzLang

/-- The rank that infinity would have: one more than that of the greatest value. -/
def Double.infiniteRank : Nat := 2047 * 2 ^ (52 : Nat)

/-- A double. Zero is signed. -/
inductive Double where
  | nan
  | infinite (negative : Bool)
  | finite (negative : Bool) (rank : Fin Double.infiniteRank)
  deriving DecidableEq, Repr

/-- The number `digits * 10 ^ exponent`. -/
structure Decimal where
  digits : Nat
  exponent : Int
  deriving DecidableEq, Repr

namespace Decimal

/-- A decimal is `numerator / denominator`. -/
def numerator (x : Decimal) : Nat := x.digits * 10 ^ x.exponent.toNat

def denominator (x : Decimal) : Nat := 10 ^ (-x.exponent).toNat

end Decimal

namespace Double

/-- The significant bits of a rank. -/
def mantissa (rank : Nat) : Nat :=
  if rank < 2 ^ (52 : Nat) then rank else 2 ^ (52 : Nat) + rank % 2 ^ (52 : Nat)

/-- How many times the spacing above a rank has doubled since zero. -/
def scale (rank : Nat) : Nat := rank / 2 ^ (52 : Nat) - 1

/-- The value of a rank in units of `2 ^ -1074`. -/
def units (rank : Nat) : Nat := mantissa rank * 2 ^ scale rank

/-- The middle between a rank and the next one, in units of `2 ^ -1075`. -/
def midpoint (rank : Nat) : Nat := (2 * mantissa rank + 1) * 2 ^ scale rank

/-- One, in units of `2 ^ -1074`. -/
@[irreducible] def one : Nat := 2 ^ (1074 : Nat)

/-- Whether a decimal rounds to a value beyond `rank`: it lies above the middle between `rank` and
the next rank, or on it when `rank` is odd, since the even neighbour wins a tie. -/
def exceeds (rank : Nat) (x : Decimal) : Bool :=
  let here := x.denominator * midpoint rank
  let there := x.numerator * (2 * one)
  here < there || (here == there && rank % 2 == 1)

/-- Whether a decimal rounds to `rank`. -/
def rounds (rank : Nat) (x : Decimal) : Bool :=
  !exceeds rank x && (rank == 0 || exceeds (rank - 1) x)

end Double

namespace Decimal

/-- The rank nearest to a decimal: the last whose predecessor the decimal exceeds. -/
def rank (x : Decimal) : Nat :=
  frontier (fun r => r ≤ Double.infiniteRank && Double.exceeds (r - 1) x) 63 0

/-- The double nearest to a decimal with a sign: ties go to the even neighbour, and what is too
large is infinite. -/
def toDouble (x : Decimal) (negative : Bool) : Double :=
  if h : x.rank < Double.infiniteRank then .finite negative ⟨x.rank, h⟩ else .infinite negative

end Decimal

end FuzzLang
