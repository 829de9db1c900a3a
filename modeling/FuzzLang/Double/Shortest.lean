import FuzzLang.Double.Basic

/-!
# The shortest decimal of a double

Of all decimals that round to a value the shortest has the fewest digits; of several with that many
digits it is the nearest to the value, and of two equally near ones the greater.
-/

attribute [local instance (high)] instPowNat

namespace FuzzLang.Double

/-- The exponent `p` with `10 ^ (p - 1) ≤ v < 10 ^ p` for the value `v` of a rank above zero. -/
def place (rank : Nat) : Int :=
  let v := units rank
  if one ≤ v then (frontier (fun j => 10 ^ j * one ≤ v) 9 0 + 1 : Nat)
  else -(frontier (fun j => v * 10 ^ j < one) 9 0 : Nat)

/-- Of two neighbouring decimals the one that rounds to `rank`; if both do, the low one only when
it is the nearer. -/
def pick (rank : Nat) (low high : Decimal) (lowNearer : Bool) : Option Decimal :=
  if rounds rank low && (lowNearer || !rounds rank high) then some low
  else if rounds rank high then some high
  else none

/-- What is picked rounds to the rank. -/
theorem rounds_of_pick {rank : Nat} {low high x : Decimal} {lowNearer : Bool}
    (h : pick rank low high lowNearer = some x) : rounds rank x = true := by
  unfold pick at h
  generalize hl : rounds rank low = l at h
  generalize hh : rounds rank high = u at h
  cases l <;> cases u <;> cases lowNearer <;> simp at h <;> subst h <;> assumption

/-- The decimal with `n` digits that rounds to `rank` and is nearest to its value. If there is one,
it is a neighbour of the value among the decimals with `n` digits. -/
def candidate (rank n : Nat) : Option Decimal :=
  let exponent := place rank - n
  let v := units rank * 10 ^ (-exponent).toNat
  let step := one * 10 ^ exponent.toNat
  pick rank ⟨v / step, exponent⟩ ⟨v / step + 1, exponent⟩ (2 * (v % step) < step)

/-- A candidate rounds to the value it stands for. -/
theorem rounds_of_candidate {rank n : Nat} {x : Decimal} (h : candidate rank n = some x) :
    rounds rank x = true := by
  unfold candidate at h
  exact rounds_of_pick h

/-- The value of a rank as a decimal, to the last digit. -/
def exact (rank : Nat) : Decimal := ⟨units rank * 5 ^ (1074 : Nat), -1074⟩

/-- The shortest decimal that rounds to `rank`. Seventeen digits are always enough. -/
def shortest (rank : Nat) : Decimal :=
  ((List.range 17).findSome? fun i => candidate rank (i + 1)).getD (exact rank)

/-- What the shortest decimal is stands in one of the grids, or it is the exact value. -/
theorem shortest_eq (rank : Nat) :
    (∃ n, candidate rank n = some (shortest rank)) ∨ shortest rank = exact rank := by
  unfold shortest
  cases h : (List.range 17).findSome? fun i => candidate rank (i + 1) with
  | none => exact .inr rfl
  | some x =>
    obtain ⟨_, i, _, _, hi, _⟩ := List.findSome?_eq_some_iff.1 h
    exact .inl ⟨i + 1, by simpa using hi⟩

end FuzzLang.Double
