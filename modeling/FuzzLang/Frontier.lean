/-!
# The last place where a test holds

`frontier` finds, by halving, the last number at which a test holds that holds up to some point
and nowhere after it. Line lookup and the reading and writing of decimals rest on it.
-/

-- Powers of numbers are those of the core library, whatever other powers a library brings.
attribute [instance (high), default_instance high] instPowNat

namespace FuzzLang

/-- The last number below `base + 2 ^ bits` that passes `test`, for a test that `base` passes and
that no number passes after one that fails. One bit is decided per step, the highest first. -/
def frontier (test : Nat → Bool) : (bits base : Nat) → Nat
  | 0, base => base
  | bits + 1, base =>
    if test (base + 2 ^ bits) then frontier test bits (base + 2 ^ bits) else frontier test bits base

@[simp] theorem frontier_zero (test : Nat → Bool) (base : Nat) : frontier test 0 base = base := rfl

/-- The search stops at the last number that passes the test. -/
theorem frontier_eq {test : Nat → Bool} {bits base n : Nat} (hle : base ≤ n)
    (hlt : n < base + 2 ^ bits) (pass : ∀ k, base < k → k ≤ n → test k = true)
    (fail : ∀ k, n < k → test k = false) : frontier test bits base = n := by
  induction bits generalizing base with
  | zero =>
    rw [frontier_zero]
    omega
  | succ bits ih =>
    have hpow := Nat.pow_succ 2 bits
    have hpos := Nat.two_pow_pos bits
    unfold frontier
    by_cases hn : base + 2 ^ bits ≤ n
    · rw [if_pos (pass _ (by omega) hn)]
      exact ih hn (by omega) fun k hk => pass k (by omega)
    · rw [fail _ (by omega), if_neg (by simp)]
      exact ih hle (by omega) pass

end FuzzLang
