import FuzzLang.Double.Shortest

/-!
# The rank of a decimal

Neighbouring ranks are one spacing apart (`units_succ`), so the middles between them grow, and a
decimal that exceeds a rank exceeds all ranks before it. Hence a decimal rounds to one rank only,
and the search for it ends there (`rank_eq`). The shortest decimal of a rank rounds to that rank.
-/

attribute [local instance (high)] instPowNat

namespace FuzzLang

namespace Double

/-! ## The spacing of ranks -/

theorem units_succ (r : Nat) : units (r + 1) = units r + 2 ^ scale r := by
  unfold units mantissa scale
  by_cases hr : r + 1 < 2 ^ 52
  · have h0 : r / 2 ^ 52 - 1 = 0 := by omega
    have h1 : (r + 1) / 2 ^ 52 - 1 = 0 := by omega
    rw [if_pos hr, if_pos (by omega), h0, h1]
    omega
  · by_cases hm : (r + 1) % 2 ^ 52 = 0
    · -- the first rank of a binade: the spacing doubles as the mantissa starts again
      rw [if_neg hr, hm]
      by_cases hl : r < 2 ^ 52
      · have h0 : r / 2 ^ 52 - 1 = 0 := by omega
        have h1 : (r + 1) / 2 ^ 52 - 1 = 0 := by omega
        rw [if_pos hl, h0, h1]
        omega
      · have hs : (r + 1) / 2 ^ 52 - 1 = r / 2 ^ 52 - 1 + 1 := by omega
        have hr' : r % 2 ^ 52 = 2 ^ 52 - 1 := by omega
        rw [if_neg hl, hs, hr', Nat.pow_add 2 (r / 2 ^ 52 - 1) 1]
        generalize 2 ^ (r / 2 ^ 52 - 1) = s
        omega
    · have hl : ¬ r < 2 ^ 52 := by omega
      have hs : (r + 1) / 2 ^ 52 - 1 = r / 2 ^ 52 - 1 := by omega
      have hr' : (r + 1) % 2 ^ 52 = r % 2 ^ 52 + 1 := by omega
      rw [if_neg hr, if_neg hl, hs, hr', ← Nat.add_assoc, Nat.add_mul, Nat.one_mul]

theorem midpoint_eq (r : Nat) : midpoint r = units r + units (r + 1) := by
  rw [units_succ, midpoint, units, Nat.add_mul, Nat.one_mul, Nat.mul_assoc, ← Nat.add_assoc]
  omega

theorem units_lt_succ (r : Nat) : units r < units (r + 1) := by
  have := Nat.two_pow_pos (scale r)
  rw [units_succ]
  omega

theorem midpoint_lt {r s : Nat} (h : r < s) : midpoint r < midpoint s := by
  induction s with
  | zero => omega
  | succ s ih =>
    have hs : midpoint s < midpoint (s + 1) := by
      have h0 := units_lt_succ s
      have h1 := units_lt_succ (s + 1)
      rw [midpoint_eq, midpoint_eq]
      omega
    by_cases he : r = s
    · rwa [he]
    · exact Nat.lt_trans (ih (by omega)) hs

/-! ## Decimals between ranks -/

theorem exceeds_iff {r : Nat} {x : Decimal} :
    exceeds r x = true ↔ x.denominator * midpoint r < x.numerator * (2 * one) ∨
      (x.denominator * midpoint r = x.numerator * (2 * one) ∧ r % 2 = 1) := by
  simp [exceeds]

end Double

namespace Decimal

theorem denominator_pos (x : Decimal) : 0 < x.denominator := Nat.pow_pos (by decide)

/-- Two decimals are the same fraction. -/
def Same (x y : Decimal) : Prop := x.numerator * y.denominator = y.numerator * x.denominator

/-- Zeros at the end of the digits can be moved into the exponent. -/
theorem same_shift (digits k : Nat) (exponent : Int) :
    Same ⟨digits * 10 ^ k, exponent⟩ ⟨digits, exponent + k⟩ := by
  have hexp : k + exponent.toNat + (-(exponent + k)).toNat =
      (exponent + k).toNat + (-exponent).toNat := by omega
  unfold Same numerator denominator
  simp only
  rw [Nat.mul_assoc, Nat.mul_assoc, Nat.mul_assoc, ← Nat.pow_add, ← Nat.pow_add, ← Nat.pow_add,
    ← hexp, Nat.add_assoc]

end Decimal

namespace Double

theorem exceeds_of_lt {r s : Nat} {x : Decimal} (h : r < s) (hx : exceeds s x = true) :
    exceeds r x = true := by
  have hm : x.denominator * midpoint r < x.denominator * midpoint s :=
    Nat.mul_lt_mul_of_pos_left (midpoint_lt h) x.denominator_pos
  rw [exceeds_iff] at hx ⊢
  rcases hx with hx | ⟨hx, _⟩
  · exact .inl (Nat.lt_trans hm hx)
  · exact .inl (hx ▸ hm)

theorem exceeds_congr {x y : Decimal} (h : x.Same y) (r : Nat) : exceeds r x = exceeds r y := by
  have hx := x.denominator_pos
  have hy := y.denominator_pos
  unfold Decimal.Same at h
  have hl : x.denominator * midpoint r * y.denominator =
      y.denominator * midpoint r * x.denominator := by
    rw [Nat.mul_assoc, Nat.mul_comm, Nat.mul_comm (midpoint r)]
  have hn : x.numerator * (2 * one) * y.denominator =
      y.numerator * (2 * one) * x.denominator := by
    rw [Nat.mul_right_comm, h, Nat.mul_right_comm]
  rw [Bool.eq_iff_iff, exceeds_iff, exceeds_iff, ← Nat.mul_lt_mul_right hy,
    ← Nat.mul_left_inj (Nat.ne_of_gt hy), hl, hn, Nat.mul_lt_mul_right hx,
    Nat.mul_left_inj (Nat.ne_of_gt hx)]

theorem rank_congr {x y : Decimal} (h : x.Same y) : x.rank = y.rank := by
  unfold Decimal.rank
  simp only [exceeds_congr h]

/-- The search for the nearest rank ends at the rank to which the decimal rounds. -/
theorem rank_eq {r : Nat} {x : Decimal} (hr : r < infiniteRank) (h : rounds r x = true) :
    x.rank = r := by
  have hinf : infiniteRank = 2047 * 2 ^ 52 := rfl
  rw [rounds, Bool.and_eq_true, Bool.not_eq_true', Bool.or_eq_true, beq_iff_eq] at h
  obtain ⟨hnot, hpred⟩ := h
  refine frontier_eq (Nat.zero_le r) (by omega) (fun k hk hkr => ?_) (fun k hk => ?_)
  · have hx : exceeds (r - 1) x = true := hpred.resolve_left (by omega)
    rw [Bool.and_eq_true, decide_eq_true_iff]
    refine ⟨by omega, ?_⟩
    by_cases he : k = r
    · rwa [he]
    · exact exceeds_of_lt (by omega) hx
  · rw [Bool.and_eq_false_iff]
    refine .inr (Bool.eq_false_iff.2 fun hx => ?_)
    by_cases he : k - 1 = r
    · rw [he, hnot] at hx
      cases hx
    · rw [exceeds_of_lt (by omega) hx] at hnot
      cases hnot

/-! ## The shortest decimal -/

/-- The exact value of a rank exceeds the ranks before it. -/
theorem exceeds_exact {r s : Nat} :
    exceeds s (exact r) = true ↔
      midpoint s < 2 * units r ∨ (midpoint s = 2 * units r ∧ s % 2 = 1) := by
  have hn : (exact r).numerator * (2 * one) = (exact r).denominator * (2 * units r) := by
    have hone : one = 2 ^ (1074 : Nat) := by unfold one; rfl
    have hpow (k : Nat) : 10 ^ k = 5 ^ k * 2 ^ k := Nat.mul_pow 5 2 k
    have hten : (exact r).denominator = 5 ^ (1074 : Nat) * one := by
      rw [Decimal.denominator, hpow, hone]
      rfl
    have hnum : (exact r).numerator = units r * 5 ^ (1074 : Nat) := Nat.mul_one _
    rw [hten, hnum]
    generalize 5 ^ (1074 : Nat) = a
    generalize one = b
    rw [Nat.mul_comm 2 b, ← Nat.mul_assoc, Nat.mul_comm 2, ← Nat.mul_assoc, Nat.mul_comm (a * b),
      Nat.mul_assoc (units r)]
  rw [exceeds_iff, hn, Nat.mul_lt_mul_left (exact r).denominator_pos,
    Nat.mul_right_inj (Nat.ne_of_gt (exact r).denominator_pos)]

theorem rounds_exact (r : Nat) : rounds r (exact r) = true := by
  rw [rounds, Bool.and_eq_true, Bool.not_eq_true', Bool.or_eq_true, beq_iff_eq]
  constructor
  · rw [Bool.eq_false_iff, ne_eq, exceeds_exact, midpoint_eq]
    have := units_lt_succ r
    omega
  · by_cases hr : r = 0
    · exact .inl hr
    · have h := units_lt_succ (r - 1)
      rw [Nat.sub_add_cancel (by omega)] at h
      rw [exceeds_exact, midpoint_eq, Nat.sub_add_cancel (by omega)]
      exact .inr (.inl (by omega))

theorem rounds_shortest (r : Nat) : rounds r (shortest r) = true := by
  rcases shortest_eq r with ⟨n, hn⟩ | he
  · exact rounds_of_candidate hn
  · rw [he]
    exact rounds_exact r

/-- Only zero rounds to the first rank. -/
theorem digits_pos {r : Nat} {x : Decimal} (hr : 0 < r) (h : rounds r x = true) : 0 < x.digits := by
  rw [rounds, Bool.and_eq_true, Bool.or_eq_true, beq_iff_eq] at h
  have hx : exceeds (r - 1) x = true := h.2.resolve_left (by omega)
  rw [exceeds_iff] at hx
  by_cases h0 : x.digits = 0
  · have hn : x.numerator = 0 := by rw [Decimal.numerator, h0, Nat.zero_mul]
    have hm : 0 < midpoint (r - 1) := by
      have := units_lt_succ (r - 1)
      rw [midpoint_eq]
      omega
    have hd : 0 < x.denominator * midpoint (r - 1) := Nat.mul_pos x.denominator_pos hm
    rw [hn, Nat.zero_mul] at hx
    omega
  · omega

end Double

end FuzzLang
