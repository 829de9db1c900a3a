import FuzzLang.Proofs.Double.RoundTrip

/-!
# Which doubles are written with an exponent

The exponent of the first digit of a decimal says between which powers of ten it lies
(`Decimal.le_leading_iff`), and decimals in order round to ranks in order (`le_of_rounds`). So
whether the shortest decimal of a double is written with an exponent can be told from its rank: it
is if the double lies below `10 ^ -4` or is not below `10 ^ 16` (`plain_iff`).
-/

attribute [local instance (high)] instPowNat

namespace FuzzLang

namespace Decimal

/-! ## Decimals in order -/

/-- A decimal is at most another. -/
def Le (x y : Decimal) : Prop := x.numerator * y.denominator ≤ y.numerator * x.denominator

/-- The power of ten that the first digit of a decimal counts. -/
def leading (x : Decimal) : Int := ((Nat.toDigits 10 x.digits).length : Int) - 1 + x.exponent

theorem lt_pow_length_toDigits (n : Nat) : n < 10 ^ (Nat.toDigits 10 n).length :=
  (Nat.length_toDigits_le_iff (by decide) Nat.length_toDigits_pos).1 (Nat.le_refl _)

theorem pow_length_toDigits_le {n : Nat} (hn : 0 < n) :
    10 ^ ((Nat.toDigits 10 n).length - 1) ≤ n := by
  by_cases hone : (Nat.toDigits 10 n).length = 1
  · rw [hone]
    exact hn
  · have hpos : 0 < (Nat.toDigits 10 n).length := Nat.length_toDigits_pos
    refine Nat.le_of_not_lt fun hlt => ?_
    have hle := (Nat.length_toDigits_le_iff (by decide) (by omega)).2 hlt
    omega

/-- A power of ten is at most a decimal just if its exponent is at most that of the first digit. -/
theorem le_leading_iff {x : Decimal} (hx : 0 < x.digits) (k : Int) :
    k ≤ x.leading ↔ Le ⟨1, k⟩ x := by
  have hlow := pow_length_toDigits_le hx
  have hhigh := lt_pow_length_toDigits x.digits
  have hlen : 0 < (Nat.toDigits 10 x.digits).length := Nat.length_toDigits_pos
  unfold Le leading numerator denominator
  generalize (Nat.toDigits 10 x.digits).length = n at *
  simp only [Nat.one_mul, Nat.mul_assoc]
  rw [← Nat.pow_add, ← Nat.pow_add]
  constructor
  · intro hk
    calc 10 ^ (k.toNat + (-x.exponent).toNat)
      _ ≤ 10 ^ (n - 1 + (x.exponent.toNat + (-k).toNat)) :=
        Nat.pow_le_pow_right (by decide) (by omega)
      _ = 10 ^ (n - 1) * 10 ^ (x.exponent.toNat + (-k).toNat) := Nat.pow_add ..
      _ ≤ x.digits * 10 ^ (x.exponent.toNat + (-k).toNat) := Nat.mul_le_mul_right _ hlow
  · intro hle
    refine Int.le_of_lt_add_one (Int.lt_of_not_ge fun hk => ?_)
    refine Nat.lt_irrefl _ (Nat.lt_of_lt_of_le ?_ hle)
    calc x.digits * 10 ^ (x.exponent.toNat + (-k).toNat)
      _ < 10 ^ n * 10 ^ (x.exponent.toNat + (-k).toNat) :=
        Nat.mul_lt_mul_of_pos_right hhigh (Nat.pow_pos (by decide))
      _ = 10 ^ (n + (x.exponent.toNat + (-k).toNat)) := (Nat.pow_add ..).symm
      _ ≤ 10 ^ (k.toNat + (-x.exponent).toNat) := Nat.pow_le_pow_right (by decide) (by omega)

theorem le_total (x y : Decimal) : Le x y ∨ Le y x := Nat.le_total _ _

end Decimal

namespace Double

theorem exceeds_mono {r : Nat} {x y : Decimal} (h : x.Le y) (hx : exceeds r x = true) :
    exceeds r y = true := by
  have hdx := x.denominator_pos
  have hdy := y.denominator_pos
  unfold Decimal.Le at h
  rw [exceeds_iff] at hx ⊢
  have hscaled : x.numerator * (2 * one) * y.denominator ≤
      y.numerator * (2 * one) * x.denominator := by
    rw [Nat.mul_right_comm, Nat.mul_right_comm y.numerator]
    exact Nat.mul_le_mul_right _ h
  have hmid : x.denominator * midpoint r * y.denominator =
      y.denominator * midpoint r * x.denominator := by
    rw [Nat.mul_assoc, Nat.mul_comm, Nat.mul_comm (midpoint r)]
  rcases hx with hx | ⟨hx, hodd⟩
  · left
    refine Nat.lt_of_mul_lt_mul_right (a := x.denominator) ?_
    rw [← hmid]
    exact Nat.lt_of_lt_of_le (Nat.mul_lt_mul_of_pos_right hx hdy) hscaled
  · rw [← hx, hmid] at hscaled
    have hle := Nat.le_of_mul_le_mul_right hscaled hdx
    omega

/-- Decimals in order round to ranks in order. -/
theorem le_of_rounds {r s : Nat} {x y : Decimal} (hx : rounds r x = true) (hy : rounds s y = true)
    (h : x.Le y) : r ≤ s := by
  rw [rounds, Bool.and_eq_true, Bool.not_eq_true', Bool.or_eq_true, beq_iff_eq] at hx hy
  refine Nat.le_of_not_lt fun hlt => ?_
  have hexceeds := exceeds_mono h (hx.2.resolve_left (by omega))
  by_cases hs : s = r - 1
  · rw [← hs, hy.1] at hexceeds
    cases hexceeds
  · have hlow := exceeds_of_lt (show s < r - 1 by omega) hexceeds
    rw [hy.1] at hlow
    cases hlow

/-! ## Ranks between powers of ten -/

/-- Whether a rank is zero, or from that of `10 ^ -4` up to below that of `10 ^ 16`. -/
def Plain (rank : Nat) : Prop :=
  rank = 0 ∨ Decimal.rank ⟨1, -4⟩ ≤ rank ∧ rank < Decimal.rank ⟨1, 16⟩

instance (rank : Nat) : Decidable (Plain rank) := inferInstanceAs (Decidable (_ ∨ _))

theorem rounds_low : rounds (Decimal.rank ⟨1, -4⟩) ⟨1, -4⟩ = true := by decide +kernel

theorem rounds_high : rounds (Decimal.rank ⟨1, 16⟩) ⟨1, 16⟩ = true := by decide +kernel

theorem leading_low : (shortest (Decimal.rank ⟨1, -4⟩)).leading = -4 := by decide +kernel

theorem leading_high : (shortest (Decimal.rank ⟨1, 16⟩)).leading = 16 := by decide +kernel

theorem plain_iff {r : Nat} (hr : 0 < r) :
    Plain r ↔ -4 ≤ (shortest r).leading ∧ (shortest r).leading < 16 := by
  have hrounds := rounds_shortest r
  have hdigits := digits_pos hr hrounds
  have hlow := Decimal.le_leading_iff hdigits (-4)
  have hhigh := Decimal.le_leading_iff hdigits 16
  constructor
  · intro hplain
    obtain ⟨hfirst, hend⟩ := hplain.resolve_left (by omega)
    constructor
    · rcases Decimal.le_total ⟨1, -4⟩ (shortest r) with hle | hle
      · exact hlow.2 hle
      · -- a decimal below `10 ^ -4` can only be that of its rank, whose own is `10 ^ -4`
        have heq := Nat.le_antisymm (le_of_rounds hrounds rounds_low hle) hfirst
        have hleading := leading_low
        rw [← heq] at hleading
        omega
    · refine Int.lt_of_not_ge fun hge => ?_
      have hle := le_of_rounds rounds_high hrounds (hhigh.1 hge)
      omega
  · rintro ⟨hge, hlt⟩
    refine .inr ⟨le_of_rounds rounds_low hrounds (hlow.1 hge), ?_⟩
    have hle : (shortest r).Le ⟨1, 16⟩ :=
      (Decimal.le_total _ _).resolve_right fun h => absurd (hhigh.2 h) (Int.not_le.2 hlt)
    refine Nat.lt_of_le_of_ne (le_of_rounds hrounds rounds_high hle) fun heq => ?_
    have hleading := leading_high
    rw [← heq] at hleading
    omega

/-! ## The two layouts -/

theorem decimalText_eq (x : Decimal) :
    decimalText x =
      if x.leading < -4 ∨ 16 ≤ x.leading then
        scientific (significant (Nat.toDigits 10 x.digits)) x.leading
      else if x.leading < 0 then
        '0' :: '.' :: (List.replicate (-x.leading - 1).toNat '0' ++
          significant (Nat.toDigits 10 x.digits))
      else positional (significant (Nat.toDigits 10 x.digits)) (x.leading.toNat + 1) := rfl

/-- Digits, a point, digits. -/
def Places (cs : List Char) : Prop :=
  ∃ whole fraction, cs = whole ++ '.' :: fraction ∧ whole ≠ [] ∧ fraction ≠ [] ∧
    (∀ c ∈ whole, c.isDigit = true) ∧ ∀ c ∈ fraction, c.isDigit = true

theorem places_positional {ds : List Char} (hd : ∀ c ∈ ds, c.isDigit = true) (hne : ds ≠ [])
    {places : Nat} (hp : 0 < places) : Places (positional ds places) := by
  by_cases hl : ds.length ≤ places
  · obtain ⟨k, rfl⟩ := Nat.exists_eq_add_of_le hl
    exact ⟨_, _, positional_whole ds k, by simp [hne], by simp, isDigit_append_replicate hd k,
      by simp⟩
  · have hlt : places < ds.length := Nat.lt_of_not_le hl
    refine ⟨_, _, positional_fraction hlt, take_ne_nil hne hp, ?_, ?_, ?_⟩
    · rw [Ne, List.drop_eq_nil_iff]
      omega
    · exact fun c hc => hd c (List.mem_of_mem_take hc)
    · exact fun c hc => hd c (List.mem_of_mem_drop hc)

theorem places_decimalText {x : Decimal} (hx : 0 < x.digits) (hlow : -4 ≤ x.leading)
    (hhigh : x.leading < 16) : Places (decimalText x) := by
  obtain ⟨ds, k, hds, hne, hd, _⟩ := exists_digits hx
  rw [decimalText_eq, hds, if_neg (by omega)]
  split
  · exact ⟨['0'], _, rfl, by simp, by simp [hne], by simp, isDigit_replicate_append hd _⟩
  · exact places_positional hd hne (Nat.succ_pos _)

/-- Between the two powers of ten a rank is written without an exponent. -/
theorem Plain.places {r : Nat} (h : Plain r) : Places (magnitude r) := by
  unfold magnitude
  split
  · exact ⟨['0'], ['0'], rfl, by simp, by simp, by simp, by simp⟩
  · rename_i hne
    have hr := Nat.pos_of_ne_zero hne
    obtain ⟨hlow, hhigh⟩ := (plain_iff hr).1 h
    exact places_decimalText (digits_pos hr (rounds_shortest r)) hlow hhigh

/-- Beyond them it is written with one. -/
theorem exponent_mem_magnitude {r : Nat} (h : ¬ Plain r) : 'e' ∈ magnitude r := by
  have hr : r ≠ 0 := fun h0 => h (.inl h0)
  have hleading : (shortest r).leading < -4 ∨ 16 ≤ (shortest r).leading := by
    have hno := mt (plain_iff (Nat.pos_of_ne_zero hr)).2 h
    omega
  rw [magnitude, if_neg hr, decimalText_eq, if_pos hleading, scientific]
  simp

end Double

end FuzzLang
