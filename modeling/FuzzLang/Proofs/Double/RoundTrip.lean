import FuzzLang.Double.Text
import FuzzLang.Proofs.Double.Rank

/-!
# The text of a double reads back

Each of the three layouts of a decimal reads back as the same fraction, so the text of a decimal has
its rank (`exists_decimalOf?_decimalText`). Since the shortest decimal of a rank rounds to that
rank, the digits of a double determine its rank (`exists_decimalOf?_magnitude`), and finite doubles
with the same text are the same (`toText_finite_inj`).
-/

attribute [local instance (high)] instPowNat

namespace FuzzLang

/-! ## Digits -/

theorem digitsValue_append (ds es : List Char) :
    digitsValue (ds ++ es) = digitsValue ds * 10 ^ es.length + digitsValue es := by
  have h := Nat.ofDigitChars_append (b := 10) (l := ds) (m := es) 0
  rw [Nat.ofDigitChars_eq_ofDigitChars_zero (l := es), Nat.mul_comm] at h
  exact h

theorem digitsValue_replicate (k : Nat) : digitsValue (List.replicate k '0') = 0 :=
  (Nat.ofDigitChars_replicate_zero (b := 10)).trans (Nat.mul_zero _)

theorem digitsValue_toDigits (n : Nat) : digitsValue (Nat.toDigits 10 n) = n :=
  Nat.ofDigitChars_ten_toDigits

theorem isDigit_of_mem_toDigits {n : Nat} {c : Char} (h : c ∈ Nat.toDigits 10 n) :
    c.isDigit = true :=
  Nat.isDigit_of_mem_toDigits (by decide) (by decide) h

namespace Double

/-- What is cut off the end of digits is zeros. -/
theorem exists_significant_append (ds : List Char) :
    ∃ k, ds = significant ds ++ List.replicate k '0' := by
  have hz : ∀ c ∈ (ds.reverse.takeWhile (· == '0')).reverse, c = '0' := by
    intro c hc
    simpa using List.all_eq_true.1 List.all_takeWhile c (List.mem_reverse.1 hc)
  refine ⟨(ds.reverse.takeWhile (· == '0')).reverse.length, ?_⟩
  rw [significant, ← List.eq_replicate_of_mem hz, ← List.reverse_append,
    List.takeWhile_append_dropWhile, List.reverse_reverse]

/-- The digits of a number above zero: significant ones and zeros after them. -/
theorem exists_digits {n : Nat} (hn : 0 < n) :
    ∃ ds k, significant (Nat.toDigits 10 n) = ds ∧ ds ≠ [] ∧ (∀ c ∈ ds, c.isDigit = true) ∧
      (Nat.toDigits 10 n).length = ds.length + k ∧ n = digitsValue ds * 10 ^ k := by
  obtain ⟨k, hk⟩ := exists_significant_append (Nat.toDigits 10 n)
  generalize hds : significant (Nat.toDigits 10 n) = ds at hk
  have hv : n = digitsValue ds * 10 ^ k := by
    have hd := digitsValue_toDigits n
    rw [hk, digitsValue_append, digitsValue_replicate, List.length_replicate] at hd
    exact hd.symm
  refine ⟨ds, k, rfl, ?_, ?_, ?_, hv⟩
  · rintro rfl
    rw [show digitsValue [] = 0 from rfl, Nat.zero_mul] at hv
    omega
  · intro c hc
    exact isDigit_of_mem_toDigits (by rw [hk]; exact List.mem_append_left _ hc)
  · rw [hk, List.length_append, List.length_replicate]

/-! ## Reading -/

theorem takeWhile_isDigit_append {ds rest : List Char} (hd : ∀ c ∈ ds, c.isDigit = true)
    (hr : ∀ c ∈ rest.head?, c.isDigit = false) :
    (ds ++ rest).takeWhile Char.isDigit = ds ∧ (ds ++ rest).dropWhile Char.isDigit = rest := by
  rw [List.takeWhile_append_of_pos hd, List.dropWhile_append_of_pos hd]
  cases rest with
  | nil => simp
  | cons c rest =>
    have hc := hr c rfl
    simp [hc]

theorem decimalOf?_point {whole fraction rest : List Char} {e : Int}
    (hw : ∀ c ∈ whole, c.isDigit = true) (hne : whole ≠ []) (hf : ∀ c ∈ fraction, c.isDigit = true)
    (hr : ∀ c ∈ rest.head?, c.isDigit = false) (he : exponentOf? rest = some e) :
    decimalOf? (whole ++ '.' :: (fraction ++ rest)) =
      some ⟨digitsValue (whole ++ fraction), -(fraction.length : Int) + e⟩ := by
  have hpoint : ∀ c ∈ ('.' :: (fraction ++ rest)).head?, c.isDigit = false := by
    intro c hc
    cases hc
    rfl
  obtain ⟨ht, hd⟩ := takeWhile_isDigit_append hw hpoint
  obtain ⟨ht', hd'⟩ := takeWhile_isDigit_append hf hr
  simp [decimalOf?, ht, hd, ht', hd', hne, he, Decimal.ofPlaces]

theorem decimalOf?_places {whole fraction : List Char} (hw : ∀ c ∈ whole, c.isDigit = true)
    (hne : whole ≠ []) (hf : ∀ c ∈ fraction, c.isDigit = true) :
    decimalOf? (whole ++ '.' :: fraction) =
      some ⟨digitsValue (whole ++ fraction), -(fraction.length : Int)⟩ := by
  have hend : ∀ c ∈ ([] : List Char).head?, c.isDigit = false := by simp
  have h := decimalOf?_point hw hne hf hend rfl
  rwa [List.append_nil, Int.add_zero] at h

theorem decimalOf?_whole {whole cs : List Char} {e : Int} (hw : ∀ c ∈ whole, c.isDigit = true)
    (hne : whole ≠ []) (he : exponentOf? ('e' :: cs) = some e) :
    decimalOf? (whole ++ 'e' :: cs) = some ⟨digitsValue whole, e⟩ := by
  have hmark : ∀ c ∈ ('e' :: cs).head?, c.isDigit = false := by
    intro c hc
    cases hc
    rfl
  obtain ⟨ht, hd⟩ := takeWhile_isDigit_append hw hmark
  simp [decimalOf?, ht, hd, hne, he, Decimal.ofPlaces]

/-- The digits of a number as an exponent. -/
theorem exponentOf?_toString (e : Int) : exponentOf? ('e' :: (toString e).toList) = some e := by
  have hall (n : Nat) : (Nat.toDigits 10 n).all Char.isDigit = true :=
    List.all_eq_true.2 fun c hc => isDigit_of_mem_toDigits hc
  rw [Int.toString_eq_repr, Int.repr_eq_if]
  by_cases he : 0 ≤ e
  · rw [if_pos he, Nat.toList_repr]
    have hv : ((digitsValue (Nat.toDigits 10 e.toNat) : Nat) : Int) = e := by
      rw [digitsValue_toDigits, Int.toNat_of_nonneg he]
    have ha := hall e.toNat
    obtain ⟨c, cs, hcs⟩ := List.exists_cons_of_ne_nil (Nat.toDigits_ne_nil (b := 10) (n := e.toNat))
    rw [hcs] at hv ha ⊢
    have hc : c.isDigit = true := List.all_eq_true.1 ha c List.mem_cons_self
    have hm : c ≠ '-' := by rintro rfl; cases hc
    have hp : c ≠ '+' := by rintro rfl; cases hc
    simpa [exponentOf?, hm, hp, hv] using ha
  · rw [if_neg he, String.toList_append, Nat.toList_repr]
    have hv : -((digitsValue (Nat.toDigits 10 (-e).toNat) : Nat) : Int) = e := by
      rw [digitsValue_toDigits, Int.toNat_of_nonneg (by omega)]
      omega
    simpa [exponentOf?, hv] using hall (-e).toNat

/-! ## The three layouts

`ds` are significant digits, worth `digitsValue ds * 10 ^ e`. -/

theorem scientific_singleton (c : Char) (e : Int) :
    scientific [c] e = [c] ++ 'e' :: (toString e).toList := rfl

theorem scientific_cons {cs : List Char} (hne : cs ≠ []) (c : Char) (e : Int) :
    scientific (c :: cs) e = [c] ++ '.' :: (cs ++ 'e' :: (toString e).toList) := by
  simp [scientific, hne]

theorem positional_whole (ds : List Char) (k : Nat) :
    positional ds (ds.length + k) = (ds ++ List.replicate k '0') ++ '.' :: ['0'] := by
  simp [positional, List.take_of_length_le (Nat.le_add_right _ k)]

theorem positional_fraction {ds : List Char} {places : Nat} (h : places < ds.length) :
    positional ds places = ds.take places ++ '.' :: ds.drop places := by
  have hk : places - min places ds.length = 0 := by omega
  have hl : ¬ ds.length ≤ places := by omega
  simp [positional, hl, hk]

theorem isDigit_append_replicate {ds : List Char} (hd : ∀ c ∈ ds, c.isDigit = true) (k : Nat) :
    ∀ c ∈ ds ++ List.replicate k '0', c.isDigit = true := by
  intro c hc
  rcases List.mem_append.1 hc with hc | hc
  · exact hd c hc
  · rw [List.eq_of_mem_replicate hc]
    rfl

theorem isDigit_replicate_append {ds : List Char} (hd : ∀ c ∈ ds, c.isDigit = true) (k : Nat) :
    ∀ c ∈ List.replicate k '0' ++ ds, c.isDigit = true := fun c hc =>
  isDigit_append_replicate hd k c (List.mem_append.2 (List.mem_append.1 hc).symm)

theorem take_ne_nil {ds : List Char} (hne : ds ≠ []) {places : Nat} (hp : 0 < places) :
    ds.take places ≠ [] := by
  rw [Ne, List.take_eq_nil_iff]
  rintro (h | h)
  · omega
  · exact hne h

section Layouts

variable {ds : List Char} (hd : ∀ c ∈ ds, c.isDigit = true) (hne : ds ≠ []) (e : Int)

include hd hne

theorem decimalOf?_scientific :
    decimalOf? (scientific ds (ds.length - 1 + e)) = some ⟨digitsValue ds, e⟩ := by
  obtain ⟨c, cs, rfl⟩ := List.exists_cons_of_ne_nil hne
  have hc : ∀ d ∈ [c], d.isDigit = true := fun d hm => hd d (by simp_all)
  have hcs : ∀ d ∈ cs, d.isDigit = true := fun d hm => hd d (List.mem_cons_of_mem _ hm)
  have hlen : ((c :: cs).length : Int) - 1 + e = cs.length + e := by
    rw [List.length_cons]
    omega
  have hexp := exponentOf?_toString (cs.length + e)
  rw [hlen]
  by_cases hs : cs = []
  · subst hs
    rw [scientific_singleton, decimalOf?_whole hc (by simp) hexp]
    simp
  · rw [scientific_cons hs,
      decimalOf?_point hc (by simp) hcs (by intro d hm; cases hm; rfl) hexp,
      Int.neg_add_cancel_left]
    rfl

theorem decimalOf?_fraction (he : (ds.length : Int) - 1 + e < 0) :
    decimalOf?
        ('0' :: '.' :: (List.replicate (-((ds.length : Int) - 1 + e) - 1).toNat '0' ++ ds)) =
      some ⟨digitsValue ds, e⟩ := by
  generalize hk : (-((ds.length : Int) - 1 + e) - 1).toNat = k
  have hz : ∀ c ∈ ['0'], c.isDigit = true := by simp
  have h := decimalOf?_places hz (by simp) (isDigit_replicate_append hd k)
  have hv : digitsValue (['0'] ++ (List.replicate k '0' ++ ds)) = digitsValue ds := by
    rw [digitsValue_append, digitsValue_append, digitsValue_replicate,
      show digitsValue ['0'] = 0 from rfl, Nat.zero_mul, Nat.zero_mul, Nat.zero_add, Nat.zero_add]
  have hl : -((List.replicate k '0' ++ ds).length : Int) = e := by
    have := List.length_pos_iff.2 hne
    rw [List.length_append, List.length_replicate]
    omega
  rwa [hv, hl] at h

theorem exists_decimalOf?_positional (he : 0 ≤ (ds.length : Int) - 1 + e) :
    ∃ y, decimalOf? (positional ds (((ds.length : Int) - 1 + e).toNat + 1)) = some y ∧
      y.Same ⟨digitsValue ds, e⟩ := by
  generalize hp : ((ds.length : Int) - 1 + e).toNat + 1 = places
  have hpos := List.length_pos_iff.2 hne
  by_cases hl : ds.length ≤ places
  · -- a whole number: zeros fill its digits up to the point, and one zero stands after the point
    obtain ⟨k, rfl⟩ := Nat.exists_eq_add_of_le hl
    have hv : digitsValue ((ds ++ List.replicate k '0') ++ ['0']) =
        digitsValue ds * 10 ^ (k + 1) := by
      rw [List.append_assoc, ← List.replicate_succ', digitsValue_append, digitsValue_replicate,
        List.length_replicate, Nat.add_zero]
    have hsame := Decimal.same_shift (digitsValue ds) (k + 1) (-1)
    rw [show (-1 : Int) + (k + 1 : Nat) = e by omega] at hsame
    rw [positional_whole, decimalOf?_places (isDigit_append_replicate hd k) (by simp [hne])
      (by simp), hv]
    exact ⟨_, rfl, hsame⟩
  · have hw : ∀ c ∈ ds.take places, c.isDigit = true := fun c hc => hd c (List.mem_of_mem_take hc)
    have hf : ∀ c ∈ ds.drop places, c.isDigit = true := fun c hc => hd c (List.mem_of_mem_drop hc)
    rw [positional_fraction (by omega), decimalOf?_places hw (take_ne_nil hne (by omega)) hf,
      List.take_append_drop, List.length_drop]
    refine ⟨_, rfl, ?_⟩
    rw [show -((ds.length - places : Nat) : Int) = e by omega]
    rfl

end Layouts

/-- The text of a decimal above zero reads back as a decimal of the same rank. -/
theorem exists_decimalOf?_decimalText {x : Decimal} (hx : 0 < x.digits) :
    ∃ y, decimalOf? (decimalText x) = some y ∧ y.rank = x.rank := by
  obtain ⟨digits, exponent⟩ := x
  simp only at hx
  obtain ⟨ds, k, hds, hne, hd, hlen, rfl⟩ := exists_digits hx
  have hsame := rank_congr (Decimal.same_shift (digitsValue ds) k exponent)
  have hexp : ((Nat.toDigits 10 (digitsValue ds * 10 ^ k)).length : Int) - 1 + exponent =
      ds.length - 1 + (exponent + k) := by omega
  unfold decimalText
  simp only [hds, hexp]
  split
  · exact ⟨_, decimalOf?_scientific hd hne _, hsame.symm⟩
  · split
    · rename_i hneg
      exact ⟨_, decimalOf?_fraction hd hne _ hneg, hsame.symm⟩
    · rename_i hneg
      obtain ⟨y, hy, hs⟩ := exists_decimalOf?_positional hd hne (exponent + k) (by omega)
      exact ⟨y, hy, (rank_congr hs).trans hsame.symm⟩

/-! ## Finite doubles -/

/-- The text of a rank, as it stands after the sign. -/
def magnitude (rank : Nat) : List Char :=
  if rank = 0 then "0.0".toList else decimalText (shortest rank)

theorem toText_finite (negative : Bool) (rank : Fin infiniteRank) :
    toText (.finite negative rank) = sign negative ++ magnitude rank := rfl

/-- A rank can be read from its text. -/
theorem exists_decimalOf?_magnitude {r : Nat} (hr : r < infiniteRank) :
    ∃ y, decimalOf? (magnitude r) = some y ∧ y.rank = r := by
  unfold magnitude
  split
  · rename_i h0
    subst h0
    exact ⟨⟨0, -1⟩, by decide, by decide +kernel⟩
  · obtain ⟨y, hy, hrank⟩ := exists_decimalOf?_decimalText
      (digits_pos (Nat.pos_of_ne_zero ‹_›) (rounds_shortest r))
    exact ⟨y, hy, hrank.trans (rank_eq hr (rounds_shortest r))⟩

/-- The characters of numbers. -/
def isNumeral (c : Char) : Bool := c.isDigit || c == '.' || c == 'e' || c == '-'

theorem isNumeral_of_isDigit {c : Char} (h : c.isDigit = true) : isNumeral c = true := by
  simp [isNumeral, h]

/-- Digits, at least one, and after them a point or an exponent. -/
def Pointed (cs : List Char) : Prop :=
  ∃ whole mark rest, cs = whole ++ mark :: rest ∧ whole ≠ [] ∧ (∀ c ∈ whole, c.isDigit = true) ∧
    (mark = '.' ∨ mark = 'e') ∧ ∀ c ∈ rest, isNumeral c = true

/-- An integer is digits, perhaps after a minus. -/
theorem isDigit_or_of_mem_toString {e : Int} {c : Char} (h : c ∈ (toString e).toList) :
    c.isDigit = true ∨ c = '-' := by
  rw [Int.toString_eq_repr, Int.repr_eq_if] at h
  by_cases he : 0 ≤ e
  · rw [if_pos he, Nat.toList_repr] at h
    exact .inl (isDigit_of_mem_toDigits h)
  · rw [if_neg he, String.toList_append, Nat.toList_repr, List.mem_append] at h
    rcases h with h | h
    · exact .inr (List.mem_singleton.1 h)
    · exact .inl (isDigit_of_mem_toDigits h)

theorem isNumeral_toString {e : Int} {c : Char} (h : c ∈ (toString e).toList) :
    isNumeral c = true := by
  rcases isDigit_or_of_mem_toString h with h | rfl
  · exact isNumeral_of_isDigit h
  · rfl

theorem pointed_scientific {ds : List Char} (hd : ∀ c ∈ ds, c.isDigit = true) (hne : ds ≠ [])
    (e : Int) : Pointed (scientific ds e) := by
  obtain ⟨c, cs, rfl⟩ := List.exists_cons_of_ne_nil hne
  have hc : ∀ d ∈ [c], d.isDigit = true := fun d hm => hd d (by simp_all)
  by_cases hs : cs = []
  · subst hs
    exact ⟨[c], 'e', _, scientific_singleton c e, by simp, hc, .inr rfl,
      fun d hm => isNumeral_toString hm⟩
  · refine ⟨[c], '.', _, scientific_cons hs c e, by simp, hc, .inl rfl, fun d hm => ?_⟩
    rcases List.mem_append.1 hm with hm | hm
    · exact isNumeral_of_isDigit (hd d (List.mem_cons_of_mem _ hm))
    · rcases List.mem_cons.1 hm with rfl | hm
      · rfl
      · exact isNumeral_toString hm

theorem pointed_places {whole fraction : List Char} (hw : ∀ c ∈ whole, c.isDigit = true)
    (hne : whole ≠ []) (hf : ∀ c ∈ fraction, c.isDigit = true) :
    Pointed (whole ++ '.' :: fraction) :=
  ⟨whole, '.', fraction, rfl, hne, hw, .inl rfl, fun c hc => isNumeral_of_isDigit (hf c hc)⟩

theorem pointed_positional {ds : List Char} (hd : ∀ c ∈ ds, c.isDigit = true) (hne : ds ≠ [])
    {places : Nat} (hp : 0 < places) : Pointed (positional ds places) := by
  by_cases hl : ds.length ≤ places
  · obtain ⟨k, rfl⟩ := Nat.exists_eq_add_of_le hl
    rw [positional_whole]
    exact pointed_places (isDigit_append_replicate hd k) (by simp [hne]) (by simp)
  · rw [positional_fraction (by omega)]
    exact pointed_places (fun c hc => hd c (List.mem_of_mem_take hc)) (take_ne_nil hne hp)
      (fun c hc => hd c (List.mem_of_mem_drop hc))

theorem pointed_decimalText {x : Decimal} (hx : 0 < x.digits) : Pointed (decimalText x) := by
  obtain ⟨ds, k, hds, hne, hd, _⟩ := exists_digits hx
  unfold decimalText
  simp only [hds]
  split
  · exact pointed_scientific hd hne _
  · split
    · exact @pointed_places ['0'] _ (by simp) (by simp) (isDigit_replicate_append hd _)
    · exact pointed_positional hd hne (by omega)

theorem pointed_magnitude (r : Nat) : Pointed (magnitude r) := by
  unfold magnitude
  split
  · exact @pointed_places ['0'] ['0'] (by simp) (by simp) (by simp)
  · exact pointed_decimalText (digits_pos (Nat.pos_of_ne_zero ‹_›) (rounds_shortest r))

theorem Pointed.exists_cons {cs : List Char} (h : Pointed cs) :
    ∃ c ds, cs = c :: ds ∧ c.isDigit = true := by
  obtain ⟨whole, mark, rest, rfl, hne, hd, _, _⟩ := h
  obtain ⟨c, ds, rfl⟩ := List.exists_cons_of_ne_nil hne
  exact ⟨c, ds ++ mark :: rest, rfl, hd c List.mem_cons_self⟩

theorem Pointed.isNumeral {cs : List Char} (h : Pointed cs) {c : Char} (hc : c ∈ cs) :
    isNumeral c = true := by
  obtain ⟨whole, mark, rest, rfl, _, hd, hm, hr⟩ := h
  rcases List.mem_append.1 hc with hc | hc
  · exact isNumeral_of_isDigit (hd c hc)
  · rcases List.mem_cons.1 hc with rfl | hc
    · rcases hm with rfl | rfl <;> rfl
    · exact hr c hc

theorem Pointed.exists_mark {cs : List Char} (h : Pointed cs) : ∃ c ∈ cs, c = '.' ∨ c = 'e' := by
  obtain ⟨whole, mark, rest, rfl, _, _, hm, _⟩ := h
  exact ⟨mark, by simp, hm⟩

/-- Finite doubles with the same text are the same. -/
theorem toText_finite_inj {n m : Bool} {r s : Fin infiniteRank}
    (h : toText (.finite n r) = toText (.finite m s)) : n = m ∧ r = s := by
  obtain ⟨c, cs, hc, hcd⟩ := (pointed_magnitude r).exists_cons
  obtain ⟨d, ds, hd, hdd⟩ := (pointed_magnitude s).exists_cons
  have hcm : c ≠ '-' := by rintro rfl; cases hcd
  have hdm : d ≠ '-' := by rintro rfl; cases hdd
  rw [toText_finite, toText_finite] at h
  -- a magnitude begins with a digit, so a minus is the sign
  have hsign : n = m := by
    rw [hc, hd] at h
    cases n <;> cases m <;> simp [sign] at h ⊢
    · exact hcm h.1
    · exact hdm h.1.symm
  subst hsign
  have hm : magnitude r = magnitude s := List.append_cancel_left h
  obtain ⟨x, hx, hxr⟩ := exists_decimalOf?_magnitude r.isLt
  obtain ⟨y, hy, hys⟩ := exists_decimalOf?_magnitude s.isLt
  rw [hm, hy] at hx
  cases hx
  exact ⟨rfl, Fin.ext (hxr.symm.trans hys)⟩

end Double

end FuzzLang
