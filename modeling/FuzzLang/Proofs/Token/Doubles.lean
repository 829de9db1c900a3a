import FuzzLang.Proofs.Double.Positional
import FuzzLang.Proofs.Token.Written

/-!
# Doubles written as literals

A literal is made of digits, a point and a sign. A double whose text has no exponent is such a
literal, and since its digits round to the double, that is what is read from them. A text with an
exponent, or the name of an infinite value, is no literal. So a double is read back from its text
just if it is zero or its size is from `10 ^ -4` up to below `10 ^ 16` (`readsBack_iff`).
-/

namespace FuzzLang

open Token

namespace Token

/-- The characters of a literal. -/
theorem Matches.isDigit_or_mem {cs : List Char} (h : Matches (.token .number) cs) {c : Char}
    (hc : c ∈ cs) : c.isDigit = true ∨ c ∈ ['+', '-', '.'] := by
  have hsign {sign : List Char} (hs : IsSign sign) (hc : c ∈ sign) : c ∈ ['+', '-', '.'] := by
    rcases hs with rfl | rfl | rfl <;> simp_all
  cases h with
  | word hs => cases hs
  | integer hs hd =>
    rcases List.mem_append.1 hc with hc | hc
    · exact .inr (hsign hs hc)
    · exact .inl (hd.2 c hc)
  | decimal hs hw hd =>
    rcases List.mem_append.1 hc with hc | hc
    · exact .inr (hsign hs hc)
    · rcases List.mem_append.1 hc with hc | hc
      · exact .inl (hw c hc)
      · rcases List.mem_cons.1 hc with rfl | hc
        · exact .inr (by simp)
        · exact .inl (hd.2 c hc)

/-- A token that stands alone is read from its own text. -/
theorem Standalone.exists_tokenize {t : Token} (h : t.Standalone) :
    ∃ location, tokenize t.lexeme.shown = .ok [⟨t.kind, t.lexeme, location⟩] := by
  obtain ⟨us, hus, hmap⟩ := (Written.single h).exists_tokenize
  obtain ⟨u, rfl, hu⟩ := List.map_eq_singleton_iff.1 hmap
  obtain ⟨hkind, hlexeme, -⟩ := Token.mk.inj hu
  refine ⟨u.location, ?_⟩
  rw [hus, ← hkind, ← hlexeme]

end Token

namespace Double

/-- Whether a double is zero, or its size is from `10 ^ -4` up to below `10 ^ 16`. -/
def IsPlain : Double → Prop
  | .finite _ rank => Plain rank
  | .nan | .infinite _ => False

instance (x : Double) : Decidable x.IsPlain :=
  match x with
  | .finite _ rank => inferInstanceAs (Decidable (Plain rank))
  | .nan | .infinite _ => isFalse id

theorem toList_text_finite (negative : Bool) (rank : Fin infiniteRank) :
    (text (.finite negative rank)).toList = sign negative ++ magnitude rank :=
  Number.toList_text_float negative rank

/-- The digits of a rank that is written without an exponent are nearest to that rank. -/
theorem toDouble_ofPlaces {whole fraction : List Char} {rank : Fin infiniteRank}
    (h : magnitude rank = whole ++ '.' :: fraction) (hw : ∀ c ∈ whole, c.isDigit = true)
    (hne : whole ≠ []) (hf : ∀ c ∈ fraction, c.isDigit = true) (negative : Bool) :
    (Decimal.ofPlaces whole fraction).toDouble negative = .finite negative rank := by
  obtain ⟨y, hy, hrank⟩ := exists_decimalOf?_magnitude rank.isLt
  rw [h, decimalOf?_places hw hne hf] at hy
  obtain rfl := Option.some.inj hy
  have hplaces : (Decimal.ofPlaces whole fraction).rank = rank := hrank
  simp only [Decimal.toDouble, hplaces, rank.isLt, dif_pos]

theorem standalone_of_plain {rank : Fin infiniteRank} (h : Plain rank) (negative : Bool) :
    Standalone ⟨.number, .number (.float (.finite negative rank)), {}⟩ := by
  obtain ⟨whole, fraction, hmagnitude, hne, hfraction, hw, hf⟩ := h.places
  have hsign : IsSign (sign negative) := by
    cases negative
    · exact .inl rfl
    · exact .inr (.inr rfl)
  have hminus : decide (sign negative = ['-']) = negative := by cases negative <;> rfl
  have htext : (Lexeme.number (.float (.finite negative rank))).shown.toList =
      sign negative ++ (whole ++ '.' :: fraction) := by
    rw [← hmagnitude]
    exact toList_text_finite negative rank
  constructor
  · simp only [htext]
    exact Matches.longest_alone (.decimal hsign hw ⟨hfraction, hf⟩) (by simp)
  · simp only [htext, Piece.lexeme?, ofLiteral?_decimal hsign hw, hminus,
      toDouble_ofPlaces hmagnitude hw hne hf]

theorem point_mem_text {x : Double} (h : x.IsPlain) : '.' ∈ x.text.toList := by
  cases x with
  | nan => exact h.elim
  | infinite => exact h.elim
  | finite negative rank =>
    obtain ⟨whole, fraction, hmagnitude, -⟩ := Plain.places h
    rw [toList_text_finite, hmagnitude]
    simp

/-- A double that is not plain is written with an exponent, or it has a name. -/
theorem exponent_mem_text {x : Double} (h : ¬ x.IsPlain) :
    'e' ∈ x.text.toList ∨ x.text = "inf" ∨ x.text = "-inf" ∨ x = .nan := by
  cases x with
  | nan => exact .inr (.inr (.inr rfl))
  | infinite negative =>
    cases negative
    · exact .inr (.inl rfl)
    · exact .inr (.inr (.inl rfl))
  | finite negative rank =>
    refine .inl ?_
    rw [toList_text_finite]
    exact List.mem_append_right _ (exponent_mem_magnitude h)

/-- A double is read back from its text just if it is plain. -/
theorem readsBack_iff (x : Double) : x.ReadsBack ↔ x.IsPlain := by
  constructor
  · intro h
    have hmatched := (standalone_float h {}).longest.matched
    by_contra hplain
    have hletter : ∃ c ∈ x.text.toList, c = 'e' ∨ c = 'n' ∨ c = 'N' := by
      rcases exponent_mem_text hplain with he | hname | hname | rfl
      · exact ⟨'e', he, .inl rfl⟩
      · exact ⟨'n', by simp [hname], by simp⟩
      · exact ⟨'n', by simp [hname], by simp⟩
      · exact ⟨'N', by decide, by simp⟩
    obtain ⟨c, hc, hcases⟩ := hletter
    have hliteral := hmatched.isDigit_or_mem hc
    rcases hcases with rfl | rfl | rfl
    · simp at hliteral
    · simp at hliteral
    · simp at hliteral
  · intro h
    cases x with
    | nan => exact h.elim
    | infinite => exact h.elim
    | finite negative rank => exact (standalone_of_plain h negative).exists_tokenize

end Double

namespace Token

/-- The double of a literal is a number. -/
theorem ne_nan_of_tokenize {source : String} {ts : List Token} (h : tokenize source = .ok ts)
    {t : Token} (ht : t ∈ ts) {x : Double} (hx : t.lexeme = .number (.float x)) : x ≠ .nan := by
  obtain ⟨piece, -, hspelled⟩ := (yields_of_tokenize h).exists_spelled ht
  cases hspelled with
  | text => cases hx
  | integer => cases hx
  | decimal =>
    cases hx
    unfold Decimal.toDouble
    split
    · simp
    · simp

/-- **Doubles as literals.** The text of a double of a source has a point and is read as that double
and nothing else just if the double is zero or its size is from `10 ^ -4` up to below `10 ^ 16`. The
text of any other has an exponent, or it is the name of an infinite value, and it is read as
something else or not at all. -/
theorem tokenize_doubles {source : String} {ts : List Token} (h : tokenize source = .ok ts)
    {t : Token} (ht : t ∈ ts) {x : Double} (hx : t.lexeme = .number (.float x)) :
    ('.' ∈ x.text.toList ∧ x.ReadsBack ↔ x.IsPlain) ∧
      (¬ x.IsPlain → ('e' ∈ x.text.toList ∨ x.text = "inf" ∨ x.text = "-inf") ∧ ¬ x.ReadsBack) := by
  refine ⟨⟨fun hread => (x.readsBack_iff).1 hread.2, fun hplain => ?_⟩, fun hplain => ⟨?_, ?_⟩⟩
  · exact ⟨Double.point_mem_text hplain, (x.readsBack_iff).2 hplain⟩
  · rcases Double.exponent_mem_text hplain with he | hname | hname | hnan
    · exact .inl he
    · exact .inr (.inl hname)
    · exact .inr (.inr hname)
    · exact absurd hnan (ne_nan_of_tokenize h ht hx)
  · exact fun hread => hplain ((x.readsBack_iff).1 hread)

/-- The least double above zero that is plain. -/
def tenThousandth : Double := .finite false ⟨4547007122018943789, by decide⟩

/-- A double with a point and an exponent. -/
def eightyThousandth : Double := .finite true ⟨4533496323136832301, by decide⟩

def smallTokens : List Token :=
  [⟨.number, .number (.float tenThousandth), ⟨1, 1⟩⟩,
    ⟨.number, .number (.float eightyThousandth), ⟨1, 7⟩⟩]

/-- Of two small doubles only the first is read back. -/
theorem tokenize_doubles_small :
    tokenize ".0001 -.0000125" = .ok smallTokens ∧ tenThousandth.IsPlain ∧
      tenThousandth.text = "0.0001" ∧ ¬ eightyThousandth.IsPlain ∧
      eightyThousandth.text = "-1.25e-5" ∧
      ('.' ∈ tenThousandth.text.toList ∧ tenThousandth.ReadsBack ↔ tenThousandth.IsPlain) ∧
      ('e' ∈ eightyThousandth.text.toList ∨ eightyThousandth.text = "inf" ∨
        eightyThousandth.text = "-inf") ∧ ¬ eightyThousandth.ReadsBack := by
  have htokens : tokenize ".0001 -.0000125" = .ok smallTokens := by decide +kernel
  have hfirst : tenThousandth.IsPlain := by decide +kernel
  have hsecond : ¬ eightyThousandth.IsPlain := by decide +kernel
  exact ⟨htokens, hfirst, by decide +kernel, hsecond, by decide +kernel,
    (tokenize_doubles htokens List.mem_cons_self rfl).1,
    (tokenize_doubles htokens (List.mem_cons_of_mem _ List.mem_cons_self) rfl).2 hsecond⟩

def hundredThousandth : Double := .finite false ⟨4532020583610935537, by decide⟩

/-- A double whose text has no point and is read as a number, a name and a number. -/
theorem hundredThousandth_apart :
    tokenize "0.00001" = .ok [⟨.number, .number (.float hundredThousandth), ⟨1, 1⟩⟩] ∧
      hundredThousandth.text = "1e-5" ∧ '.' ∉ hundredThousandth.text.toList ∧
      tokenize hundredThousandth.text = .ok [⟨.number, .number (.int 1), ⟨1, 1⟩⟩,
        ⟨.identifier, .text "e", ⟨1, 2⟩⟩, ⟨.number, .number (.int (-5)), ⟨1, 3⟩⟩] := by
  have htext : hundredThousandth.text = "1e-5" := by decide +kernel
  refine ⟨by decide +kernel, htext, ?_, ?_⟩
  · rw [htext]
    decide +kernel
  · rw [htext]
    decide +kernel

end Token

end FuzzLang
