import FuzzLang.Proofs.Token.Lexeme
import FuzzLang.Proofs.Token.Seam
import Mathlib.Control.Monad.Basic

/-!
# Tokens written out

A token stands alone if its own text is read as that token (`Standalone`). Texts of such tokens can
be put in a row wherever a blank or a mark parts them (`Written`), and what is read from the row are
the tokens it was written from (`Written.relocated_readFrom`).

The tokens of a source stand alone, however they were spelled there (`standalone_of_tokenize`). Only
doubles may not, since one that is very large or very small is written with an exponent, and
literals have none. So the tokens of a source can be written with single spaces between them and are
read as themselves (`tokenize_spaced`).
-/

attribute [local instance (high)] instPowNat

namespace FuzzLang

open Token

namespace Token

/-! ## Words alone -/

/-- What is the first piece of a text is one also if the rest is left out. -/
theorem Longest.alone {p : Pattern} {cs rest : List Char} (h : Longest p cs rest) :
    Longest p cs [] := by
  refine ⟨h.matched, fun q ds hq hpre => h.maximal q ds hq ?_, h.preferred⟩
  rw [List.append_nil] at hpre
  exact hpre.trans (List.prefix_append cs rest)

theorem Matches.longest_alone {p : Pattern} {cs : List Char} (h : Matches p cs)
    (hp : p ≠ .token .identifier) : Longest p cs [] := by
  refine ⟨h, fun q ds _ hpre => ?_, fun q hq => ?_⟩
  · rw [List.append_nil] at hpre
    exact hpre.length_le
  · by_cases hqi : q = .token .identifier
    · exact .inr hqi
    · exact .inl (hq.unique h hqi hp)

/-- A token that is read alone is read before a break as well. -/
theorem Longest.then_break {kind : Kind} {cs rest : List Char}
    (h : Longest (.token kind) cs []) (hrest : ∀ c ∈ rest.head?, isBreak c = true) :
    Longest (.token kind) cs rest := by
  cases rest with
  | nil => exact h
  | cons c rest =>
    have hmid : Longest (.token kind) cs ([] ++ []) := h
    rcases hmid.before_break (hrest c rfl) with hl | ⟨_, hp | ⟨hp, _⟩⟩
    · exact hl rest
    · cases hp
    · cases hp

/-- No word begins with a mark and goes on. -/
theorem Matches.eq_mark {p : Pattern} {c : Char} {cs : List Char} (h : Matches p (c :: cs))
    (hc : isMark c = true) : cs = [] := by
  by_cases hblank : p = .blank
  · subst hblank
    have hb := (blank_iff.1 h).2 c List.mem_cons_self
    rw [isBlank_eq_false_of_isMark hc] at hb
    cases hb
  by_cases hcomment : p = .comment
  · subst hcomment
    obtain ⟨body, hbody, _⟩ := h.eq_comment
    cases hbody
    cases hc
  by_cases hstring : p = .token .string
  · subst hstring
    obtain ⟨body, hbody, _⟩ := h.eq_string
    cases hbody
    cases hc
  rcases h.isBreak_eq_false hblank hcomment hstring with hno | ⟨m, hm, _⟩
  · have hb := hno c List.mem_cons_self
    rw [isBreak_of_isMark hc] at hb
    cases hb
  · exact (List.cons.inj hm).2

/-- A mark is read whatever comes after it. -/
theorem Longest.then_any {kind : Kind} {c : Char} (h : Longest (.token kind) [c] [])
    (hc : isMark c = true) (rest : List Char) : Longest (.token kind) [c] rest := by
  refine ⟨h.matched, fun q ds hq hpre => ?_, h.preferred⟩
  obtain ⟨d, ds, rfl⟩ := List.exists_cons_of_ne_nil hq.ne_nil
  obtain ⟨more, hmore⟩ := hpre
  obtain ⟨rfl, _⟩ := List.cons.inj hmore
  obtain rfl := hq.eq_mark hc
  exact Nat.le_refl _

/-! ## Tokens that stand alone -/

/-- The text of the token, by itself, is read as the token. -/
structure Standalone (t : Token) : Prop where
  longest : Longest (.token t.kind) t.lexeme.shown.toList []
  lexeme : Piece.lexeme? t.kind t.lexeme.shown.toList = .ok t.lexeme

theorem lexeme?_of_ne {kind : Kind} (h : kind ≠ .number) (cs : List Char) :
    Piece.lexeme? kind cs = .ok (.text (String.ofList cs)) := by
  cases kind with
  | number => exact absurd rfl h
  | _ => rfl

theorem standalone_text {kind : Kind} {s : String} (hk : kind ≠ .number)
    (h : Longest (.token kind) s.toList []) (location : Location) :
    Standalone ⟨kind, .text s, location⟩ := by
  refine ⟨h, (lexeme?_of_ne hk s.toList).trans ?_⟩
  rw [String.ofList_toList]

/-- A kind with one spelling, so spelled. -/
theorem standalone_spelling {kind : Kind} {s : String} (h : kind.spelling? = some s)
    (location : Location) : Standalone ⟨kind, .text s, location⟩ := by
  refine standalone_text ?_ (Matches.longest_alone (.word h) ?_) location
  · rintro rfl
    cases h
  · rintro ⟨⟩
    cases h

/-- An integer is written as a literal of the same value. -/
theorem exists_toList_toString (k : Int) :
    ∃ sign ds, (toString k).toList = sign ++ ds ∧ IsSign sign ∧ IsDigits ds ∧
      denoted (sign ++ ds) = k := by
  have hdigits (n : Nat) : IsDigits (Nat.toDigits 10 n) :=
    ⟨Nat.toDigits_ne_nil, fun c hc => isDigit_of_mem_toDigits hc⟩
  have hvalue (n : Nat) : placeValue (Nat.toDigits 10 n) = n := by
    rw [← digitsValue_eq_placeValue, digitsValue_toDigits]
  rw [Int.toString_eq_repr, Int.repr_eq_if]
  by_cases hk : 0 ≤ k
  · refine ⟨[], Nat.toDigits 10 k.toNat, ?_, .inl rfl, hdigits _, ?_⟩
    · rw [if_pos hk, Nat.toList_repr, List.nil_append]
    · rw [denoted_append (.inl rfl) (hdigits _), if_neg (by simp), hvalue, Int.toNat_of_nonneg hk]
  · refine ⟨['-'], Nat.toDigits 10 (-k).toNat, ?_, .inr (.inr rfl), hdigits _, ?_⟩
    · rw [if_neg hk, String.toList_append, Nat.toList_repr]
      rfl
    · rw [denoted_append (.inr (.inr rfl)) (hdigits _), if_pos rfl, hvalue,
        Int.toNat_of_nonneg (by omega)]
      omega

theorem standalone_int {k : Int} (hlow : -2 ^ (63 : Nat) ≤ k) (hhigh : k ≤ 2 ^ (63 : Nat) - 1)
    (location : Location) : Standalone ⟨.number, .number (.int k), location⟩ := by
  obtain ⟨sign, ds, htext, hs, hd, hk⟩ := exists_toList_toString k
  have hshown : (Lexeme.number (.int k)).shown.toList = sign ++ ds := htext
  constructor
  · rw [hshown]
    exact Matches.longest_alone (.integer hs hd) (by simp)
  · simp only [hshown, Piece.lexeme?, ofLiteral?_integer hs hd, hk, Number.ofInt?]
    rw [if_pos ⟨hlow, Int.lt_of_le_sub_one hhigh⟩]

/-! ## Doubles -/

theorem Yields.eq_skips {before : List Char} {pieces : List Piece} (h : Yields before pieces []) :
    ∀ piece ∈ pieces, piece.pattern = .blank ∨ piece.pattern = .comment := by
  generalize hts : ([] : List Token) = ts at h
  induction h with
  | nil => simp
  | skip hp _ ih => exact List.forall_mem_cons.2 ⟨hp, ih hts⟩
  | token => cases hts

/-- Without blanks and colons there is nothing to skip. -/
theorem Matches.ne_skip {p : Pattern} {cs : List Char} (h : Matches p cs)
    (hcs : ∀ c ∈ cs, isBlank c = false ∧ c ≠ ':') : ¬ (p = .blank ∨ p = .comment) := by
  rintro (rfl | rfl)
  · obtain ⟨hne, hb⟩ := blank_iff.1 h
    obtain ⟨c, cs, rfl⟩ := List.exists_cons_of_ne_nil hne
    have hno := (hcs c List.mem_cons_self).1
    rw [hb c List.mem_cons_self] at hno
    cases hno
  · obtain ⟨body, rfl, _⟩ := h.eq_comment
    exact (hcs ':' (List.mem_append_left _ (by decide))).2 rfl

/-- A text without blanks and colons in which no token is read is empty. -/
theorem eq_nil_of_readFrom {before cs : List Char} (h : readFrom before cs = .ok [])
    (hcs : ∀ c ∈ cs, isBlank c = false ∧ c ≠ ':') : cs = [] := by
  have hm := munch_cut cs
  obtain ⟨hrest, -, hyields⟩ := readPieces_eq_ok hm.matches_of_mem h
  have htext := hm.flatMap_text
  rw [hrest, List.append_nil] at htext
  have hskips := hyields.eq_skips
  cases hpieces : (cut cs).1 with
  | nil =>
    rw [hpieces] at htext
    exact htext.symm
  | cons piece pieces =>
    rw [hpieces, List.flatMap_cons] at htext
    rw [hpieces] at hskips
    refine absurd (hskips piece List.mem_cons_self) ((hm.matches_of_mem piece ?_).ne_skip ?_)
    · rw [hpieces]
      exact List.mem_cons_self
    · intro c hc
      exact hcs c (htext ▸ List.mem_append_left _ hc)

/-- A text without blanks and colons that is read as one token is the word of that token. -/
theorem longest_of_readFrom {before cs : List Char} {t : Token} (h : readFrom before cs = .ok [t])
    (hcs : ∀ c ∈ cs, isBlank c = false ∧ c ≠ ':') :
    Longest (.token t.kind) cs [] ∧ Piece.lexeme? t.kind cs = .ok t.lexeme := by
  have hm := munch_cut cs
  generalize (cut cs).1 = pieces, (cut cs).2 = rest at hm
  cases hm with
  | stop hu =>
    cases cs with
    | nil =>
      rw [readFrom_nil] at h
      cases h
    | cons c cs =>
      rw [readFrom_uncovered before hu] at h
      cases h
  | @step p word later _ _ hl _ =>
    have hword : ∀ c ∈ word, isBlank c = false ∧ c ≠ ':' := fun c hc =>
      hcs c (List.mem_append_left _ hc)
    cases p with
    | blank => exact absurd (.inl rfl) (hl.matched.ne_skip hword)
    | comment => exact absurd (.inr rfl) (hl.matched.ne_skip hword)
    | token kind =>
      rw [readFrom_token before hl] at h
      cases hlex : Piece.lexeme? kind word with
      | error fault =>
        rw [hlex] at h
        cases h
      | ok lexeme =>
        cases hlater : readFrom (before ++ word) later with
        | error e =>
          rw [hlex, hlater] at h
          cases h
        | ok ts =>
          rw [hlex, hlater] at h
          cases h
          obtain rfl := eq_nil_of_readFrom hlater fun c hc => hcs c (List.mem_append_right _ hc)
          rw [List.append_nil]
          exact ⟨hl, hlex⟩

end Token

/-- The text of a number has neither blanks nor colons. -/
theorem Number.ne_of_mem_text (n : Number) :
    ∀ c ∈ n.text.toList, isBlank c = false ∧ c ≠ ':' := by
  rcases n.isFinite_or_named with hn | hn | hn | hn
  · intro c hc
    have hnumeral := isNumeral_of_mem_text hn hc
    constructor
    · refine Bool.eq_false_iff.2 fun hb => ?_
      have hblank := isBlank_iff.1 hb
      simp only [List.mem_cons, List.not_mem_nil, or_false] at hblank
      rcases hblank with rfl | rfl | rfl | rfl | rfl <;> cases hnumeral
    · rintro rfl
      cases hnumeral
  all_goals simp [hn, isBlank]

/-- The text of the double is read as that double and nothing else. -/
def Double.ReadsBack (x : Double) : Prop :=
  ∃ location, tokenize x.text = .ok [⟨.number, .number (.float x), location⟩]

namespace Token

theorem standalone_float {x : Double} (h : x.ReadsBack) (location : Location) :
    Standalone ⟨.number, .number (.float x), location⟩ := by
  obtain ⟨l, hread⟩ := h
  rw [tokenize_eq_readFrom] at hread
  obtain ⟨hlongest, hlexeme⟩ := longest_of_readFrom hread (Number.float x).ne_of_mem_text
  exact ⟨hlongest, hlexeme⟩

/-! ## Tokens of a source -/

theorem Munch.exists_longest {cs rest : List Char} {pieces : List Piece}
    (h : Munch cs pieces rest) :
    ∀ piece ∈ pieces, ∃ later, Longest piece.pattern piece.text later := by
  induction h with
  | stop => simp
  | step hl _ ih => exact List.forall_mem_cons.2 ⟨⟨_, hl⟩, ih⟩

theorem fits_of_tokenize {source : String} {ts : List Token} (h : tokenize source = .ok ts) :
    ∀ piece ∈ (cut source.toList).1, piece.Fits := by
  rw [tokenize_eq_readFrom] at h
  exact (readPieces_eq_ok (munch_cut source.toList).matches_of_mem h).2.1

/-- A token of a source stands alone, unless it is a double that is not read back. -/
theorem standalone_of_tokenize {source : String} {ts : List Token} (h : tokenize source = .ok ts)
    {t : Token} (ht : t ∈ ts) (hf : ∀ x, t.lexeme = .number (.float x) → x.ReadsBack) :
    t.Standalone := by
  obtain ⟨piece, hp, hspelled⟩ := (yields_of_tokenize h).exists_spelled ht
  obtain ⟨later, hl⟩ := (munch_cut source.toList).exists_longest piece hp
  have hfits := fits_of_tokenize h piece hp
  cases hspelled with
  | @text kind cs location hk =>
    have halone := hl.alone
    rw [← String.toList_ofList (l := cs)] at halone
    exact standalone_text hk halone location
  | @integer cs location hpoint =>
    obtain ⟨hlow, hhigh⟩ := hfits rfl hpoint
    exact standalone_int hlow hhigh location
  | decimal => exact standalone_float (hf _ rfl) _

theorem standalone_of_text {source : String} {ts : List Token} (h : tokenize source = .ok ts)
    {t : Token} (ht : t ∈ ts) {s : String} (hs : t.lexeme = .text s) : t.Standalone := by
  refine standalone_of_tokenize h ht fun x hx => ?_
  rw [hs] at hx
  cases hx

theorem standalone_of_number {source : String} {ts : List Token} (h : tokenize source = .ok ts)
    {t : Token} (ht : t ∈ ts) {n : Number} (hn : t.lexeme = .number n)
    (hf : ∀ x, n = .float x → x.ReadsBack) : t.Standalone := by
  refine standalone_of_tokenize h ht fun x hx => hf x ?_
  rw [hn] at hx
  cases hx
  rfl

/-! ## Texts of tokens in a row -/

/-- A text that is made of the texts of tokens, in order, and of blanks. A text ends before a break,
or is a mark itself. -/
inductive Written : List Char → List Token → Prop
  | nil : Written [] []
  | blank {c : Char} {cs : List Char} {ts : List Token} :
    isBlank c = true → Written cs ts → Written (c :: cs) ts
  | token {t : Token} {cs : List Char} {ts : List Token} :
    t.Standalone → (∀ c ∈ cs.head?, isBreak c = true) → Written cs ts →
    Written (t.lexeme.shown.toList ++ cs) (t :: ts)
  | mark {t : Token} {c : Char} {cs : List Char} {ts : List Token} :
    t.Standalone → t.lexeme.shown.toList = [c] → isMark c = true → Written cs ts →
    Written (c :: cs) (t :: ts)

theorem Standalone.relocated_readFrom {t : Token} {rest : List Char} (h : t.Standalone)
    (hl : Longest (.token t.kind) t.lexeme.shown.toList rest) (before : List Char) :
    relocated (fun _ => {}) (readFrom before (t.lexeme.shown.toList ++ rest)) =
      (relocated (fun _ => {}) (readFrom (before ++ t.lexeme.shown.toList) rest)).map
        (t.relocate (fun _ => {}) :: ·) := by
  rw [readFrom_token before hl, h.lexeme]
  cases readFrom (before ++ t.lexeme.shown.toList) rest <;> rfl

namespace Written

variable {cs ds : List Char} {ts us : List Token}

theorem single {t : Token} (h : t.Standalone) : Written t.lexeme.shown.toList [t] := by
  have hw : Written (t.lexeme.shown.toList ++ []) [t] := .token h (by simp) .nil
  rwa [List.append_nil] at hw

/-- A mark in a row of tokens. -/
theorem spelled {kind : Kind} {s : String} {c : Char} (hs : kind.spelling? = some s)
    (hc : s.toList = [c]) (hm : isMark c = true) (h : Written cs ts) :
    Written (c :: cs) (⟨kind, .text s, {}⟩ :: ts) :=
  .mark (standalone_spelling hs {}) hc hm h

theorem word {t : Token} {s : String} (h : t.Standalone) (hs : t.lexeme.shown = s) :
    Written s.toList [t] := by
  rw [← hs]
  exact .single h

/-- Texts can be put one after the other where the second begins with a break. -/
theorem append (h : Written cs ts) (hd : Written ds us)
    (hbreak : ∀ c ∈ ds.head?, isBreak c = true) : Written (cs ++ ds) (ts ++ us) := by
  induction h with
  | nil => exact hd
  | blank hc _ ih => exact .blank hc ih
  | @token t cs ts ht hcs _ ih =>
    rw [List.append_assoc]
    refine .token ht ?_ ih
    cases cs with
    | nil => exact hbreak
    | cons c cs => exact hcs
  | mark ht hc hmark _ ih => exact .mark ht hc hmark ih

/-- What is read from the text are the tokens, at places of its own. -/
theorem relocated_readFrom (h : Written cs ts) (before : List Char) :
    relocated (fun _ => {}) (readFrom before cs) = .ok (ts.map (relocate fun _ => {})) := by
  induction h generalizing before with
  | nil =>
    rw [readFrom_nil]
    rfl
  | blank hc _ ih =>
    rw [readFrom_blank before hc]
    exact ih _
  | token ht hcs _ ih =>
    rw [ht.relocated_readFrom (ht.longest.then_break hcs), ih]
    rfl
  | @mark t c cs ts ht hc hmark _ ih =>
    have hlongest := ht.longest
    rw [hc] at hlongest
    have hl : Longest (.token t.kind) t.lexeme.shown.toList cs := by
      rw [hc]
      exact hlongest.then_any hmark cs
    have hread := ht.relocated_readFrom hl before
    rw [ih, hc] at hread
    exact hread

theorem exists_tokenize {s : String} (h : Written s.toList ts) :
    ∃ us, tokenize s = .ok us ∧ us.map (relocate fun _ => {}) = ts.map (relocate fun _ => {}) := by
  have hread := h.relocated_readFrom []
  rw [← tokenize_eq_readFrom] at hread
  exact mapBoth_eq_ok hread

end Written

theorem written_spaced {ts : List Token} (h : ∀ t ∈ ts, t.Standalone) :
    Written (" ".intercalate (ts.map (·.lexeme.shown))).toList ts := by
  induction ts with
  | nil => exact .nil
  | cons t ts ih =>
    obtain ⟨ht, hts⟩ := List.forall_mem_cons.1 h
    cases ts with
    | nil => simpa using Written.single ht
    | cons u us =>
      rw [List.map_cons, List.map_cons, String.intercalate_cons_cons, String.toList_append,
        String.toList_append, List.append_assoc]
      exact .token ht (by simp [isBreak, isBlank]) (.blank rfl (ih hts))

/-- **Tokens are read from what is written of them.** The texts of the tokens of a source, with
single spaces between them, are read as tokens of the same kinds with the same lexemes, if each
double among them is read back from its own text. -/
theorem tokenize_spaced {source : String} {ts : List Token} (h : tokenize source = .ok ts)
    (hf : ∀ t ∈ ts, ∀ x, t.lexeme = .number (.float x) → x.ReadsBack) :
    ∃ us, tokenize (" ".intercalate (ts.map (·.lexeme.shown))) = .ok us ∧
      us.map (fun t => (t.kind, t.lexeme)) = ts.map (fun t => (t.kind, t.lexeme)) := by
  have hwritten := written_spaced fun t ht => standalone_of_tokenize h ht (hf t ht)
  obtain ⟨us, hus, hmap⟩ := hwritten.exists_tokenize
  exact ⟨us, hus, map_kind_lexeme hmap⟩

/-- Numbers with signs and zeros that are not kept, a name that begins comments where a colon comes
right after it, and a string with blanks and a backslash. -/
def respelled : String :=
  "fuzzy x=+5 comment :007\"a \t\\\"-> -9223372036854775808 .50 comment: to the end"

/-- One half. -/
def half : Double := .finite false ⟨1022 * 2 ^ (52 : Nat), by decide⟩

def respelledTokens : List Token :=
  [⟨.declare, .text "fuzzy", ⟨1, 1⟩⟩, ⟨.identifier, .text "x", ⟨1, 7⟩⟩,
    ⟨.equals, .text "=", ⟨1, 8⟩⟩, ⟨.number, .number (.int 5), ⟨1, 9⟩⟩,
    ⟨.identifier, .text "comment", ⟨1, 12⟩⟩, ⟨.colon, .text ":", ⟨1, 20⟩⟩,
    ⟨.number, .number (.int 7), ⟨1, 21⟩⟩, ⟨.string, .text "\"a \t\\\"", ⟨1, 24⟩⟩,
    ⟨.arrow, .text "->", ⟨1, 30⟩⟩, ⟨.number, .number (.int (-9223372036854775808)), ⟨1, 33⟩⟩,
    ⟨.number, .number (.float half), ⟨1, 54⟩⟩]

theorem half_readsBack : half.ReadsBack := by
  have htext : half.text = "0.5" := by decide +kernel
  refine ⟨⟨1, 1⟩, ?_⟩
  rw [htext]
  decide +kernel

/-- They are read again from a text in which each of them is spelled in the shortest way. -/
theorem tokenize_spaced_respelled :
    tokenize respelled = .ok respelledTokens ∧
      (∀ t ∈ respelledTokens, ∀ x, t.lexeme = .number (.float x) → x.ReadsBack) ∧
      " ".intercalate (respelledTokens.map (·.lexeme.shown)) =
        "fuzzy x = 5 comment : 7 \"a \t\\\" -> -9223372036854775808 0.5" ∧
      ∃ us, tokenize (" ".intercalate (respelledTokens.map (·.lexeme.shown))) = .ok us ∧
        us.map (fun t => (t.kind, t.lexeme)) =
          respelledTokens.map (fun t => (t.kind, t.lexeme)) := by
  have htokens : tokenize respelled = .ok respelledTokens := by decide +kernel
  have hfloats : ∀ t ∈ respelledTokens, ∀ x, t.lexeme = .number (.float x) → x.ReadsBack := by
    simpa [respelledTokens] using half_readsBack
  exact ⟨htokens, hfloats, by decide +kernel, tokenize_spaced htokens hfloats⟩

end Token

end FuzzLang
