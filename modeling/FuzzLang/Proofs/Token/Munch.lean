import FuzzLang.Token.Scan

/-!
# Maximal munch

`Matches p cs` says that a text is a word of the pattern `p`, without reference to how it is found.
`Pattern.length` finds the longest word of one pattern at the start of a text, so the first piece of
a text is its longest start that is a word of any pattern (`longest_eq_some_iff`), and a text is cut
by taking such pieces until none is left (`munch_iff`).

Two patterns share a word only if one of them is that of identifiers (`Matches.unique`); so it is
enough to say that an identifier gives way.
-/

namespace FuzzLang.Token

/-! ## Words of a pattern -/

def IsSign (cs : List Char) : Prop := cs = [] ∨ cs = ['+'] ∨ cs = ['-']

def IsDigits (cs : List Char) : Prop := cs ≠ [] ∧ ∀ c ∈ cs, c.isDigit = true

/-- The words that a pattern covers. -/
inductive Matches : Pattern → List Char → Prop
  | blank {cs : List Char} :
    cs ≠ [] → (∀ c ∈ cs, c ∈ [' ', '\t', '\r', '\n', '\x0c']) → Matches .blank cs
  | comment {cs : List Char} : '\n' ∉ cs → Matches .comment (commentMark ++ cs)
  | word {kind : Kind} {s : String} :
    kind.spelling? = some s → Matches (.token kind) s.toList
  | integer {sign ds : List Char} :
    IsSign sign → IsDigits ds → Matches (.token .number) (sign ++ ds)
  | decimal {sign whole ds : List Char} :
    IsSign sign → (∀ c ∈ whole, c.isDigit = true) → IsDigits ds →
    Matches (.token .number) (sign ++ (whole ++ '.' :: ds))
  | string {cs : List Char} :
    (∀ c ∈ cs, c ≠ '"' ∧ c ≠ '\n') → Matches (.token .string) ('"' :: (cs ++ ['"']))
  | name {c : Char} {cs : List Char} :
    isNameStart c = true → (∀ d ∈ cs, isNameRest d = true) → Matches (.token .identifier) (c :: cs)
  | operator {c : Char} : c ∈ ['+', '-', '*', '/'] → Matches (.token .operator) [c]

theorem isBlank_iff {c : Char} : isBlank c = true ↔ c ∈ [' ', '\t', '\r', '\n', '\x0c'] := by
  simp [isBlank, or_assoc]

theorem isOperator_iff {c : Char} : isOperator c = true ↔ c ∈ ['+', '-', '*', '/'] := by
  simp [isOperator, or_assoc]

theorem newline_not_mem_commentMark : '\n' ∉ commentMark := by decide

/-! ## The longest word of one pattern -/

namespace Pattern

theorem length_takeWhile_digits {ds : List Char} (hd : ∀ c ∈ ds, c.isDigit = true)
    (rest : List Char) :
    ((ds ++ rest).takeWhile Char.isDigit).length =
      ds.length + (rest.takeWhile Char.isDigit).length := by
  rw [List.takeWhile_append_of_pos hd, List.length_append]

/-- Without a sign in front, a number is what it is without signs at all. -/
theorem numberLength_of_head {c : Char} {cs : List Char} (h : c.isDigit = true ∨ c = '.') :
    numberLength (c :: cs) = unsignedLength (c :: cs) := by
  unfold numberLength
  split
  · rename_i hc
    cases hc
    rcases h with h | h <;> cases h
  · rename_i hc
    cases hc
    rcases h with h | h <;> cases h
  · rfl

theorem numberLength_sign {sign cs : List Char} {n : Nat} (hs : IsSign sign) (hn : 0 < n)
    (hcs : n ≤ unsignedLength cs) (hhead : ∃ c ds, cs = c :: ds ∧ (c.isDigit = true ∨ c = '.')) :
    sign.length + n ≤ numberLength (sign ++ cs) := by
  rcases hs with rfl | rfl | rfl
  · obtain ⟨c, ds, rfl, hc⟩ := hhead
    rw [List.nil_append, numberLength_of_head hc, List.length_nil]
    omega
  all_goals
    simp only [numberLength, List.singleton_append, List.length_singleton]
    split <;> omega

theorem le_unsignedLength_integer {ds : List Char} (hd : ∀ c ∈ ds, c.isDigit = true)
    (rest : List Char) : ds.length ≤ unsignedLength (ds ++ rest) := by
  have hlen := length_takeWhile_digits hd rest
  unfold unsignedLength
  simp only
  split
  · split <;> omega
  · omega

theorem le_unsignedLength_decimal {whole ds : List Char} (hw : ∀ c ∈ whole, c.isDigit = true)
    (hd : IsDigits ds) (rest : List Char) :
    whole.length + 1 + ds.length ≤ unsignedLength (whole ++ '.' :: (ds ++ rest)) := by
  have hwhole : (whole ++ '.' :: (ds ++ rest)).takeWhile Char.isDigit = whole := by
    rw [List.takeWhile_append_of_pos hw, List.takeWhile_cons_of_neg (by decide), List.append_nil]
  have hlen := length_takeWhile_digits hd.2 rest
  have hpos := List.length_pos_iff.2 hd.1
  simp only [unsignedLength, hwhole, List.drop_left]
  rw [if_neg]
  · omega
  · intro he
    rw [List.isEmpty_iff_length_eq_zero] at he
    omega

/-- A pattern covers at least any of its words with which a text starts. -/
theorem le_length_of_matches {p : Pattern} {cs : List Char} (h : Matches p cs)
    (rest : List Char) : cs.length ≤ p.length (cs ++ rest) := by
  cases h with
  | blank _ hb =>
    rw [length, List.takeWhile_append_of_pos fun c hc => isBlank_iff.2 (hb c hc)]
    exact (List.prefix_append _ _).length_le
  | @comment cs hn =>
    have hp : commentMark.isPrefixOf (commentMark ++ cs ++ rest) = true :=
      List.isPrefixOf_iff_prefix.2 (List.append_assoc .. ▸ List.prefix_append _ _)
    have hw : ∀ c ∈ commentMark ++ cs, (c != '\n') = true := by
      intro c hc
      refine bne_iff_ne.2 ?_
      rintro rfl
      rcases List.mem_append.1 hc with hc | hc
      · exact newline_not_mem_commentMark hc
      · exact hn hc
    rw [length, if_pos hp, List.takeWhile_append_of_pos hw]
    exact (List.prefix_append _ _).length_le
  | @word kind s hs =>
    have hp : s.toList.isPrefixOf (s.toList ++ rest) = true :=
      List.isPrefixOf_iff_prefix.2 (List.prefix_append _ _)
    have hw : wordLength s.toList (s.toList ++ rest) = s.toList.length := by
      rw [wordLength, if_pos hp]
    cases kind <;> cases hs <;> exact Nat.le_of_eq hw.symm
  | @integer sign ds hs hd =>
    obtain ⟨c, ds', rfl⟩ := List.exists_cons_of_ne_nil hd.1
    rw [length, List.append_assoc, List.length_append]
    exact numberLength_sign hs (Nat.succ_pos _) (le_unsignedLength_integer hd.2 rest)
      ⟨c, ds' ++ rest, rfl, .inl (hd.2 c List.mem_cons_self)⟩
  | @decimal sign whole ds hs hw hd =>
    have hhead : ∃ c cs, whole ++ '.' :: (ds ++ rest) = c :: cs ∧ (c.isDigit = true ∨ c = '.') := by
      cases whole with
      | nil => exact ⟨_, _, rfl, .inr rfl⟩
      | cons c whole => exact ⟨_, _, rfl, .inl (hw c List.mem_cons_self)⟩
    have hn := numberLength_sign hs (by omega) (le_unsignedLength_decimal hw hd rest) hhead
    rw [length]
    simp only [List.append_assoc, List.cons_append, List.length_append, List.length_cons]
    omega
  | @string cs hcs =>
    have hbody : (cs ++ '"' :: rest).takeWhile (fun c => c != '"' && c != '\n') = cs := by
      rw [List.takeWhile_append_of_pos (by simpa using hcs), List.takeWhile_cons_of_neg (by decide),
        List.append_nil]
    simp only [length, stringLength, List.cons_append, List.append_assoc, List.nil_append, hbody,
      List.drop_left, List.length_cons, List.length_append]
    exact Nat.le_refl _
  | @name c cs hc hcs =>
    simp only [length, List.cons_append, nameLength, if_pos hc, List.takeWhile_append_of_pos hcs,
      List.length_cons, List.length_append]
    omega
  | operator hc =>
    simp only [length, List.cons_append, if_pos (isOperator_iff.2 hc)]
    exact Nat.le_refl _

theorem take_takeWhile (p : Char → Bool) (cs : List Char) :
    cs.take (cs.takeWhile p).length = cs.takeWhile p :=
  (List.prefix_iff_eq_take.1 (List.takeWhile_prefix p)).symm

theorem takeWhile_append_drop (p : Char → Bool) (cs : List Char) :
    cs.takeWhile p ++ cs.drop (cs.takeWhile p).length = cs := by
  have h := List.take_append_drop (cs.takeWhile p).length cs
  rwa [take_takeWhile] at h

theorem isDigit_of_mem_takeWhile {cs : List Char} :
    ∀ c ∈ cs.takeWhile Char.isDigit, c.isDigit = true :=
  List.all_eq_true.1 List.all_takeWhile

theorem exists_unsigned {cs : List Char} (h : 0 < unsignedLength cs) :
    ∃ w rest, cs = w ++ rest ∧ w.length = unsignedLength cs ∧
      (IsDigits w ∨ ∃ whole ds, w = whole ++ '.' :: ds ∧ (∀ c ∈ whole, c.isDigit = true) ∧
        IsDigits ds) := by
  have hsplit := (takeWhile_append_drop Char.isDigit cs).symm
  revert h
  fun_cases unsignedLength cs with
  | case1 whole rest hdrop fraction hempty =>
    intro h
    exact ⟨whole, _, hsplit, rfl, .inl ⟨List.length_pos_iff.1 h, isDigit_of_mem_takeWhile⟩⟩
  | case2 whole rest hdrop fraction hempty =>
    intro _
    refine ⟨whole ++ '.' :: fraction, rest.dropWhile Char.isDigit, ?_, ?_,
      .inr ⟨whole, fraction, rfl, isDigit_of_mem_takeWhile, ?_, isDigit_of_mem_takeWhile⟩⟩
    · rw [List.append_assoc, List.cons_append, List.takeWhile_append_dropWhile, ← hdrop]
      exact hsplit
    · rw [List.length_append, List.length_cons]
      omega
    · intro hnil
      rw [hnil] at hempty
      exact hempty rfl
  | case3 whole hdrop =>
    intro h
    exact ⟨whole, _, hsplit, rfl, .inl ⟨List.length_pos_iff.1 h, isDigit_of_mem_takeWhile⟩⟩

theorem exists_number {cs : List Char} (h : 0 < numberLength cs) :
    ∃ w rest, cs = w ++ rest ∧ w.length = numberLength cs ∧ Matches (.token .number) w := by
  have hsigned {sign ds : List Char} (hs : IsSign sign) (hn : 0 < unsignedLength ds) :
      ∃ w rest, sign ++ ds = w ++ rest ∧ w.length = unsignedLength ds + sign.length ∧
        Matches (.token .number) w := by
    obtain ⟨w, rest, hds, hlen, hw⟩ := exists_unsigned hn
    refine ⟨sign ++ w, rest, by rw [hds, List.append_assoc], ?_, ?_⟩
    · rw [List.length_append, hlen, Nat.add_comm]
    · rcases hw with hw | ⟨whole, ds, rfl, hwhole, hd⟩
      · exact .integer hs hw
      · exact .decimal hs hwhole hd
  revert h
  fun_cases numberLength cs with
  | case1 | case3 => intro h; exact absurd h (Nat.lt_irrefl 0)
  | case2 ds n hn =>
    intro _
    exact hsigned (.inr (.inl rfl)) (Nat.pos_of_ne_zero hn)
  | case4 ds n hn =>
    intro _
    exact hsigned (.inr (.inr rfl)) (Nat.pos_of_ne_zero hn)
  | case5 =>
    intro h
    exact hsigned (.inl rfl) h

theorem exists_string {cs : List Char} (h : 0 < stringLength cs) :
    ∃ w rest, cs = w ++ rest ∧ w.length = stringLength cs ∧ Matches (.token .string) w := by
  revert h
  fun_cases stringLength cs with
  | case1 cs body rest hdrop =>
    intro _
    have hcs : body ++ '"' :: rest = cs := by
      rw [← hdrop]
      exact takeWhile_append_drop _ cs
    refine ⟨'"' :: (body ++ ['"']), rest, ?_, by simp, .string fun c hc => ?_⟩
    · rw [List.cons_append, List.append_assoc, List.singleton_append, hcs]
    · simpa using List.all_eq_true.1 List.all_takeWhile c hc
  | case2 | case3 => intro h; cases h

theorem exists_word {word cs : List Char} (h : 0 < wordLength word cs) :
    ∃ rest, cs = word ++ rest ∧ word.length = wordLength word cs := by
  unfold wordLength at h ⊢
  split at h
  · rename_i hp
    obtain ⟨rest, rfl⟩ := List.isPrefixOf_iff_prefix.1 hp
    exact ⟨rest, rfl, (if_pos hp).symm⟩
  · cases h

theorem exists_comment {cs : List Char} (h : 0 < length .comment cs) :
    ∃ w rest, cs = w ++ rest ∧ w.length = length .comment cs ∧ Matches .comment w := by
  by_cases hp : commentMark.isPrefixOf cs = true
  · obtain ⟨body, rfl⟩ := List.isPrefixOf_iff_prefix.1 hp
    have hmark : ∀ c ∈ commentMark, (c != '\n') = true := by
      intro c hc
      exact bne_iff_ne.2 fun he => newline_not_mem_commentMark (he ▸ hc)
    refine ⟨commentMark ++ body.takeWhile (· != '\n'), body.dropWhile (· != '\n'), ?_, ?_,
      .comment fun hc => ?_⟩
    · rw [List.append_assoc, List.takeWhile_append_dropWhile]
    · rw [length, if_pos hp, List.takeWhile_append_of_pos hmark]
    · exact absurd (List.all_eq_true.1 List.all_takeWhile _ hc) (by decide)
  · rw [length, if_neg hp] at h
    cases h

theorem exists_name {cs : List Char} (h : 0 < nameLength cs) :
    ∃ w rest, cs = w ++ rest ∧ w.length = nameLength cs ∧ Matches (.token .identifier) w := by
  revert h
  fun_cases nameLength cs with
  | case1 c cs hc =>
    intro _
    refine ⟨c :: cs.takeWhile isNameRest, cs.dropWhile isNameRest, ?_, ?_,
      .name hc (List.all_eq_true.1 List.all_takeWhile)⟩
    · rw [List.cons_append, List.takeWhile_append_dropWhile]
    · rw [List.length_cons, Nat.add_comm]
  | case2 | case3 => intro h; cases h

theorem exists_operator {cs : List Char} (h : 0 < length (.token .operator) cs) :
    ∃ w rest, cs = w ++ rest ∧ w.length = length (.token .operator) cs ∧
      Matches (.token .operator) w := by
  cases cs with
  | nil => cases h
  | cons c cs =>
    by_cases hc : isOperator c = true
    · refine ⟨[c], cs, rfl, ?_, .operator (isOperator_iff.1 hc)⟩
      simp only [length, if_pos hc, List.length_singleton]
    · simp only [length, if_neg hc] at h
      cases h

/-- What a pattern covers of a text is one of its words. -/
theorem exists_matches {p : Pattern} {cs : List Char} (h : 0 < p.length cs) :
    ∃ w rest, cs = w ++ rest ∧ w.length = p.length cs ∧ Matches p w := by
  cases p with
  | blank =>
    refine ⟨_, _, List.takeWhile_append_dropWhile.symm, rfl, .blank (List.length_pos_iff.1 h) ?_⟩
    exact fun c hc => isBlank_iff.1 (List.all_eq_true.1 List.all_takeWhile c hc)
  | comment => exact exists_comment h
  | token kind =>
    have hword {s : String} (hs : kind.spelling? = some s)
        (hl : length (.token kind) cs = wordLength s.toList cs) :
        ∃ w rest, cs = w ++ rest ∧ w.length = length (.token kind) cs ∧
          Matches (.token kind) w := by
      rw [hl] at h ⊢
      obtain ⟨rest, hcs, hlen⟩ := exists_word h
      exact ⟨_, rest, hcs, hlen, .word hs⟩
    cases kind with
    | number => exact exists_number h
    | string => exact exists_string h
    | identifier => exact exists_name h
    | operator => exact exists_operator h
    | _ => exact hword rfl rfl

theorem mem_all_of_ne {p : Pattern} (h : p ≠ .token .identifier) : p ∈ all := by
  cases p with
  | blank | comment => simp [all]
  | token kind =>
    have hk : kind ≠ .identifier := fun he => h (he ▸ rfl)
    simpa [all, hk] using Kind.mem_all kind

/-- The words that are spelled out, with their patterns. -/
def fixed : List (Pattern × List Char) :=
  (Kind.all.filterMap fun k => k.spelling?.map fun s => (.token k, s.toList)) ++
    ['+', '-', '*', '/'].map fun c => (.token .operator, [c])

/-- No other pattern but that of identifiers covers a word that is spelled out. -/
theorem length_lt_of_mem_fixed {p q : Pattern} {cs : List Char} (h : (p, cs) ∈ fixed)
    (hq : q ≠ .token .identifier) (hne : q ≠ p) : q.length cs < cs.length := by
  have hall : (fixed.all fun (p, cs) =>
      all.all fun q => q == p || q.length cs < cs.length) = true := by
    decide +kernel
  have hword := List.all_eq_true.1 hall _ h
  have hboth := List.all_eq_true.1 hword q (mem_all_of_ne hq)
  simpa [hne] using hboth

/-- The pattern of a word that is neither spelled out nor an identifier. -/
def ofHead (c : Char) : Pattern :=
  if c.isDigit || c ∈ ['+', '-', '.'] then .token .number
  else match c with
    | 'c' => .comment
    | '"' => .token .string
    | _ => .blank

theorem ofHead_number {c : Char} (h : c.isDigit = true ∨ c ∈ ['+', '-', '.']) :
    ofHead c = .token .number := if_pos (by simpa using h)

end Pattern

namespace Matches

variable {p q : Pattern} {cs : List Char}

theorem fixed_or_head (h : Matches p cs) :
    p = .token .identifier ∨ (p, cs) ∈ Pattern.fixed ∨ cs.head?.map Pattern.ofHead = some p := by
  have hsigned {sign ds : List Char} {c : Char} (hs : IsSign sign)
      (hc : c.isDigit = true ∨ c ∈ ['+', '-', '.']) :
      (sign ++ c :: ds).head?.map Pattern.ofHead = some (.token .number) := by
    rcases hs with rfl | rfl | rfl
    · exact congrArg some (Pattern.ofHead_number hc)
    · rfl
    · rfl
  cases h with
  | blank hne hb =>
    obtain ⟨c, cs, rfl⟩ := List.exists_cons_of_ne_nil hne
    have hc := hb c List.mem_cons_self
    simp only [List.mem_cons, List.not_mem_nil, or_false] at hc
    rcases hc with rfl | rfl | rfl | rfl | rfl <;> exact .inr (.inr rfl)
  | comment => exact .inr (.inr rfl)
  | @word kind s hs =>
    refine .inr (.inl (List.mem_append_left _ (List.mem_filterMap.2 ⟨kind, Kind.mem_all kind, ?_⟩)))
    rw [hs]
    rfl
  | integer hs hd =>
    obtain ⟨c, ds, rfl⟩ := List.exists_cons_of_ne_nil hd.1
    exact .inr (.inr (hsigned hs (.inl (hd.2 c List.mem_cons_self))))
  | @decimal sign whole ds hs hw hd =>
    cases whole with
    | nil => exact .inr (.inr (hsigned hs (.inr (by simp))))
    | cons c whole => exact .inr (.inr (hsigned hs (.inl (hw c List.mem_cons_self))))
  | string => exact .inr (.inr rfl)
  | name => exact .inl rfl
  | operator hc => exact .inr (.inl (List.mem_append_right _ (List.mem_map_of_mem hc)))

theorem ne_nil (h : Matches p cs) : cs ≠ [] := by
  cases h with
  | blank hne _ => exact hne
  | comment => nofun
  | @word kind s hs => cases kind <;> cases hs <;> decide
  | integer _ hd => exact fun hnil => hd.1 (List.append_eq_nil_iff.1 hnil).2
  | decimal => simp
  | string | name | operator => nofun

/-- Of two patterns with a word in common, one is that of identifiers. -/
theorem unique (hp : Matches p cs) (hq : Matches q cs) (hpi : p ≠ .token .identifier)
    (hqi : q ≠ .token .identifier) : p = q := by
  have hcovers {r : Pattern} (hr : Matches r cs) : cs.length ≤ r.length cs := by
    simpa using Pattern.le_length_of_matches hr []
  refine Decidable.byContradiction fun hne => ?_
  rcases hp.fixed_or_head with hi | hf | hp'
  · exact hpi hi
  · exact absurd (Pattern.length_lt_of_mem_fixed hf hqi (Ne.symm hne)) (Nat.not_lt.2 (hcovers hq))
  · rcases hq.fixed_or_head with hi | hf | hq'
    · exact hqi hi
    · exact absurd (Pattern.length_lt_of_mem_fixed hf hpi hne) (Nat.not_lt.2 (hcovers hp))
    · exact hne (Option.some.inj (hp'.symm.trans hq'))

end Matches

/-! ## The longest word of any pattern -/

/-- Of a text that is `cs` and then `rest`, the first piece is `cs`, taken by the pattern `p`: no
pattern covers more, and no other but that of identifiers covers as much. -/
structure Longest (p : Pattern) (cs rest : List Char) : Prop where
  matched : Matches p cs
  maximal : ∀ q ds, Matches q ds → ds <+: cs ++ rest → ds.length ≤ cs.length
  preferred : ∀ q, Matches q cs → q = p ∨ q = .token .identifier

/-- No pattern covers a start of the text. -/
def Uncovered (cs : List Char) : Prop := ∀ p ds, Matches p ds → ¬ ds <+: cs

namespace Pattern

theorem longestOf_length {cs : List Char} {ps : List Pattern} {p : Pattern} {n : Nat}
    (h : longestOf cs ps = some (p, n)) : n = p.length cs := by
  induction ps generalizing p n with
  | nil => cases h
  | cons q qs ih =>
    unfold longestOf at h
    split at h
    · rename_i r m hr
      split at h
      · cases h
        rfl
      · cases h
        exact ih hr
    · split at h
      · cases h
        rfl
      · cases h

theorem longestOf_eq_none {cs : List Char} {ps : List Pattern} (h : longestOf cs ps = none) :
    ∀ p ∈ ps, p.length cs = 0 := by
  induction ps with
  | nil => simp
  | cons p ps ih =>
    unfold longestOf at h
    split at h
    · split at h <;> cases h
    · rename_i hps
      split at h
      · cases h
      · exact List.forall_mem_cons.2 ⟨by omega, ih hps⟩

theorem le_of_longestOf {cs : List Char} {ps : List Pattern} {p : Pattern} {n : Nat}
    (h : longestOf cs ps = some (p, n)) : ∀ q ∈ ps, q.length cs ≤ n := by
  induction ps generalizing p n with
  | nil => simp
  | cons q qs ih =>
    unfold longestOf at h
    split at h
    · rename_i r m hr
      have hle := ih hr
      split at h <;> cases h
      · exact List.forall_mem_cons.2 ⟨Nat.le_refl _, fun s hs => by have := hle s hs; omega⟩
      · exact List.forall_mem_cons.2 ⟨by omega, hle⟩
    · rename_i hqs
      have hzero := longestOf_eq_none hqs
      split at h <;> cases h
      exact List.forall_mem_cons.2 ⟨Nat.le_refl _, fun s hs => by have := hzero s hs; omega⟩

/-- The last pattern is taken only if it covers more than all before it. -/
theorem lt_of_longestOf_concat {cs : List Char} {ps : List Pattern} {last : Pattern} {n : Nat}
    (hl : last ∉ ps) (h : longestOf cs (ps ++ [last]) = some (last, n)) :
    ∀ q ∈ ps, q.length cs < n := by
  induction ps generalizing n with
  | nil => simp
  | cons q qs ih =>
    rw [List.mem_cons, not_or] at hl
    rw [List.cons_append] at h
    unfold longestOf at h
    split at h
    · rename_i r m hr
      split at h <;> cases h
      · exact absurd rfl hl.1
      · exact List.forall_mem_cons.2 ⟨by omega, ih hl.2 hr⟩
    · split at h <;> cases h
      exact absurd rfl hl.1

theorem mem_candidates (p : Pattern) : p ∈ all ++ [.token .identifier] := by
  by_cases h : p = .token .identifier
  · simp [h]
  · exact List.mem_append_left _ (mem_all_of_ne h)

theorem longest_eq_none_iff {cs : List Char} : longest cs = none ↔ Uncovered cs := by
  constructor
  · rintro h p ds hp ⟨rest, rfl⟩
    have hzero := longestOf_eq_none h p (mem_candidates p)
    have hle := le_length_of_matches hp rest
    exact hp.ne_nil (List.length_eq_zero_iff.1 (by omega))
  · intro h
    cases hl : longest cs with
    | none => rfl
    | some found =>
      obtain ⟨p, n⟩ := found
      have hpos := longest_pos hl
      rw [longestOf_length hl] at hpos
      obtain ⟨w, rest, rfl, _, hw⟩ := exists_matches hpos
      exact absurd (List.prefix_append w rest) (h p w hw)

theorem exists_longest {cs : List Char} {p : Pattern} {n : Nat} (h : longest cs = some (p, n)) :
    ∃ w rest, cs = w ++ rest ∧ w.length = n ∧ Longest p w rest := by
  have hn := longestOf_length h
  have hpos := longest_pos h
  rw [hn] at hpos
  obtain ⟨w, rest, rfl, hlen, hw⟩ := exists_matches hpos
  refine ⟨w, rest, rfl, hlen.trans hn.symm, hw, ?_, ?_⟩
  · rintro q ds hq ⟨tail, htail⟩
    have hle := le_length_of_matches hq tail
    rw [htail] at hle
    have hmax := le_of_longestOf h q (mem_candidates q)
    omega
  · intro q hq
    by_cases hqi : q = .token .identifier
    · exact .inr hqi
    · refine .inl ?_
      by_cases hpi : p = .token .identifier
      · subst hpi
        have hlt := lt_of_longestOf_concat (by decide) h q (mem_all_of_ne hqi)
        have hle := le_length_of_matches hq rest
        omega
      · exact hq.unique hw hqi hpi

/-- The first piece of a text is the longest word it starts with. -/
theorem longest_eq_some_iff {cs rest : List Char} {p : Pattern} :
    longest (cs ++ rest) = some (p, cs.length) ↔ Longest p cs rest := by
  constructor
  · intro h
    obtain ⟨w, tail, htext, hlen, hw⟩ := exists_longest h
    obtain ⟨rfl, rfl⟩ := List.append_inj htext hlen.symm
    exact hw
  · intro h
    cases hl : longest (cs ++ rest) with
    | none => exact absurd (List.prefix_append cs rest) (longest_eq_none_iff.1 hl p cs h.matched)
    | some found =>
      obtain ⟨q, n⟩ := found
      obtain ⟨w, tail, htext, rfl, hw⟩ := exists_longest hl
      have hle := h.maximal q w hw.matched (htext ▸ List.prefix_append w tail)
      have hge := hw.maximal p cs h.matched (htext ▸ List.prefix_append cs rest)
      obtain ⟨rfl, rfl⟩ := List.append_inj htext (Nat.le_antisymm hge hle)
      -- each of the two is the other or the identifier, so they are the same
      rcases h.preferred q hw.matched with rfl | hq
      · rfl
      · rcases hw.preferred p h.matched with rfl | hp
        · rfl
        · rw [hp, hq]

end Pattern

/-! ## Cutting a text -/

/-- The pieces taken from a text one after the other, and the rest that no pattern covers. -/
inductive Munch : List Char → List Piece → List Char → Prop
  | stop {cs : List Char} : Uncovered cs → Munch cs [] cs
  | step {p : Pattern} {cs later rest : List Char} {pieces : List Piece} :
    Longest p cs later → Munch later pieces rest → Munch (cs ++ later) (⟨p, cs⟩ :: pieces) rest

theorem cut_of_none {cs : List Char} (h : Pattern.longest cs = none) : cut cs = ([], cs) := by
  fun_cases cut cs with
  | case1 => rfl
  | case2 p n hs => exact absurd (h.symm.trans hs) nofun

theorem cut_of_some {cs : List Char} {p : Pattern} {n : Nat}
    (h : Pattern.longest cs = some (p, n)) :
    cut cs = (⟨p, cs.take n⟩ :: (cut (cs.drop n)).1, (cut (cs.drop n)).2) := by
  fun_cases cut cs with
  | case1 hn => exact absurd (hn.symm.trans h) nofun
  | case2 q m hs pieces rest hcut =>
    obtain ⟨rfl, rfl⟩ := Prod.mk.inj (Option.some.inj (hs.symm.trans h))
    rw [hcut]

theorem cut_of_longest {p : Pattern} {cs rest : List Char} (h : Longest p cs rest) :
    cut (cs ++ rest) = (⟨p, cs⟩ :: (cut rest).1, (cut rest).2) := by
  rw [cut_of_some (Pattern.longest_eq_some_iff.2 h), List.take_left, List.drop_left]

theorem munch_cut (cs : List Char) : Munch cs (cut cs).1 (cut cs).2 := by
  fun_induction cut cs with
  | case1 cs hn => exact .stop (Pattern.longest_eq_none_iff.1 hn)
  | case2 cs p n hs pieces rest hcut ih =>
    obtain ⟨w, later, rfl, rfl, hw⟩ := Pattern.exists_longest hs
    rw [List.drop_left] at ih hcut
    rw [List.take_left]
    rw [hcut] at ih
    exact .step hw ih

theorem Munch.matches_of_mem {cs rest : List Char} {pieces : List Piece}
    (h : Munch cs pieces rest) : ∀ piece ∈ pieces, Matches piece.pattern piece.text := by
  induction h with
  | stop => simp
  | step hl _ ih => exact List.forall_mem_cons.2 ⟨hl.matched, ih⟩

theorem Munch.flatMap_text {cs rest : List Char} {pieces : List Piece}
    (h : Munch cs pieces rest) : pieces.flatMap (·.text) ++ rest = cs := by
  induction h with
  | stop => rfl
  | step _ _ ih => rw [List.flatMap_cons, List.append_assoc, ih]

theorem Munch.uncovered {cs rest : List Char} {pieces : List Piece} (h : Munch cs pieces rest) :
    Uncovered rest := by
  induction h with
  | stop hu => exact hu
  | step _ _ ih => exact ih

/-- A text is cut by taking the longest piece again and again. -/
theorem munch_iff {cs rest : List Char} {pieces : List Piece} :
    Munch cs pieces rest ↔ cut cs = (pieces, rest) := by
  constructor
  · intro h
    induction h with
    | stop hu => exact cut_of_none (Pattern.longest_eq_none_iff.2 hu)
    | step hl _ ih => rw [cut_of_longest hl, ih]
  · intro h
    have hm := munch_cut cs
    rwa [h] at hm

end FuzzLang.Token
