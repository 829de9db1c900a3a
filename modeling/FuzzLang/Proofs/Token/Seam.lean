import FuzzLang.Proofs.Token.Reading

/-!
# Texts joined by blanks

A piece that ends before a blank or a mark does not depend on what stands after it: no word but
those of blanks, comments and strings goes on with one (`Matches.isBreak_eq_false`), and a piece of
these ends by its own rule (`Longest.before_break`). So the tokens of two lines are those of the
first and then those of the second (`readFrom_newline`), whether the second can be read or not
(`tokenize_lineLocal`), and blanks and comments between two pieces change no token but its place
(`relocated_readFrom_insert`).
-/

namespace FuzzLang.Token

/-! ## Words with a blank or a mark in them -/

/-- Punctuation that is a word by itself. The colon is not among it, for a comment begins with a
word that ends in one. -/
def isMark (c : Char) : Bool :=
  c ∈ ['(', ')', '[', ']', '\x7b', '\x7d', ';', ',', '=']

/-- Whether a character ends the word before it, unless that is blank, a comment or a string. -/
def isBreak (c : Char) : Bool := isBlank c || isMark c

theorem isBreak_iff {c : Char} :
    isBreak c = true ↔ c ∈ [' ', '\t', '\r', '\n', '\x0c', '(', ')', '[', ']', '\x7b', '\x7d', ';',
      ',', '='] := by
  simp [isBreak, isBlank, isMark, or_assoc]

theorem isBreak_of_isBlank {c : Char} (h : isBlank c = true) : isBreak c = true := by
  rw [isBreak, h, Bool.true_or]

theorem isBreak_of_isMark {c : Char} (h : isMark c = true) : isBreak c = true := by
  rw [isBreak, h, Bool.or_true]

theorem isBlank_eq_false_of_isMark {c : Char} (h : isMark c = true) : isBlank c = false := by
  have hc := of_decide_eq_true h
  simp only [List.mem_cons, List.not_mem_nil, or_false] at hc
  rcases hc with rfl | rfl | rfl | rfl | rfl | rfl | rfl | rfl | rfl <;> rfl

theorem isBreak_eq_false_of_isNameRest {c : Char} (h : isNameRest c = true) :
    isBreak c = false := by
  refine Bool.eq_false_iff.2 fun hb => ?_
  have hc := isBreak_iff.1 hb
  simp only [List.mem_cons, List.not_mem_nil, or_false] at hc
  rcases hc with rfl | rfl | rfl | rfl | rfl | rfl | rfl | rfl | rfl | rfl | rfl | rfl | rfl | rfl
  all_goals cases h

theorem isBreak_eq_false_of_isDigit {c : Char} (h : c.isDigit = true) : isBreak c = false :=
  isBreak_eq_false_of_isNameRest (by rw [isNameRest, h, Bool.or_true])

theorem isBreak_eq_false_of_mem_sign {sign : List Char} (h : IsSign sign) :
    ∀ c ∈ sign, isBreak c = false := by
  rcases h with rfl | rfl | rfl <;> simp [isBreak, isBlank, isMark]

theorem isBreak_eq_false_of_mem_commentMark : ∀ c ∈ commentMark, isBreak c = false := by
  intro c hc
  have hall : commentMark.all (fun c => !isBreak c) = true := rfl
  simpa using List.all_eq_true.1 hall c hc

namespace Matches

variable {p : Pattern} {cs : List Char}

/-- A word other than blanks, comments and strings has no break in it, or is just a mark. -/
theorem isBreak_eq_false (h : Matches p cs) (hblank : p ≠ .blank) (hcomment : p ≠ .comment)
    (hstring : p ≠ .token .string) :
    (∀ c ∈ cs, isBreak c = false) ∨ ∃ c, cs = [c] ∧ isMark c = true := by
  cases h with
  | blank => exact absurd rfl hblank
  | comment => exact absurd rfl hcomment
  | @word kind s hs =>
    have hall (h : s.toList.all (fun c => !isBreak c) = true) :
        ∀ c ∈ s.toList, isBreak c = false := by
      intro c hc
      simpa using List.all_eq_true.1 h c hc
    cases kind with
    | number | string | identifier | operator => cases hs
    | declare | print | function | result | loop | arrow | colon =>
      cases hs
      exact .inl (hall rfl)
    | equals | leftBrace | rightBrace | leftBracket | rightBracket | leftParen | rightParen
    | semicolon | comma =>
      cases hs
      exact .inr ⟨_, rfl, rfl⟩
  | integer hs hd =>
    refine .inl fun c hc => ?_
    rcases List.mem_append.1 hc with hc | hc
    · exact isBreak_eq_false_of_mem_sign hs c hc
    · exact isBreak_eq_false_of_isDigit (hd.2 c hc)
  | decimal hs hw hd =>
    refine .inl fun c hc => ?_
    rcases List.mem_append.1 hc with hc | hc
    · exact isBreak_eq_false_of_mem_sign hs c hc
    · rcases List.mem_append.1 hc with hc | hc
      · exact isBreak_eq_false_of_isDigit (hw c hc)
      · rcases List.mem_cons.1 hc with rfl | hc
        · rfl
        · exact isBreak_eq_false_of_isDigit (hd.2 c hc)
  | string => exact absurd rfl hstring
  | name hstart hrest =>
    refine .inl (List.forall_mem_cons.2 ⟨isBreak_eq_false_of_isNameRest ?_, fun d hd =>
      isBreak_eq_false_of_isNameRest (hrest d hd)⟩)
    rw [isNameRest, hstart, Bool.true_or]
  | operator ho =>
    refine .inl fun c hc => ?_
    rw [List.mem_singleton.1 hc]
    simp only [List.mem_cons, List.not_mem_nil, or_false] at ho
    rcases ho with rfl | rfl | rfl | rfl <;> rfl

theorem isBlank_eq_false (h : Matches p cs) (hblank : p ≠ .blank) (hcomment : p ≠ .comment)
    (hstring : p ≠ .token .string) : ∀ c ∈ cs, isBlank c = false := by
  intro c hc
  rcases h.isBreak_eq_false hblank hcomment hstring with hno | ⟨m, rfl, hm⟩
  · exact (Bool.or_eq_false_iff.1 (hno c hc)).1
  · rw [List.mem_singleton.1 hc]
    exact isBlank_eq_false_of_isMark hm

theorem eq_string (h : Matches (.token .string) cs) :
    ∃ body, cs = '"' :: (body ++ ['"']) ∧ ∀ c ∈ body, c ≠ '"' ∧ c ≠ '\n' := by
  cases h with
  | word hs => cases hs
  | string hbody => exact ⟨_, rfl, hbody⟩

theorem eq_comment (h : Matches .comment cs) : ∃ body, cs = commentMark ++ body ∧ '\n' ∉ body := by
  cases h with
  | comment hbody => exact ⟨_, rfl, hbody⟩

theorem blank_iff : Matches .blank cs ↔ cs ≠ [] ∧ ∀ c ∈ cs, isBlank c = true := by
  constructor
  · intro h
    cases h with
    | blank hne hb => exact ⟨hne, fun c hc => isBlank_iff.2 (hb c hc)⟩
  · rintro ⟨hne, hb⟩
    exact .blank hne fun c hc => isBlank_iff.1 (hb c hc)

/-- A word that begins with a blank is blank. -/
theorem eq_blank {c : Char} (h : Matches p (c :: cs)) (hc : isBlank c = true) : p = .blank := by
  refine Decidable.byContradiction fun hblank => ?_
  by_cases hcomment : p = .comment
  · subst hcomment
    obtain ⟨body, hbody, _⟩ := h.eq_comment
    cases hbody
    cases hc
  · by_cases hstring : p = .token .string
    · subst hstring
      obtain ⟨body, hbody, _⟩ := h.eq_string
      cases hbody
      cases hc
    · have hno := h.isBlank_eq_false hblank hcomment hstring c List.mem_cons_self
      rw [hc] at hno
      cases hno

/-- A word that begins with a quote is a string literal. -/
theorem eq_string_of_head (h : Matches p ('"' :: cs)) : p = .token .string := by
  rcases h.fixed_or_head with rfl | hf | hh
  · generalize hds : '"' :: cs = ds at h
    cases h with
    | word hs => cases hs
    | name hstart =>
      cases hds
      cases hstart
  · have hall : (Pattern.fixed.all fun w => w.2.head? != some '"') = true := by decide
    exact absurd rfl (bne_iff_ne.1 (List.all_eq_true.1 hall _ hf))
  · exact (Option.some.inj hh).symm

/-- What a word that goes on with a break is up to there: blank or a comment as well, or the start
of a string that goes on. -/
theorem before_break {c : Char} {ds : List Char} (h : Matches p (cs ++ c :: ds))
    (hc : isBreak c = true) (hne : cs ≠ []) :
    Matches .blank cs ∨ Matches .comment cs ∧ c ≠ '\n' ∨
      c ≠ '\n' ∧ ∃ body, cs = '"' :: body ∧ '"' ∉ body := by
  have hmem : c ∈ cs ++ c :: ds := by simp
  by_cases hblank : p = .blank
  · subst hblank
    exact .inl (blank_iff.2 ⟨hne, fun d hd => (blank_iff.1 h).2 d (List.mem_append_left _ hd)⟩)
  by_cases hcomment : p = .comment
  · subst hcomment
    refine .inr (.inl ?_)
    obtain ⟨body, hbody, hline⟩ := h.eq_comment
    rcases List.append_eq_append_iff.1 hbody with ⟨more, hmark, hmore⟩ | ⟨more, hcs, hmore⟩
    · cases more with
      | nil =>
        rw [List.append_nil] at hmark
        refine ⟨?_, ?_⟩
        · rw [← hmark, ← List.append_nil commentMark]
          exact .comment List.not_mem_nil
        · rintro rfl
          exact hline (List.nil_append body ▸ hmore ▸ List.mem_cons_self)
      | cons d more =>
        cases hmore
        have hno := isBreak_eq_false_of_mem_commentMark c (by rw [hmark]; simp)
        rw [hc] at hno
        cases hno
    · rw [hmore] at hline
      refine ⟨?_, ?_⟩
      · rw [hcs]
        exact .comment fun hn => hline (List.mem_append_left _ hn)
      · rintro rfl
        exact hline (by simp)
  by_cases hstring : p = .token .string
  · subst hstring
    refine .inr (.inr ?_)
    obtain ⟨body, hbody, hline⟩ := h.eq_string
    obtain ⟨d, cs, rfl⟩ := List.exists_cons_of_ne_nil hne
    obtain ⟨rfl, hrest⟩ := List.cons.inj hbody
    rcases List.append_eq_append_iff.1 hrest with ⟨more, hcs, hmore⟩ | ⟨more, hcs, hmore⟩
    · cases more with
      | nil =>
        cases hmore
        cases hc
      | cons e more =>
        obtain ⟨rfl, _⟩ := List.cons.inj hmore
        rw [hcs] at hline
        refine ⟨(hline c (by simp)).2, cs, rfl, fun hq => ?_⟩
        exact (hline _ (List.mem_append_left _ hq)).1 rfl
    · cases more with
      | nil =>
        cases hmore
        cases hc
      | cons e more =>
        have hlength := congrArg List.length hmore
        simp at hlength
  · rcases h.isBreak_eq_false hblank hcomment hstring with hno | ⟨m, hword, _⟩
    · rw [hno c hmem] at hc
      cases hc
    · -- a mark has nothing before it
      obtain ⟨d, cs, rfl⟩ := List.exists_cons_of_ne_nil hne
      simp at hword

end Matches

/-! ## Pieces before a break -/

theorem prefix_cons_cases {cs ds w : List Char} {c : Char} (h : w <+: cs ++ c :: ds) :
    w <+: cs ∨ ∃ more, w = cs ++ c :: more := by
  obtain ⟨rest, hrest⟩ := h
  rcases List.append_eq_append_iff.1 hrest with ⟨more, hcs, _⟩ | ⟨more, hw, hmore⟩
  · exact .inl ⟨more, hcs.symm⟩
  · cases more with
    | nil => exact .inl ⟨[], by rw [hw, List.append_nil, List.append_nil]⟩
    | cons d more =>
      obtain ⟨rfl, _⟩ := List.cons.inj hmore
      exact .inr ⟨more, hw⟩

/-- A piece stays as it is if a break is put after it, at once or later. Only a piece of blanks and
a comment can grow by a break right after them. -/
theorem Longest.before_break {p : Pattern} {cs mid rest : List Char} {c : Char}
    (h : Longest p cs (mid ++ rest)) (hc : isBreak c = true) :
    (∀ later, Longest p cs (mid ++ c :: later)) ∨
      mid = [] ∧ (p = .blank ∨ p = .comment ∧ c ≠ '\n') := by
  have hmid {q : Pattern} (hq : Matches q (cs ++ mid)) (hqi : q ≠ .token .identifier) :
      mid = [] ∧ p = q := by
    have hle := h.maximal q _ hq (List.append_assoc .. ▸ List.prefix_append _ rest)
    obtain rfl : mid = [] := by
      rw [List.length_append] at hle
      exact List.length_eq_zero_iff.1 (by omega)
    rw [List.append_nil] at hq
    exact ⟨rfl, ((h.preferred q hq).resolve_right hqi).symm⟩
  refine Decidable.or_iff_not_imp_right.2 fun hno later => ⟨h.matched, ?_, h.preferred⟩
  intro q w hw hpre
  rw [← List.append_assoc] at hpre
  rcases prefix_cons_cases hpre with hpre | ⟨more, rfl⟩
  · exact h.maximal q w hw (hpre.trans (List.append_assoc .. ▸ List.prefix_append _ rest))
  · refine absurd ?_ hno
    have hne : cs ++ mid ≠ [] := by simp [h.matched.ne_nil]
    rcases hw.before_break hc hne with hb | ⟨hcomment, hn⟩ | ⟨_, body, hbody, hquote⟩
    · obtain ⟨hmid, hp⟩ := hmid hb nofun
      exact ⟨hmid, .inl hp⟩
    · obtain ⟨hmid, hp⟩ := hmid hcomment nofun
      exact ⟨hmid, .inr ⟨hp, hn⟩⟩
    · -- the piece opens with a quote, so it is a string that ends within the body
      obtain ⟨d, ds, rfl⟩ := List.exists_cons_of_ne_nil h.matched.ne_nil
      obtain ⟨rfl, rfl⟩ := List.cons.inj hbody
      obtain ⟨inner, hinner, _⟩ := (h.matched.eq_string_of_head ▸ h.matched).eq_string
      rw [(List.cons.inj hinner).2] at hquote
      simp at hquote

theorem Uncovered.before_newline {c : Char} {cs : List Char} (h : Uncovered (c :: cs))
    (later : List Char) : Uncovered (c :: cs ++ '\n' :: later) := by
  intro p w hw hpre
  rcases prefix_cons_cases hpre with hpre | ⟨more, rfl⟩
  · exact h p w hw hpre
  · rcases hw.before_break rfl nofun with hb | ⟨_, hn⟩ | ⟨hn, _⟩
    · exact h _ _ hb (List.prefix_refl _)
    · exact hn rfl
    · exact hn rfl

/-- A comment goes to the end of its line. -/
theorem Longest.comment_end {cs rest : List Char} (h : Longest .comment cs rest) :
    ∀ c ∈ rest.head?, c = '\n' := by
  intro c hc
  obtain ⟨body, rfl, hbody⟩ := h.matched.eq_comment
  obtain ⟨later, rfl⟩ := List.head?_eq_some_iff.1 hc
  refine Decidable.byContradiction fun hne => ?_
  have hlonger : Matches .comment (commentMark ++ (body ++ [c])) := by
    refine .comment fun hmem => ?_
    rcases List.mem_append.1 hmem with hmem | hmem
    · exact hbody hmem
    · exact hne (List.mem_singleton.1 hmem).symm
  have hle := h.maximal _ _ hlonger ⟨later, by simp⟩
  simp only [List.length_append, List.length_singleton] at hle
  omega

theorem longest_blank {cs rest : List Char} (hne : cs ≠ []) (hb : ∀ c ∈ cs, isBlank c = true)
    (hr : ∀ c ∈ rest.head?, isBlank c = false) : Longest .blank cs rest := by
  have hhead {q : Pattern} {w : List Char} (hw : Matches q w) (hpre : w <+: cs ++ rest) :
      q = .blank := by
    obtain ⟨c, cs, rfl⟩ := List.exists_cons_of_ne_nil hne
    obtain ⟨d, w, rfl⟩ := List.exists_cons_of_ne_nil hw.ne_nil
    obtain ⟨more, hmore⟩ := hpre
    obtain ⟨rfl, _⟩ := List.cons.inj hmore
    exact hw.eq_blank (hb _ List.mem_cons_self)
  refine ⟨Matches.blank_iff.2 ⟨hne, hb⟩, ?_, fun q hq => .inl (hhead hq (List.prefix_append _ _))⟩
  intro q w hw hpre
  obtain rfl := hhead hw hpre
  cases rest with
  | nil => simpa using hpre.length_le
  | cons c rest =>
    rcases prefix_cons_cases hpre with hpre | ⟨more, rfl⟩
    · exact hpre.length_le
    · have hno := hr c rfl
      rw [(Matches.blank_iff.1 hw).2 c (by simp)] at hno
      cases hno

theorem longest_comment {body : List Char} (hbody : '\n' ∉ body) (rest : List Char) :
    Longest .comment (commentMark ++ body) ('\n' :: rest) := by
  have hcomment : Matches .comment (commentMark ++ body) := .comment hbody
  refine ⟨hcomment, ?_, ?_⟩
  · intro q w hw hpre
    rcases prefix_cons_cases hpre with hpre | ⟨more, rfl⟩
    · exact hpre.length_le
    · rcases hw.before_break rfl hcomment.ne_nil with hb | ⟨_, hn⟩ | ⟨hn, _⟩
      · exact absurd (hcomment.unique hb nofun nofun) nofun
      · exact absurd rfl hn
      · exact absurd rfl hn
  · intro q hq
    by_cases hqi : q = .token .identifier
    · exact .inr hqi
    · exact .inl (hq.unique hcomment hqi nofun)

/-! ## Blanks and comments in front -/

/-- Where a piece of blanks is passed over, its blanks are passed over one by one. -/
theorem pass_blank {β : Type} {f : List Char → List Char → β}
    (hpass : ∀ before cs rest, Longest .blank cs rest →
      f before (cs ++ rest) = f (before ++ cs) rest)
    (before : List Char) {c : Char} (hc : isBlank c = true) (cs : List Char) :
    f before (c :: cs) = f (before ++ [c]) cs := by
  have hblanks : ∀ d ∈ cs.takeWhile isBlank, isBlank d = true :=
    List.all_eq_true.1 List.all_takeWhile
  have hrest : ∀ d ∈ (cs.dropWhile isBlank).head?, isBlank d = false := by
    intro d hd
    have hhead := List.head?_dropWhile_not isBlank cs
    rw [Option.mem_def.1 hd] at hhead
    simpa using hhead
  have hskip (before : List Char) {ds : List Char} (hne : ds ≠ [])
      (hb : ∀ d ∈ ds, isBlank d = true) :
      f before (ds ++ cs.dropWhile isBlank) = f (before ++ ds) (cs.dropWhile isBlank) :=
    hpass before _ _ (longest_blank hne hb hrest)
  have hfirst := hskip before (List.cons_ne_nil c _) (List.forall_mem_cons.2 ⟨hc, hblanks⟩)
  rw [List.cons_append, List.takeWhile_append_dropWhile] at hfirst
  by_cases hnil : cs.takeWhile isBlank = []
  · have hcs := List.takeWhile_append_dropWhile (p := isBlank) (l := cs)
    rw [hnil, List.nil_append] at hcs
    rw [hnil, hcs] at hfirst
    exact hfirst
  · have hlater := hskip (before ++ [c]) hnil hblanks
    rw [List.takeWhile_append_dropWhile, List.append_assoc, List.singleton_append] at hlater
    rw [hfirst, hlater]

theorem readFrom_blank (before : List Char) {c : Char} (hc : isBlank c = true) (cs : List Char) :
    readFrom before (c :: cs) = readFrom (before ++ [c]) cs :=
  pass_blank (fun before _ _ h => readFrom_skip before h (.inl rfl)) before hc cs

/-- Blanks and whole lines of comments. -/
inductive Gap : List Char → Prop
  | nil : Gap []
  | blank {c : Char} {cs : List Char} :
    c ∈ [' ', '\t', '\r', '\n', '\x0c'] → Gap cs → Gap (c :: cs)
  | comment {body cs : List Char} :
    '\n' ∉ body → Gap cs → Gap (commentMark ++ (body ++ '\n' :: cs))

/-- A gap that begins with a blank, which ends the piece before it. -/
def Spacing (cs : List Char) : Prop :=
  ∃ c later, cs = c :: later ∧ c ∈ [' ', '\t', '\r', '\n', '\x0c'] ∧ Gap later

theorem Spacing.gap {cs : List Char} (h : Spacing cs) : Gap cs := by
  obtain ⟨c, later, rfl, hc, hg⟩ := h
  exact .blank hc hg

theorem Matches.gap {cs : List Char} (h : Matches .blank cs) : Gap cs := by
  have hb := (blank_iff.1 h).2
  clear h
  induction cs with
  | nil => exact .nil
  | cons c cs ih =>
    obtain ⟨hc, hb⟩ := List.forall_mem_cons.1 hb
    exact .blank (isBlank_iff.1 hc) (ih hb)

theorem readFrom_gap (before : List Char) {gap : List Char} (h : Gap gap) (cs : List Char) :
    readFrom before (gap ++ cs) = readFrom (before ++ gap) cs := by
  induction h generalizing before with
  | nil => rw [List.nil_append, List.append_nil]
  | blank hc _ ih =>
    rw [List.cons_append, readFrom_blank before (isBlank_iff.2 hc), ih, List.append_assoc,
      List.singleton_append]
  | @comment body gap hbody _ ih =>
    have hskip := readFrom_skip before (longest_comment hbody (gap ++ cs)) (.inr rfl)
    rw [readFrom_blank _ rfl, ih] at hskip
    simpa using hskip

/-! ## Two texts on lines of their own -/

theorem offending_newline (c : Char) (cs later : List Char) :
    offending (c :: cs ++ '\n' :: later) = offending (c :: cs) := by
  by_cases hc : c = '"'
  · subst hc
    have hquote (ds : List Char) : offending ('"' :: ds) = '"' :: ds.takeWhile (· != '\n') := rfl
    rw [List.cons_append, hquote, hquote, List.takeWhile_append]
    split
    · rw [List.takeWhile_cons_of_neg (by decide), List.append_nil]
      rename_i hlen
      exact congrArg _ (((List.takeWhile_prefix _).eq_of_length hlen).symm)
    · rfl
  · rw [List.cons_append, offending_of_ne hc, offending_of_ne hc]

/-- The tokens of two texts with a line feed between them are those of the first, and then those of
the second at the places it has there. -/
theorem readFrom_newline (before cs later : List Char) :
    readFrom before (cs ++ '\n' :: later) =
      match readFrom before cs with
      | .error e => .error e
      | .ok ts => (readFrom (before ++ (cs ++ ['\n'])) later).map (ts ++ ·) := by
  have hnil (before : List Char) :
      readFrom before ('\n' :: later) =
        (readFrom (before ++ ['\n']) later).map (([] : List Token) ++ ·) := by
    rw [readFrom_blank before rfl]
    cases readFrom (before ++ ['\n']) later <;> rfl
  -- piece by piece: none of them reaches over the line feed
  have hm := munch_cut cs
  generalize (cut cs).1 = pieces, (cut cs).2 = rest at hm
  induction hm generalizing before with
  | @stop cs hu =>
    cases cs with
    | nil =>
      rw [readFrom_nil]
      exact hnil before
    | cons c cs =>
      rw [readFrom_uncovered before hu, List.cons_append]
      refine (readFrom_uncovered before (hu.before_newline later)).trans ?_
      rw [← offending_newline c cs later]
      rfl
  | @step p piece mid rest pieces hl _ ih =>
    have hih := ih (before ++ piece)
    rw [List.append_assoc before piece] at hih
    rw [List.append_assoc piece mid, List.append_assoc piece mid]
    rw [← List.append_nil mid] at hl
    rcases hl.before_break (c := '\n') rfl with hpiece | ⟨rfl, hp⟩
    · rw [List.append_nil] at hl
      cases p with
      | blank =>
        rw [readFrom_skip before (hpiece later) (.inl rfl), readFrom_skip before hl (.inl rfl), hih]
      | comment =>
        rw [readFrom_skip before (hpiece later) (.inr rfl), readFrom_skip before hl (.inr rfl), hih]
      | token kind =>
        rw [readFrom_token before (hpiece later), readFrom_token before hl, hih]
        cases Piece.lexeme? kind piece with
        | error fault => rfl
        | ok lexeme =>
          simp only
          cases readFrom (before ++ piece) mid with
          | error e => rfl
          | ok ts => cases readFrom (before ++ (piece ++ (mid ++ ['\n']))) later <;> rfl
    · obtain rfl : p = .blank := hp.resolve_right fun h => h.2 rfl
      have hblanks := hl.matched.gap
      rw [List.nil_append, readFrom_gap before hblanks, readFrom_gap before hblanks, readFrom_nil,
        hnil, List.nil_append, List.append_assoc]

/-! ## Moved places -/

/-- A token at the place that `g` gives for its own. -/
def relocate (g : Location → Location) (t : Token) : Token := { t with location := g t.location }

def Error.relocate (g : Location → Location) (e : Error) : Error :=
  { e with location := g e.location }

/-- Tokens, or the fault instead of them, at the places that `g` gives. -/
def relocated (g : Location → Location) :
    Except Error (List Token) → Except Error (List Token) :=
  mapBoth (Error.relocate g) (List.map (Token.relocate g))

theorem relocated_id (x : Except Error (List Token)) : relocated id x = x := by
  have hid : Token.relocate id = id := rfl
  rw [relocated, hid, List.map_id_fun]
  exact mapBoth_id x

theorem map_kind_lexeme {ts us : List Token}
    (h : ts.map (Token.relocate fun _ => {}) = us.map (Token.relocate fun _ => {})) :
    ts.map (fun t => (t.kind, t.lexeme)) = us.map (fun t => (t.kind, t.lexeme)) := by
  have hpair := congrArg (List.map fun t : Token => (t.kind, t.lexeme)) h
  rw [List.map_map, List.map_map] at hpair
  exact hpair

theorem relocated_cons {f g : Location → Location} {t u : Token}
    {x y : Except Error (List Token)} (ht : t.relocate f = u.relocate g)
    (h : relocated f x = relocated g y) :
    relocated f (x.map (t :: ·)) = relocated g (y.map (u :: ·)) := by
  cases x <;> cases y
  · exact h
  · cases h
  · cases h
  · refine congrArg Except.ok ?_
    rw [List.map_cons, List.map_cons, ht, Except.ok.inj h]

/-- A piece that is the same in two texts is read alike in both. -/
theorem relocated_readFrom_step {f g : Location → Location} {p : Pattern}
    {before before' cs mid mid' : List Char} (h : Longest p cs mid) (h' : Longest p cs mid')
    (hplace : f (.after before) = g (.after before'))
    (hmid : relocated f (readFrom (before ++ cs) mid) =
      relocated g (readFrom (before' ++ cs) mid')) :
    relocated f (readFrom before (cs ++ mid)) = relocated g (readFrom before' (cs ++ mid')) := by
  cases p with
  | blank => rwa [readFrom_skip before h (.inl rfl), readFrom_skip before' h' (.inl rfl)]
  | comment => rwa [readFrom_skip before h (.inr rfl), readFrom_skip before' h' (.inr rfl)]
  | token kind =>
    rw [readFrom_token before h, readFrom_token before' h']
    cases Piece.lexeme? kind cs with
    | error fault => simp [relocated, Error.relocate, hplace]
    | ok lexeme => exact relocated_cons (by rw [relocate, relocate, hplace]) hmid

/-- Reading depends on the text before only in the places that it gives. -/
theorem relocated_readFrom {f g : Location → Location} {before before' : List Char}
    (h : ∀ cs, f (.after (before ++ cs)) = g (.after (before' ++ cs))) (cs : List Char) :
    relocated f (readFrom before cs) = relocated g (readFrom before' cs) := by
  have hplace {before before' : List Char}
      (h : ∀ cs, f (.after (before ++ cs)) = g (.after (before' ++ cs))) :
      f (.after before) = g (.after before') := by simpa using h []
  have hm := munch_cut cs
  generalize (cut cs).1 = pieces, (cut cs).2 = rest at hm
  induction hm generalizing before before' with
  | @stop cs hu =>
    cases cs with
    | nil => rw [readFrom_nil, readFrom_nil]; rfl
    | cons c cs =>
      rw [readFrom_uncovered before hu, readFrom_uncovered before' hu]
      simp [relocated, Error.relocate, hplace h]
  | step hl _ ih =>
    refine relocated_readFrom_step hl hl (hplace h) (ih fun cs => ?_)
    rw [List.append_assoc, List.append_assoc, h]

/-- A gap put after pieces of which the last is no comment changes places only. -/
theorem relocated_readFrom_insert {cs rest gap : List Char} {passed later : List Piece}
    (hm : Munch cs (passed ++ later) rest)
    (hlast : ∀ piece ∈ passed.getLast?, piece.pattern ≠ .comment) (hg : Spacing gap)
    (before : List Char) :
    relocated (fun _ => {}) (readFrom before
        (passed.flatMap (·.text) ++ (gap ++ (later.flatMap (·.text) ++ rest)))) =
      relocated (fun _ => {}) (readFrom before cs) := by
  have hfront (before before' cs : List Char) :
      relocated (fun _ => {}) (readFrom before cs) =
        relocated (fun _ => {}) (readFrom before' cs) :=
    @relocated_readFrom _ _ before before' (fun _ => rfl) cs
  induction passed generalizing before cs with
  | nil =>
    have htext := hm.flatMap_text
    rw [List.nil_append] at htext
    rw [List.flatMap_nil, List.nil_append, readFrom_gap before hg.gap, htext]
    exact hfront _ _ _
  | cons piece passed ih =>
    rw [List.cons_append] at hm
    cases hm with
    | @step p text mid _ _ hl hm =>
    have htext := hm.flatMap_text
    rw [List.flatMap_append, List.append_assoc] at htext
    have ⟨c, more, hgap, hc, _⟩ := hg
    rw [← htext] at hl
    rw [List.flatMap_cons, List.append_assoc, ← htext]
    rcases hl.before_break (isBreak_of_isBlank (isBlank_iff.2 hc)) with hpiece | ⟨hnil, hp⟩
    · have hpiece := hpiece (more ++ (later.flatMap (·.text) ++ rest))
      rw [← List.cons_append, ← hgap] at hpiece
      refine relocated_readFrom_step hpiece hl rfl ?_
      rw [htext]
      refine ih hm (fun q hq => hlast q ?_) _
      cases passed with
      | nil => cases hq
      | cons r rs => rwa [List.getLast?_cons_cons]
    · -- the gap stands right after blanks, with which it makes one piece
      obtain rfl : passed = [] := by
        cases passed with
        | nil => rfl
        | cons q qs =>
          rw [List.flatMap_cons, List.append_eq_nil_iff] at hnil
          exact absurd hnil.1 (hm.matches_of_mem q List.mem_cons_self).ne_nil
      obtain rfl : p = .blank := hp.resolve_right fun h => hlast _ rfl h.1
      have hblanks := hl.matched.gap
      rw [readFrom_gap before hblanks, readFrom_gap before hblanks, List.flatMap_nil,
        List.nil_append, List.nil_append, readFrom_gap _ hg.gap]
      exact hfront _ _ _

/-! ## Sources -/

/-- After a line feed a text is read as it is alone, further down. -/
theorem readFrom_below (cs ds : List Char) :
    readFrom (cs ++ ['\n']) ds = relocated (.lower (1 + cs.count '\n')) (readFrom [] ds) := by
  rw [← relocated_id (readFrom (cs ++ ['\n']) ds)]
  refine relocated_readFrom (fun more => ?_) ds
  rw [List.append_assoc, List.singleton_append, List.nil_append]
  exact Location.after_newline cs more

/-- What is read from two sources with a line feed between them. -/
theorem tokenize_newline_eq (s t : String) :
    tokenize (s ++ "\n" ++ t) = (tokenize s).bind fun ts =>
      (relocated (.lower (1 + s.toList.count '\n')) (tokenize t)).map (ts ++ ·) := by
  have htext : (s ++ "\n" ++ t).toList = s.toList ++ '\n' :: t.toList := by
    simp [String.toList_append]
  rw [tokenize_eq_readFrom, tokenize_eq_readFrom, tokenize_eq_readFrom, htext, readFrom_newline,
    List.nil_append, readFrom_below]
  cases readFrom [] s.toList <;> rfl

/-- The tokens of two sources with a line feed between them. -/
theorem tokenize_newline {s₁ s₂ : String} {ts₁ ts₂ : List Token} (h₁ : tokenize s₁ = .ok ts₁)
    (h₂ : tokenize s₂ = .ok ts₂) :
    tokenize (s₁ ++ "\n" ++ s₂) =
      .ok (ts₁ ++ ts₂.map (relocate (.lower (1 + s₁.toList.count '\n')))) := by
  rw [tokenize_newline_eq, h₁, h₂]
  rfl

/-- **Line by line.** A source that cannot be read fails with the same fault at the same place
whatever is written on the lines after it. If it can be read, these lines are read as they are
alone: its tokens are followed by theirs, or else their fault is reported, further down by the lines
before and in the same column. -/
theorem tokenize_lineLocal (s t : String) :
    (∀ e, tokenize s = .error e → tokenize (s ++ "\n" ++ t) = .error e) ∧
    ∀ ts, tokenize s = .ok ts →
      (∀ us, tokenize t = .ok us →
        tokenize (s ++ "\n" ++ t) =
          .ok (ts ++ us.map (relocate (.lower (1 + s.toList.count '\n'))))) ∧
      ∀ e, tokenize t = .error e →
        tokenize (s ++ "\n" ++ t) = .error (e.relocate (.lower (1 + s.toList.count '\n'))) := by
  refine ⟨fun e he => ?_, fun ts hs => ⟨fun us ht => tokenize_newline hs ht, fun e he => ?_⟩⟩
  · rw [tokenize_newline_eq, he]
    rfl
  · rw [tokenize_newline_eq, hs, he]
    rfl

/-- A place in a text, after `cs` and before `ds`, where a token begins or ends. -/
def TokenEdge (cs ds : List Char) : Prop :=
  ∃ passed later rest, Munch (cs ++ ds) (passed ++ later) rest ∧ passed.flatMap (·.text) = cs ∧
    ∃ kind, passed.getLast?.map (·.pattern) = some (.token kind) ∨
      later.head?.map (·.pattern) = some (.token kind)

/-- A comment is followed by the end of its line, so no token begins where one ends. -/
theorem Munch.not_comment {cs rest : List Char} {passed later : List Piece}
    (h : Munch cs (passed ++ later) rest) {kind : Kind}
    (hlater : later.head?.map (·.pattern) = some (.token kind)) :
    ∀ piece ∈ passed.getLast?, piece.pattern ≠ .comment := by
  induction passed generalizing cs with
  | nil => nofun
  | cons piece passed ih =>
    cases h with
    | @step p text mid _ _ hl hm =>
    cases passed with
    | cons q qs => exact ih hm
    | nil =>
      rintro _ ⟨⟩ hp
      obtain rfl : p = .comment := hp
      cases hm with
      | stop => cases hlater
      | @step q word after _ _ hnext _ =>
        obtain rfl : q = .token kind := Option.some.inj hlater
        obtain ⟨c, word, rfl⟩ := List.exists_cons_of_ne_nil hnext.matched.ne_nil
        obtain rfl := hl.comment_end c rfl
        exact absurd (hnext.matched.eq_blank rfl) nofun

/-- Spacing put at an edge of a token changes the places of tokens only. -/
theorem relocated_tokenize_insert {s₁ s₂ gap : String} (he : TokenEdge s₁.toList s₂.toList)
    (hg : Spacing gap.toList) :
    relocated (fun _ => {}) (tokenize (s₁ ++ gap ++ s₂)) =
      relocated (fun _ => {}) (tokenize (s₁ ++ s₂)) := by
  obtain ⟨passed, later, rest, hm, hpassed, kind, hkind⟩ := he
  have hlast : ∀ piece ∈ passed.getLast?, piece.pattern ≠ .comment := by
    rcases hkind with hkind | hkind
    · intro piece hp hcomment
      rw [Option.mem_def.1 hp, Option.map_some, hcomment] at hkind
      cases hkind
    · exact hm.not_comment hkind
  have hlater : later.flatMap (·.text) ++ rest = s₂.toList := by
    have htext := hm.flatMap_text
    rw [List.flatMap_append, List.append_assoc, hpassed] at htext
    exact List.append_cancel_left htext
  have hinsert := relocated_readFrom_insert hm hlast hg []
  rw [hpassed, hlater] at hinsert
  rw [tokenize_eq_readFrom, tokenize_eq_readFrom, String.toList_append, String.toList_append,
    String.toList_append, List.append_assoc]
  exact hinsert

end FuzzLang.Token
