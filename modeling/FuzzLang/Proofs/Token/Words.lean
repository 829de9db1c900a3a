import FuzzLang.Proofs.Compile.Places
import FuzzLang.Proofs.Token.Order
import FuzzLang.Proofs.Token.Seam

/-!
# The words of a line

The words of a source are its pieces other than blanks, each at its place: tokens, and the comments
that become none. A line feed parts words (`wordsFrom_newline`), so the words that have a line in
their places are those of the line alone (`filter_wordsFrom`). The string literals among the tokens
and the comments are told from them line by line (`stringsOn`, `commentsOn`).
-/

namespace FuzzLang.Token

/-- A piece that is not blank, and its place. -/
structure Word where
  location : Location
  piece : Piece
  deriving DecidableEq, Repr

/-- The words among pieces that follow the text `before`. -/
def wordsOf (before : List Char) : List Piece → List Word
  | [] => []
  | piece :: pieces =>
    if piece.pattern = .blank then wordsOf (before ++ piece.text) pieces
    else ⟨.after before, piece⟩ :: wordsOf (before ++ piece.text) pieces

/-- The words of a text after the text `before`. -/
def wordsFrom (before cs : List Char) : List Word := wordsOf before (cut cs).1

theorem mem_wordsOf {before : List Char} {pieces : List Piece} {w : Word} :
    w ∈ wordsOf before pieces ↔ w.piece.pattern ≠ .blank ∧
      ∃ passed later, pieces = passed ++ w.piece :: later ∧
        w.location = .after (before ++ passed.flatMap (·.text)) := by
  induction pieces generalizing before with
  | nil => simp [wordsOf]
  | cons piece pieces ih =>
    have hlater : w ∈ wordsOf (before ++ piece.text) pieces ↔ w.piece.pattern ≠ .blank ∧
        ∃ passed later, piece :: pieces = (piece :: passed) ++ w.piece :: later ∧
          w.location = .after (before ++ (piece :: passed).flatMap (·.text)) := by
      simp only [ih, List.cons_append, List.cons.injEq, true_and, List.flatMap_cons,
        List.append_assoc]
    constructor
    · intro h
      rw [wordsOf] at h
      split at h
      · obtain ⟨hne, passed, later, hpieces, hplace⟩ := hlater.1 h
        exact ⟨hne, piece :: passed, later, hpieces, hplace⟩
      · rename_i hblank
        rcases List.mem_cons.1 h with rfl | h
        · exact ⟨hblank, [], pieces, rfl, by simp⟩
        · obtain ⟨hne, passed, later, hpieces, hplace⟩ := hlater.1 h
          exact ⟨hne, piece :: passed, later, hpieces, hplace⟩
    · rintro ⟨hne, passed, later, hpieces, hplace⟩
      rw [wordsOf]
      cases passed with
      | nil =>
        obtain ⟨rfl, rfl⟩ := List.cons.inj hpieces
        rw [if_neg hne]
        refine List.mem_cons.2 (.inl ?_)
        obtain ⟨location, piece⟩ := w
        simpa using hplace
      | cons first passed =>
        obtain ⟨rfl, hrest⟩ := List.cons.inj hpieces
        have hw := hlater.2 ⟨hne, passed, later, hpieces, hplace⟩
        split
        · exact hw
        · exact List.mem_cons_of_mem _ hw

/-- The words of a text have lines from the one before it on, as far as its line feeds reach. -/
theorem line_of_mem_wordsFrom {before cs : List Char} {w : Word} (h : w ∈ wordsFrom before cs) :
    1 + before.count '\n' ≤ w.location.line ∧
      w.location.line ≤ 1 + before.count '\n' + cs.count '\n' := by
  obtain ⟨-, passed, later, hpieces, hplace⟩ := mem_wordsOf.1 h
  have htext := (munch_cut cs).flatMap_text
  have hcount := congrArg (List.count '\n') htext
  rw [hpieces, List.flatMap_append, List.append_assoc, List.count_append] at hcount
  rw [hplace, Location.line_after, List.count_append]
  omega

/-! ## Words on lines of their own -/

theorem wordsFrom_nil (before : List Char) : wordsFrom before [] = [] := by
  rw [wordsFrom, cut_of_none Pattern.longest_nil]
  rfl

theorem wordsFrom_skip (before cs rest : List Char) (h : Longest .blank cs rest) :
    wordsFrom before (cs ++ rest) = wordsFrom (before ++ cs) rest := by
  rw [wordsFrom, cut_of_longest h]
  exact if_pos rfl

theorem wordsFrom_word (before : List Char) {p : Pattern} {cs rest : List Char}
    (h : Longest p cs rest) (hp : p ≠ .blank) :
    wordsFrom before (cs ++ rest) =
      ⟨.after before, ⟨p, cs⟩⟩ :: wordsFrom (before ++ cs) rest := by
  rw [wordsFrom, cut_of_longest h]
  exact if_neg hp

theorem wordsFrom_blanks (before : List Char) {blanks : List Char}
    (h : ∀ c ∈ blanks, isBlank c = true) (cs : List Char) :
    wordsFrom before (blanks ++ cs) = wordsFrom (before ++ blanks) cs := by
  induction blanks generalizing before with
  | nil => rw [List.nil_append, List.append_nil]
  | cons c blanks ih =>
    obtain ⟨hc, hblanks⟩ := List.forall_mem_cons.1 h
    rw [List.cons_append, pass_blank wordsFrom_skip before hc, ih _ hblanks, List.append_assoc]
    rfl

/-- The words of two texts with a line feed between them are those of the first, if patterns cover
it, and then those of the second. -/
theorem wordsFrom_newline (before : List Char) {cs : List Char} (h : (cut cs).2 = [])
    (later : List Char) :
    wordsFrom before (cs ++ '\n' :: later) =
      wordsFrom before cs ++ wordsFrom (before ++ (cs ++ ['\n'])) later := by
  have hblank {blanks : List Char} (before : List Char) (hb : ∀ c ∈ blanks, isBlank c = true) :
      wordsFrom before (blanks ++ '\n' :: later) =
        wordsFrom (before ++ (blanks ++ ['\n'])) later := by
    rw [← wordsFrom_blanks before, List.append_assoc]
    · rfl
    · exact List.forall_mem_append.2 ⟨hb, by simp [isBlank]⟩
  have hm := munch_cut cs
  generalize (cut cs).1 = pieces, (cut cs).2 = rest at hm h
  -- piece by piece: none of them reaches over the line feed
  induction hm generalizing before with
  | stop =>
    subst h
    rw [wordsFrom_nil]
    exact hblank before (by simp)
  | @step p piece mid rest pieces hl _ ih =>
    have hih := ih (before ++ piece) h
    rw [List.append_assoc before piece] at hih
    rw [List.append_assoc piece mid, List.append_assoc piece mid]
    rw [← List.append_nil mid] at hl
    rcases hl.before_break (c := '\n') rfl with hpiece | ⟨rfl, hp⟩
    · rw [List.append_nil] at hl
      by_cases hp : p = .blank
      · subst hp
        rw [wordsFrom_skip before _ _ (hpiece later), wordsFrom_skip before _ _ hl, hih]
      · rw [wordsFrom_word before (hpiece later) hp, wordsFrom_word before hl hp, hih]
        rfl
    · obtain rfl : p = .blank := hp.resolve_right fun h => h.2 rfl
      have hblanks := (Matches.blank_iff.1 hl.matched).2
      rw [List.nil_append, List.nil_append, List.append_nil, hblank before hblanks]
      have hnone : wordsFrom before piece = [] := by
        have hall := wordsFrom_blanks before hblanks []
        rwa [List.append_nil, wordsFrom_nil] at hall
      rw [hnone]
      rfl

theorem covered_of_readFrom {before cs : List Char} {ts : List Token}
    (h : readFrom before cs = .ok ts) : (cut cs).2 = [] :=
  (readPieces_eq_ok (munch_cut cs).matches_of_mem h).1

theorem exists_readFrom_newline {before cs later : List Char} {ts : List Token}
    (h : readFrom before (cs ++ '\n' :: later) = .ok ts) :
    (∃ us, readFrom before cs = .ok us) ∧
      ∃ us, readFrom (before ++ (cs ++ ['\n'])) later = .ok us := by
  rw [readFrom_newline] at h
  cases hfirst : readFrom before cs with
  | error e =>
    rw [hfirst] at h
    cases h
  | ok us =>
    rw [hfirst] at h
    cases hsecond : readFrom (before ++ (cs ++ ['\n'])) later with
    | error e =>
      rw [hsecond] at h
      cases h
    | ok vs => exact ⟨⟨us, rfl⟩, vs, rfl⟩

section

variable {source front line rest : List Char} (hline : Text.LineOf source front line rest)
  {ts : List Token} (hread : readFrom [] source = .ok ts)

include hline hread

/-- The words of a source before a line, on it and after it. -/
theorem exists_words : (cut line).2 = [] ∧ ∃ earlier later,
    wordsFrom [] source = earlier ++ (wordsFrom front line ++ later) ∧
      (∀ w ∈ earlier, w.location.line < 1 + front.count '\n') ∧
      ∀ w ∈ later, 1 + front.count '\n' < w.location.line := by
  obtain ⟨⟨us, hlast⟩, earlier, hsource, hearlier⟩ :
      (∃ us, readFrom front (line ++ rest) = .ok us) ∧ ∃ earlier,
        wordsFrom [] source = earlier ++ wordsFrom front (line ++ rest) ∧
          ∀ w ∈ earlier, w.location.line < 1 + front.count '\n' := by
    rw [hline.text] at hread ⊢
    rcases hline.begins with rfl | ⟨before, rfl⟩
    · exact ⟨⟨ts, hread⟩, [], rfl, by simp⟩
    · rw [List.append_assoc, List.singleton_append] at hread ⊢
      obtain ⟨⟨us, hus⟩, hvs⟩ := exists_readFrom_newline hread
      refine ⟨hvs, _, wordsFrom_newline [] (covered_of_readFrom hus) _, fun w hw => ?_⟩
      have hle := (line_of_mem_wordsFrom hw).2
      rw [List.count_nil] at hle
      rw [List.count_append, List.count_singleton_self]
      omega
  rcases hline.ends with rfl | ⟨after, rfl⟩
  · rw [List.append_nil] at hlast hsource
    refine ⟨covered_of_readFrom hlast, earlier, [], ?_, hearlier, by simp⟩
    rw [hsource, List.append_nil]
  · obtain ⟨⟨vs, hvs⟩, -⟩ := exists_readFrom_newline hlast
    have hcut := covered_of_readFrom hvs
    rw [wordsFrom_newline front hcut] at hsource
    refine ⟨hcut, earlier, _, hsource, hearlier, fun w hw => ?_⟩
    have hge := (line_of_mem_wordsFrom hw).1
    rw [List.count_append, List.count_append, List.count_singleton_self] at hge
    omega

/-- The words on a line of a source are those of the line. -/
theorem filter_wordsFrom :
    (wordsFrom [] source).filter (fun w => w.location.line = 1 + front.count '\n') =
      wordsFrom front line := by
  obtain ⟨-, earlier, later, hwords, hearlier, hlater⟩ := exists_words hline hread
  have hown : ∀ w ∈ wordsFrom front line, w.location.line = 1 + front.count '\n' := by
    intro w hw
    have hbounds := line_of_mem_wordsFrom hw
    rw [List.count_eq_zero.2 hline.oneLine] at hbounds
    omega
  rw [hwords, List.filter_append, List.filter_append, List.filter_eq_nil_iff.2,
    List.filter_eq_self.2, List.filter_eq_nil_iff.2, List.nil_append, List.append_nil]
  · intro w hw
    simpa using Nat.ne_of_gt (hlater w hw)
  · intro w hw
    simpa using hown w hw
  · intro w hw
    simpa using Nat.ne_of_lt (hearlier w hw)

end

/-! ## String literals and comments -/

/-- The texts of the pieces that a pattern took. -/
def textsOf (p : Pattern) (pieces : List Piece) : List (List Char) :=
  (pieces.filter (·.pattern = p)).map (·.text)

/-- The texts of the words that a pattern took on a line of a source. -/
def textsOn (p : Pattern) (line : Nat) (source : List Char) : List (List Char) :=
  (((wordsFrom [] source).filter fun w => w.location.line = line).filter
    (·.piece.pattern = p)).map (·.piece.text)

/-- The comments that are skipped on a line of a source. -/
def commentsOn (line : Nat) (source : List Char) : List (List Char) := textsOn .comment line source

/-- The string literals among tokens that have a line in their places. -/
def stringsOn (line : Nat) (ts : List Token) : List (List Char) :=
  ts.filterMap fun t => if t.location.line = line then t.string?.map String.toList else none

theorem textsOf_cons (p q : Pattern) (cs : List Char) (pieces : List Piece) :
    textsOf p (⟨q, cs⟩ :: pieces) = if q = p then cs :: textsOf p pieces else textsOf p pieces := by
  unfold textsOf
  by_cases hq : q = p
  · rw [if_pos hq, List.filter_cons_of_pos (by simpa using hq), List.map_cons]
  · rw [if_neg hq, List.filter_cons_of_neg (by simpa using hq)]

theorem map_text_wordsOf {p : Pattern} (hp : p ≠ .blank) (before : List Char)
    (pieces : List Piece) :
    ((wordsOf before pieces).filter (·.piece.pattern = p)).map (·.piece.text) =
      textsOf p pieces := by
  induction pieces generalizing before with
  | nil => rfl
  | cons piece pieces ih =>
    obtain ⟨q, cs⟩ := piece
    rw [wordsOf, textsOf_cons]
    by_cases hblank : q = .blank
    · subst hblank
      rw [if_pos rfl, if_neg (Ne.symm hp), ih]
    · rw [if_neg hblank]
      by_cases hq : q = p
      · rw [if_pos hq, List.filter_cons_of_pos (by simpa using hq), List.map_cons, ih]
      · rw [if_neg hq, List.filter_cons_of_neg (by simpa using hq), ih]

theorem textsOn_eq {source front line rest : List Char} (hline : Text.LineOf source front line rest)
    {ts : List Token} (hread : readFrom [] source = .ok ts) {p : Pattern} (hp : p ≠ .blank) :
    textsOn p (1 + front.count '\n') source = textsOf p (cut line).1 := by
  rw [textsOn, filter_wordsFrom hline hread, wordsFrom, map_text_wordsOf hp]

theorem Spelled.string?_eq {piece : Piece} {t : Token} (h : Spelled piece t) :
    t.string?.map String.toList =
      if piece.pattern = .token .string then some piece.text else none := by
  cases h with
  | @text kind cs location hk =>
    by_cases hstring : kind = .string
    · subst hstring
      exact congrArg some String.toList_ofList
    · rw [if_neg fun he => hstring (Pattern.token.inj he)]
      cases kind with
      | string => exact absurd rfl hstring
      | _ => rfl
  | integer => rfl
  | decimal => rfl

theorem Yields.stringsOn_eq {before : List Char} {pieces : List Piece} {ts : List Token}
    (h : Yields before pieces ts) (line : Nat) :
    stringsOn line ts =
      (((wordsOf before pieces).filter fun w => w.location.line = line).filter
        (·.piece.pattern = .token .string)).map (·.piece.text) := by
  induction h with
  | nil => rfl
  | @skip before piece pieces ts hp _ ih =>
    rw [wordsOf]
    rcases hp with hp | hp
    · rw [if_pos hp, ih]
    · rw [if_neg (by simp [hp]), ih, List.filter_filter, List.filter_filter,
        List.filter_cons_of_neg (by simp [hp])]
  | @token before piece pieces t ts hs hl _ ih =>
    have hpattern : piece.pattern ≠ .blank := by simp [hs.pattern_eq]
    rw [wordsOf, if_neg hpattern, stringsOn, List.filterMap_cons, hs.string?_eq, hl]
    rw [stringsOn] at ih
    by_cases hline : (Location.after before).line = line
    · rw [if_pos hline, List.filter_cons_of_pos (by simpa using hline)]
      by_cases hstring : piece.pattern = .token .string
      · rw [if_pos hstring, List.filter_cons_of_pos (by simpa using hstring), List.map_cons, ← ih]
      · rw [if_neg hstring, List.filter_cons_of_neg (by simpa using hstring), ← ih]
    · rw [if_neg hline, List.filter_cons_of_neg (by simpa using hline), ← ih]

/-- The string literals on a line of a source are the words that the pattern of literals took. -/
theorem stringsOn_eq_textsOn {source : String} {ts : List Token} (h : tokenize source = .ok ts)
    (line : Nat) : stringsOn line ts = textsOn (.token .string) line source.toList :=
  (yields_of_tokenize h).stringsOn_eq line

/-- A piece of a kind is some token, at its place. -/
theorem Yields.exists_token {before : List Char} {passed later : List Piece} {piece : Piece}
    {ts : List Token} (h : Yields before (passed ++ piece :: later) ts) {kind : Kind}
    (hk : piece.pattern = .token kind) :
    ∃ t ∈ ts, Spelled piece t ∧ t.location = .after (before ++ passed.flatMap (·.text)) := by
  induction passed generalizing before ts with
  | nil =>
    cases h with
    | skip hp =>
      rw [hk] at hp
      rcases hp with hp | hp <;> cases hp
    | token hs hl => exact ⟨_, List.mem_cons_self, hs, by simpa using hl⟩
  | cons first passed ih =>
    have hfront : before ++ (first :: passed).flatMap (·.text) =
        before ++ first.text ++ passed.flatMap (·.text) := by
      rw [List.flatMap_cons, List.append_assoc]
    rw [hfront]
    cases h with
    | skip _ hlater => exact ih hlater
    | token _ _ hlater =>
      obtain ⟨t, ht, hs, hl⟩ := ih hlater
      exact ⟨t, List.mem_cons_of_mem _ ht, hs, hl⟩

end FuzzLang.Token
