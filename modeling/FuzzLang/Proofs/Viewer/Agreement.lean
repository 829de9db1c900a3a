import FuzzLang.Proofs.Token.Words
import FuzzLang.Proofs.Viewer.Highlight
import Mathlib.Control.Monad.Basic

/-!
# Highlighting and reading a line

Highlighting looks for string literals and for the mark of comments at every character of a line,
reading takes the longest words. Both find the same string literals and the same comment as long as
the mark begins where a word begins. It can also begin inside a name, if the name ends in the word
of comments and a colon follows at once: the name then feigns a comment (`Piece.FeignsComment`), and
the rest of the line is shown as one. On the lines of a compiled source this is the only difference
(`highlight_agrees_iff`).
-/

namespace FuzzLang

namespace Token

/-! ## The mark of comments inside a word -/

/-- The mark of comments without its colon. -/
def commentWord : List Char := "comment".toList

theorem commentMark_eq : commentMark = commentWord ++ [':'] := rfl

/-- Outside of comments and string literals there are no quotes, and the letter that the mark of
comments begins with is in names only. -/
theorem Matches.quote_not_mem {p : Pattern} {cs : List Char} (h : Matches p cs)
    (hcomment : p ≠ .comment) (hstring : p ≠ .token .string) :
    '"' ∉ cs ∧ ('c' ∈ cs → p = .token .identifier) := by
  have hnumber {sign ds : List Char} (hs : IsSign sign)
      (hd : ∀ c ∈ ds, c.isDigit = true ∨ c = '.') : '"' ∉ sign ++ ds ∧ 'c' ∉ sign ++ ds := by
    have hno {c : Char} (hsign : c ≠ '+' ∧ c ≠ '-') (hdigit : ¬ (c.isDigit = true ∨ c = '.')) :
        c ∉ sign ++ ds := by
      rw [List.mem_append, not_or]
      refine ⟨?_, fun hc => hdigit (hd c hc)⟩
      rcases hs with rfl | rfl | rfl
      · simp
      · simpa using hsign.1
      · simpa using hsign.2
    exact ⟨hno (by decide) (by decide), hno (by decide) (by decide)⟩
  cases h with
  | blank _ hb =>
    exact ⟨fun hq => absurd (hb _ hq) (by decide), fun hc => absurd (hb _ hc) (by decide)⟩
  | comment => exact absurd rfl hcomment
  | @word kind s hs =>
    cases kind <;> cases hs <;> exact ⟨by decide, fun hc => absurd hc (by decide)⟩
  | integer hs hd =>
    obtain ⟨hq, hc⟩ := hnumber hs fun c hc => .inl (hd.2 c hc)
    exact ⟨hq, fun h => absurd h hc⟩
  | @decimal sign whole ds hs hw hd =>
    have hdigits : ∀ c ∈ whole ++ '.' :: ds, c.isDigit = true ∨ c = '.' := by
      intro c hc
      rcases List.mem_append.1 hc with hc | hc
      · exact .inl (hw c hc)
      · rcases List.mem_cons.1 hc with rfl | hc
        · exact .inr rfl
        · exact .inl (hd.2 c hc)
    obtain ⟨hq, hc⟩ := hnumber hs hdigits
    exact ⟨hq, fun h => absurd h hc⟩
  | string => exact absurd rfl hstring
  | name hstart hrest =>
    refine ⟨fun hq => ?_, fun _ => rfl⟩
    rcases List.mem_cons.1 hq with rfl | hq
    · cases hstart
    · cases hrest _ hq
  | operator ho =>
    refine ⟨fun hq => ?_, fun hc => ?_⟩
    · obtain rfl := List.mem_singleton.1 hq
      exact absurd ho (by decide)
    · obtain rfl := List.mem_singleton.1 hc
      exact absurd ho (by decide)

theorem Matches.isNameRest_of_mem {cs : List Char} (h : Matches (.token .identifier) cs) :
    ∀ c ∈ cs, isNameRest c = true := by
  cases h with
  | word hs => cases hs
  | name hstart hrest =>
    refine List.forall_mem_cons.2 ⟨?_, hrest⟩
    rw [isNameRest, hstart, Bool.true_or]

/-- A name ends before a character that would go on with it. -/
theorem Longest.name_end {cs later : List Char} (h : Longest (.token .identifier) cs later) :
    ∀ c ∈ later.head?, isNameRest c = false := by
  intro c hc
  obtain ⟨rest, rfl⟩ := List.head?_eq_some_iff.1 hc
  refine Bool.eq_false_iff.2 fun hname => ?_
  have hlonger : Matches (.token .identifier) (cs ++ [c]) := by
    have hall := h.matched
    generalize hp : Pattern.token .identifier = p at hall
    cases hall with
    | word hs =>
      cases hp
      cases hs
    | name hstart hrest =>
      refine .name hstart fun d hd => ?_
      rcases List.mem_append.1 hd with hd | hd
      · exact hrest d hd
      · rwa [List.mem_singleton.1 hd]
    | _ => cases hp
  have hle := h.maximal _ _ hlonger ⟨rest, by simp⟩
  simp only [List.length_append, List.length_singleton] at hle
  omega

/-- Where the mark of comments begins with a word, the word is a comment. -/
theorem Longest.eq_comment {p : Pattern} {cs later : List Char} (h : Longest p cs later)
    (hmark : commentMark <+: cs ++ later) : p = .comment := by
  have hshort : Matches .comment commentMark := .comment (List.not_mem_nil (a := '\n'))
  have hle := h.maximal _ _ hshort hmark
  obtain ⟨body, rfl⟩ := List.prefix_of_prefix_length_le hmark (List.prefix_append _ _) hle
  rcases h.matched.fixed_or_head with rfl | hf | hh
  · have hcolon := h.matched.isNameRest_of_mem ':' (List.mem_append_left _ (by decide))
    cases hcolon
  · have hall : (Pattern.fixed.all fun w => w.2.head? != some 'c') = true := by decide
    exact absurd rfl (bne_iff_ne.1 (List.all_eq_true.1 hall _ hf))
  · exact (Option.some.inj hh).symm

/-- Where the mark of comments begins inside a word, that is a name, the rest of the name is the
word of comments, and the colon follows it. -/
theorem Longest.mark_inside {p : Pattern} {left right later : List Char}
    (h : Longest p (left ++ right) later) (hcomment : p ≠ .comment) (hstring : p ≠ .token .string)
    (hne : right ≠ []) (hmark : commentMark <+: right ++ later) :
    p = .token .identifier ∧ left ≠ [] ∧ right = commentWord ∧ ∃ rest, later = ':' :: rest := by
  obtain ⟨more, hmore⟩ := hmark
  obtain rfl : p = .token .identifier := by
    obtain ⟨c, cs, rfl⟩ := List.exists_cons_of_ne_nil hne
    have hhead : some 'c' = some c := congrArg List.head? hmore
    obtain rfl := Option.some.inj hhead
    exact (h.matched.quote_not_mem hcomment hstring).2 (by simp)
  have hname := h.matched.isNameRest_of_mem
  refine ⟨rfl, ?_, ?_⟩
  · rintro rfl
    exact hcomment (h.eq_comment ⟨more, hmore⟩)
  · rw [commentMark_eq, List.append_assoc] at hmore
    rcases List.append_eq_append_iff.1 hmore with ⟨extra, hright, hlater⟩ | ⟨extra, hword, hlater⟩
    · cases extra with
      | nil => exact ⟨by rw [hright, List.append_nil], more, hlater.symm⟩
      | cons e extra =>
        -- the colon would be in the name
        obtain ⟨rfl, _⟩ := List.cons.inj hlater
        cases hname ':' (by rw [hright]; simp)
    · cases extra with
      | nil => exact ⟨by rw [hword, List.append_nil], more, hlater⟩
      | cons e extra =>
        -- the name would go on with a letter of the word
        have hletter : commentWord.all isNameRest = true := rfl
        have he := List.all_eq_true.1 hletter e (by rw [hword]; simp)
        rw [h.name_end e (by rw [hlater]; rfl)] at he
        cases he

/-! ## Names that feign a comment -/

/-- A name that ends in the word of comments, after more, right before a colon. -/
def Piece.FeignsComment (piece : Piece) (later : List Char) : Prop :=
  piece.pattern = .token .identifier ∧
    ∃ front rest, front ≠ [] ∧ piece.text = front ++ commentWord ∧ later = ':' :: rest

/-- Some name among the pieces feigns a comment. -/
def Feigned (pieces : List Piece) : Prop :=
  ∃ passed piece later, pieces = passed ++ piece :: later ∧
    piece.FeignsComment (later.flatMap (·.text))

theorem not_feigned_nil : ¬ Feigned [] := by
  rintro ⟨passed, piece, later, hpieces, -⟩
  simp at hpieces

theorem feigned_cons {piece : Piece} {pieces : List Piece} :
    Feigned (piece :: pieces) ↔ piece.FeignsComment (pieces.flatMap (·.text)) ∨ Feigned pieces := by
  constructor
  · rintro ⟨passed, own, later, hpieces, hown⟩
    cases passed with
    | nil =>
      obtain ⟨rfl, rfl⟩ := List.cons.inj hpieces
      exact .inl hown
    | cons first passed => exact .inr ⟨passed, own, later, (List.cons.inj hpieces).2, hown⟩
  · rintro (hown | ⟨passed, own, later, rfl, hown⟩)
    · exact ⟨[], piece, pieces, rfl, hown⟩
    · exact ⟨piece :: passed, own, later, rfl, hown⟩

/-- A name of a source that ends in the word of comments, after more, right before a colon. -/
def FeignsComment (source : List Char) (t : Token) : Prop :=
  ∃ front, front ≠ [] ∧ t.name? = some (String.ofList (front ++ commentWord)) ∧
    StandsAt source (front ++ commentMark) t.location

theorem Spelled.name?_eq_some_iff {piece : Piece} {t : Token} (h : Spelled piece t)
    {cs : List Char} :
    t.name? = some (String.ofList cs) ↔ piece = ⟨.token .identifier, cs⟩ := by
  cases h with
  | @text kind ds location hk =>
    by_cases hname : kind = .identifier
    · subst hname
      simp only [name?, Option.some.injEq, Piece.mk.injEq, true_and]
      exact ⟨fun he => String.ofList_injective he, congrArg String.ofList⟩
    · simp only [name?, Piece.mk.injEq, Pattern.token.injEq, hname, false_and, iff_false]
      cases kind with
      | identifier => exact absurd rfl hname
      | _ => simp
  | integer => simp [name?]
  | decimal => simp [name?]

/-- The tokens on a line that feign a comment are the names of the line that do. -/
theorem feigned_iff {source : String} {ts : List Token} (h : tokenize source = .ok ts)
    {front line rest : List Char} (hline : Text.LineOf source.toList front line rest) :
    Feigned (cut line).1 ↔
      ∃ t ∈ ts, t.location.line = 1 + front.count '\n' ∧ t.FeignsComment source.toList := by
  have hread := h
  rw [tokenize_eq_readFrom] at hread
  have hyields := yields_of_tokenize h
  have hcut := (exists_words hline hread).1
  have hwords := filter_wordsFrom hline hread
  have htext := (munch_cut line).flatMap_text
  rw [hcut, List.append_nil] at htext
  constructor
  · rintro ⟨passed, piece, later, hpieces, hname, x, more, hx, hpiece, hlater⟩
    have hword : (⟨.after (front ++ passed.flatMap (·.text)), piece⟩ : Word) ∈
        wordsFrom front line := by
      refine mem_wordsOf.2 ⟨?_, passed, later, hpieces, rfl⟩
      rw [hname]
      simp
    rw [← hwords, List.mem_filter] at hword
    obtain ⟨-, before, after, hsource, hplace⟩ := mem_wordsOf.1 hword.1
    rw [hsource] at hyields
    obtain ⟨t, ht, hspelled, hlocation⟩ := hyields.exists_token hname
    have hfront : t.location = .after (front ++ passed.flatMap (·.text)) :=
      hlocation.trans hplace.symm
    refine ⟨t, ht, by rw [hfront]; exact of_decide_eq_true hword.2, x, hx, ?_, ?_⟩
    · rw [hspelled.name?_eq_some_iff, ← hpiece, ← hname]
    · refine ⟨_, more ++ rest, ?_, hfront⟩
      rw [hpieces, List.flatMap_append, List.flatMap_cons, hlater, hpiece] at htext
      rw [hline.text, ← htext, commentMark_eq]
      simp
  · rintro ⟨t, ht, htline, x, hx, hname, before, after, hsource, hplace⟩
    obtain ⟨passed, piece, later, hpieces, hspelled, hlocation⟩ := hyields.exists_piece ht
    rw [hspelled.name?_eq_some_iff] at hname
    have hword : (⟨t.location, piece⟩ : Word) ∈ wordsFrom [] source.toList := by
      refine mem_wordsOf.2 ⟨?_, passed, later, hpieces, hlocation⟩
      rw [hname]
      simp
    have hown : (⟨t.location, piece⟩ : Word) ∈ (wordsFrom [] source.toList).filter
        fun w => w.location.line = 1 + front.count '\n' :=
      List.mem_filter.2 ⟨hword, decide_eq_true htline⟩
    rw [hwords] at hown
    obtain ⟨-, passed, later, hpieces, hlocation⟩ := mem_wordsOf.1 hown
    refine ⟨passed, piece, later, hpieces, by rw [hname], x, ?_⟩
    rw [hpieces, List.flatMap_append, List.flatMap_cons, hname] at htext
    -- the place tells what stands before the name
    have hparts : front ++ passed.flatMap (·.text) ++
        (x ++ commentWord ++ (later.flatMap (·.text) ++ rest)) =
          before ++ (x ++ commentMark ++ after) := by
      rw [← hsource, hline.text, ← htext]
      simp
    obtain rfl := Location.eq_of_after_eq hparts (hlocation.symm.trans hplace)
    have hcolon : later.flatMap (·.text) ++ rest = ':' :: after := by
      simpa [commentMark_eq] using List.append_cancel_left hparts
    cases hlater : later.flatMap (·.text) with
    | nil =>
      rw [hlater, List.nil_append] at hcolon
      rcases hline.ends with rfl | ⟨more, rfl⟩
      · cases hcolon
      · cases hcolon
    | cons c cs =>
      rw [hlater] at hcolon
      obtain ⟨rfl, _⟩ := List.cons.inj hcolon
      exact ⟨cs, hx, by rw [hname], rfl⟩

end Token

namespace Viewer

open Screen

namespace Highlight

open Token

/-! ## What a line shows -/

/-- The texts that a line shows in a colour. -/
def shown (color : Color) (l : StyledLine) : List (List Char) :=
  (l.filter (·.style.fg = color)).map (·.text)

theorem shown_append (color : Color) (l m : StyledLine) :
    shown color (l ++ m) = shown color l ++ shown color m := by
  rw [shown, List.filter_append, List.map_append]
  rfl

theorem shown_cons_of_eq {color : Color} {s : Segment} (h : s.style.fg = color) (l : StyledLine) :
    shown color (s :: l) = s.text :: shown color l := by
  rw [shown, List.filter_cons_of_pos (by simpa using h), List.map_cons]
  rfl

theorem shown_cons_of_ne {color : Color} {s : Segment} (h : s.style.fg ≠ color) (l : StyledLine) :
    shown color (s :: l) = shown color l := by
  rw [shown, List.filter_cons_of_neg (by simpa using h)]
  rfl

/-- The colours of string literals and comments. -/
def IsSpecial (color : Color) : Prop := color = Theme.string ∨ color = Theme.comment

theorem shown_flush {color : Color} (h : IsSpecial color) (d : Dialect) (word : List Char)
    (called : Bool) : shown color (flush d word called) = [] := by
  cases word with
  | nil => rfl
  | cons c word =>
    refine (shown_cons_of_ne ?_ []).trans rfl
    show (wordStyle d (c :: word) called).fg ≠ color
    unfold wordStyle
    rcases h with rfl | rfl <;> split_ifs <;> decide

theorem shown_markSegment_cons {color : Color} (h : IsSpecial color) (c : Char) (l : StyledLine) :
    shown color (markSegment c :: l) = shown color l := by
  refine shown_cons_of_ne ?_ l
  show (if isBracket c then Theme.primary else Theme.fg) ≠ color
  rcases h with rfl | rfl <;> split_ifs <;> decide

theorem shown_stringSegment (text : List Char) (l : StyledLine) :
    shown Theme.string (stringSegment text :: l) = text :: shown Theme.string l :=
  shown_cons_of_eq (s := stringSegment text) rfl l

theorem shown_stringSegment_comment (text : List Char) (l : StyledLine) :
    shown Theme.comment (stringSegment text :: l) = shown Theme.comment l :=
  shown_cons_of_ne (s := stringSegment text) (show Theme.string ≠ Theme.comment by decide) l

/-- Two lines that show the same string literals and the same comments. -/
def Alike (l m : StyledLine) : Prop := ∀ color, IsSpecial color → shown color l = shown color m

theorem isPrefixOf_source {cs : List Char} :
    Dialect.source.commentMark.isPrefixOf cs = true ↔ commentMark <+: cs :=
  List.isPrefixOf_iff_prefix

theorem exists_alike_cons (word : List Char) {c : Char} {cs : List Char} (hquote : c ≠ '"')
    (hmark : ¬ commentMark <+: c :: cs) :
    ∃ word', Alike (segments .source (.word word) (c :: cs))
      (segments .source (.word word') cs) := by
  rw [← isPrefixOf_source] at hmark
  by_cases hword : continues word c = true
  · refine ⟨word ++ [c], fun color _ => ?_⟩
    rw [segments, if_neg hmark, if_neg hquote, if_pos hword]
  · refine ⟨[], fun color h => ?_⟩
    rw [segments, if_neg hmark, if_neg hquote, if_neg hword, shown_append, shown_flush h,
      List.nil_append, shown_markSegment_cons h]

/-- A text without quotes in which no mark of comments begins shows no literals and no comments. -/
theorem exists_alike (word : List Char) {cs later : List Char} (hquote : '"' ∉ cs)
    (hmark : ∀ left right, cs = left ++ right → right ≠ [] → ¬ commentMark <+: right ++ later) :
    ∃ word', Alike (segments .source (.word word) (cs ++ later))
      (segments .source (.word word') later) := by
  induction cs generalizing word with
  | nil => exact ⟨word, fun _ _ => rfl⟩
  | cons c cs ih =>
    rw [List.mem_cons, not_or] at hquote
    obtain ⟨first, hfirst⟩ := exists_alike_cons word (Ne.symm hquote.1)
      (hmark [] (c :: cs) rfl (List.cons_ne_nil _ _))
    obtain ⟨last, hlast⟩ := ih first hquote.2 fun left right hcs =>
      hmark (c :: left) right (congrArg _ hcs)
    exact ⟨last, fun color h => (hfirst color h).trans (hlast color h)⟩

/-- From the mark of comments on all is shown as a comment. -/
theorem shown_of_mark (word : List Char) {cs : List Char} (hmark : commentMark <+: cs) :
    shown Theme.string (segments .source (.word word) cs) = [] ∧
      shown Theme.comment (segments .source (.word word) cs) = [cs] := by
  obtain ⟨rest, rfl⟩ := hmark
  have hmark := isPrefixOf_source.2 (List.prefix_append commentMark rest)
  have hsegments : segments .source (.word word) (commentMark ++ rest) =
      flush .source word false ++ [⟨commentMark ++ rest, { fg := Theme.comment }⟩] := if_pos hmark
  rw [hsegments, shown_append, shown_append, shown_flush (.inl rfl), shown_flush (.inr rfl),
    List.nil_append, List.nil_append]
  have hcolor : Theme.comment ≠ Theme.string := by decide
  exact ⟨shown_cons_of_ne hcolor [],
    shown_cons_of_eq (s := ⟨commentMark ++ rest, { fg := Theme.comment }⟩) rfl []⟩

theorem shown_of_literal (word : List Char) {body : List Char} (hbody : '"' ∉ body)
    (later : List Char) :
    shown Theme.string (segments .source (.word word) ('"' :: (body ++ ['"']) ++ later)) =
        ('"' :: (body ++ ['"'])) :: shown Theme.string (segments .source (.word []) later) ∧
      shown Theme.comment (segments .source (.word word) ('"' :: (body ++ ['"']) ++ later)) =
        shown Theme.comment (segments .source (.word []) later) := by
  have hsegments : segments .source (.word word) ('"' :: (body ++ ['"']) ++ later) =
      flush .source word false ++
        stringSegment ('"' :: (body ++ ['"'])) :: segments .source (.word []) later := by
    rw [List.cons_append, List.append_assoc]
    exact congrArg _ (segments_string_quote .source ['"'] hbody later)
  rw [hsegments, shown_append, shown_append, shown_flush (.inl rfl), shown_flush (.inr rfl),
    List.nil_append, List.nil_append]
  exact ⟨shown_stringSegment _ _, shown_stringSegment_comment _ _⟩

/-! ## Piece by piece -/

theorem length_le_of_mem_textsOf {p : Pattern} {pieces : List Piece} {cs : List Char}
    (h : cs ∈ textsOf p pieces) : cs.length ≤ (pieces.flatMap (·.text)).length := by
  obtain ⟨piece, hp, rfl⟩ := List.mem_map.1 h
  obtain ⟨passed, later, rfl⟩ := List.append_of_mem (List.mem_of_mem_filter hp)
  simp only [List.flatMap_append, List.flatMap_cons, List.length_append]
  omega

/-- A comment is all that is left of its line. -/
theorem eq_nil_of_comment {cs later : List Char} {pieces : List Piece}
    (hl : Longest .comment cs later) (hm : Munch later pieces []) (hline : '\n' ∉ later) :
    later = [] ∧ pieces = [] := by
  have hlater : later = [] := by
    cases later with
    | nil => rfl
    | cons c later =>
      obtain rfl := hl.comment_end c rfl
      exact absurd List.mem_cons_self hline
  refine ⟨hlater, ?_⟩
  cases pieces with
  | nil => rfl
  | cons piece pieces =>
    have hne := (hm.matches_of_mem piece List.mem_cons_self).ne_nil
    have htext := hm.flatMap_text
    rw [hlater, List.append_nil, List.flatMap_cons, List.append_eq_nil_iff] at htext
    exact absurd htext.1 hne

/-- A name that feigns a comment shows no literal, and a comment that begins inside it. -/
theorem shown_of_feigned {piece : Piece} {later : List Char}
    (hl : Longest piece.pattern piece.text later) (h : piece.FeignsComment later)
    (word : List Char) :
    shown Theme.string (segments .source (.word word) (piece.text ++ later)) = [] ∧
      ∃ text, shown Theme.comment (segments .source (.word word) (piece.text ++ later)) = [text] ∧
        later.length < text.length := by
  obtain ⟨hp, front, more, -, htext, rfl⟩ := h
  rw [hp, htext] at hl
  have hmarked : piece.text ++ ':' :: more = front ++ (commentMark ++ more) := by
    simp [htext, commentMark_eq]
  -- a mark that begins earlier would be longer than the word of comments
  have hfirst : ∀ left right, front = left ++ right → right ≠ [] →
      ¬ commentMark <+: right ++ (commentMark ++ more) := by
    rintro left right rfl hne hmark
    rw [List.append_assoc] at hl
    have hinside := hl.mark_inside (by decide) (by decide) (by simp [hne]) (by
      simpa [commentMark_eq] using hmark)
    have hlength := congrArg List.length hinside.2.2.1
    rw [List.length_append] at hlength
    exact hne (List.length_eq_zero_iff.1 (by omega))
  have hquote := (hl.matched.quote_not_mem (by decide) (by decide)).1
  obtain ⟨word', halike⟩ := exists_alike word (fun hq => hquote (List.mem_append_left _ hq)) hfirst
  obtain ⟨hs, hc⟩ := shown_of_mark word' (List.prefix_append commentMark more)
  rw [hmarked, halike _ (.inl rfl), halike _ (.inr rfl), hs, hc]
  refine ⟨rfl, _, rfl, ?_⟩
  have hmark : commentMark.length = 8 := rfl
  rw [List.length_append, List.length_cons]
  omega

/-- Any other word that is neither a comment nor a literal shows nothing. -/
theorem exists_alike_of_not_feigned {piece : Piece} {later : List Char}
    (hl : Longest piece.pattern piece.text later) (hcomment : piece.pattern ≠ .comment)
    (hstring : piece.pattern ≠ .token .string) (h : ¬ piece.FeignsComment later)
    (word : List Char) :
    ∃ word', Alike (segments .source (.word word) (piece.text ++ later))
      (segments .source (.word word') later) := by
  refine exists_alike word (hl.matched.quote_not_mem hcomment hstring).1 ?_
  intro left right htext hne hmark
  rw [htext] at hl
  obtain ⟨hp, hleft, hright, more, hmore⟩ := hl.mark_inside hcomment hstring hne hmark
  exact h ⟨hp, left, more, hleft, by rw [htext, hright], hmore⟩

/-- A line shows its string literals, and its comment, just if no name feigns a comment. In any case
it shows no others. -/
theorem shown_segments_iff {line : List Char} (hline : '\n' ∉ line) (hcut : (cut line).2 = [])
    (word : List Char) :
    shown Theme.string (segments .source (.word word) line) <+:
        textsOf (.token .string) (cut line).1 ∧
      (shown Theme.string (segments .source (.word word) line) =
          textsOf (.token .string) (cut line).1 ∧
        shown Theme.comment (segments .source (.word word) line) = textsOf .comment (cut line).1 ↔
          ¬ Feigned (cut line).1) := by
  have hm := munch_cut line
  generalize (cut line).1 = pieces, (cut line).2 = rest at hm hcut
  induction hm generalizing word with
  | stop =>
    subst hcut
    have hnone {color : Color} (h : IsSpecial color) :
        shown color (segments .source (.word word) []) = [] := shown_flush h _ _ _
    rw [hnone (.inl rfl), hnone (.inr rfl)]
    exact ⟨List.nil_prefix, fun _ => not_feigned_nil, fun _ => ⟨rfl, rfl⟩⟩
  | @step p cs later rest pieces hl hm ih =>
    subst hcut
    rw [List.mem_append, not_or] at hline
    replace ih := fun word => ih hline.2 word rfl
    have hlater := hm.flatMap_text
    rw [List.append_nil] at hlater
    rw [textsOf_cons, textsOf_cons, feigned_cons, hlater]
    by_cases hcomment : p = .comment
    · subst hcomment
      obtain ⟨rfl, rfl⟩ := eq_nil_of_comment hl hm hline.2
      obtain ⟨body, hbody, _⟩ := hl.matched.eq_comment
      have hmark : commentMark <+: cs ++ [] := by
        rw [hbody]
        simp
      obtain ⟨hs, hc⟩ := shown_of_mark word hmark
      rw [hs, hc, if_neg (by decide), if_pos rfl, List.append_nil]
      refine ⟨List.nil_prefix, fun _ => ?_, fun _ => ⟨rfl, rfl⟩⟩
      rintro (⟨hname, _⟩ | hnil)
      · cases hname
      · exact not_feigned_nil hnil
    by_cases hstring : p = .token .string
    · subst hstring
      obtain ⟨body, rfl, hbody⟩ := hl.matched.eq_string
      obtain ⟨hs, hc⟩ := shown_of_literal word (fun hq => (hbody _ hq).1 rfl) later
      rw [hs, hc, if_pos rfl, if_neg (by decide), List.cons.injEq, List.prefix_cons_inj]
      refine ⟨(ih []).1, ?_⟩
      have hplain : ¬ Piece.FeignsComment ⟨.token .string, '"' :: (body ++ ['"'])⟩ later := by
        rintro ⟨hname, _⟩
        cases hname
      simpa only [true_and, hplain, false_or] using (ih []).2
    rw [if_neg hstring, if_neg hcomment]
    by_cases hfeigns : Piece.FeignsComment ⟨p, cs⟩ later
    · obtain ⟨hs, text, hc, hlength⟩ := shown_of_feigned hl hfeigns word
      rw [hs, hc]
      refine ⟨List.nil_prefix, ?_, fun hno => absurd (.inl hfeigns) hno⟩
      -- the comment that is shown is longer than what follows the name
      rintro ⟨-, hcomments⟩
      have hmem : text ∈ textsOf .comment pieces := by
        rw [← hcomments]
        exact List.mem_singleton_self _
      have hle := length_le_of_mem_textsOf hmem
      rw [hlater] at hle
      omega
    · obtain ⟨word', halike⟩ := exists_alike_of_not_feigned hl hcomment hstring hfeigns word
      rw [halike _ (.inl rfl), halike _ (.inr rfl)]
      simpa only [hfeigns, false_or] using ih word'

/-! ## Lines without their carriage return -/

theorem mark_return {cs : List Char} : commentMark <+: cs ++ ['\r'] ↔ commentMark <+: cs := by
  constructor
  · intro h
    rcases prefix_cons_cases h with h | ⟨more, hmark⟩
    · exact h
    · have hno : '\r' ∉ commentMark := by decide
      exact absurd (by rw [hmark]; simp) hno
  · exact fun h => h.trans (List.prefix_append _ _)

/-- A carriage return at the end of a line goes to its comment, if there is one, or to a string
literal that does not end. -/
theorem shown_return (p : Pending) (cs : List Char) :
    shown Theme.comment (segments .source p (cs ++ ['\r'])) =
        (shown Theme.comment (segments .source p cs)).map (· ++ ['\r']) ∧
      ((∀ text ∈ shown Theme.string (segments .source p (cs ++ ['\r'])),
          text.getLast? = some '"') →
        shown Theme.string (segments .source p (cs ++ ['\r'])) =
          shown Theme.string (segments .source p cs)) := by
  fun_induction segments .source p cs with
  | case1 word =>
    have hmark : ¬ commentMark <+: ['\r'] := by decide
    obtain ⟨word', halike⟩ := exists_alike_cons word (by decide) hmark
    have hnone {color : Color} (h : IsSpecial color) :
        shown color (segments .source (.word word) ([] ++ ['\r'])) = [] :=
      (halike color h).trans (shown_flush h _ _ _)
    rw [hnone (.inl rfl), hnone (.inr rfl), shown_flush (.inl rfl), shown_flush (.inr rfl)]
    exact ⟨rfl, fun _ => rfl⟩
  | case2 text =>
    have hsegments : segments .source (.string text) ([] ++ ['\r']) =
        [stringSegment (text ++ ['\r'])] := segments_string_open .source text (by decide)
    rw [hsegments, shown_stringSegment_comment, shown_stringSegment_comment, shown_stringSegment]
    refine ⟨rfl, fun hends => ?_⟩
    have hlast := hends _ List.mem_cons_self
    rw [List.getLast?_concat] at hlast
    cases hlast
  | case3 text cs ih =>
    rw [List.cons_append, segments, if_pos rfl, shown_stringSegment_comment,
      shown_stringSegment_comment, shown_stringSegment, shown_stringSegment]
    refine ⟨ih.1, fun hends => congrArg _ (ih.2 ?_)⟩
    exact (List.forall_mem_cons.1 hends).2
  | case4 text c cs hquote ih =>
    rw [List.cons_append, segments, if_neg hquote]
    exact ih
  | case5 word c cs hmark =>
    have hbegins := isPrefixOf_source.1 hmark
    obtain ⟨hs, hc⟩ := shown_of_mark word hbegins
    obtain ⟨hs', hc'⟩ := shown_of_mark word (mark_return.2 hbegins)
    rw [segments, if_pos hmark] at hs hc
    rw [hs, hc, hs', hc']
    exact ⟨rfl, fun _ => rfl⟩
  | case6 word cs hmark ih =>
    rw [isPrefixOf_source, ← mark_return, ← isPrefixOf_source] at hmark
    rw [List.cons_append] at hmark ⊢
    rw [segments, if_neg hmark, if_pos rfl]
    simp only [shown_append, shown_flush (.inl rfl), shown_flush (.inr rfl), List.nil_append]
    exact ih
  | case7 word c cs hmark hquote hword ih =>
    rw [isPrefixOf_source, ← mark_return, ← isPrefixOf_source] at hmark
    rw [List.cons_append] at hmark ⊢
    rw [segments, if_neg hmark, if_neg hquote, if_pos hword]
    exact ih
  | case8 word c cs hmark hquote hword ih =>
    rw [isPrefixOf_source, ← mark_return, ← isPrefixOf_source] at hmark
    rw [List.cons_append] at hmark ⊢
    rw [segments, if_neg hmark, if_neg hquote, if_neg hword]
    simp only [shown_append, shown_flush (.inl rfl), shown_flush (.inr rfl), List.nil_append,
      shown_markSegment_cons (.inl rfl), shown_markSegment_cons (.inr rfl)]
    exact ih

/-- A string literal of a line ends in its quote. -/
theorem getLast?_of_mem_textsOf {cs text : List Char}
    (h : text ∈ textsOf (.token .string) (cut cs).1) : text.getLast? = some '"' := by
  obtain ⟨piece, hp, rfl⟩ := List.mem_map.1 h
  obtain ⟨hmem, hpattern⟩ := List.mem_filter.1 hp
  have hmatch := (munch_cut cs).matches_of_mem piece hmem
  rw [of_decide_eq_true hpattern] at hmatch
  obtain ⟨body, hbody, _⟩ := hmatch.eq_string
  rw [hbody, ← List.cons_append, List.getLast?_concat]

/-- A line that can be read shows the same with a carriage return after it, but for the carriage
return at the end of its comment. -/
theorem shown_ending {line ending : List Char} (hending : ending = [] ∨ ending = ['\r'])
    (hline : '\n' ∉ line ++ ending) (hcut : (cut (line ++ ending)).2 = []) :
    shown Theme.string (highlight .source (line ++ ending)) =
        shown Theme.string (highlight .source line) ∧
      shown Theme.comment (highlight .source (line ++ ending)) =
        (shown Theme.comment (highlight .source line)).map (· ++ ending) := by
  rcases hending with rfl | rfl
  · simp
  · obtain ⟨hcomments, hstrings⟩ := shown_return (.word []) line
    refine ⟨hstrings fun text htext => ?_, hcomments⟩
    have hfirst := (shown_segments_iff hline hcut []).1
    exact getLast?_of_mem_textsOf (hfirst.subset htext)

end Highlight

open Highlight Token

/-- **Highlighting agrees with reading, but for names that feign a comment.** On a line of a
compiled source, highlighting shows the string literals among its tokens and the comment that is
skipped there, up to the carriage return that ends the line, just if no name on it ends in the word
of comments, after more, with the colon right after it. In any case the literals that it shows are
the first of those. -/
theorem highlight_agrees_iff {indent source : String} {c : Compilation}
    (h : compile indent source = .ok c) {n : Nat} {line : List Char}
    (hline : (Text.lines source.toList)[n]? = some line) :
    ∃ front ending rest, Text.LineOf source.toList front (line ++ ending) rest ∧
      front.count '\n' = n ∧ (ending = [] ∨ ending = ['\r']) ∧
      shown Theme.string (highlight .source line) <+: stringsOn (n + 1) c.tokens ∧
      (shown Theme.string (highlight .source line) = stringsOn (n + 1) c.tokens ∧
        (shown Theme.comment (highlight .source line)).map (· ++ ending) =
          commentsOn (n + 1) source.toList ↔
        ¬ ∃ t ∈ c.tokens, t.location.line = n + 1 ∧ t.FeignsComment source.toList) := by
  have htokens := (compile_eq_ok h).1
  obtain ⟨front, ending, rest, hof, rfl, hending⟩ := Text.exists_lineOf hline
  have hread := htokens
  rw [tokenize_eq_readFrom] at hread
  have hcut := (exists_words hof hread).1
  have hstrings : stringsOn (1 + front.count '\n') c.tokens =
      textsOf (.token .string) (cut (line ++ ending)).1 :=
    (stringsOn_eq_textsOn htokens _).trans (textsOn_eq hof hread (by decide))
  have hcomments : commentsOn (1 + front.count '\n') source.toList =
      textsOf .comment (cut (line ++ ending)).1 := textsOn_eq hof hread (by decide)
  obtain ⟨hs, hc⟩ := shown_ending hending hof.oneLine hcut
  refine ⟨front, ending, rest, hof, rfl, hending, ?_⟩
  rw [Nat.add_comm, hstrings, hcomments, ← feigned_iff htokens hof, ← hs, ← hc]
  exact shown_segments_iff hof.oneLine hcut []

/-- The mark of comments inside a string literal, and a quoted text inside a comment. -/
def quotedMark : String := "\nfuzzy string s = \"comment:\" comment: \"b\"\r\n"

/-- What it is compiled to. -/
def quotedMarkCompiled : Compilation where
  tokens := [⟨.declare, .text "fuzzy", ⟨2, 1⟩⟩, ⟨.identifier, .text "string", ⟨2, 7⟩⟩,
    ⟨.identifier, .text "s", ⟨2, 14⟩⟩, ⟨.equals, .text "=", ⟨2, 16⟩⟩,
    ⟨.string, .text "\"comment:\"", ⟨2, 18⟩⟩]
  entries := [⟨.declare "s" .string (.string "\"comment:\""), ⟨0, 5⟩, ⟨2, 1⟩⟩]
  output := "fn main() \x7b\nlet s: &str = \"comment:\";\n\x7d\n"

/-- Its second line shows one literal, and one comment without the carriage return. -/
theorem highlight_agrees_quotedMark :
    compile "" quotedMark = .ok quotedMarkCompiled ∧
      ∃ line, (Text.lines quotedMark.toList)[1]? = some line ∧
        shown Theme.string (highlight .source line) = ["\"comment:\"".toList] ∧
        shown Theme.comment (highlight .source line) = ["comment: \"b\"".toList] ∧
        ∃ front ending rest, Text.LineOf quotedMark.toList front (line ++ ending) rest ∧
          front.count '\n' = 1 ∧ (ending = [] ∨ ending = ['\r']) ∧
          shown Theme.string (highlight .source line) <+:
            stringsOn (1 + 1) quotedMarkCompiled.tokens ∧
          (shown Theme.string (highlight .source line) =
                stringsOn (1 + 1) quotedMarkCompiled.tokens ∧
            (shown Theme.comment (highlight .source line)).map (· ++ ending) =
              commentsOn (1 + 1) quotedMark.toList ↔
            ¬ ∃ t ∈ quotedMarkCompiled.tokens, t.location.line = 1 + 1 ∧
              t.FeignsComment quotedMark.toList) := by
  have hcompile : compile "" quotedMark = .ok quotedMarkCompiled := by decide +kernel
  refine ⟨hcompile, "fuzzy string s = \"comment:\" comment: \"b\"".toList, ?_, ?_, ?_,
    highlight_agrees_iff hcompile ?_⟩ <;> decide +kernel

/-- A function whose argument ends in the word of comments. -/
def feigningArgument : String := "suzy f(xcomment: int) -> int \x7bflabs 1;\x7d"

/-- It is compiled and has no comment, but from the middle of the argument's name on it is shown as
one. -/
theorem feigningArgument_shown :
    (∃ c, compile Compilation.defaultIndent feigningArgument = .ok c ∧
      ⟨.identifier, .text "xcomment", ⟨1, 8⟩⟩ ∈ c.tokens) ∧
      Text.lines feigningArgument.toList = [feigningArgument.toList] ∧
      commentsOn 1 feigningArgument.toList = [] ∧
      shown Theme.comment (highlight .source feigningArgument.toList) =
        ["comment: int) -> int \x7bflabs 1;\x7d".toList] := by
  refine ⟨⟨⟨[⟨.function, .text "suzy", ⟨1, 1⟩⟩, ⟨.identifier, .text "f", ⟨1, 6⟩⟩,
      ⟨.leftParen, .text "(", ⟨1, 7⟩⟩, ⟨.identifier, .text "xcomment", ⟨1, 8⟩⟩,
      ⟨.colon, .text ":", ⟨1, 16⟩⟩, ⟨.identifier, .text "int", ⟨1, 18⟩⟩,
      ⟨.rightParen, .text ")", ⟨1, 21⟩⟩, ⟨.arrow, .text "->", ⟨1, 23⟩⟩,
      ⟨.identifier, .text "int", ⟨1, 26⟩⟩, ⟨.leftBrace, .text "\x7b", ⟨1, 30⟩⟩,
      ⟨.result, .text "flabs", ⟨1, 31⟩⟩, ⟨.number, .number (.int 1), ⟨1, 37⟩⟩,
      ⟨.semicolon, .text ";", ⟨1, 38⟩⟩, ⟨.rightBrace, .text "\x7d", ⟨1, 39⟩⟩],
    [⟨.function ⟨"f", "xcomment", "int", "int"⟩, ⟨0, 10⟩, ⟨1, 1⟩⟩,
      ⟨.result (.number (.int 1)), ⟨10, 14⟩, ⟨1, 31⟩⟩],
    "fn f(xcomment: i32) -> i32 \x7b\n    return 1;\n\x7d\nfn main() \x7b\n\x7d\n"⟩, ?_, ?_⟩,
    ?_, ?_, ?_⟩ <;> decide +kernel

end Viewer

end FuzzLang
