import FuzzLang.Location
import FuzzLang.Viewer.Highlight

/-!
# Highlighting keeps the text

The segments of a line are its text cut up, none of them empty (`text_segments`,
`ne_nil_of_mem_segments`).

A text kept in bytes can be cut between characters only. `Scan` highlights a line by such cuts:
each round looks at the rest of the line, cuts a piece off its front at a byte offset, and fails if
the offset is inside a character. No round fails, every round shortens the rest, and the segments
are those of `highlight` (`Scan.round_of_cons`, `highlight_keeps`).
-/

namespace FuzzLang

open Screen

@[simp] theorem Screen.StyledLine.text_append (l m : StyledLine) :
    StyledLine.text (l ++ m) = StyledLine.text l ++ StyledLine.text m := List.flatMap_append

@[simp] theorem Screen.StyledLine.text_cons (s : Segment) (l : StyledLine) :
    StyledLine.text (s :: l) = s.text ++ StyledLine.text l := rfl

@[simp] theorem Screen.StyledLine.text_nil : StyledLine.text [] = [] := rfl

namespace Viewer.Highlight

variable (d : Dialect)

/-! ## Segments of a line -/

@[simp] theorem text_flush (word : List Char) (called : Bool) :
    StyledLine.text (flush d word called) = word := by
  cases word with
  | nil => rfl
  | cons c word => exact List.append_nil _

theorem ne_nil_of_mem_flush {d : Dialect} {word : List Char} {called : Bool} :
    ∀ s ∈ flush d word called, s.text ≠ [] := by
  intro s hs
  cases word with
  | nil => cases hs
  | cons c word =>
    rw [List.mem_singleton.1 hs]
    exact List.cons_ne_nil c word

/-- What has been read and is in no segment yet. -/
def Pending.text : Pending → List Char
  | .word text => text
  | .string text => text

/-- Put together, the segments are the text. -/
theorem text_segments (p : Pending) (cs : List Char) :
    StyledLine.text (segments d p cs) = p.text ++ cs := by
  fun_induction segments d p cs with
  | case1 word => simp [Pending.text]
  | case2 text => simp [Pending.text, stringSegment]
  | case3 text cs ih => simpa [Pending.text, stringSegment] using ih
  | case4 text c cs hquote ih => simpa [Pending.text] using ih
  | case5 word c cs hcomment => simp [Pending.text]
  | case6 word cs hcomment ih => simpa [Pending.text] using ih
  | case7 word c cs hcomment hquote hword ih => simpa [Pending.text] using ih
  | case8 word c cs hcomment hquote hword ih => simpa [Pending.text, markSegment] using ih

theorem ne_nil_of_mem_segments {p : Pending} {cs : List Char} (hp : p ≠ .string []) :
    ∀ s ∈ segments d p cs, s.text ≠ [] := by
  fun_induction segments d p cs with
  | case1 word => exact ne_nil_of_mem_flush
  | case2 text =>
    intro s hs
    rw [List.mem_singleton.1 hs]
    exact fun hnil => hp (congrArg Pending.string hnil)
  | case3 text cs ih =>
    exact List.forall_mem_cons.2 ⟨by simp [stringSegment], ih (by simp)⟩
  | case4 text c cs hquote ih => exact ih (by simp)
  | case5 word c cs hcomment =>
    exact List.forall_mem_append.2 ⟨ne_nil_of_mem_flush, by simp⟩
  | case6 word cs hcomment ih =>
    exact List.forall_mem_append.2 ⟨ne_nil_of_mem_flush, ih (by simp)⟩
  | case7 word c cs hcomment hquote hword ih => exact ih (by simp)
  | case8 word c cs hcomment hquote hword ih =>
    exact List.forall_mem_append.2 ⟨ne_nil_of_mem_flush,
      List.forall_mem_cons.2 ⟨by simp [markSegment], ih (by simp)⟩⟩

/-- A string literal ends at the next quote. -/
theorem segments_string_quote (text : List Char) {body : List Char} (h : '"' ∉ body)
    (rest : List Char) :
    segments d (.string text) (body ++ '"' :: rest) =
      stringSegment (text ++ (body ++ ['"'])) :: segments d (.word []) rest := by
  induction body generalizing text with
  | nil => rw [List.nil_append, segments, if_pos rfl, List.nil_append]
  | cons c body ih =>
    rw [List.mem_cons, not_or] at h
    rw [List.cons_append, segments, if_neg (Ne.symm h.1), ih _ h.2, List.append_assoc]
    rfl

/-- Without a quote to end it a string literal takes the whole line. -/
theorem segments_string_open (text : List Char) {cs : List Char} (h : '"' ∉ cs) :
    segments d (.string text) cs = [stringSegment (text ++ cs)] := by
  induction cs generalizing text with
  | nil => rw [segments, List.append_nil]
  | cons c cs ih =>
    rw [List.mem_cons, not_or] at h
    rw [segments, if_neg (Ne.symm h.1), ih _ h.2, List.append_assoc]
    rfl

/-! ## Cutting at byte offsets -/

/-- A text cut at a byte offset, if that is between two characters or at an end. -/
def cutAt? : Nat → List Char → Option (List Char × List Char)
  | 0, cs => some ([], cs)
  | _ + 1, [] => none
  | n + 1, c :: cs =>
    if c.utf8Size ≤ n + 1 then (cutAt? (n + 1 - c.utf8Size) cs).map fun (left, right) =>
      (c :: left, right)
    else none

theorem cutAt?_utf8Length (left right : List Char) :
    cutAt? (utf8Length left) (left ++ right) = some (left, right) := by
  induction left with
  | nil => rw [utf8Length_nil, List.nil_append, cutAt?]
  | cons c left ih =>
    obtain ⟨n, hn⟩ : ∃ n, utf8Length (c :: left) = n + 1 :=
      Nat.exists_eq_add_one.2 (Nat.lt_of_lt_of_le c.utf8Size_pos (Nat.le_add_right _ _))
    have hrest : n + 1 - c.utf8Size = utf8Length left := by
      rw [← hn, utf8Length_cons, Nat.add_sub_cancel_left]
    have hle : c.utf8Size ≤ n + 1 := hn ▸ Nat.le_add_right _ _
    rw [hn, List.cons_append, cutAt?, if_pos hle, hrest, ih]
    rfl

/-- The byte offset of the first quote. -/
def quoteAt? : List Char → Option Nat
  | [] => none
  | c :: cs => if c = '"' then some 0 else (quoteAt? cs).map (c.utf8Size + ·)

theorem quoteAt?_cases (cs : List Char) :
    ('"' ∉ cs ∧ quoteAt? cs = none) ∨
      ∃ body rest, cs = body ++ '"' :: rest ∧ '"' ∉ body ∧
        quoteAt? cs = some (utf8Length body) := by
  induction cs with
  | nil => exact .inl ⟨List.not_mem_nil, rfl⟩
  | cons c cs ih =>
    by_cases hc : c = '"'
    · exact .inr ⟨[], cs, by rw [hc]; rfl, List.not_mem_nil, if_pos hc⟩
    · rcases ih with ⟨hno, hnone⟩ | ⟨body, rest, rfl, hbody, hsome⟩
      · refine .inl ⟨by simp [Ne.symm hc, hno], ?_⟩
        rw [quoteAt?, if_neg hc, hnone]
        rfl
      · refine .inr ⟨c :: body, rest, rfl, by simp [Ne.symm hc, hbody], ?_⟩
        rw [quoteAt?, if_neg hc, hsome]
        rfl

/-! ## Round by round -/

/-- A line under way: the segments that are done, the word that is not, and the rest of the line. -/
structure Scan where
  done : StyledLine
  word : List Char
  rest : List Char

namespace Scan

/-- One round, unless it cuts inside a character. It takes a comment, a string literal, or one more
character of a word or a mark. -/
def round (s : Scan) : Option Scan :=
  match s.rest with
  | [] => some s
  | c :: cs =>
    if d.commentMark.isPrefixOf (c :: cs) then
      some ⟨s.done ++ flush d s.word false ++ [⟨c :: cs, { fg := Theme.comment }⟩], [], []⟩
    else if c = '"' then do
      let (_, inside) ← cutAt? 1 (c :: cs)
      let stop := match quoteAt? inside with
        | some offset => offset + 2
        | none => utf8Length (c :: cs)
      let (literal, rest) ← cutAt? stop (c :: cs)
      some ⟨s.done ++ flush d s.word false ++ [stringSegment literal], [], rest⟩
    else do
      let (_, rest) ← cutAt? c.utf8Size (c :: cs)
      if continues s.word c then some ⟨s.done, s.word ++ [c], rest⟩
      else some ⟨s.done ++ flush d s.word (c == '(') ++ [markSegment c], [], rest⟩

/-- So many rounds, unless one of them fails. -/
def rounds : Nat → Scan → Option Scan
  | 0, s => some s
  | n + 1, s => (s.round d).bind (rounds n)

/-- What the segments come to if the rest of the line is highlighted. -/
def outcome (s : Scan) : StyledLine := s.done ++ segments d (.word s.word) s.rest

/-- The string literal that a text begins with, up to the next quote or to the end, in bytes. -/
theorem cutAt?_literal (cs : List Char) :
    ∃ literal rest, '"' :: cs = literal ++ rest ∧ literal ≠ [] ∧
      cutAt? (match quoteAt? cs with
        | some offset => offset + 2
        | none => utf8Length ('"' :: cs)) ('"' :: cs) = some (literal, rest) ∧
      segments d (.string ['"']) cs = stringSegment literal :: segments d (.word []) rest := by
  rcases quoteAt?_cases cs with ⟨hno, hnone⟩ | ⟨body, rest, rfl, hbody, hsome⟩
  · refine ⟨'"' :: cs, [], (List.append_nil _).symm, List.cons_ne_nil _ _, ?_, ?_⟩
    · rw [hnone]
      simpa using cutAt?_utf8Length ('"' :: cs) []
    · exact segments_string_open d ['"'] hno
  · refine ⟨'"' :: (body ++ ['"']), rest, by simp, List.cons_ne_nil _ _, ?_, ?_⟩
    · have hlength : utf8Length ('"' :: (body ++ ['"'])) = utf8Length body + 2 := by
        rw [utf8Length_cons, utf8Length_append]
        show 1 + (utf8Length body + 1) = _
        omega
      rw [hsome]
      simpa [hlength] using cutAt?_utf8Length ('"' :: (body ++ ['"'])) rest
    · exact segments_string_quote d ['"'] hbody rest

/-- A round does not fail, takes something off the rest and does not change the outcome. -/
theorem round_of_cons {s : Scan} {c : Char} {cs : List Char} (h : s.rest = c :: cs) :
    ∃ t, s.round d = some t ∧ t.rest.length ≤ cs.length ∧ t.outcome d = s.outcome d := by
  obtain ⟨done, word, rest⟩ := s
  obtain rfl : rest = c :: cs := h
  have hone : cutAt? c.utf8Size (c :: cs) = some ([c], cs) := cutAt?_utf8Length [c] cs
  by_cases hcomment : d.commentMark.isPrefixOf (c :: cs) = true
  · refine ⟨_, if_pos hcomment, Nat.zero_le _, ?_⟩
    simp [outcome, segments, hcomment, flush]
  by_cases hquote : c = '"'
  · subst hquote
    obtain ⟨literal, later, htext, hne, hcut, hsegments⟩ := cutAt?_literal d cs
    refine ⟨⟨done ++ flush d word false ++ [stringSegment literal], [], later⟩, ?_, ?_, ?_⟩
    · have hinside : cutAt? 1 ('"' :: cs) = some (['"'], cs) := hone
      simp only [round, if_neg hcomment, if_true, hinside, Option.bind_eq_bind, Option.bind_some,
        hcut]
    · have hlength := congrArg List.length htext
      have hpos := List.length_pos_iff.2 hne
      rw [List.length_cons, List.length_append] at hlength
      show later.length ≤ cs.length
      omega
    · simp [outcome, segments, hcomment, hsegments]
  by_cases hword : continues word c = true
  · refine ⟨⟨done, word ++ [c], cs⟩, ?_, Nat.le_refl _, ?_⟩
    · simp [round, hcomment, hquote, hone, hword]
    · simp [outcome, segments, hcomment, hquote, hword]
  · refine ⟨⟨done ++ flush d word (c == '(') ++ [markSegment c], [], cs⟩, ?_, Nat.le_refl _, ?_⟩
    · simp [round, hcomment, hquote, hone, hword]
    · simp [outcome, segments, hcomment, hquote, hword]

/-- As many rounds as there are characters left are enough, and none of them fails. -/
theorem rounds_of_length_le {s : Scan} {n : Nat} (h : s.rest.length ≤ n) :
    ∃ t, rounds d n s = some t ∧ t.rest = [] ∧ t.outcome d = s.outcome d := by
  induction n generalizing s with
  | zero => exact ⟨s, rfl, List.length_eq_zero_iff.1 (Nat.le_zero.1 h), rfl⟩
  | succ n ih =>
    cases hrest : s.rest with
    | nil =>
      have hround : s.round d = some s := by rw [round, hrest]
      rw [rounds, hround, Option.bind_some]
      exact ih (by rw [hrest]; exact Nat.zero_le _)
    | cons c cs =>
      obtain ⟨t, hround, hlength, houtcome⟩ := round_of_cons d hrest
      rw [hrest, List.length_cons] at h
      obtain ⟨u, hrounds, hdone, hu⟩ := ih (s := t) (by omega)
      exact ⟨u, by rw [rounds, hround, Option.bind_some, hrounds], hdone, hu.trans houtcome⟩

end Scan

/-- The segments of a line by cuts at byte offsets, if none is inside a character and the line is
done after as many rounds as it has characters. -/
def scan? (line : List Char) : Option StyledLine :=
  match Scan.rounds d line.length ⟨[], [], line⟩ with
  | some ⟨done, word, []⟩ => some (done ++ flush d word false)
  | _ => none

theorem scan?_eq (line : List Char) : scan? d line = some (highlight d line) := by
  obtain ⟨⟨done, word, rest⟩, hrounds, rfl, houtcome⟩ :=
    Scan.rounds_of_length_le d (s := ⟨[], [], line⟩) (Nat.le_refl _)
  rw [scan?, hrounds]
  refine congrArg some ?_
  simpa [Scan.outcome, segments, highlight] using houtcome

end Viewer.Highlight

/-- **Highlighting keeps the text.** In either dialect a line is done after at most one round for
each of its characters, no cut is inside a character, the segments put together are the line, and
none is empty. -/
theorem Viewer.highlight_keeps (d : Dialect) (line : List Char) :
    Highlight.scan? d line = some (highlight d line) ∧
      StyledLine.text (highlight d line) = line ∧
      ∀ s ∈ highlight d line, s.text ≠ [] :=
  ⟨Highlight.scan?_eq d line, Highlight.text_segments d (.word []) line,
    Highlight.ne_nil_of_mem_segments d (by simp)⟩

end FuzzLang
