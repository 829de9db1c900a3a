import FuzzLang.Proofs.Location
import FuzzLang.Text.Lines

/-!
# Lines and places

The lines of a text and the places in it are counted apart: lines drop the carriage return before a
line feed and open no line after the last one, places count line feeds only. They agree where it
matters. A character that ends no line stands in the line that its place names, as many bytes in as
its column says (`exists_line`), so the place of such a character is one of the text
(`within_after`).
-/

namespace FuzzLang

namespace Text

/-! ## Lines of a text in two parts -/

theorem lines_newline_cons (cs : List Char) : lines ('\n' :: cs) = [] :: lines cs := by
  rw [lines, if_pos rfl]
  exact nofun

/-- A character that ends no line goes to the front of the line after it. -/
theorem lines_cons {c : Char} {cs : List Char} (hn : c ≠ '\n')
    (hr : c = '\r' → ∀ d ∈ cs.head?, d ≠ '\n') :
    lines (c :: cs) = match lines cs with
      | [] => [[c]]
      | l :: ls => (c :: l) :: ls := by
  have hcr : ∀ rest, c = '\r' → cs = '\n' :: rest → False := by
    rintro rest rfl rfl
    exact hr rfl _ rfl rfl
  exact (lines.eq_3 c cs hcr).trans (if_neg hn)

/-- Up to a line feed the lines do not depend on what follows it. -/
theorem exists_lines_newline (cs : List Char) :
    ∃ front : List (List Char), front.length = 1 + cs.count '\n' ∧
      ∀ ds, lines (cs ++ '\n' :: ds) = front ++ lines ds := by
  have hstep {c : Char} {cs : List Char} (hn : c ≠ '\n')
      (hr : ∀ rest, c = '\r' → cs = '\n' :: rest → False)
      (ih : ∃ front : List (List Char), front.length = 1 + cs.count '\n' ∧
        ∀ ds, lines (cs ++ '\n' :: ds) = front ++ lines ds) :
      ∃ front : List (List Char), front.length = 1 + (c :: cs).count '\n' ∧
        ∀ ds, lines (c :: cs ++ '\n' :: ds) = front ++ lines ds := by
    by_cases hlast : c = '\r' ∧ cs = []
    · -- the carriage return goes with the line feed
      obtain ⟨rfl, rfl⟩ := hlast
      exact ⟨[[]], rfl, fun ds => rfl⟩
    · obtain ⟨front, hlength, hfront⟩ := ih
      obtain ⟨line, later, rfl⟩ := List.exists_cons_of_length_pos (l := front) (by omega)
      refine ⟨(c :: line) :: later, by simpa [hn] using hlength, fun ds => ?_⟩
      have hhead : c = '\r' → ∀ d ∈ (cs ++ '\n' :: ds).head?, d ≠ '\n' := by
        rintro hc d hd rfl
        cases cs with
        | nil => exact hlast ⟨hc, rfl⟩
        | cons e es =>
          obtain rfl : e = '\n' := Option.some.inj hd
          exact hr es hc rfl
      rw [List.cons_append, lines_cons hn hhead, hfront]
      rfl
  fun_induction lines cs with
  | case1 => exact ⟨[[]], rfl, lines_newline_cons⟩
  | case2 cs ih =>
    obtain ⟨front, hlength, hfront⟩ := ih
    refine ⟨[] :: front, ?_, fun ds => ?_⟩
    · simp only [List.length_cons, List.count_cons_self, hlength,
        List.count_cons_of_ne (show '\r' ≠ '\n' by decide)]
      omega
    · rw [List.cons_append, List.cons_append, lines, hfront]
      rfl
  | case3 cs hr ih =>
    obtain ⟨front, hlength, hfront⟩ := ih
    refine ⟨[] :: front, ?_, fun ds => ?_⟩
    · rw [List.length_cons, List.count_cons_self, hlength]
      omega
    · rw [List.cons_append, lines_newline_cons, hfront]
      rfl
  | case4 c cs hr hn _ ih => exact hstep hn hr ih
  | case5 c cs hr hn _ _ _ ih => exact hstep hn hr ih

/-- A text without line feeds is the start of the first line. -/
theorem exists_lines_first {cs : List Char} (rest : List Char) {c : Char} (hcs : '\n' ∉ cs)
    (hn : c ≠ '\n') (hr : c ≠ '\r') :
    ∃ right later, lines (cs ++ c :: rest) = (cs ++ c :: right) :: later := by
  induction cs with
  | nil =>
    rw [List.nil_append, lines_cons hn fun h => absurd h hr]
    cases lines rest with
    | nil => exact ⟨[], [], rfl⟩
    | cons l ls => exact ⟨l, ls, rfl⟩
  | cons d ds ih =>
    rw [List.mem_cons, not_or] at hcs
    obtain ⟨right, later, hlines⟩ := ih hcs.2
    have hhead : d = '\r' → ∀ e ∈ (ds ++ c :: rest).head?, e ≠ '\n' := by
      rintro - e he rfl
      cases ds with
      | nil => exact hn (Option.some.inj he)
      | cons f fs => exact hcs.2 (List.mem_cons.2 (.inl (Option.some.inj he).symm))
    rw [List.cons_append, lines_cons (Ne.symm hcs.1) hhead, hlines]
    exact ⟨right, later, rfl⟩

/-! ## A line and what stands around it -/

/-- A text with one of its lines set apart. Before the line is nothing or a line feed, and so is
after it. -/
structure LineOf (cs front line rest : List Char) : Prop where
  text : cs = front ++ (line ++ rest)
  oneLine : '\n' ∉ line
  begins : front = [] ∨ ∃ earlier, front = earlier ++ ['\n']
  ends : rest = [] ∨ ∃ later, rest = '\n' :: later

theorem LineOf.cons_newline {cs front line rest : List Char} (h : LineOf cs front line rest) :
    LineOf ('\n' :: cs) ('\n' :: front) line rest := by
  refine ⟨congrArg _ h.text, h.oneLine, .inr ?_, h.ends⟩
  rcases h.begins with rfl | ⟨earlier, rfl⟩
  · exact ⟨[], rfl⟩
  · exact ⟨'\n' :: earlier, rfl⟩

theorem LineOf.cons_front {cs front line rest : List Char} (c : Char)
    (h : LineOf cs front line rest) (hne : front ≠ []) :
    LineOf (c :: cs) (c :: front) line rest := by
  obtain ⟨earlier, rfl⟩ := h.begins.resolve_left hne
  exact ⟨congrArg _ h.text, h.oneLine, .inr ⟨c :: earlier, rfl⟩, h.ends⟩

theorem eq_nil_of_lines {cs : List Char} (h : lines cs = []) : cs = [] := by
  revert h
  fun_cases lines cs with
  | case1 => exact fun _ => rfl
  | _ => simp

/-- A line stands in its text, followed by a carriage return if it lost one, and after as many line
feeds as its number says. -/
theorem exists_lineOf {cs line : List Char} {n : Nat} (h : (lines cs)[n]? = some line) :
    ∃ front ending rest, LineOf cs front (line ++ ending) rest ∧ front.count '\n' = n ∧
      (ending = [] ∨ ending = ['\r']) := by
  fun_induction lines cs generalizing n line with
  | case1 => simp at h
  | case2 cs ih =>
    cases n with
    | zero =>
      obtain rfl : [] = line := by simpa using h
      exact ⟨[], ['\r'], '\n' :: cs, ⟨rfl, by simp, .inl rfl, .inr ⟨cs, rfl⟩⟩, rfl, .inr rfl⟩
    | succ n =>
      obtain ⟨front, ending, rest, hline, hcount, hending⟩ := ih (by simpa using h)
      refine ⟨'\r' :: '\n' :: front, ending, rest, hline.cons_newline.cons_front '\r' (by simp), ?_,
        hending⟩
      rw [List.count_cons_of_ne (by decide), List.count_cons_self, hcount]
  | case3 cs hr ih =>
    cases n with
    | zero =>
      obtain rfl : [] = line := by simpa using h
      exact ⟨[], [], '\n' :: cs, ⟨rfl, by simp, .inl rfl, .inr ⟨cs, rfl⟩⟩, rfl, .inl rfl⟩
    | succ n =>
      obtain ⟨front, ending, rest, hline, hcount, hending⟩ := ih (by simpa using h)
      refine ⟨'\n' :: front, ending, rest, hline.cons_newline, ?_, hending⟩
      rw [List.count_cons_self, hcount]
  | case4 c cs hr hn hlines ih =>
    obtain rfl := eq_nil_of_lines hlines
    cases n with
    | zero =>
      obtain rfl : [c] = line := by simpa using h
      exact ⟨[], [], [], ⟨rfl, by simpa using Ne.symm hn, .inl rfl, .inl rfl⟩, rfl, .inl rfl⟩
    | succ n => simp at h
  | case5 c cs hr hn first later hlines ih =>
    rw [hlines] at ih
    cases n with
    | zero =>
      obtain rfl : c :: first = line := by simpa using h
      obtain ⟨front, ending, rest, hline, hcount, hending⟩ := ih (n := 0) rfl
      -- without a line feed before it the line is at the front
      obtain rfl : front = [] := by
        rcases hline.begins with hnil | ⟨earlier, rfl⟩
        · exact hnil
        · simp at hcount
      refine ⟨[], ending, rest, ⟨congrArg _ hline.text, ?_, .inl rfl, hline.ends⟩, rfl, hending⟩
      rw [List.cons_append, List.mem_cons, not_or]
      exact ⟨Ne.symm hn, hline.oneLine⟩
    | succ n =>
      obtain ⟨front, ending, rest, hline, hcount, hending⟩ := ih (n := n + 1) (by simpa using h)
      refine ⟨c :: front, ending, rest, hline.cons_front c ?_, ?_, hending⟩
      · rintro rfl
        simp at hcount
      · rw [List.count_cons_of_ne hn, hcount]

end Text

/-! ## Places on lines -/

namespace Location

/-- Before the first line feed columns count bytes. -/
theorem after_of_not_mem {cs : List Char} (h : '\n' ∉ cs) : after cs = ⟨1, utf8Length cs + 1⟩ := by
  have hfold (l : Location) : cs.foldl next l = ⟨l.line, l.column + utf8Length cs⟩ := by
    induction cs generalizing l with
    | nil => rfl
    | cons c cs ih =>
      rw [List.mem_cons, not_or] at h
      rw [List.foldl_cons, ih h.2, next, if_neg (Ne.symm h.1), utf8Length_cons]
      simp only [Nat.add_assoc]
  rw [after, hfold, Nat.add_comm]

end Location

/-- A text with a line feed in it, cut at the last one. -/
theorem exists_last_newline {cs : List Char} (h : '\n' ∈ cs) :
    ∃ earlier final, cs = earlier ++ '\n' :: final ∧ '\n' ∉ final := by
  obtain ⟨final, earlier, hcs, hfinal⟩ := List.eq_append_cons_of_mem (List.mem_reverse.2 h)
  refine ⟨earlier.reverse, final.reverse, ?_, fun hn => hfinal (List.mem_reverse.1 hn)⟩
  rw [← List.reverse_reverse cs, hcs, List.reverse_append, List.reverse_cons, List.append_assoc,
    List.singleton_append]

/-- A character that ends no line stands in the line that its place names, as many bytes in as its
column says. -/
theorem exists_line (before rest : List Char) {c : Char} (hn : c ≠ '\n') (hr : c ≠ '\r') :
    ∃ left right,
      (Text.lines (before ++ c :: rest))[(Location.after before).line - 1]? =
        some (left ++ c :: right) ∧
      (Location.after before).column = utf8Length left + 1 := by
  by_cases hmem : '\n' ∈ before
  · obtain ⟨earlier, final, rfl, hfinal⟩ := exists_last_newline hmem
    obtain ⟨front, hlength, hfront⟩ := Text.exists_lines_newline earlier
    obtain ⟨right, later, hlines⟩ := Text.exists_lines_first rest hfinal hn hr
    rw [Location.after_newline, Location.after_of_not_mem hfinal, List.append_assoc,
      List.cons_append, hfront, hlines]
    refine ⟨final, right, ?_, rfl⟩
    have hline : (Location.lower (1 + earlier.count '\n') ⟨1, utf8Length final + 1⟩).line - 1 =
        front.length := by
      show 1 + (1 + earlier.count '\n') - 1 = front.length
      omega
    rw [hline, List.getElem?_append_right (Nat.le_refl _), Nat.sub_self]
    rfl
  · obtain ⟨right, later, hlines⟩ := Text.exists_lines_first rest hmem hn hr
    rw [Location.after_of_not_mem hmem, hlines]
    exact ⟨before, right, rfl, rfl⟩

/-- A place in a text: the line is one of its lines, and the column that of a byte of the line. -/
structure Location.Within (l : Location) (text : List Char) : Prop where
  line_pos : 1 ≤ l.line
  column_pos : 1 ≤ l.column
  exists_line : ∃ line, (Text.lines text)[l.line - 1]? = some line ∧ l.column ≤ utf8Length line

theorem Location.Within.line_le {l : Location} {text : List Char} (h : l.Within text) :
    l.line ≤ (Text.lines text).length := by
  obtain ⟨line, hline, _⟩ := h.exists_line
  have hlt := (List.getElem?_eq_some_iff.1 hline).1
  have hpos := h.line_pos
  omega

/-- The place of a character that ends no line is one of the text. -/
theorem Location.within_after (before rest : List Char) {c : Char} (hn : c ≠ '\n')
    (hr : c ≠ '\r') : (after before).Within (before ++ c :: rest) := by
  obtain ⟨left, right, hline, hcolumn⟩ := exists_line before rest hn hr
  have hfold := line_after before
  refine ⟨by omega, by omega, _, hline, ?_⟩
  have hsize := c.utf8Size_pos
  rw [hcolumn, utf8Length_append, utf8Length_cons]
  omega

end FuzzLang
