import FuzzLang.Location

/-!
# Places without a table

`Location.after cs` is the place just after the text `cs`, found by walking over it: a line feed
begins the next line, any other character moves on by its bytes. The line table gives the same place
(`locate_utf8Length`), so proofs about places need no tables.

Places stand in results and in faults alike; `mapBoth` changes them in both.
-/

namespace FuzzLang

section

variable {ε δ α β : Type}

/-- Change a fault by one function and a result by another. -/
def mapBoth (f : ε → δ) (g : α → β) : Except ε α → Except δ β
  | .error e => .error (f e)
  | .ok a => .ok (g a)

@[simp] theorem mapBoth_error (f : ε → δ) (g : α → β) (e : ε) :
    mapBoth f g (.error e) = .error (f e) := rfl

@[simp] theorem mapBoth_ok (f : ε → δ) (g : α → β) (a : α) :
    mapBoth f g (.ok a) = .ok (g a) := rfl

theorem mapBoth_id (x : Except ε α) : mapBoth id id x = x := by
  cases x <;> rfl

theorem mapBoth_eq_ok {f : ε → δ} {g : α → β} {x : Except ε α} {b : β}
    (h : mapBoth f g x = .ok b) : ∃ a, x = .ok a ∧ g a = b := by
  cases x with
  | error e => cases h
  | ok a =>
    cases h
    exact ⟨a, rfl, rfl⟩

theorem mapBoth_eq_mapBoth {f : ε → δ} {g : α → β} {x y : Except ε α}
    (h : mapBoth f g x = mapBoth f g y) :
    (∃ e e', x = .error e ∧ y = .error e' ∧ f e = f e') ∨
      ∃ a b, x = .ok a ∧ y = .ok b ∧ g a = g b := by
  cases x with
  | error e =>
    cases y with
    | error e' => exact .inl ⟨e, e', rfl, rfl, Except.error.inj h⟩
    | ok b => cases h
  | ok a =>
    cases y with
    | error e' => cases h
    | ok b => exact .inr ⟨a, b, rfl, rfl, Except.ok.inj h⟩

end

namespace Location

/-- The place after one more character. -/
def next (l : Location) (c : Char) : Location :=
  if c = '\n' then ⟨l.line + 1, 1⟩ else ⟨l.line, l.column + c.utf8Size⟩

/-- The place just after a text. -/
def after (cs : List Char) : Location := cs.foldl next ⟨1, 1⟩

/-- A place some lines further down. -/
def lower (lines : Nat) (l : Location) : Location := ⟨l.line + lines, l.column⟩

theorem foldl_next_lower (lines : Nat) (l : Location) (cs : List Char) :
    cs.foldl next (l.lower lines) = (cs.foldl next l).lower lines := by
  induction cs generalizing l with
  | nil => rfl
  | cons c cs ih =>
    rw [List.foldl_cons, List.foldl_cons, ← ih]
    congr 1
    unfold next lower
    split <;> simp only [Nat.add_right_comm]

theorem line_foldl_next (l : Location) (cs : List Char) :
    (cs.foldl next l).line = l.line + cs.count '\n' := by
  induction cs generalizing l with
  | nil => rfl
  | cons c cs ih =>
    rw [List.foldl_cons, ih, next, List.count_cons]
    by_cases hc : c = '\n'
    · simp only [hc, if_true, beq_self_eq_true]
      omega
    · simp [hc]

theorem line_after (cs : List Char) : (after cs).line = 1 + cs.count '\n' := line_foldl_next _ _

/-- Places after a line feed are those after its line, further down by the lines before. -/
theorem after_newline (cs ds : List Char) :
    after (cs ++ '\n' :: ds) = (after ds).lower (1 + cs.count '\n') := by
  have hnext : next (after cs) '\n' = lower (1 + cs.count '\n') ⟨1, 1⟩ := by
    rw [next, if_pos rfl, line_after, lower, Nat.add_comm]
  unfold after
  rw [List.foldl_append, List.foldl_cons, ← foldl_next_lower]
  exact congrArg (ds.foldl next) hnext

end Location

/-! ## Starts of lines -/

theorem lineStarts_append (offset : Nat) (cs ds : List Char) :
    lineStarts offset (cs ++ ds) =
      lineStarts offset cs ++ lineStarts (offset + utf8Length cs) ds := by
  induction cs generalizing offset with
  | nil => simp [lineStarts]
  | cons c cs ih =>
    simp only [List.cons_append, lineStarts, ih, utf8Length_cons, Nat.add_assoc]
    split <;> rfl

theorem bounds_of_mem_lineStarts {offset start : Nat} {cs : List Char}
    (h : start ∈ lineStarts offset cs) : offset < start ∧ start ≤ offset + utf8Length cs := by
  induction cs generalizing offset with
  | nil => cases h
  | cons c cs ih =>
    have hc := c.utf8Size_pos
    rw [utf8Length_cons]
    simp only [lineStarts] at h
    split at h
    · rcases List.mem_cons.1 h with rfl | h
      · omega
      · have := ih h
        omega
    · have := ih h
      omega

theorem length_lineStarts (offset : Nat) (l : Location) (cs : List Char) :
    (lineStarts offset cs).length + l.line = (cs.foldl Location.next l).line := by
  induction cs generalizing offset l with
  | nil => exact Nat.zero_add _
  | cons c cs ih =>
    rw [List.foldl_cons, ← ih (offset + c.utf8Size), lineStarts, Location.next]
    split
    · simp only [List.length_cons]
      omega
    · rfl

/-- The last line begins as many bytes back as the column counts. -/
theorem getLast_lineStarts (offset : Nat) (l : Location) (cs : List Char)
    (hl : l.column ≤ offset + 1) :
    ((offset + 1 - l.column) :: lineStarts offset cs).getLast (List.cons_ne_nil _ _) +
      (cs.foldl Location.next l).column = offset + utf8Length cs + 1 := by
  induction cs generalizing offset l with
  | nil =>
    simp only [lineStarts, List.getLast_singleton, List.foldl_nil, utf8Length_nil]
    omega
  | cons c cs ih =>
    simp only [List.foldl_cons, lineStarts, utf8Length_cons, Location.next]
    by_cases hc : c = '\n'
    · have hlast := ih (offset + c.utf8Size) ⟨l.line + 1, 1⟩ (by simp only; omega)
      simp only [hc, if_true, Nat.add_sub_cancel] at hlast ⊢
      rw [List.getLast_cons (List.cons_ne_nil _ _), hlast]
      omega
    · have hlast := ih (offset + c.utf8Size) ⟨l.line, l.column + c.utf8Size⟩ (by simp only; omega)
      have hstart : offset + c.utf8Size + 1 - (l.column + c.utf8Size) = offset + 1 - l.column := by
        omega
      simp only [hc, if_false, hstart] at hlast ⊢
      rw [hlast]
      omega

namespace LineTable

/-- The lines that begin in a text, the first included, and those that begin after it. -/
theorem starts_ofSource (cs ds : List Char) :
    (ofSource (cs ++ ds)).starts =
      ((0 :: lineStarts 0 cs) ++ lineStarts (utf8Length cs) ds).toArray := by
  rw [ofSource, lineStarts_append, Nat.zero_add, List.cons_append]

theorem le_of_mem_starts {cs : List Char} {start : Nat} (h : start ∈ 0 :: lineStarts 0 cs) :
    start ≤ utf8Length cs := by
  rcases List.mem_cons.1 h with rfl | h
  · exact Nat.zero_le _
  · have := (bounds_of_mem_lineStarts h).2
    omega

/-- Until the next line begins, the line is the last that begins in the text. -/
theorem lineAt_of_between {cs ds : List Char} {offset : Nat} (hle : utf8Length cs ≤ offset)
    (hlt : ∀ start ∈ lineStarts (utf8Length cs) ds, offset < start) :
    (ofSource (cs ++ ds)).lineAt offset = (0 :: lineStarts 0 cs).length := by
  unfold lineAt
  rw [starts_ofSource]
  apply frontier_eq (Nat.zero_le _)
  · have hsize := Nat.lt_log2_self
      (n := ((0 :: lineStarts 0 cs) ++ lineStarts (utf8Length cs) ds).toArray.size)
    simp only [List.size_toArray, List.length_append] at hsize ⊢
    omega
  · intro k hk hk'
    have hlt : k - 1 < (0 :: lineStarts 0 cs).length := by omega
    simp only [reaches, starts_ofSource, List.getElem?_toArray, List.getElem?_append_left hlt,
      List.getElem?_eq_getElem hlt]
    exact decide_eq_true (Nat.le_trans (le_of_mem_starts (List.getElem_mem hlt)) hle)
  · intro k hk
    have hge : (0 :: lineStarts 0 cs).length ≤ k - 1 := by omega
    simp only [reaches, starts_ofSource, List.getElem?_toArray, List.getElem?_append_right hge]
    split
    · rename_i start hstart
      exact decide_eq_false (Nat.not_le.2 (hlt start (List.mem_of_getElem? hstart)))
    · rfl

theorem getD_starts (cs ds : List Char) :
    (ofSource (cs ++ ds)).starts.getD ((0 :: lineStarts 0 cs).length - 1) 0 =
      (0 :: lineStarts 0 cs).getLast (List.cons_ne_nil _ _) := by
  have hlt : (0 :: lineStarts 0 cs).length - 1 < (0 :: lineStarts 0 cs).length :=
    Nat.lt_succ_self _
  rw [starts_ofSource, List.getLast_eq_getElem, Array.getD_eq_getD_getElem?,
    List.getElem?_toArray, List.getElem?_append_left hlt, List.getElem?_eq_getElem hlt,
    Option.getD_some]

/-- Until the next line begins, columns go on from the place after the text. -/
theorem locate_of_between {cs ds : List Char} {offset : Nat} (hle : utf8Length cs ≤ offset)
    (hlt : ∀ start ∈ lineStarts (utf8Length cs) ds, offset < start) :
    (ofSource (cs ++ ds)).locate offset =
      ⟨(Location.after cs).line, (Location.after cs).column + (offset - utf8Length cs)⟩ := by
  have hline : (0 :: lineStarts 0 cs).length = (Location.after cs).line :=
    length_lineStarts 0 ⟨1, 1⟩ cs
  have hlast : (0 :: lineStarts 0 cs).getLast (List.cons_ne_nil _ _) + (Location.after cs).column =
      0 + utf8Length cs + 1 := getLast_lineStarts 0 ⟨1, 1⟩ cs (Nat.le_refl _)
  have hstart := le_of_mem_starts (List.getLast_mem (List.cons_ne_nil 0 (lineStarts 0 cs)))
  have hcolumn : offset - (0 :: lineStarts 0 cs).getLast (List.cons_ne_nil _ _) + 1 =
      (Location.after cs).column + (offset - utf8Length cs) := by
    omega
  simp only [locate, lineAt_of_between hle hlt, getD_starts, hcolumn]
  rw [hline]

/-- The table finds the place after a text at the offset of its bytes. -/
theorem locate_utf8Length (cs ds : List Char) :
    (ofSource (cs ++ ds)).locate (utf8Length cs) = Location.after cs :=
  (locate_of_between (Nat.le_refl _) fun _ h => (bounds_of_mem_lineStarts h).1).trans
    (by rw [Nat.sub_self, Nat.add_zero])

end LineTable

end FuzzLang
