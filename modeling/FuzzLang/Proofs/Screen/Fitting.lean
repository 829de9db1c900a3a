import FuzzLang.Screen.Wrap

/-!
# What fits where

The rows of a frame are as wide as the frame, so a frame, and what stands inside it, is found again
on a screen that is made of frames (`region_upperRight`, `region_lowerRight`, `region_framed`).
Wrapped rows fit the width they were wrapped to (`length_le_of_mem_wrap`): no more than a row full
of cells ever waits for its end.
-/

namespace FuzzLang.Screen

/-! ## Sizes -/

theorem length_of_mem_fitAll {width height : Nat} {fill : Cell} {rows : Canvas} {row : Row}
    (h : row ∈ fitAll width height fill rows) : row.length = width := by
  rcases List.mem_append.1 h with h | h
  · obtain ⟨r, -, rfl⟩ := List.mem_map.1 h
    exact length_fit width fill r
  · rw [List.eq_of_mem_replicate h, List.length_replicate]

theorem length_between {width : Nat} {first last : Char} {style : Style} {middle : Row}
    (h : middle.length = width - 2) : (between width first last style middle).length = width := by
  unfold between
  split
  · simp [*]
  · split
    · simp [*]
    · simp only [List.length_append, List.length_cons, List.length_nil, h]
      omega

/-- The rows of a frame: a rule, what stands inside, and a rule. -/
theorem framed_eq (width : Nat) {height : Nat} (hh : 2 ≤ height) (title : String) (style : Style)
    (rows : Canvas) :
    ∃ top bottom, framed width height title style rows =
      between width '┌' '┐' style top ::
        ((fitAll (width - 2) (height - 2) {} rows).map (between width '│' '│' style) ++
          [between width '└' '┘' style bottom]) ∧
      top.length = width - 2 ∧ bottom.length = width - 2 := by
  obtain ⟨n, rfl⟩ : ∃ n, height = n + 2 := ⟨height - 2, by omega⟩
  exact ⟨_, _, rfl, length_fit _ _ _, List.length_replicate⟩

@[simp] theorem length_framed (width height : Nat) (title : String) (style : Style)
    (rows : Canvas) : (framed width height title style rows).length = height := by
  match height with
  | 0 => rfl
  | 1 => rfl
  | n + 2 =>
    obtain ⟨top, bottom, heq, -⟩ := framed_eq width (Nat.le_add_left 2 n) title style rows
    simp [heq]

theorem length_of_mem_framed {width height : Nat} {title : String} {style : Style} {rows : Canvas}
    {row : Row} (h : row ∈ framed width height title style rows) : row.length = width := by
  match height with
  | 0 => cases h
  | 1 =>
    obtain rfl := List.mem_singleton.1 h
    exact length_between (length_fit _ _ _)
  | n + 2 =>
    obtain ⟨top, bottom, heq, htop, hbottom⟩ :=
      framed_eq width (Nat.le_add_left 2 n) title style rows
    rw [heq, List.mem_cons, List.mem_append, List.mem_singleton] at h
    rcases h with rfl | h | rfl
    · exact length_between htop
    · obtain ⟨r, hr, rfl⟩ := List.mem_map.1 h
      exact length_between (length_of_mem_fitAll hr)
    · exact length_between hbottom

/-! ## Parts of a canvas -/

/-- The part of a canvas in a rectangle. -/
def region (top left height width : Nat) (canvas : Canvas) : Canvas :=
  ((canvas.drop top).take height).map fun row => (row.drop left).take width

section

variable {top left height width : Nat}

theorem region_append_left {a : Canvas} (h : top + height ≤ a.length) (b : Canvas) :
    region top left height width (a ++ b) = region top left height width a := by
  have hheight : height ≤ (a.drop top).length := by
    rw [List.length_drop]
    omega
  rw [region, List.drop_append_of_le_length (by omega), List.take_append_of_le_length hheight,
    region]

theorem region_append_right (a b : Canvas) :
    region (a.length + top) left height width (a ++ b) = region top left height width b := by
  rw [region, List.drop_length_add_append, region]

theorem map_drop_beside {n : Nat} {a b : Canvas} (ha : ∀ row ∈ a, row.length = n)
    (hl : b.length ≤ a.length) : (beside a b).map (List.drop n) = b := by
  induction a generalizing b with
  | nil =>
    obtain rfl := List.length_eq_zero_iff.1 (Nat.le_zero.1 hl)
    rfl
  | cons r a ih =>
    cases b with
    | nil => rfl
    | cons s b =>
      obtain ⟨hr, ha⟩ := List.forall_mem_cons.1 ha
      have hrest := ih ha (Nat.le_of_succ_le_succ hl)
      rw [beside, List.zipWith_cons_cons, List.map_cons, ← beside, hrest, ← hr, List.drop_left]

/-- To the right of rows of one width. -/
theorem region_beside {n : Nat} {a b : Canvas} (ha : ∀ row ∈ a, row.length = n)
    (hl : b.length ≤ a.length) :
    region top (n + left) height width (beside a b) = region top left height width b := by
  have hpart : (fun row : Row => (row.drop (n + left)).take width) =
      (fun row : Row => (row.drop left).take width) ∘ List.drop n := by
    funext row
    rw [Function.comp_apply, List.drop_drop]
  rw [region, hpart, ← List.map_map, List.map_take, List.map_drop, map_drop_beside ha hl, region]

/-- To the right of rows of one width, above the last rows of a screen. -/
theorem region_right {n : Nat} {a b d : Canvas} (ha : ∀ row ∈ a, row.length = n)
    (hl : a.length = b.length) (hb : top + height ≤ b.length) :
    region top (n + left) height width (beside a b ++ d) = region top left height width b := by
  have hlength : top + height ≤ (beside a b).length := by
    rw [beside, List.length_zipWith, hl, Nat.min_self]
    exact hb
  rw [region_append_left hlength, region_beside ha (Nat.le_of_eq hl.symm)]

/-- In the lower right corner of a screen, above its last rows. -/
theorem region_lowerRight {n m : Nat} {a b c d : Canvas} (ha : ∀ row ∈ a, row.length = n)
    (hb : b.length = m) (hl : a.length = m + c.length) (hc : top + height ≤ c.length) :
    region (m + top) (n + left) height width (beside a (b ++ c) ++ d) =
      region top left height width c := by
  subst hb
  have hright : b.length + top + height ≤ (b ++ c).length := by
    rw [List.length_append]
    omega
  rw [region_right ha (hl.trans List.length_append.symm) hright, region_append_right]

/-- The whole of a canvas. -/
theorem region_self {canvas : Canvas} (hw : ∀ row ∈ canvas, row.length = width)
    (hh : canvas.length = height) : region 0 0 height width canvas = canvas := by
  have hrow : ∀ row ∈ canvas, (row.drop 0).take width = row := by
    intro row hrow
    rw [List.drop_zero, List.take_of_length_le (Nat.le_of_eq (hw row hrow))]
  rw [region, List.drop_zero, List.take_of_length_le (Nat.le_of_eq hh)]
  exact (List.map_congr_left hrow).trans (List.map_id' _)

/-- The upper right corner of a screen. -/
theorem region_upperRight {n : Nat} {a b c d : Canvas} (ha : ∀ row ∈ a, row.length = n)
    (hw : ∀ row ∈ b, row.length = width) (hh : b.length = height)
    (hl : a.length = height + c.length) :
    region 0 n height width (beside a (b ++ c) ++ d) = b := by
  have hright : a.length = (b ++ c).length := by rw [List.length_append, hh, hl]
  calc region 0 (n + 0) height width (beside a (b ++ c) ++ d)
      = region 0 0 height width (b ++ c) := region_right ha hright (by rw [← hright, hl]; omega)
    _ = region 0 0 height width b := region_append_left (by omega) c
    _ = b := region_self hw hh

/-- Inside a frame are the rows it was drawn around. -/
theorem region_framed (hw : 2 ≤ width) (hh : 2 ≤ height) (title : String) (style : Style)
    (rows : Canvas) :
    region 1 1 (height - 2) (width - 2) (framed width height title style rows) =
      fitAll (width - 2) (height - 2) {} rows := by
  obtain ⟨top, bottom, heq, -⟩ := framed_eq width hh title style rows
  have hinside : ∀ row ∈ fitAll (width - 2) (height - 2) {} rows,
      ((between width '│' '│' style row).drop 1).take (width - 2) = row := by
    intro row hrow
    rw [between, if_neg (by omega), if_neg (by omega), List.cons_append, List.drop_one,
      List.tail_cons, ← length_of_mem_fitAll hrow, List.take_left]
  have hlength : height - 2 =
      ((fitAll (width - 2) (height - 2) {} rows).map (between width '│' '│' style)).length := by
    rw [List.length_map, length_fitAll]
  have htake : ((framed width height title style rows).drop 1).take (height - 2) =
      (fitAll (width - 2) (height - 2) {} rows).map (between width '│' '│' style) := by
    rw [heq, List.drop_one, List.tail_cons]
    exact List.take_left' hlength.symm
  rw [region, htake, List.map_map]
  exact (List.map_congr_left hinside).trans (List.map_id' _)

end

/-! ## Wrapping -/

namespace Wrapping

/-- Finished rows fit a width, and so does what would be a row if the line ended here. -/
structure Fits (width : Nat) (w : Wrapping) : Prop where
  rows : ∀ row ∈ w.rows, row.length ≤ width
  waiting : w.line.length + w.space.length + w.word.length ≤ width

variable {width : Nat} {w : Wrapping}

theorem Fits.settle (h : w.Fits width) : w.settle.Fits width := by
  refine ⟨h.rows, ?_⟩
  have hwaiting := h.waiting
  simp only [Wrapping.settle, List.length_append, List.length_nil]
  omega

theorem Fits.append (h : w.Fits width)
    (hlt : w.line.length + w.space.length + w.word.length < width) (cell : Cell) (blank : Bool) :
    (w.append cell blank).Fits width := by
  cases blank with
  | false =>
    have hword : (w.append cell false).word = w.word ++ [cell] := rfl
    refine ⟨h.rows, ?_⟩
    rw [hword, List.length_append, List.length_singleton]
    exact hlt
  | true =>
    have hspace : (w.append cell true).space = w.space ++ [cell] := rfl
    refine ⟨h.rows, ?_⟩
    rw [hspace, List.length_append, List.length_singleton, ← Nat.add_assoc, Nat.add_right_comm]
    exact hlt

/-- White space that waits with a full row is dropped with it. -/
theorem Fits.space_endRow (h : w.Fits width) : (w.endRow width).space = [] := by
  have hwaiting := h.waiting
  exact List.drop_eq_nil_of_le (by omega)

theorem Fits.endRow (h : w.Fits width) : (w.endRow width).Fits width := by
  have hwaiting := h.waiting
  refine ⟨fun row hrow => ?_, ?_⟩
  · rcases List.mem_append.1 hrow with hrow | hrow
    · exact h.rows row hrow
    · rw [List.mem_singleton.1 hrow]
      omega
  · rw [h.space_endRow]
    simp only [Wrapping.endRow, List.length_nil]
    omega

/-- What is done with a cell once it is known whether the word before it has ended. -/
def place (width : Nat) (w : Wrapping) (cell : Cell) (blank : Bool) : Wrapping :=
  if width ≤ w.line.length || width ≤ w.line.length + w.space.length + w.word.length then
    if blank && (w.endRow width).space.isEmpty then w.endRow width
    else (w.endRow width).append cell blank
  else w.append cell blank

theorem take_eq (width : Nat) (w : Wrapping) (cell : Cell) :
    w.take width cell =
      (if (w.inWord && Text.isBreakable cell.char) ||
          (w.line.isEmpty && width < w.word.length + w.space.length + 1) then w.settle
        else w).place width cell (Text.isBreakable cell.char) := rfl

theorem Fits.place (h : w.Fits width) (hword : w.word.length < width) (cell : Cell)
    (blank : Bool) : (w.place width cell blank).Fits width := by
  unfold Wrapping.place
  split
  · split
    · exact h.endRow
    · refine h.endRow.append ?_ cell blank
      rw [h.space_endRow]
      simpa [Wrapping.endRow] using hword
  · rename_i hroom
    refine h.append ?_ cell blank
    simp only [Bool.or_eq_true, decide_eq_true_eq] at hroom
    omega

/-- A word alone in a row is settled before it fills it. -/
theorem Fits.take (h : w.Fits width) (hpos : 0 < width) (cell : Cell) :
    (w.take width cell).Fits width := by
  rw [take_eq]
  split
  · exact h.settle.place hpos cell _
  · rename_i hwaits
    refine h.place ?_ cell _
    have hwaiting := h.waiting
    simp only [Bool.or_eq_true, Bool.and_eq_true, List.isEmpty_iff, decide_eq_true_eq, not_or,
      not_and] at hwaits
    by_cases hline : w.line = []
    · have hshort := hwaits.2 hline
      omega
    · have hfilled := List.length_pos_iff.2 hline
      omega

theorem Fits.foldl (h : w.Fits width) (hpos : 0 < width) (line : Row) :
    (line.foldl (Wrapping.take width) w).Fits width := by
  induction line generalizing w with
  | nil => exact h
  | cons cell line ih => exact ih (h.take hpos cell)

theorem Fits.length_le_of_mem_finish (h : w.Fits width) {row : Row} (hrow : row ∈ w.finish) :
    row.length ≤ width := by
  have hcases : row ∈ w.rows ∨ row = [] ∨ row = w.line ++ w.space ++ w.word := by
    unfold finish at hrow
    grind
  rcases hcases with hrow | rfl | rfl
  · exact h.rows row hrow
  · exact Nat.zero_le _
  · rw [List.length_append, List.length_append]
    exact h.waiting

end Wrapping

/-- Wrapped rows fit. -/
theorem length_le_of_mem_wrap {width : Nat} (hpos : 0 < width) {line row : Row}
    (h : row ∈ wrap width line) : row.length ≤ width := by
  have hstart : Wrapping.Fits width {} := ⟨by simp, Nat.zero_le width⟩
  exact (hstart.foldl hpos line).length_le_of_mem_finish h

end FuzzLang.Screen
