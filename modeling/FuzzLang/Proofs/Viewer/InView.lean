import FuzzLang.Proofs.Screen.Fitting
import FuzzLang.Proofs.Viewer.Selection
import Mathlib.Data.Nat.PSub

/-!
# What a viewer brings into view

Drawing settles the scrolls for the size of the screen. Whatever they were before, the line in focus
and the selected statement are then in view (`focus_inView`, `selected_inView`), the screen shows
the statements in view (`programPart_screen`), and settling again changes nothing (`settle_settle`).
Nothing is taken from a smaller number on the way, but where a difference is meant to stop at zero:
with subtractions that can fail the same scrolls come out (`settle?_eq`).
-/

namespace FuzzLang.Viewer

open Screen

theorem visibleRows_pos (height : Nat) : 0 < visibleRows height :=
  Nat.lt_of_lt_of_le Nat.zero_lt_one (Nat.le_max_left _ _)

/-! ## The source pane -/

namespace SourceScroll

variable (s : SourceScroll) (height total focus : Nat)

/-- The row that the line in focus is kept on. -/
def pinned : Nat := min (s.targetRow?.getD (visibleRows height / 2)) (visibleRows height - 1)

theorem settle_targetRow? :
    (s.settle height total focus).targetRow? = some (s.pinned height) := rfl

theorem settle_offset :
    (s.settle height total focus).offset =
      if 0 < focus ∧ focus ≤ total ∧ visibleRows height < total then
        min (focus - 1 - s.pinned height) (total - visibleRows height)
      else 0 := rfl

theorem pinned_lt : s.pinned height < visibleRows height := by
  have hpos := visibleRows_pos height
  unfold pinned
  omega

theorem settle_offset_le :
    (s.settle height total focus).offset ≤ total - visibleRows height := by
  rw [settle_offset]
  split
  · exact Nat.min_le_right _ _
  · exact Nat.zero_le _

/-- A line of the source is in view once the scroll is settled for it. -/
theorem focus_inView (hpos : 1 ≤ focus) (hle : focus ≤ total) :
    (s.settle height total focus).offset ≤ focus - 1 ∧
      focus - 1 < (s.settle height total focus).offset + visibleRows height := by
  -- the row is inside the pane, and past the end of the source there is nothing to look for
  have hpinned := s.pinned_lt height
  rw [settle_offset]
  split
  · omega
  · omega

/-- A row that was kept is kept again. -/
theorem settle_settle :
    (s.settle height total focus).settle height total focus = s.settle height total focus := by
  have hpinned : (s.settle height total focus).pinned height = s.pinned height := by
    have hlt := s.pinned_lt height
    rw [pinned, settle_targetRow?, Option.getD_some]
    omega
  have hoffset : ((s.settle height total focus).settle height total focus).offset =
      (s.settle height total focus).offset := by
    rw [settle_offset, settle_offset, hpinned]
  have htarget : ((s.settle height total focus).settle height total focus).targetRow? =
      (s.settle height total focus).targetRow? := by
    rw [settle_targetRow?, settle_targetRow?, hpinned]
  exact congrArg₂ SourceScroll.mk hoffset htarget

/-- Settling with subtractions that can fail. The line in focus may be above its row, so there the
difference stops at zero. -/
def settle? : Option SourceScroll := do
  let visible := visibleRows height
  let last ← Nat.psub visible 1
  let target := min (s.targetRow?.getD (visible / 2)) last
  if 0 < focus ∧ focus ≤ total ∧ visible < total then
    let above ← Nat.psub focus 1
    let room ← Nat.psub total visible
    return ⟨min (above - target) room, some target⟩
  else return ⟨0, some target⟩

theorem settle?_eq : s.settle? height total focus = some (s.settle height total focus) := by
  have hvisible : Nat.psub (visibleRows height) 1 = some (visibleRows height - 1) :=
    Nat.psub_eq_sub (visibleRows_pos height)
  unfold settle? settle
  simp only [hvisible, Option.bind_eq_bind, Option.bind_some]
  split
  · rename_i hfocus
    rw [Nat.psub_eq_sub hfocus.1, Nat.psub_eq_sub (Nat.le_of_lt hfocus.2.2)]
    rfl
  · rfl

end SourceScroll

/-! ## The statement pane -/

section

variable (height selected scroll : Nat)

/-- The selected statement is in view once the scroll is settled for it. -/
theorem selected_inView :
    settleProgram height selected scroll ≤ selected ∧
      selected < settleProgram height selected scroll + visibleRows height := by
  have hpos := visibleRows_pos height
  unfold settleProgram
  simp only
  split
  · omega
  · split
    · omega
    · omega

/-- What is in view need not be moved. -/
theorem settleProgram_of_inView (hle : scroll ≤ selected)
    (hlt : selected < scroll + visibleRows height) :
    settleProgram height selected scroll = scroll := by
  unfold settleProgram
  simp only
  rw [if_neg (Nat.not_lt.2 hle), if_neg (Nat.not_le.2 hlt)]

/-- Settling with a subtraction that can fail. -/
def settleProgram? : Option Nat :=
  if selected < scroll then some selected
  else if scroll + visibleRows height ≤ selected then Nat.psub (selected + 1) (visibleRows height)
  else some scroll

theorem settleProgram?_eq :
    settleProgram? height selected scroll = some (settleProgram height selected scroll) := by
  unfold settleProgram? settleProgram
  simp only
  split
  · rfl
  · split
    · exact Nat.psub_eq_sub (by omega)
    · rfl

end

theorem mem_take_drop_zipIdx {α : Type} {l : List α} {a : α} {n scroll visible : Nat}
    (h : l[n]? = some a) (hle : scroll ≤ n) (hlt : n < scroll + visible) :
    (a, n) ∈ (l.zipIdx.drop scroll).take visible := by
  have hindex : scroll + (n - scroll) = n := by omega
  refine List.mem_of_getElem? (i := n - scroll) ?_
  rw [List.getElem?_take_of_lt (by omega), List.getElem?_drop, hindex, List.getElem?_zipIdx, h]
  simp

/-- A pane with statements in view shows them. -/
theorem programPane_eq {width height selected scroll : Nat} {focused : Bool} {entries : List Entry}
    (h : (entries.zipIdx.drop scroll).take (visibleRows height) ≠ []) :
    programPane width height focused entries selected scroll =
      framed width height " Program " (Theme.border focused)
        (((entries.zipIdx.drop scroll).take (visibleRows height)).map
          fun (e, n) => StyledLine.cells (programLine selected n e)) := by
  unfold programPane
  simp only
  rw [if_neg]
  simpa using h

/-! ## The output pane -/

theorem length_outputPane (width height : Nat) (focused : Bool) (outcome : Outcome)
    (scroll : Nat) : (outputPane width height focused outcome scroll).length = height :=
  length_framed _ _ _ _ _

theorem settleOutput_settleOutput (height : Nat) (outcome : Outcome) (scroll : Nat) :
    settleOutput height outcome (settleOutput height outcome scroll) =
      settleOutput height outcome scroll := by
  unfold settleOutput
  omega

/-! ## The viewer -/

namespace State

variable (s : State) (width height : Nat)

/-- The line that the source pane has to show: that of the error, or the cursor line. -/
def focusLine : Nat := s.errorLine?.getD s.cursorLine

/-- The statements in the statement pane, with their numbers. -/
def statementsInView : List (Entry × Nat) :=
  (s.entries.zipIdx.drop s.programScroll).take (visibleRows (programRows height))

/-- On a screen of some height the line in focus and the selected statement are in view. -/
structure InView : Prop where
  pinned : ∃ row, s.sourceScroll.targetRow? = some row ∧ row < visibleRows (paneRows height)
  offset_le : s.sourceScroll.offset ≤
    (Text.lines s.source.toList).length - visibleRows (paneRows height)
  focus : Text.lines s.source.toList ≠ [] → 1 ≤ s.focusLine ∧
    s.sourceScroll.offset ≤ s.focusLine - 1 ∧
    s.focusLine - 1 < s.sourceScroll.offset + visibleRows (paneRows height)
  scroll_le : s.programScroll ≤ s.selected
  selected_lt : s.selected < s.programScroll + visibleRows (programRows height)
  statements : s.entries ≠ [] →
    (∃ e, s.entries[s.selected]? = some e ∧ (e, s.selected) ∈ s.statementsInView height) ∧
    ∀ paneWidth focused,
      programPane paneWidth (programRows height) focused s.entries s.selected s.programScroll =
        framed paneWidth (programRows height) " Program " (Theme.border focused)
          ((s.statementsInView height).map
            fun (e, n) => StyledLine.cells (programLine s.selected n e))

theorem paneRows_eq : paneRows height = programRows height + outputRows height := by
  unfold outputRows programRows
  omega

/-- The part of a screen that the statement pane takes. -/
def programPart (canvas : Canvas) : Canvas :=
  region 0 (leftWidth width) (programRows height) (width - leftWidth width) canvas

theorem programPart_screen :
    programPart width height (s.screen width height) =
      programPane (width - leftWidth width) (programRows height) (s.focus == .program) s.entries
        s.selected s.programScroll := by
  refine region_upperRight (fun _ => length_of_mem_framed) (fun _ => length_of_mem_framed)
    (length_framed _ _ _ _ _) ?_
  rw [sourcePane, length_framed, length_outputPane, paneRows_eq]

/-- If there are statements, a screen shows those in view and nothing else in the statement pane. -/
def ShowsStatements (canvas : Canvas) : Prop :=
  s.entries ≠ [] → programPart width height canvas =
    framed (width - leftWidth width) (programRows height) " Program "
      (Theme.border (s.focus == .program))
      ((s.statementsInView height).map fun (e, n) => StyledLine.cells (programLine s.selected n e))

/-- Settling with subtractions that can fail. -/
def settle? : Option State := do
  let sourceScroll ← s.sourceScroll.settle? (paneRows height) (Text.lines s.source.toList).length
    s.focusLine
  let programScroll ← settleProgram? (programRows height) s.selected s.programScroll
  return { s with
    sourceScroll := sourceScroll
    programScroll := programScroll
    outputScroll := settleOutput (outputRows height) s.outcome s.outputScroll }

theorem settle?_eq : s.settle? height = some (s.settle height) := by
  unfold settle?
  rw [SourceScroll.settle?_eq, settleProgram?_eq]
  rfl

theorem settle_settle : (s.settle height).settle height = s.settle height := by
  have hsource := s.sourceScroll.settle_settle (paneRows height)
    (Text.lines s.source.toList).length s.focusLine
  have hprogram := settleProgram_of_inView (programRows height) s.selected _
    (selected_inView (programRows height) s.selected s.programScroll).1
    (selected_inView (programRows height) s.selected s.programScroll).2
  have houtput := settleOutput_settleOutput (outputRows height) s.outcome s.outputScroll
  -- nothing but the three scrolls is set
  unfold settle
  congr 1

variable {s} {indent source : String}

/-- The line in focus is a line of the source, if it has one: errors point into the source. -/
theorem Consistent.focusLine_bounds (h : s.Consistent) (hs : s.Shows source (compile indent source))
    (hne : Text.lines s.source.toList ≠ []) :
    1 ≤ s.focusLine ∧ s.focusLine ≤ (Text.lines s.source.toList).length := by
  have hlength := List.length_pos_iff.2 hne
  have hline := h.line_le
  unfold focusLine errorLine?
  cases hc : compile indent source with
  | ok c =>
    rw [hs.outcome_eq, hc]
    exact ⟨h.line_pos, by simp only [Option.getD_none]; omega⟩
  | error e =>
    have hwithin := (Compilation.pointsAt_of_compile hc).within
    rw [hs.outcome_eq, hc, hs.source_eq]
    exact ⟨hwithin.line_pos, hwithin.line_le⟩

theorem Consistent.inView (h : s.Consistent) (hs : s.Shows source (compile indent source)) :
    (s.settle height).InView height := by
  obtain ⟨hle, hlt⟩ := selected_inView (programRows height) s.selected s.programScroll
  refine ⟨⟨_, rfl, s.sourceScroll.pinned_lt _⟩, s.sourceScroll.settle_offset_le _ _ _, ?_, hle, hlt,
    ?_⟩
  · intro hne
    obtain ⟨hfirst, hlast⟩ := h.focusLine_bounds hs hne
    exact ⟨hfirst, s.sourceScroll.focus_inView _ _ _ hfirst hlast⟩
  · intro hne
    have hget := List.getElem?_eq_getElem (h.selected_lt hne)
    have hmem := mem_take_drop_zipIdx hget hle hlt
    exact ⟨⟨_, hget, hmem⟩, fun paneWidth focused => programPane_eq (List.ne_nil_of_mem hmem)⟩

variable {width height} in
theorem InView.showsStatements (h : s.InView height) :
    s.ShowsStatements width height (s.screen width height) := by
  intro hne
  rw [programPart_screen]
  exact (h.statements hne).2 _ _

/-- **In view.** However a viewer of a source was used, after drawing it the line in focus and the
selected statement are in view; if there are statements, the drawing shows those in view in the
statement pane; settling the scrolls takes nothing from a smaller number; and drawing it again on
the same screen changes nothing. -/
theorem draw_inView (indent source : String) (events : List Event) (width height : Nat) :
    ((opened indent source events).draw width height).1.InView height ∧
      ((opened indent source events).draw width height).1.ShowsStatements width height
        ((opened indent source events).draw width height).2 ∧
      (opened indent source events).settle? height =
        some ((opened indent source events).draw width height).1 ∧
      (((opened indent source events).draw width height).1.draw width height).1 =
        ((opened indent source events).draw width height).1 := by
  have hview : ((opened indent source events).settle height).InView height :=
    (opened_consistent indent source events).inView height (opened_shows indent source events)
  exact ⟨hview, hview.showsStatements, settle?_eq _ height, settle_settle _ height⟩

end State

end FuzzLang.Viewer
