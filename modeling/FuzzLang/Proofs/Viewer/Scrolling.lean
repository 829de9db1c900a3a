import FuzzLang.Proofs.Screen.Fitting
import FuzzLang.Proofs.Viewer.InView

/-!
# How far the output scrolls

Lines of the output that are too wide go on in further rows. Scrolling stops when as many rows as
there are lines have come into view, though, and the number of the first row in view is one of 16
bits. So the last rows are out of reach when there are more of them than lines and they do not fit
the pane (`scrolled_rows`).
-/

namespace FuzzLang.Viewer

open Screen

/-- The rows of the output in a pane of some width. -/
def wrappedRows (width : Nat) (outcome : Outcome) : List Row :=
  (outputLines outcome).flatMap fun l => wrap width (StyledLine.cells l)

theorem length_le_of_mem_wrappedRows {width : Nat} (hpos : 0 < width) {outcome : Outcome}
    {row : Row} (h : row ∈ wrappedRows width outcome) : row.length ≤ width := by
  obtain ⟨_, -, hrow⟩ := List.mem_flatMap.1 h
  exact length_le_of_mem_wrap hpos hrow

namespace State

/-! ## The inside of the output pane -/

/-- The columns inside the output pane. -/
def outputWidth (width : Nat) : Nat := width - leftWidth width - 2

/-- The rows inside the output pane. -/
def outputHeight (height : Nat) : Nat := outputRows height - 2

/-- What a screen shows inside the output pane. -/
def insideOutput (width height : Nat) (canvas : Canvas) : Canvas :=
  region (programRows height + 1) (leftWidth width + 1) (outputHeight height) (outputWidth width)
    canvas

/-- The number of the first row of the output that is in view: the scroll in 16 bits. -/
def firstRow (s : State) : Nat := s.outputScroll % 65536

/-- The output pane shows the rows of the output from the first in view on. -/
theorem insideOutput_screen (s : State) {width height : Nat} (hw : 0 < outputWidth width)
    (hh : 0 < outputHeight height) :
    insideOutput width height (s.screen width height) =
      fitAll (outputWidth width) (outputHeight height) {}
        ((wrappedRows (outputWidth width) s.outcome).drop s.firstRow) := by
  have hwidth : 2 ≤ width - leftWidth width := by
    unfold outputWidth at hw
    omega
  have hheight : 2 ≤ outputRows height := by
    unfold outputHeight at hh
    omega
  have houtput : 1 + outputHeight height ≤ outputRows height := by
    unfold outputHeight
    omega
  calc insideOutput width height (s.screen width height)
      = region 1 1 (outputHeight height) (outputWidth width)
          (outputPane (width - leftWidth width) (outputRows height) (s.focus == .output) s.outcome
            s.outputScroll) := by
        refine region_lowerRight (fun _ => length_of_mem_framed) (length_framed _ _ _ _ _) ?_ ?_
        · rw [length_outputPane, sourcePane, length_framed, paneRows_eq]
        · rw [length_outputPane]
          exact houtput
    _ = fitAll (outputWidth width) (outputHeight height) {}
          ((wrappedRows (outputWidth width) s.outcome).drop s.firstRow) :=
        region_framed hwidth hheight _ _ _

/-! ## Scrolling down -/

/-- Presses of the down key, with a drawing after each. -/
def downs (width height : Nat) : Nat → List Event
  | 0 => []
  | k + 1 => downs width height k ++ [.press .down, .draw width height]

/-- The greatest number of a first row in view: as many lines as do not fit, within 16 bits. -/
def lastFirstRow (s : State) (height : Nat) : Nat :=
  min ((outputLines s.outcome).length - outputHeight height) 65535

/-- A press of the down key scrolls the focused output, as far as the lines allow. -/
theorem run_down {s : State} (hf : s.focus = .output) (width height : Nat) :
    s.run [.press .down, .draw width height] =
      ({ s with outputScroll := s.outputScroll + 1 } : State).settle height := by
  have hpress : s.press .down = { s with outputScroll := s.outputScroll + 1 } := by
    rw [press, moveDown, hf]
  rw [run, List.foldl_cons, after, hpress]
  rfl

section

variable {s : State} {width height : Nat}

theorem run_downs (hf : s.focus = .output) (hstart : s.outputScroll = 0) (k : Nat) :
    (s.run (downs width height k)).focus = .output ∧
      (s.run (downs width height k)).outcome = s.outcome ∧
      (s.run (downs width height k)).outputScroll =
        min k ((outputLines s.outcome).length - visibleRows (outputRows height)) := by
  induction k with
  | zero => exact ⟨hf, rfl, by rw [Nat.zero_min]; exact hstart⟩
  | succ k ih =>
    obtain ⟨hfocus, houtcome, hscroll⟩ := ih
    have hrun : s.run (downs width height (k + 1)) =
        (s.run (downs width height k)).run [.press .down, .draw width height] :=
      List.foldl_append
    rw [hrun, run_down hfocus]
    refine ⟨hfocus, houtcome, ?_⟩
    have hsettled : ∀ t : State, (t.settle height).outputScroll =
        min t.outputScroll ((outputLines t.outcome).length - visibleRows (outputRows height)) :=
      fun _ => rfl
    rw [hsettled]
    simp only [houtcome, hscroll]
    omega

/-- The first row in view, once the pane has any rows inside. -/
theorem firstRow_downs (hf : s.focus = .output) (hstart : s.outputScroll = 0)
    (hh : 0 < outputHeight height) (k : Nat) :
    (s.run (downs width height k)).firstRow =
      min k ((outputLines s.outcome).length - outputHeight height) % 65536 := by
  have hvisible : visibleRows (outputRows height) = outputHeight height := Nat.max_eq_right hh
  rw [firstRow, (run_downs hf hstart k).2.2, hvisible]

/-- The row of a number is inside the output pane. -/
def Draws (s : State) (height i : Nat) : Prop :=
  s.firstRow ≤ i ∧ i < s.firstRow + outputHeight height

theorem exists_draws_iff (hf : s.focus = .output) (hstart : s.outputScroll = 0)
    (hh : 0 < outputHeight height) (i : Nat) :
    (∃ k, (s.run (downs width height k)).Draws height i) ↔
      i < s.lastFirstRow height + outputHeight height := by
  constructor
  · rintro ⟨k, -, hlt⟩
    rw [firstRow_downs hf hstart hh] at hlt
    unfold lastFirstRow
    omega
  · intro hi
    -- scroll until the row is the first, or as far as possible
    refine ⟨min i (s.lastFirstRow height), ?_⟩
    unfold Draws
    rw [firstRow_downs hf hstart hh]
    unfold lastFirstRow at hi ⊢
    omega

end

/-- **Scrolling.** The down key takes the focused output pane, if there is room inside, through the
rows of the output, none of them cut off. How far it goes depends on the lines and not on the rows:
the row of a number is reached just if the number is less than `lastFirstRow` and the rows inside
the pane together. So all rows are reached just if there are no more than that. -/
theorem scrolled_rows {s : State} {width height : Nat} (hf : s.focus = .output)
    (hstart : s.outputScroll = 0) (hw : 0 < outputWidth width) (hh : 0 < outputHeight height) :
    (∀ k, insideOutput width height ((s.run (downs width height k)).screen width height) =
      fitAll (outputWidth width) (outputHeight height) {}
        ((wrappedRows (outputWidth width) s.outcome).drop
          (s.run (downs width height k)).firstRow)) ∧
    (∀ row ∈ wrappedRows (outputWidth width) s.outcome, row.length ≤ outputWidth width) ∧
    (∀ i, (∃ k, (s.run (downs width height k)).Draws height i) ↔
      i < s.lastFirstRow height + outputHeight height) ∧
    ((∀ i < (wrappedRows (outputWidth width) s.outcome).length,
        ∃ k, (s.run (downs width height k)).Draws height i) ↔
      (wrappedRows (outputWidth width) s.outcome).length ≤
        s.lastFirstRow height + outputHeight height) := by
  have hreached (i : Nat) : (∃ k, (s.run (downs width height k)).Draws height i) ↔
      i < s.lastFirstRow height + outputHeight height :=
    exists_draws_iff hf hstart hh i
  refine ⟨fun k => ?_, fun row => length_le_of_mem_wrappedRows hw, hreached, ?_, ?_⟩
  · rw [insideOutput_screen _ hw hh, (run_downs hf hstart k).2.1]
  · intro hall
    refine Nat.le_of_not_lt fun hlt => ?_
    exact Nat.lt_irrefl _ ((hreached _).1 (hall _ hlt))
  · intro hle i hi
    exact (hreached i).2 (Nat.lt_of_lt_of_le hi hle)

/-- A program that prints, with the output in focus. -/
def printing : State := opened "" "labs(1)" [.press .tab, .press .tab]

/-- Its lines are no wider than the pane, which has room for one of them and shows each in turn. -/
theorem scrolled_rows_printing :
    printing.focus = .output ∧ printing.outputScroll = 0 ∧ outputWidth 60 = 28 ∧
      outputHeight 6 = 1 ∧
      (wrappedRows 28 printing.outcome).map rowText =
        ["fn main() \x7b", "println!(\"\x7b\x7d\", 1);", "\x7d"] ∧
      (∀ k, insideOutput 60 6 ((printing.run (downs 60 6 k)).screen 60 6) =
        fitAll 28 1 {} ((wrappedRows 28 printing.outcome).drop
          (printing.run (downs 60 6 k)).firstRow)) ∧
      ∀ i < 3, ∃ k, (printing.run (downs 60 6 k)).Draws 6 i := by
  have hfocus : printing.focus = .output := by decide +kernel
  have hscroll : printing.outputScroll = 0 := by decide +kernel
  have hrows : (wrappedRows 28 printing.outcome).map rowText =
      ["fn main() \x7b", "println!(\"\x7b\x7d\", 1);", "\x7d"] := by
    decide +kernel
  have hlast : printing.lastFirstRow 6 = 2 := by decide +kernel
  obtain ⟨hshown, -, hreached, -⟩ := scrolled_rows hfocus hscroll
    (show 0 < outputWidth 60 by decide) (show 0 < outputHeight 6 by decide)
  refine ⟨hfocus, hscroll, rfl, rfl, hrows, hshown, fun i hi => (hreached i).2 ?_⟩
  rw [hlast]
  exact hi

/-- A source with an error, with the output in focus. -/
def failing : State := opened Compilation.defaultIndent "@" [.press .tab, .press .tab]

/-- The message has six rows in a pane that has room for one, and no press shows another. -/
theorem failing_unreached :
    outputWidth 24 = 10 ∧ outputHeight 6 = 1 ∧
      (wrappedRows 10 failing.outcome).map rowText =
        ["Lex error", "at line 1,", "column 1:", "Unexpected", "character:", "@"] ∧
      ∀ k, (insideOutput 24 6 ((failing.run (downs 24 6 k)).screen 24 6)).map rowText =
        ["Lex error "] := by
  have hfocus : failing.focus = .output := by decide +kernel
  have hscroll : failing.outputScroll = 0 := by decide +kernel
  have hlines : (outputLines failing.outcome).length = 1 := by decide +kernel
  have hfirst : (fitAll (outputWidth 24) (outputHeight 6) {}
      ((wrappedRows (outputWidth 24) failing.outcome).drop 0)).map rowText = ["Lex error "] := by
    decide +kernel
  refine ⟨rfl, rfl, by decide +kernel, fun k => ?_⟩
  have hrow : (failing.run (downs 24 6 k)).firstRow = 0 := by
    rw [firstRow_downs hfocus hscroll (by decide), hlines]
    exact congrArg (· % 65536) (Nat.min_zero k)
  rw [insideOutput_screen _ (by decide) (by decide), (run_downs hfocus hscroll k).2.1, hrow]
  exact hfirst

end State

end FuzzLang.Viewer
