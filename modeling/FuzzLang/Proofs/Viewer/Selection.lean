import FuzzLang.Proofs.Compile.Places
import FuzzLang.Viewer.State

/-!
# The selection of a viewer

A viewer is used by pressing keys and by drawing it, in any order and on screens of any size. All
that an event can do to cursor and selection is listed in `Step`. A viewer shows the program it was
started with for ever (`Shows.run`). What ties the selected statement to the cursor line
(`Consistent`) holds at the start, because statements begin on lines of the source, and is kept by
each step, so it holds after any run (`run_consistent`).
-/

namespace FuzzLang.Viewer

/-- What happens to a viewer. -/
inductive Event where
  | press (key : Key)
  | draw (width height : Nat)
  deriving DecidableEq, Repr

namespace State

/-- The viewer after an event. -/
def after (s : State) : Event → State
  | .press key => s.press key
  | .draw width height => (s.draw width height).1

/-- The viewer after events, one after the other. -/
def run (s : State) (events : List Event) : State := events.foldl after s

variable {s t : State}

/-! ## What an event can do -/

/-- The program in view: a source and what compiling it came to. -/
structure Shows (s : State) (source : String) (outcome : Outcome) : Prop where
  source_eq : s.source = source
  outcome_eq : s.outcome = outcome

/-- An event goes to a line, or selects a statement, or leaves cursor and selection alone. -/
inductive Step (s : State) : State → Prop
  | goToLine (line : Nat) : Step s (s.goToLine line)
  | select (n : Nat) : Step s (s.select n)
  | stay {t : State} : t.Shows s.source s.outcome → t.selected = s.selected →
    t.cursorLine = s.cursorLine → Step s t

theorem moveUp_step (s : State) : Step s s.moveUp := by
  unfold moveUp
  split
  · exact .goToLine _
  · exact .select _
  · exact .stay ⟨rfl, rfl⟩ rfl rfl

theorem moveDown_step (s : State) : Step s s.moveDown := by
  unfold moveDown
  split
  · exact .goToLine _
  · exact .select _
  · exact .stay ⟨rfl, rfl⟩ rfl rfl

theorem after_step (s : State) (event : Event) : Step s (s.after event) := by
  cases event with
  | press key =>
    cases key with
    | up => exact s.moveUp_step
    | down => exact s.moveDown_step
    | char c =>
      simp only [after, press]
      split
      · exact .stay ⟨rfl, rfl⟩ rfl rfl
      · exact .stay ⟨rfl, rfl⟩ rfl rfl
    | tab | backTab | escape | other => exact .stay ⟨rfl, rfl⟩ rfl rfl
  | draw width height => exact .stay ⟨rfl, rfl⟩ rfl rfl

/-- Going to a line looks for a statement that begins on it; the statements do not depend on the
cursor. -/
theorem goToLine_eq (s : State) (line : Nat) :
    s.goToLine line =
      match s.entries.findIdx? (·.location.line == min (max line 1) s.lineCount) with
      | some n => { s with cursorLine := min (max line 1) s.lineCount, selected := n }
      | none => { s with cursorLine := min (max line 1) s.lineCount } := rfl

/-! ## What never changes -/

namespace Shows

variable {source : String} {outcome : Outcome}

theorem select (h : s.Shows source outcome) (n : Nat) : (s.select n).Shows source outcome := by
  unfold State.select
  split
  · exact ⟨h.source_eq, h.outcome_eq⟩
  · exact h

theorem step (h : s.Shows source outcome) (hstep : Step s t) : t.Shows source outcome := by
  cases hstep with
  | goToLine line =>
    rw [goToLine_eq]
    split
    · exact ⟨h.source_eq, h.outcome_eq⟩
    · exact ⟨h.source_eq, h.outcome_eq⟩
  | select n => exact h.select n
  | stay hs => exact ⟨hs.source_eq.trans h.source_eq, hs.outcome_eq.trans h.outcome_eq⟩

theorem run (h : s.Shows source outcome) (events : List Event) :
    (s.run events).Shows source outcome := by
  induction events generalizing s with
  | nil => exact h
  | cons event events ih => exact ih (h.step (s.after_step event))

end Shows

theorem start_shows (source : String) (outcome : Outcome) :
    (start source outcome).Shows source outcome :=
  Shows.select ⟨rfl, rfl⟩ 0

/-! ## What every event keeps -/

/-- The cursor is on a line of the source, or on line 1 of an empty one. A statement is selected if
there are any, and it begins on the cursor line if some statement does. -/
structure Consistent (s : State) : Prop where
  line_pos : 1 ≤ s.cursorLine
  line_le : s.cursorLine ≤ max 1 (Text.lines s.source.toList).length
  selected_lt : s.entries ≠ [] → s.selected < s.entries.length
  selected_eq : s.entries = [] → s.selected = 0
  onLine : (∃ e ∈ s.entries, e.location.line = s.cursorLine) →
    ∃ e, s.entries[s.selected]? = some e ∧ e.location.line = s.cursorLine

/-- Scrolls, focus and quitting do not matter. -/
theorem Consistent.stay (h : s.Consistent) (hs : t.Shows s.source s.outcome)
    (hn : t.selected = s.selected) (hl : t.cursorLine = s.cursorLine) : t.Consistent := by
  have he : t.entries = s.entries := by rw [entries, entries, hs.outcome_eq]
  refine ⟨?_, ?_, ?_, ?_, ?_⟩
  · rw [hl]
    exact h.line_pos
  · rw [hl, hs.source_eq]
    exact h.line_le
  · rw [he, hn]
    exact h.selected_lt
  · rw [he, hn]
    exact h.selected_eq
  · rw [he, hn, hl]
    exact h.onLine

/-- Every statement begins on a line of the source. -/
def Placed (s : State) : Prop :=
  ∀ e ∈ s.entries, 1 ≤ e.location.line ∧ e.location.line ≤ (Text.lines s.source.toList).length

/-- The statements of a compiled source do. -/
theorem Shows.placed {indent source : String} (h : s.Shows source (compile indent source)) :
    s.Placed := by
  intro e he
  unfold entries at he
  rw [h.outcome_eq] at he
  cases hc : compile indent source with
  | error error =>
    rw [hc] at he
    cases he
  | ok c =>
    rw [hc] at he
    have hwithin := Compilation.within_of_compile hc e he
    rw [h.source_eq]
    exact ⟨hwithin.line_pos, hwithin.line_le⟩

/-- A selected statement takes the cursor along. -/
theorem consistent_of_getElem? (hp : s.Placed) {n : Nat} {e : Entry} (h : s.entries[n]? = some e) :
    ({ s with selected := n, cursorLine := e.location.line } : State).Consistent := by
  have hmem : e ∈ s.entries := List.mem_of_getElem? h
  obtain ⟨hpos, hle⟩ := hp e hmem
  have hlt : n < s.entries.length := (List.getElem?_eq_some_iff.1 h).1
  refine ⟨hpos, Nat.le_trans hle (Nat.le_max_right _ _), fun _ => hlt, fun hnil => ?_,
    fun _ => ⟨e, h, rfl⟩⟩
  have hlength : s.entries.length = 0 := List.length_eq_zero_iff.2 hnil
  omega

theorem Consistent.select (h : s.Consistent) (hp : s.Placed) (n : Nat) :
    (s.select n).Consistent := by
  unfold State.select
  split
  · rename_i e he
    exact consistent_of_getElem? hp he
  · exact h

/-- Going to a line selects a statement of it, and if there is none, nothing has to be selected. -/
theorem Consistent.goToLine (h : s.Consistent) (line : Nat) : (s.goToLine line).Consistent := by
  have hpos : 1 ≤ min (max line 1) s.lineCount := by
    unfold lineCount
    omega
  have hle : min (max line 1) s.lineCount ≤ s.lineCount := Nat.min_le_right _ _
  rw [goToLine_eq]
  split
  · rename_i n hn
    obtain ⟨hlt, hline, -⟩ := List.findIdx?_eq_some_iff_getElem.1 hn
    have hget : s.entries[n]? = some s.entries[n] := List.getElem?_eq_getElem hlt
    refine ⟨hpos, hle, fun _ => hlt, fun hnil => ?_,
      fun _ => ⟨s.entries[n], hget, by simpa using hline⟩⟩
    have hlength : s.entries.length = 0 := List.length_eq_zero_iff.2 hnil
    omega
  · rename_i hnone
    refine ⟨hpos, hle, h.selected_lt, h.selected_eq, ?_⟩
    rintro ⟨e, he, hline⟩
    have hno := List.findIdx?_eq_none_iff.1 hnone e he
    exact absurd hline (beq_eq_false_iff_ne.1 hno)

/-- Every event keeps the selection and the cursor together. -/
theorem Consistent.step (h : s.Consistent) (hp : s.Placed) (hstep : Step s t) : t.Consistent := by
  cases hstep with
  | goToLine line => exact h.goToLine line
  | select n => exact h.select hp n
  | stay hs hn hl => exact h.stay hs hn hl

theorem Consistent.run {indent source : String} (h : s.Consistent)
    (hs : s.Shows source (compile indent source)) (events : List Event) :
    (s.run events).Consistent := by
  induction events generalizing s with
  | nil => exact h
  | cons event events ih =>
    have hstep := s.after_step event
    exact ih (h.step hs.placed hstep) (hs.step hstep)

/-- Without statements the viewer starts on line 1, with them at the first. -/
theorem start_consistent (indent source : String) :
    (start source (compile indent source)).Consistent := by
  have hs : Shows { source := source, outcome := compile indent source } source
    (compile indent source) := ⟨rfl, rfl⟩
  unfold start State.select
  split
  · rename_i e he
    exact consistent_of_getElem? hs.placed he
  · rename_i hnone
    have hnil := List.length_eq_zero_iff.1 (Nat.le_zero.1 (List.getElem?_eq_none_iff.1 hnone))
    refine ⟨Nat.le_refl _, Nat.le_max_left _ _, fun hne => absurd hnil hne, fun _ => rfl, ?_⟩
    rintro ⟨e, he, -⟩
    rw [hnil] at he
    cases he

/-! ## From the start -/

/-- The viewer of a compiled source after some events. -/
def opened (indent source : String) (events : List Event) : State :=
  (start source (compile indent source)).run events

theorem opened_shows (indent source : String) (events : List Event) :
    (opened indent source events).Shows source (compile indent source) :=
  (start_shows source (compile indent source)).run events

theorem opened_consistent (indent source : String) (events : List Event) :
    (opened indent source events).Consistent :=
  (start_consistent indent source).run (start_shows source (compile indent source)) events

/-- **The selection follows the cursor.** However a viewer of a source is used, it shows that source
and what compiling it came to, its cursor is on a line of it, the selected statement exists if there
are any, and it begins on the cursor line whenever a statement does. -/
theorem run_consistent (indent source : String) (events : List Event) :
    (opened indent source events).Shows source (compile indent source) ∧
      (opened indent source events).Consistent :=
  ⟨opened_shows indent source events, opened_consistent indent source events⟩

end State

end FuzzLang.Viewer
