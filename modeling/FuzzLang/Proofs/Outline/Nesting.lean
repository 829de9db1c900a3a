import FuzzLang.Proofs.Outline.Split
import Mathlib.Combinatorics.Enumerative.DyckWord

/-!
# Nesting

A statement that opens a brace is a step up and one that closes a brace is a step down, so
statements walk up and down as they come. They are well nested when the walk never goes below its
start and ends where it began, which makes it a Dyck word.

The body of an outline is well nested by its shape (`wellNested_bodyMarks`). A draft walks up once
for each of its open loops and never below its start (`Draft.count_marks`,
`Draft.neverOverclosed_marks`).
-/

namespace FuzzLang

/-! ## Words of steps -/

/-- No prefix closes more than it opens. -/
def NeverOverclosed (w : List DyckStep) : Prop :=
  ∀ n, (w.take n).count .D ≤ (w.take n).count .U

/-- No prefix closes more than it opens, and the totals are equal. -/
structure WellNested (w : List DyckStep) : Prop where
  initial : NeverOverclosed w
  total : w.count .U = w.count .D

namespace NeverOverclosed

variable {v w : List DyckStep}

theorem count_le (h : NeverOverclosed w) : w.count .D ≤ w.count .U := by
  have hall := h w.length
  rwa [List.take_length] at hall

theorem of_append (h : NeverOverclosed (v ++ w)) : NeverOverclosed v := by
  intro n
  have htake := h (min n v.length)
  rwa [List.take_append_of_le_length (Nat.min_le_right _ _), List.take_eq_take_min.symm] at htake

theorem append (hv : NeverOverclosed v) (hw : NeverOverclosed w) : NeverOverclosed (v ++ w) := by
  intro n
  rw [List.take_append, List.count_append, List.count_append]
  exact Nat.add_le_add (hv n) (hw _)

/-- Of the prefixes that end with a last step only the whole word is new. -/
theorem concat {s : DyckStep} (hw : NeverOverclosed w)
    (hall : (w ++ [s]).count .D ≤ (w ++ [s]).count .U) : NeverOverclosed (w ++ [s]) := by
  intro n
  by_cases hn : n ≤ w.length
  · rw [List.take_append_of_le_length hn]
    exact hw n
  · rw [List.take_of_length_le (by simp; omega)]
    exact hall

theorem insert (h : NeverOverclosed (v ++ w)) : NeverOverclosed (v ++ .U :: .D :: w) := by
  intro n
  by_cases hn : n ≤ v.length
  · rw [List.take_append_of_le_length hn]
    exact h.of_append n
  · obtain ⟨k, rfl⟩ : ∃ k, n = v.length + (k + 1) := ⟨n - v.length - 1, by omega⟩
    rw [List.take_length_add_append, List.take_succ_cons]
    cases k with
    | zero =>
      have hv := h.of_append.count_le
      simp
      omega
    | succ k =>
      have hk := h (v.length + k)
      rw [List.take_length_add_append, List.count_append, List.count_append] at hk
      simp
      omega

end NeverOverclosed

namespace WellNested

variable {v w : List DyckStep}

/-- The Dyck word that a well-nested word is. -/
def word (h : WellNested w) : DyckWord := ⟨w, h.total, h.initial⟩

theorem ofWord (p : DyckWord) : WellNested p.toList := ⟨p.count_D_le_count_U, p.count_U_eq_count_D⟩

theorem nil : WellNested [] := ofWord 0

theorem append (hv : WellNested v) (hw : WellNested w) : WellNested (v ++ w) :=
  ofWord (hv.word + hw.word)

theorem nest (h : WellNested w) : WellNested (.U :: (w ++ [.D])) := ofWord h.word.nest

/-- A brace that is opened and closed at once changes nothing. -/
theorem insert (h : WellNested (v ++ w)) : WellNested (v ++ .U :: .D :: w) where
  initial := h.initial.insert
  total := by
    have htotal := h.total
    rw [List.count_append, List.count_append] at htotal
    simp
    omega

/-- A brace stays open if what follows it is well nested. -/
theorem not_append_up (h : WellNested w) : ¬ WellNested (v ++ .U :: w) := by
  intro hall
  have htotal := hall.total
  have hbefore := hall.initial.of_append.count_le
  have hafter := h.total
  rw [List.count_append, List.count_append, List.count_cons_self,
    List.count_cons_of_ne (by decide)] at htotal
  omega

/-- Nothing is left to close after a well-nested word. -/
theorem not_append_down (h : WellNested v) : ¬ WellNested (v ++ .D :: w) := by
  intro hall
  have hinitial := hall.initial
  rw [← List.singleton_append, ← List.append_assoc] at hinitial
  have hbelow := hinitial.of_append.count_le
  have htotal := h.total
  simp at hbelow
  omega

end WellNested

/-! ## Statements as steps -/

/-- The step that the brace of a statement makes. -/
def Node.step? : Node → Option DyckStep
  | .loop .. | .function _ => some .U
  | .endLoop | .result _ => some .D
  | .declare .. | .print _ => none

/-- The steps of statements. -/
def braces (es : List Entry) : List DyckStep := es.filterMap fun e => e.node.step?

@[simp] theorem braces_nil : braces [] = [] := rfl

@[simp] theorem braces_cons (e : Entry) (es : List Entry) :
    braces (e :: es) = e.node.step?.toList ++ braces es := by
  cases h : e.node.step? <;> simp [braces, h]

@[simp] theorem braces_append (es more : List Entry) :
    braces (es ++ more) = braces es ++ braces more :=
  List.filterMap_append

theorem Entry.step?_of_binding? {e : Entry} (h : e.binding?.isSome) : e.node.step? = none := by
  obtain ⟨b, hb⟩ := Option.isSome_iff_exists.1 h
  rw [binding?_eq_some hb, Node.step?]

namespace Outline

theorem braces_bindings {es : List Entry} (h : ∀ e ∈ es, e.binding?.isSome) : braces es = [] :=
  List.filterMap_eq_nil_iff.2 fun e he => Entry.step?_of_binding? (h e he)

/-- A function opens one brace and closes it. -/
theorem Segment.braces_entries (s : Segment) : braces s.entries = [.U, .D] := by
  simp [entries, braces_bindings s.bindings_isSome, s.header_node, s.last_node, Node.step?]

/-! ## Bodies and drafts -/

/-- The steps of the statements that a body is written out as. -/
def markBraces (ms : List Mark) : List DyckStep := ms.filterMap fun m => m.node.step?

theorem markBraces_append (ms more : List Mark) :
    markBraces (ms ++ more) = markBraces ms ++ markBraces more :=
  List.filterMap_append

theorem markBraces_map (es : List Entry) : markBraces (es.map Entry.mark) = braces es := by
  simp only [markBraces, List.filterMap_map, Function.comp_def, Entry.node_mark, braces]

mutual

theorem wellNested_marks : (item : Item) → WellNested (markBraces item.marks)
  | .declare _ | .print _ => .nil
  | .loop _ _ body _ => by
    rw [Item.marks, ← List.cons_append, markBraces_append]
    exact (wellNested_bodyMarks body).nest

/-- A body is well nested. -/
theorem wellNested_bodyMarks : (items : List Item) → WellNested (markBraces (Item.bodyMarks items))
  | [] => .nil
  | item :: items => by
    rw [Item.bodyMarks, markBraces_append]
    exact (wellNested_marks item).append (wellNested_bodyMarks items)

end

theorem markBraces_openMarks (inner : OpenLoop) (outer : List OpenLoop) :
    markBraces (openMarks (inner :: outer)) =
      markBraces (openMarks outer) ++ .U :: markBraces (Item.bodyMarks inner.body) :=
  markBraces_append _ _

theorem neverOverclosed_openMarks (loops : List OpenLoop) :
    NeverOverclosed (markBraces (openMarks loops)) := by
  induction loops with
  | nil => exact WellNested.nil.initial
  | cons inner outer ih =>
    have hup : NeverOverclosed [DyckStep.U] :=
      NeverOverclosed.concat WellNested.nil.initial (by simp)
    rw [markBraces_openMarks, ← List.singleton_append]
    exact ih.append (hup.append (wellNested_bodyMarks inner.body).initial)

theorem count_openMarks (loops : List OpenLoop) :
    (markBraces (openMarks loops)).count .U =
      (markBraces (openMarks loops)).count .D + loops.length := by
  induction loops with
  | nil => rfl
  | cons inner outer ih =>
    have hbody := (wellNested_bodyMarks inner.body).total
    rw [markBraces_openMarks, List.count_append, List.count_append, List.count_cons_self,
      List.count_cons_of_ne (by decide), List.length_cons]
    omega

namespace Draft

theorem neverOverclosed_marks (d : Draft) : NeverOverclosed (markBraces d.marks) := by
  rw [marks, markBraces_append]
  exact (wellNested_bodyMarks d.main).initial.append (neverOverclosed_openMarks d.loops)

/-- A draft has opened one brace more than it has closed for each open loop. -/
theorem count_marks (d : Draft) :
    (markBraces d.marks).count .U = (markBraces d.marks).count .D + d.loops.length := by
  have hmain := (wellNested_bodyMarks d.main).total
  have hopen := count_openMarks d.loops
  rw [marks, markBraces_append, List.count_append, List.count_append]
  omega

end Draft

end Outline

end FuzzLang
