import FuzzLang.Proofs.Outline.Steps
import FuzzLang.Proofs.Run

/-!
# Outlines lose, repeat and reorder nothing

Statements with an outline are cut into pieces: the segments of functions, each a header, variables
and a returned value, and single statements. They are cut in one way only (`entries_injective`). The
functions of the outline are the segments in order, and writing its body out again as statements
(`Item.marks`) gives the single statements in order.
-/

namespace FuzzLang

/-- The variable that a statement declares. -/
def Entry.binding? (e : Entry) : Option Binding :=
  match e.node with
  | .declare name type value => some ⟨name, type, value, e.location⟩
  | _ => none

theorem Entry.binding?_eq_some {e : Entry} {b : Binding} (h : e.binding? = some b) :
    e.node = .declare b.name b.type b.value := by
  unfold binding? at h
  split at h
  · rename_i hn
    cases h
    exact hn
  · cases h

theorem Entry.location_of_binding? {e : Entry} {b : Binding} (h : e.binding? = some b) :
    e.location = b.location := by
  unfold binding? at h
  split at h
  · cases h
    rfl
  · cases h

/-- Whether a statement belongs to a function of its own: a header or a returned value. -/
def Node.ofFunction : Node → Bool
  | .function _ | .result _ => true
  | _ => false

namespace Outline

/-! ## Pieces -/

/-- The statements of a function: its header, its variables and its returned value. -/
structure Segment where
  header : Entry
  bindings : List Entry
  last : Entry
  signature : Signature
  returns : Expr
  header_node : header.node = .function signature
  bindings_isSome : ∀ e ∈ bindings, e.binding?.isSome
  last_node : last.node = .result returns

namespace Segment

def entries (s : Segment) : List Entry := s.header :: (s.bindings ++ [s.last])

/-- The function that a segment defines. -/
def definition (s : Segment) : FunctionDef :=
  ⟨s.signature, s.bindings.filterMap Entry.binding?, s.returns, s.header.location⟩

theorem ext_entries {s t : Segment} (hh : s.header = t.header) (hv : s.bindings = t.bindings)
    (hl : s.last = t.last) : s = t := by
  obtain ⟨header, bindings, last, signature, returns, hs, hb, hr⟩ := s
  obtain ⟨header', bindings', last', signature', returns', hs', hb', hr'⟩ := t
  simp only at hh hv hl
  subst hh hv hl
  obtain rfl : signature = signature' := Node.function.inj (hs.symm.trans hs')
  obtain rfl : returns = returns' := Node.result.inj (hr.symm.trans hr')
  rfl

theorem last_binding? (s : Segment) : ¬ s.last.binding?.isSome := by
  simp [Entry.binding?, s.last_node]

end Segment

/-- A piece of a list of statements. -/
inductive Piece where
  | function (segment : Segment)
  | single (e : Entry) (h : e.node.ofFunction = false)

namespace Piece

def entries : Piece → List Entry
  | .function s => s.entries
  | .single e _ => [e]

def segment? : Piece → Option Segment
  | .function s => some s
  | .single _ _ => none

def single? : Piece → Option Entry
  | .function _ => none
  | .single e _ => some e

theorem eq_of_segment? {p : Piece} {s : Segment} (h : p.segment? = some s) :
    p = .function s := by
  cases p with
  | function t => cases h; rfl
  | single => cases h

theorem entries_of_single? {p : Piece} {e : Entry} (h : p.single? = some e) :
    p.entries = [e] := by
  cases p with
  | function => cases h
  | single => cases h; rfl

/-- Statements are cut into pieces in one way only. -/
theorem entries_injective {ps qs : List Piece}
    (h : ps.flatMap entries = qs.flatMap entries) : ps = qs := by
  induction ps generalizing qs with
  | nil =>
    cases qs with
    | nil => rfl
    | cons q qs => cases q <;> simp [entries, Segment.entries] at h
  | cons p ps ih =>
    cases qs with
    | nil => cases p <;> simp [entries, Segment.entries] at h
    | cons q qs =>
      rw [List.flatMap_cons, List.flatMap_cons] at h
      cases p with
      | function s =>
        cases q with
        | function t =>
          simp only [entries, Segment.entries, List.cons_append, List.append_assoc] at h
          obtain ⟨hh, ht⟩ := List.cons.inj h
          obtain ⟨hv, hl, hrest⟩ := run_cons_inj s.bindings_isSome t.bindings_isSome
            s.last_binding? t.last_binding? ht
          rw [Segment.ext_entries hh hv hl, ih hrest]
        | single e he =>
          obtain ⟨rfl, _⟩ := List.cons.inj h
          simp [s.header_node, Node.ofFunction] at he
      | single e he =>
        cases q with
        | function t =>
          obtain ⟨rfl, _⟩ := List.cons.inj h
          simp [t.header_node, Node.ofFunction] at he
        | single e' he' =>
          obtain ⟨rfl, hrest⟩ := List.cons.inj h
          rw [ih hrest]

end Piece

/-! ## Bodies as statements -/

/-- A statement of a body, with the place that an outline keeps: that of a variable or a loop. -/
structure Mark where
  node : Node
  location? : Option Location

end Outline

def Entry.mark (e : Entry) : Outline.Mark :=
  match e.node with
  | .declare .. | .loop .. => ⟨e.node, some e.location⟩
  | _ => ⟨e.node, none⟩

theorem Entry.node_mark (e : Entry) : e.mark.node = e.node := by
  unfold mark
  split <;> rfl

/-- A statement whose mark keeps a place is at that place. -/
theorem Entry.eq_of_mark_eq {e : Entry} {node : Node} {location : Location}
    (h : e.mark = ⟨node, some location⟩) : e.node = node ∧ e.location = location := by
  unfold mark at h
  split at h
  · exact ⟨congrArg Outline.Mark.node h, Option.some.inj (congrArg Outline.Mark.location? h)⟩
  · exact ⟨congrArg Outline.Mark.node h, Option.some.inj (congrArg Outline.Mark.location? h)⟩
  · cases h

open Outline in
mutual

/-- An item written out as statements: a loop is its header, its body and its end. -/
def Item.marks : Item → List Mark
  | .declare b => [⟨.declare b.name b.type b.value, some b.location⟩]
  | .print value => [⟨.print value, none⟩]
  | .loop element collection body location =>
    ⟨.loop element collection, some location⟩ :: (Item.bodyMarks body ++ [⟨.endLoop, none⟩])

def Item.bodyMarks : List Item → List Mark
  | [] => []
  | item :: items => item.marks ++ Item.bodyMarks items

end

@[simp] theorem Item.bodyMarks_append (xs ys : List Item) :
    bodyMarks (xs ++ ys) = bodyMarks xs ++ bodyMarks ys := by
  induction xs with
  | nil => rfl
  | cons x xs ih => rw [List.cons_append, bodyMarks, bodyMarks, ih, List.append_assoc]

namespace Outline

/-- The open loops written out so far, the outermost first. -/
def openMarks : List OpenLoop → List Mark
  | [] => []
  | inner :: outer =>
    openMarks outer ++
      ⟨.loop inner.element inner.collection, some inner.location⟩ :: Item.bodyMarks inner.body

namespace Draft

/-- The body of a draft written out so far. -/
def marks (d : Draft) : List Mark := Item.bodyMarks d.main ++ openMarks d.loops

theorem marks_push (d : Draft) (item : Item) : (d.push item).marks = d.marks ++ item.marks := by
  unfold push marks
  split
  · rename_i inner outer hl
    simp [hl, openMarks, Item.bodyMarks]
  · rename_i hl
    simp [hl, openMarks, Item.bodyMarks]

theorem functions_push (d : Draft) (item : Item) : (d.push item).functions = d.functions := by
  unfold push
  split <;> rfl

theorem function?_push (d : Draft) (item : Item) : (d.push item).function? = d.function? := by
  unfold push
  split <;> rfl

/-- The statements `pending` of the open function, none if there is no open function. -/
def Pending (f? : Option OpenFunction) (pending : List Entry) : Prop :=
  match f? with
  | none => pending = []
  | some f => ∃ header bindings, pending = header :: bindings ∧
      header.node = .function f.signature ∧ header.location = f.location ∧
      (∀ e ∈ bindings, e.binding?.isSome) ∧ bindings.filterMap Entry.binding? = f.body

/-- A draft holds the pieces of the statements it was made from, but for those of the open
function. -/
structure Holds (seen : List Entry) (d : Draft) (pieces : List Piece) (pending : List Entry) :
    Prop where
  entries : seen = pieces.flatMap Piece.entries ++ pending
  functions : d.functions = (pieces.filterMap Piece.segment?).map Segment.definition
  marks : d.marks = (pieces.filterMap Piece.single?).map Entry.mark
  pending : Pending d.function? pending

namespace Holds

variable {seen : List Entry} {d next : Draft} {e : Entry} {pieces : List Piece}
  {pending : List Entry}

theorem pending_nil (h : Holds seen d pieces pending) (hf : d.function? = none) : pending = [] := by
  have hp := h.pending
  rwa [hf] at hp

/-- A statement outside of functions becomes a piece of its own. -/
theorem single (h : Holds seen d pieces pending) (hf : d.function? = none)
    (he : e.node.ofFunction = false) (hfunctions : next.functions = d.functions)
    (hnone : next.function? = none) (hmarks : next.marks = d.marks ++ [e.mark]) :
    Holds (seen ++ [e]) next (pieces ++ [.single e he]) [] where
  entries := by simp [h.entries, h.pending_nil hf, Piece.entries]
  functions := by simp [hfunctions, h.functions, Piece.segment?]
  marks := by simp [hmarks, h.marks, Piece.single?]
  pending := by rw [hnone]; rfl

/-- Each statement is put into a piece of its own, or joined to the open function, which becomes a
piece at its end. -/
theorem step (h : Holds seen d pieces pending) (hs : d.Extends e next) :
    ∃ pieces' pending', Holds (seen ++ [e]) next pieces' pending' := by
  cases hs with
  | @bind f name type value span location hf =>
    have hp := h.pending
    rw [hf] at hp
    obtain ⟨header, bindings, rfl, hn, hl, hb, hbody⟩ := hp
    refine ⟨pieces, _, ?_, h.functions, h.marks,
      header, bindings ++ [⟨.declare name type value, span, location⟩], rfl, hn, hl, ?_, ?_⟩
    · simp [h.entries]
    · intro e he
      rcases List.mem_append.1 he with he | he
      · exact hb e he
      · rw [List.mem_singleton.1 he]
        rfl
    · rw [List.filterMap_append, hbody]
      rfl
  | @finish f value span location hf ht =>
    have hp := h.pending
    rw [hf] at hp
    obtain ⟨header, bindings, rfl, hn, hl, hb, hbody⟩ := hp
    let segment : Segment :=
      ⟨header, bindings, ⟨.result value, span, location⟩, f.signature, value, hn, hb, rfl⟩
    have hd : segment.definition = ⟨f.signature, f.body, value, f.location⟩ := by
      simp only [segment, Segment.definition, hbody, hl]
    refine ⟨pieces ++ [.function segment], [], ?_, ?_, ?_, rfl⟩
    · simp [h.entries, Piece.entries, Segment.entries, segment]
    · simp [h.functions, Piece.segment?, hd]
    · rw [List.filterMap_append, List.filterMap_cons_none rfl, List.filterMap_nil, List.append_nil]
      exact h.marks
  | declare hf =>
    exact ⟨_, _, h.single hf rfl (functions_push _ _) (by rw [function?_push, hf])
      (by rw [marks_push]; rfl)⟩
  | print hf =>
    exact ⟨_, _, h.single hf rfl (functions_push _ _) (by rw [function?_push, hf])
      (by rw [marks_push]; rfl)⟩
  | enter hf =>
    refine ⟨_, _, h.single hf rfl rfl hf ?_⟩
    simp [Draft.marks, openMarks, Item.bodyMarks, Entry.mark]
  | @leave inner outer span location hf hl =>
    refine ⟨_, _, h.single hf rfl (functions_push _ _) (by rw [function?_push, hf]) ?_⟩
    rw [marks_push]
    simp [Draft.marks, hl, openMarks, Item.marks, Entry.mark]
  | @begin signature span location hf =>
    refine ⟨pieces, [⟨.function signature, span, location⟩], ?_, h.functions, h.marks,
      _, [], rfl, rfl, rfl, by simp, rfl⟩
    rw [h.entries, h.pending_nil hf, List.append_nil]

end Holds

theorem exists_holds {entries : List Entry} {last : Draft}
    (h : extendAll {} entries = (last, none)) :
    ∃ pieces pending, Holds entries last pieces pending := by
  have hempty : Holds [] {} [] [] := ⟨rfl, rfl, rfl, rfl⟩
  exact extendAll_induction (P := fun seen d => ∃ pieces pending, Holds seen d pieces pending)
    (fun ⟨_, _, hp⟩ hs => hp.step hs) ⟨[], [], hempty⟩ h

end Draft

/-- The functions of an outline are the segments of its statements, and its body written out again
is the single statements. -/
theorem exists_pieces {entries : List Entry} {o : Outline} (h : ofEntries entries = .ok o) :
    ∃ pieces : List Piece, pieces.flatMap Piece.entries = entries ∧
      o.functions = (pieces.filterMap Piece.segment?).map Segment.definition ∧
      Item.bodyMarks o.main = (pieces.filterMap Piece.single?).map Entry.mark := by
  obtain ⟨pieces, pending, hp⟩ := ofEntries_induction
    (P := fun seen d => ∃ pieces pending, Draft.Holds seen d pieces pending)
    ⟨[], [], rfl, rfl, rfl, rfl⟩ (fun ⟨_, _, hp⟩ hs => hp.step hs) h
  obtain rfl := hp.pending_nil rfl
  refine ⟨pieces, by rw [hp.entries, List.append_nil], hp.functions, ?_⟩
  have hm := hp.marks
  rwa [Draft.marks, openMarks, List.append_nil] at hm

/-- **Outlining is faithful.** The statements are cut into functions and single statements in one
way; the functions of the outline are the ones, its body written out again is the others. -/
theorem ofEntries_faithful {entries : List Entry} {o : Outline} (h : ofEntries entries = .ok o) :
    ∃ pieces : List Piece, pieces.flatMap Piece.entries = entries ∧
      (∀ other : List Piece, other.flatMap Piece.entries = entries → other = pieces) ∧
      o.functions = (pieces.filterMap Piece.segment?).map Segment.definition ∧
      Item.bodyMarks o.main = (pieces.filterMap Piece.single?).map Entry.mark := by
  obtain ⟨pieces, he, hf, hm⟩ := exists_pieces h
  exact ⟨pieces, he, fun other ho => Piece.entries_injective (ho.trans he.symm), hf, hm⟩

/-- A loop around a function and a print. -/
def hoisted : List Entry :=
  [⟨.loop "x" "xs", {}, ⟨1, 1⟩⟩, ⟨.function ⟨"f", "a", "int", "int"⟩, {}, ⟨2, 1⟩⟩,
    ⟨.declare "b" .int (.variable "a"), {}, ⟨3, 1⟩⟩, ⟨.result (.variable "b"), {}, ⟨4, 1⟩⟩,
    ⟨.print (.variable "x"), {}, ⟨5, 1⟩⟩, ⟨.endLoop, {}, ⟨6, 1⟩⟩]

/-- The function is taken out of the loop, and the loop stays whole. -/
theorem ofEntries_faithful_hoisted :
    ∃ pieces : List Piece, pieces.flatMap Piece.entries = hoisted ∧
      (pieces.filterMap Piece.segment?).map Segment.definition =
        [⟨⟨"f", "a", "int", "int"⟩, [⟨"b", .int, .variable "a", ⟨3, 1⟩⟩], .variable "b", ⟨2, 1⟩⟩] ∧
      (pieces.filterMap Piece.single?).map Entry.mark =
        [⟨.loop "x" "xs", some ⟨1, 1⟩⟩, ⟨.print (.variable "x"), none⟩, ⟨.endLoop, none⟩] := by
  have h : ofEntries hoisted = .ok ⟨
      [⟨⟨"f", "a", "int", "int"⟩, [⟨"b", .int, .variable "a", ⟨3, 1⟩⟩], .variable "b", ⟨2, 1⟩⟩],
      [.loop "x" "xs" [.print (.variable "x")] ⟨1, 1⟩]⟩ := rfl
  obtain ⟨pieces, he, _, hf, hm⟩ := ofEntries_faithful h
  exact ⟨pieces, he, hf.symm, hm.symm⟩

end Outline

end FuzzLang
