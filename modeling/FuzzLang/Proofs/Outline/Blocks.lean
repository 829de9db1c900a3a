import FuzzLang.Proofs.Outline.WellFormed

/-!
# Blocks

A statement that opens a brace and one that closes it are the ends of a block when the statements
between them are well nested (`Encloses`). The header and the returned value of a function are such
ends, wherever the function stands. So are the header of a loop and the statement that closes the
loop in the outline: functions between them open and close their own braces
(`Encloses.of_singles`). How the items of a body are made of statements is told by `Built`.
-/

namespace FuzzLang.Outline

/-- The statements `a` and `b` are the ends of a block. -/
def Encloses (entries : List Entry) (a b : Entry) : Prop :=
  ∃ before inside after, entries = before ++ a :: (inside ++ b :: after) ∧
    a.node.step? = some .U ∧ b.node.step? = some .D ∧ WellNested (braces inside)

theorem Encloses.append {entries : List Entry} {a b : Entry} (h : Encloses entries a b)
    (before after : List Entry) : Encloses (before ++ (entries ++ after)) a b := by
  obtain ⟨first, inside, last, rfl, ha, hb, hinside⟩ := h
  exact ⟨before ++ first, inside, last ++ after, by simp, ha, hb, hinside⟩

/-! ## Functions among other statements -/

/-- Functions keep statements well nested wherever they are put. -/
theorem wellNested_flatMap {v : List DyckStep} {ps : List Piece}
    (h : WellNested (v ++ braces (ps.filterMap Piece.single?))) :
    WellNested (v ++ braces (ps.flatMap Piece.entries)) := by
  induction ps generalizing v with
  | nil => exact h
  | cons p ps ih =>
    rw [List.flatMap_cons, braces_append]
    cases p with
    | function s =>
      rw [Piece.entries, s.braces_entries]
      exact (ih h).insert
    | single e he =>
      have hcons : (Piece.single e he :: ps).filterMap Piece.single? =
          e :: ps.filterMap Piece.single? := rfl
      rw [hcons, braces_cons, ← List.append_assoc] at h
      rw [Piece.entries, braces_cons, braces_nil, List.append_nil, ← List.append_assoc]
      exact ih h

theorem encloses_function {ps : List Piece} {s : Segment} (h : .function s ∈ ps) :
    Encloses (ps.flatMap Piece.entries) s.header s.last := by
  obtain ⟨before, after, rfl⟩ := List.append_of_mem h
  refine ⟨before.flatMap Piece.entries, s.bindings, after.flatMap Piece.entries, ?_, ?_, ?_, ?_⟩
  · simp [Piece.entries, Segment.entries]
  · rw [s.header_node, Node.step?]
  · rw [s.last_node, Node.step?]
  · rw [braces_bindings s.bindings_isSome]
    exact .nil

/-- The ends of a block are its ends with functions written inside of it too. -/
theorem Encloses.of_singles {ps : List Piece} {a b : Entry}
    (h : Encloses (ps.filterMap Piece.single?) a b) : Encloses (ps.flatMap Piece.entries) a b := by
  obtain ⟨before, inside, after, hsingles, ha, hb, hinside⟩ := h
  obtain ⟨ps₁, ps₂, rfl, -, h₂⟩ := List.filterMap_eq_append_iff.1 hsingles
  obtain ⟨gap, p, ps₃, rfl, -, hp, h₃⟩ := List.filterMap_eq_cons_iff.1 h₂
  obtain ⟨ps₄, ps₅, rfl, h₄, h₅⟩ := List.filterMap_eq_append_iff.1 h₃
  obtain ⟨gap', q, ps₆, rfl, hgap', hq, -⟩ := List.filterMap_eq_cons_iff.1 h₅
  have hnested : WellNested ([] ++ braces ((ps₄ ++ gap').filterMap Piece.single?)) := by
    rw [List.filterMap_append, h₄, List.filterMap_eq_nil_iff.2 hgap', List.append_nil]
    exact hinside
  refine ⟨(ps₁ ++ gap).flatMap Piece.entries, (ps₄ ++ gap').flatMap Piece.entries,
    ps₆.flatMap Piece.entries, ?_, ha, hb, wellNested_flatMap hnested⟩
  simp [Piece.entries_of_single? hp, Piece.entries_of_single? hq]

/-! ## The items of a body -/

/-- The items of a body are made of the statements: a loop of its header, the statements of its
body and the statement that closes it, where the header and the last one are related by `ends`. -/
inductive Built (ends : Entry → Entry → Prop) : List Item → List Entry → Prop
  | nil : Built ends [] []
  | declare {b : Binding} {e : Entry} {items : List Item} {es : List Entry} :
    e.binding? = some b → Built ends items es → Built ends (.declare b :: items) (e :: es)
  | print {value : Expr} {e : Entry} {items : List Item} {es : List Entry} :
    e.node = .print value → Built ends items es → Built ends (.print value :: items) (e :: es)
  | loop {element collection : String} {location : Location} {header closing : Entry}
      {body items : List Item} {inside es : List Entry} :
    header.node = .loop element collection → header.location = location →
    closing.node = .endLoop → ends header closing → Built ends body inside → Built ends items es →
    Built ends (.loop element collection body location :: items)
      (header :: (inside ++ closing :: es))

theorem Built.mono {ends ends' : Entry → Entry → Prop} (hends : ∀ a b, ends a b → ends' a b)
    {items : List Item} {es : List Entry} (h : Built ends items es) : Built ends' items es := by
  induction h with
  | nil => exact .nil
  | declare hb _ ih => exact .declare hb ih
  | print hn _ ih => exact .print hn ih
  | loop hh hl hc he _ _ ihbody ih => exact .loop hh hl hc (hends _ _ he) ihbody ih

/-- A body is made of the statements it is written out as, and the ends of its loops enclose
blocks. -/
theorem built_of_marks (ends : Entry → Entry → Prop) : (items : List Item) → (es : List Entry) →
    Item.bodyMarks items = es.map Entry.mark → (∀ a b, Encloses es a b → ends a b) →
    Built ends items es
  | [], es, h, _ => by
    obtain rfl := List.map_eq_nil_iff.1 h.symm
    exact .nil
  | .declare b :: items, es, h, hends => by
    obtain ⟨e, rest, rfl, he, hrest⟩ := List.map_eq_cons_iff.1 h.symm
    obtain ⟨hnode, hlocation⟩ := Entry.eq_of_mark_eq he
    have hb : e.binding? = some b := by rw [Entry.binding?, hnode, hlocation]
    refine .declare hb (built_of_marks ends items rest hrest.symm fun x y hxy => ?_)
    exact hends x y (by simpa using hxy.append [e] [])
  | .print value :: items, es, h, hends => by
    obtain ⟨e, rest, rfl, he, hrest⟩ := List.map_eq_cons_iff.1 h.symm
    have hnode : e.node = .print value := by rw [← e.node_mark, he]
    refine .print hnode (built_of_marks ends items rest hrest.symm fun x y hxy => ?_)
    exact hends x y (by simpa using hxy.append [e] [])
  | .loop element collection body location :: items, es, h, hends => by
    rw [Item.bodyMarks, Item.marks, List.cons_append, List.append_assoc, List.singleton_append] at h
    obtain ⟨header, rest, rfl, hheader, hrest⟩ := List.map_eq_cons_iff.1 h.symm
    obtain ⟨inside, rest, rfl, hinside, hrest⟩ := List.map_eq_append_iff.1 hrest
    obtain ⟨closing, rest, rfl, hclosing, hrest⟩ := List.map_eq_cons_iff.1 hrest
    obtain ⟨hnode, hlocation⟩ := Entry.eq_of_mark_eq hheader
    have hend : closing.node = .endLoop := by rw [← closing.node_mark, hclosing]
    have hnested : WellNested (braces inside) := by
      rw [← markBraces_map, hinside]
      exact wellNested_bodyMarks body
    refine .loop hnode hlocation hend (hends _ _ ?_)
      (built_of_marks ends body inside hinside.symm ?_)
      (built_of_marks ends items rest hrest.symm ?_)
    · exact ⟨[], inside, rest, rfl, by rw [hnode, Node.step?], by rw [hend, Node.step?], hnested⟩
    · exact fun x y hxy => hends x y (hxy.append [header] (closing :: rest))
    · intro x y hxy
      exact hends x y (by simpa using hxy.append (header :: (inside ++ [closing])) [])

/-- The functions and the loops of an outline are blocks of its statements, and all braces of the
statements are theirs. -/
theorem exists_built {entries : List Entry} {o : Outline} (h : ofEntries entries = .ok o) :
    ∃ pieces : List Piece, pieces.flatMap Piece.entries = entries ∧
      o.functions = Piece.definitions pieces ∧ WellNested (braces entries) ∧
      (∀ s, .function s ∈ pieces → Encloses entries s.header s.last) ∧
      Built (Encloses entries) o.main (pieces.filterMap Piece.single?) := by
  obtain ⟨pieces, rfl, hfunctions, hmarks⟩ := exists_pieces h
  have hsingles : WellNested ([] ++ braces (pieces.filterMap Piece.single?)) := by
    rw [List.nil_append, ← markBraces_map, ← hmarks]
    exact wellNested_bodyMarks o.main
  exact ⟨pieces, rfl, hfunctions, wellNested_flatMap hsingles, fun s => encloses_function,
    built_of_marks _ _ _ hmarks fun a b => Encloses.of_singles⟩

end FuzzLang.Outline
