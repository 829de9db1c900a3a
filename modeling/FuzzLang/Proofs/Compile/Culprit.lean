import FuzzLang.Proofs.Compile.Injective

/-!
# Faults are about statements

When statements cannot be written, the fault is about one of them: it stands at the place of that
statement, and the statement is of the sort that can have such a fault (`generate_eq_error`). Faults
found at the end of a function, of a loop or of the program are about the header that is still open,
so an outline must not forget where the headers came from (`Draft.Holds`).
-/

namespace FuzzLang

namespace Outline

/-! ## Pieces -/

theorem exists_segment {pieces : List Piece} {f : FunctionDef}
    (h : f ∈ (pieces.filterMap Piece.segment?).map Segment.definition) :
    ∃ s, .function s ∈ pieces ∧ s.definition = f := by
  obtain ⟨s, hs, hf⟩ := List.mem_map.1 h
  obtain ⟨p, hp, hsegment⟩ := List.mem_filterMap.1 hs
  obtain rfl := Piece.eq_of_segment? hsegment
  exact ⟨s, hp, hf⟩

theorem exists_single {pieces : List Piece} {m : Mark}
    (h : m ∈ (pieces.filterMap Piece.single?).map Entry.mark) :
    ∃ e ∈ pieces.flatMap Piece.entries, e.mark = m := by
  obtain ⟨e, he, hm⟩ := List.mem_map.1 h
  obtain ⟨p, hp, hsingle⟩ := List.mem_filterMap.1 he
  refine ⟨e, List.mem_flatMap.2 ⟨p, hp, ?_⟩, hm⟩
  rw [Piece.entries_of_single? hsingle]
  exact List.mem_singleton.2 rfl

/-! ## Outlines -/

/-- The statement that a fault is about. -/
inductive Fault.About : Fault → Entry → Prop
  /-- Only variables and the returned value can stand in a function. -/
  | functionBody {e : Entry} {function : String} :
    e.binding? = none → (∀ value, e.node ≠ .result value) →
    About (.functionBody function e.node.kindName e.location) e
  | missingReturn {e : Entry} {s : Signature} :
    e.node = .function s → About (.missingReturn s.name e.location) e
  | unexpectedNode {e : Entry} {value : Expr} :
    e.node = .result value → About (.unexpectedNode e.node.kindName e.location) e
  | unmatchedEndLoop {e : Entry} : e.node = .endLoop → About (.unmatchedEndLoop e.location) e
  | unclosedLoop {e : Entry} {element collection : String} :
    e.node = .loop element collection → About (.unclosedLoop collection e.location) e
  | duplicateFunction {e : Entry} {s : Signature} :
    e.node = .function s → About (.duplicateFunction s.name e.location) e

theorem Fault.About.location_eq {fault : Fault} {e : Entry} (h : fault.About e) :
    fault.location = e.location := by
  cases h <;> rfl

namespace Draft

variable {d last : Draft} {seen entries : List Entry} {pieces : List Piece} {pending : List Entry}

/-- The header of the open function is a statement that the draft was made from. -/
theorem Holds.exists_header (h : Holds seen d pieces pending) {f : OpenFunction}
    (hf : d.function? = some f) :
    ∃ e ∈ seen, e.node = .function f.signature ∧ e.location = f.location := by
  have hp := h.pending
  rw [hf] at hp
  obtain ⟨header, bindings, hpending, hn, hl, -, -⟩ := hp
  refine ⟨header, ?_, hn, hl⟩
  rw [h.entries, hpending]
  simp

theorem mem_openMarks {loops : List OpenLoop} {l : OpenLoop} (h : l ∈ loops) :
    ⟨.loop l.element l.collection, some l.location⟩ ∈ openMarks loops := by
  induction loops with
  | nil => cases h
  | cons inner outer ih =>
    rw [openMarks, List.mem_append]
    rcases List.mem_cons.1 h with rfl | h
    · exact .inr List.mem_cons_self
    · exact .inl (ih h)

/-- A marked statement of a draft is one that the draft was made from. -/
theorem Holds.exists_of_mark (h : Holds seen d pieces pending) {m : Mark} (hm : m ∈ d.marks) :
    ∃ e ∈ seen, e.mark = m := by
  rw [h.marks] at hm
  obtain ⟨e, he, hmark⟩ := exists_single hm
  refine ⟨e, ?_, hmark⟩
  rw [h.entries]
  exact List.mem_append_left _ he

/-- So is the header of an open loop. -/
theorem Holds.exists_loop (h : Holds seen d pieces pending) {l : OpenLoop} (hl : l ∈ d.loops) :
    ∃ e ∈ seen, e.node = .loop l.element l.collection ∧ e.location = l.location := by
  obtain ⟨e, he, hmark⟩ := h.exists_of_mark (List.mem_append_right _ (mem_openMarks hl))
  exact ⟨e, he, Entry.eq_of_mark_eq hmark⟩

/-- A statement that cannot be taken is to blame, unless it ends a function whose name is taken:
then the header is. -/
theorem Holds.extend_eq_error (h : Holds seen d pieces pending) {e : Entry} {fault : Fault}
    (hfault : d.extend e = .error fault) : ∃ culprit ∈ seen ++ [e], fault.About culprit := by
  have hself : e ∈ seen ++ [e] := by simp
  obtain ⟨node, span, location⟩ := e
  cases hf : d.function? with
  | some f =>
    rw [extend_of_some hf] at hfault
    cases node with
    | declare name type value => cases hfault
    | result value =>
      simp only [extendFunction, closeFunction] at hfault
      split at hfault
      · cases hfault
        obtain ⟨header, hmem, hnode, hlocation⟩ := h.exists_header hf
        refine ⟨header, List.mem_append_left _ hmem, ?_⟩
        rw [← hlocation]
        exact .duplicateFunction hnode
      · cases hfault
    | loop | endLoop | function | print =>
      cases hfault
      exact ⟨_, hself, .functionBody rfl (by simp)⟩
  | none =>
    rw [extend_of_none hf] at hfault
    cases node with
    | endLoop =>
      simp only [extendBody] at hfault
      split at hfault
      · cases hfault
        exact ⟨_, hself, .unmatchedEndLoop (e := ⟨.endLoop, span, location⟩) rfl⟩
      · cases hfault
    | result value =>
      cases hfault
      exact ⟨_, hself, .unexpectedNode rfl⟩
    | declare | loop | function | print => cases hfault

/-- What is left open at the end is to blame. -/
theorem Holds.finish_eq_error (h : Holds seen d pieces pending) {fault : Fault}
    (hfault : d.finish = .error fault) : ∃ culprit ∈ seen, fault.About culprit := by
  unfold finish at hfault
  split at hfault
  · rename_i f hf
    cases hfault
    obtain ⟨header, hmem, hnode, hlocation⟩ := h.exists_header hf
    refine ⟨header, hmem, ?_⟩
    rw [← hlocation]
    exact .missingReturn hnode
  · rename_i inner outer _ hl
    cases hfault
    obtain ⟨header, hmem, hnode, hlocation⟩ := h.exists_loop (l := inner) (by simp [hl])
    refine ⟨header, hmem, ?_⟩
    rw [← hlocation]
    exact .unclosedLoop hnode
  · cases hfault

end Draft

/-- Statements without an outline have one that is to blame. -/
theorem ofEntries_eq_error {entries : List Entry} {fault : Fault}
    (h : ofEntries entries = .error fault) : ∃ e ∈ entries, fault.About e := by
  unfold ofEntries at h
  split at h
  · rename_i last _ hrun
    cases h
    obtain ⟨taken, e, later, rfl, htaken, hfault⟩ := Draft.exists_stop hrun
    obtain ⟨pieces, pending, hholds⟩ := Draft.exists_holds htaken
    obtain ⟨culprit, hmem, habout⟩ := hholds.extend_eq_error hfault
    refine ⟨culprit, ?_, habout⟩
    rw [← List.singleton_append, ← List.append_assoc]
    exact List.mem_append_left _ hmem
  · rename_i d hrun
    obtain ⟨pieces, pending, hholds⟩ := Draft.exists_holds hrun
    exact hholds.finish_eq_error h

/-- The variables of the functions and the body of an outline are declared by its statements. -/
theorem exists_of_binding {entries : List Entry} {o : Outline} (h : ofEntries entries = .ok o)
    {b : Binding} (hb : (∃ f ∈ o.functions, b ∈ f.body) ∨
      ⟨.declare b.name b.type b.value, some b.location⟩ ∈ Item.bodyMarks o.main) :
    ∃ e ∈ entries, e.node = .declare b.name b.type b.value ∧ e.location = b.location := by
  obtain ⟨pieces, rfl, hf, hm⟩ := exists_pieces h
  rw [hf, hm] at hb
  rcases hb with ⟨f, hf, hb⟩ | hb
  · obtain ⟨s, hp, rfl⟩ := exists_segment hf
    obtain ⟨e, he, hbinding⟩ := List.mem_filterMap.1 hb
    refine ⟨e, List.mem_flatMap.2 ⟨_, hp, ?_⟩, Entry.binding?_eq_some hbinding,
      Entry.location_of_binding? hbinding⟩
    simp [Piece.entries, Segment.entries, he]
  · obtain ⟨e, he, hmark⟩ := exists_single hb
    exact ⟨e, he, Entry.eq_of_mark_eq hmark⟩

/-- The functions of an outline have headers among its statements. -/
theorem exists_of_function {entries : List Entry} {o : Outline} (h : ofEntries entries = .ok o)
    {f : FunctionDef} (hf : f ∈ o.functions) :
    ∃ e ∈ entries, e.node = .function f.signature ∧ e.location = f.location := by
  obtain ⟨pieces, rfl, hfunctions, -⟩ := exists_pieces h
  rw [hfunctions] at hf
  obtain ⟨s, hp, rfl⟩ := exists_segment hf
  refine ⟨s.header, List.mem_flatMap.2 ⟨_, hp, ?_⟩, s.header_node, rfl⟩
  simp [Piece.entries, Segment.entries]

end Outline

/-! ## Writing -/

namespace Target

/-- The statement that a fault is about. The types of scalar variables are no words of a program, so
they have no faults. -/
inductive Fault.About : Fault → Entry → Prop
  | element {e : Entry} {name : String} {literal : ArrayLiteral} :
    e.node = .declare name .array (.array literal) → scalarWord? literal.elementType = none →
    About (.unknownType literal.elementType e.location) e
  | input {e : Entry} {s : Signature} :
    e.node = .function s → scalarWord? s.inputType = none →
    About (.unknownType s.inputType e.location) e
  | output {e : Entry} {s : Signature} :
    e.node = .function s → scalarWord? s.outputType = none →
    About (.unknownType s.outputType e.location) e
  | literal {e : Entry} {name : String} {value : Expr} :
    e.node = .declare name .array value → (∀ literal, value ≠ .array literal) →
    About (.missingArrayLiteral name e.location) e

theorem Fault.About.location_eq {fault : Fault} {e : Entry} (h : fault.About e) :
    fault.location = e.location := by
  cases h <;> rfl

theorem scalarWord_eq_error {name : String} {location : Location} {fault : Fault}
    (h : scalarWord name location = .error fault) :
    scalarWord? name = none ∧ fault = .unknownType name location := by
  unfold scalarWord at h
  split at h
  · cases h
  · rename_i hnone
    cases h
    exact ⟨hnone, rfl⟩

/-- Every scalar type of a variable has a word. -/
theorem scalarWord_isOk {type : VarType} (h : type ≠ .array) (location : Location) :
    ∃ word, scalarWord type.name location = .ok word := by
  cases type with
  | int | float | string => exact ⟨_, rfl⟩
  | array => exact absurd rfl h

theorem about_of_writtenType {b : Binding} {fault : Fault} {e : Entry}
    (h : writtenType b = .error fault) (hn : e.node = .declare b.name b.type b.value)
    (hl : e.location = b.location) : fault.About e := by
  obtain ⟨name, type, value, location⟩ := b
  simp only at hn hl
  subst hl
  revert h
  fun_cases writtenType with
  | case1 literal ht hv =>
    intro h
    simp only at ht hv
    subst ht hv
    unfold arrayType at h
    split at h
    · rename_i hword
      cases h
      obtain ⟨hnone, rfl⟩ := scalarWord_eq_error hword
      exact .element hn hnone
    · cases h
  | case2 ht hne =>
    intro h
    simp only at ht hne
    subst ht
    cases h
    exact .literal hn hne
  | case3 hne _ =>
    intro h
    obtain ⟨word, hword⟩ := scalarWord_isOk hne e.location
    cases hword.symm.trans h

theorem together_eq_error {xs ys : Except Fault (List Line)} {fault : Fault}
    (h : together xs ys = .error fault) : xs = .error fault ∨ ys = .error fault := by
  cases xs with
  | error x => exact .inl h
  | ok xs =>
    cases ys with
    | error y => exact .inr h
    | ok ys => cases h

theorem writtenType_of_bindingLine {depth : Nat} {b : Binding} {fault : Fault}
    (h : only (bindingLine depth b) = .error fault) : writtenType b = .error fault := by
  unfold bindingLine at h
  cases ha : writtenType b with
  | error x =>
    rw [ha] at h
    cases h
    rfl
  | ok type =>
    rw [ha] at h
    cases h

theorem writtenType_of_bindingLines {depth : Nat} {bs : List Binding} {fault : Fault}
    (h : bindingLines depth bs = .error fault) : ∃ b ∈ bs, writtenType b = .error fault := by
  induction bs with
  | nil => cases h
  | cons b bs ih =>
    rw [bindingLines_cons] at h
    rcases together_eq_error h with h | h
    · exact ⟨b, List.mem_cons_self, writtenType_of_bindingLine h⟩
    · obtain ⟨c, hc, hfault⟩ := ih h
      exact ⟨c, List.mem_cons_of_mem _ hc, hfault⟩

mutual

theorem writtenType_of_itemLines {depth : Nat} {item : Item} {fault : Fault}
    (h : itemLines depth item = .error fault) :
    ∃ b : Binding, ⟨.declare b.name b.type b.value, some b.location⟩ ∈ item.marks ∧
      writtenType b = .error fault := by
  cases item with
  | declare b =>
    rw [itemLines_declare] at h
    exact ⟨b, by simp [Item.marks], writtenType_of_bindingLine h⟩
  | print value => cases h
  | loop element collection body location =>
    rw [itemLines_loop] at h
    rcases together_eq_error h with h | h
    · cases h
    · rcases together_eq_error h with h | h
      · obtain ⟨b, hb, hfault⟩ := writtenType_of_bodyLines h
        refine ⟨b, ?_, hfault⟩
        rw [Item.marks]
        exact List.mem_cons_of_mem _ (List.mem_append_left _ hb)
      · cases h

theorem writtenType_of_bodyLines {depth : Nat} {items : List Item} {fault : Fault}
    (h : bodyLines depth items = .error fault) :
    ∃ b : Binding, ⟨.declare b.name b.type b.value, some b.location⟩ ∈ Item.bodyMarks items ∧
      writtenType b = .error fault := by
  cases items with
  | nil => cases h
  | cons item items =>
    rw [bodyLines_cons] at h
    rw [Item.bodyMarks]
    rcases together_eq_error h with h | h
    · obtain ⟨b, hb, hfault⟩ := writtenType_of_itemLines h
      exact ⟨b, List.mem_append_left _ hb, hfault⟩
    · obtain ⟨b, hb, hfault⟩ := writtenType_of_bodyLines h
      exact ⟨b, List.mem_append_right _ hb, hfault⟩

end

theorem about_of_headerLine {f : FunctionDef} {fault : Fault} {e : Entry}
    (h : only (headerLine f) = .error fault) (hn : e.node = .function f.signature)
    (hl : e.location = f.location) : fault.About e := by
  rw [headerLine_eq, headerText, ← hl] at h
  cases hi : scalarWord f.signature.inputType e.location with
  | error x =>
    rw [hi] at h
    cases h
    obtain ⟨hnone, rfl⟩ := scalarWord_eq_error hi
    exact .input hn hnone
  | ok input =>
    cases ho : scalarWord f.signature.outputType e.location with
    | error x =>
      rw [hi, ho] at h
      cases h
      obtain ⟨hnone, rfl⟩ := scalarWord_eq_error ho
      exact .output hn hnone
    | ok output =>
      rw [hi, ho] at h
      cases h

/-- The functions of a program fail by a header or by a variable. -/
theorem exists_of_functionsLines {fs : List FunctionDef} {fault : Fault}
    (h : functionsLines fs = .error fault) :
    ∃ f ∈ fs, only (headerLine f) = .error fault ∨
      ∃ b ∈ f.body, writtenType b = .error fault := by
  induction fs with
  | nil => cases h
  | cons f fs ih =>
    rw [functionsLines_cons] at h
    rcases together_eq_error h with h | h
    · rw [functionLines_eq] at h
      refine ⟨f, List.mem_cons_self, ?_⟩
      rcases together_eq_error h with h | h
      · exact (together_eq_error h).imp_right writtenType_of_bindingLines
      · cases h
    · obtain ⟨g, hg, hfault⟩ := ih h
      exact ⟨g, List.mem_cons_of_mem _ hg, hfault⟩

/-- An outline that cannot be written has a statement that is to blame. -/
theorem write_eq_error {entries : List Entry} {o : Outline} {indent : String} {fault : Fault}
    (ho : Outline.ofEntries entries = .ok o) (h : write indent o = .error fault) :
    ∃ e ∈ entries, fault.About e := by
  have hlines : programLines o = .error fault := by
    unfold write at h
    cases hp : programLines o with
    | error x =>
      rw [hp] at h
      cases h
      rfl
    | ok lines =>
      rw [hp] at h
      cases h
  have hvariable {b : Binding} (hfault : writtenType b = .error fault)
      (hb : (∃ f ∈ o.functions, b ∈ f.body) ∨
        ⟨.declare b.name b.type b.value, some b.location⟩ ∈ Item.bodyMarks o.main) :
      ∃ e ∈ entries, fault.About e := by
    obtain ⟨e, he, hn, hl⟩ := Outline.exists_of_binding ho hb
    exact ⟨e, he, about_of_writtenType hfault hn hl⟩
  rw [programLines_eq] at hlines
  rcases together_eq_error hlines with hlines | hlines
  · obtain ⟨f, hf, hfault | ⟨b, hb, hfault⟩⟩ := exists_of_functionsLines hlines
    · obtain ⟨e, he, hn, hl⟩ := Outline.exists_of_function ho hf
      exact ⟨e, he, about_of_headerLine hfault hn hl⟩
    · exact hvariable hfault (.inl ⟨f, hf, hb⟩)
  · rcases together_eq_error hlines with hlines | hlines
    · cases hlines
    · rcases together_eq_error hlines with hlines | hlines
      · obtain ⟨b, hb, hfault⟩ := writtenType_of_bodyLines hlines
        exact hvariable hfault (.inr hb)
      · cases hlines

end Target

/-! ## Generating -/

namespace Compilation

/-- The statement that an error is about. -/
def GenerateError.About : GenerateError → Entry → Prop
  | .outline fault, e => fault.About e
  | .target fault, e => fault.About e

theorem GenerateError.About.location_eq {error : GenerateError} {e : Entry} (h : error.About e) :
    error.location = e.location := by
  cases error with
  | outline fault => exact Outline.Fault.About.location_eq h
  | target fault => exact Target.Fault.About.location_eq h

/-- Statements that cannot be written have one that is to blame. -/
theorem generate_eq_error {indent : String} {entries : List Entry} {error : GenerateError}
    (h : generate indent entries = .error error) : ∃ e ∈ entries, error.About e := by
  unfold generate at h
  cases ho : Outline.ofEntries entries with
  | error fault =>
    rw [ho] at h
    cases h
    exact Outline.ofEntries_eq_error ho
  | ok o =>
    rw [ho] at h
    simp only at h
    cases hw : Target.write indent o with
    | error fault =>
      rw [hw] at h
      cases h
      exact Target.write_eq_error ho hw
    | ok text =>
      rw [hw] at h
      cases h

end Compilation

end FuzzLang
