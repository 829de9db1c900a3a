import FuzzLang.Proofs.Outline.Append
import FuzzLang.Proofs.Outline.Nesting

/-!
# Which statements have an outline

Statements are gone through piece by piece. Pieces that can be gone through (`Scans`) take the
empty draft to one that holds them (`Scans.exists_run`), and `Halts` lists the ways in which what
comes next cannot be a piece. Statements have an outline when they are such pieces to the end and
all their loops are closed, and otherwise the fault is the one where the pieces end
(`ofEntries_scan`).
-/

namespace FuzzLang.Outline

/-! ## Pieces that can be gone through -/

namespace Piece

/-- The functions among pieces. -/
def definitions (ps : List Piece) : List FunctionDef :=
  (ps.filterMap segment?).map Segment.definition

/-- The names of the functions among pieces. -/
def names (ps : List Piece) : List String :=
  (ps.filterMap segment?).map (·.signature.name)

theorem names_append (ps qs : List Piece) : names (ps ++ qs) = names ps ++ names qs := by
  rw [names, List.filterMap_append, List.map_append]
  rfl

theorem definitions_append (ps qs : List Piece) :
    definitions (ps ++ qs) = definitions ps ++ definitions qs := by
  rw [definitions, List.filterMap_append, List.map_append]
  rfl

theorem map_name_definitions (ps : List Piece) :
    (definitions ps).map (·.signature.name) = names ps := by
  rw [definitions, names, List.map_map]
  rfl

end Piece

/-- Pieces without a fault: no two functions have the same name, none is called `main`, and no loop
is closed that was not opened. -/
structure Scans (ps : List Piece) : Prop where
  nodup : (Piece.names ps).Nodup
  not_main : "main" ∉ Piece.names ps
  initial : NeverOverclosed (braces (ps.filterMap Piece.single?))

theorem Scans.of_append {ps qs : List Piece} (h : Scans (ps ++ qs)) : Scans ps where
  nodup := by
    have hnodup := h.nodup
    rw [Piece.names_append] at hnodup
    exact hnodup.of_append_left
  not_main := by
    have hmain := h.not_main
    rw [Piece.names_append] at hmain
    exact fun hmem => hmain (List.mem_append_left _ hmem)
  initial := by
    have hinitial := h.initial
    rw [List.filterMap_append, braces_append] at hinitial
    exact hinitial.of_append

/-! ## Runs over pieces -/

namespace Draft

variable {d : Draft}

/-- The variables of an open function are gathered one by one. -/
theorem extendAll_bindings {f : OpenFunction} (hf : d.function? = some f) {bindings : List Entry}
    (hb : ∀ e ∈ bindings, e.binding?.isSome) (rest : List Entry) :
    d.extendAll (bindings ++ rest) =
      { d with
        function? := some { f with body := f.body ++ bindings.filterMap Entry.binding? }
      }.extendAll rest := by
  induction bindings generalizing d f with
  | nil =>
    rw [List.nil_append, List.filterMap_nil, List.append_nil, ← hf]
  | cons e bindings ih =>
    obtain ⟨node, span, location⟩ := e
    obtain ⟨b, he⟩ := Option.isSome_iff_exists.1 (hb _ List.mem_cons_self)
    cases node with
    | declare name type value =>
      rw [List.cons_append, extendAll_cons (.bind hf),
        ih rfl fun e he => hb e (List.mem_cons_of_mem _ he)]
      simp [Entry.binding?]
    | _ => cases he

/-- A header opens a function, and variables follow. -/
theorem extendAll_header (hf : d.function? = none) {header : Entry} {signature : Signature}
    (hn : header.node = .function signature) {bindings : List Entry}
    (hb : ∀ e ∈ bindings, e.binding?.isSome) (rest : List Entry) :
    d.extendAll (header :: (bindings ++ rest)) =
      { d with
        function? := some ⟨signature, header.location, bindings.filterMap Entry.binding?⟩
      }.extendAll rest := by
  obtain ⟨node, span, location⟩ := header
  simp only at hn
  subst hn
  rw [extendAll_cons (.begin hf), extendAll_bindings rfl hb, List.nil_append]

/-- A function whose name is free is added to the functions. -/
theorem extendAll_segment (hf : d.function? = none) (s : Segment)
    (ht : d.taken s.signature.name = false) (rest : List Entry) :
    d.extendAll (s.entries ++ rest) =
      { d with functions := d.functions ++ [s.definition] }.extendAll rest := by
  obtain ⟨header, bindings, ⟨node, span, location⟩, signature, returns, hheader, hb, hlast⟩ := s
  simp only at hlast
  subst hlast
  rw [Segment.entries, List.cons_append, List.append_assoc, List.singleton_append,
    extendAll_header hf hheader hb, extendAll_cons (.finish rfl ht), Segment.definition, ← hf]

/-- A statement outside of functions can be taken, unless it closes a loop and none is open. -/
theorem exists_extends_single {e : Entry} (hf : d.function? = none)
    (he : e.node.ofFunction = false) (hend : e.node = .endLoop → d.loops ≠ []) :
    ∃ next, d.Extends e next ∧ next.functions = d.functions ∧ next.function? = none := by
  obtain ⟨node, span, location⟩ := e
  cases node with
  | declare => exact ⟨_, .declare hf, functions_push _ _, by rw [function?_push, hf]⟩
  | print => exact ⟨_, .print hf, functions_push _ _, by rw [function?_push, hf]⟩
  | loop => exact ⟨_, .enter hf, rfl, hf⟩
  | endLoop =>
    obtain ⟨inner, outer, hl⟩ := List.exists_cons_of_ne_nil (hend rfl)
    exact ⟨_, .leave hf hl, functions_push _ _, by rw [function?_push, hf]⟩
  | function | result => cases he

/-- A draft that has gone through pieces to the end holds these pieces. -/
theorem holds_of_run {ps : List Piece} (h : extendAll {} (ps.flatMap Piece.entries) = (d, none))
    (hf : d.function? = none) : Holds (ps.flatMap Piece.entries) d ps [] := by
  obtain ⟨pieces, pending, hholds⟩ := exists_holds h
  obtain rfl := hholds.pending_nil hf
  have hentries := hholds.entries
  rw [List.append_nil] at hentries
  obtain rfl := Piece.entries_injective hentries
  exact hholds

theorem Holds.count_loops {seen pending : List Entry} {ps : List Piece}
    (h : Holds seen d ps pending) :
    (braces (ps.filterMap Piece.single?)).count .U =
      (braces (ps.filterMap Piece.single?)).count .D + d.loops.length := by
  rw [← markBraces_map, ← h.marks]
  exact d.count_marks

/-- The names that may not be given to a function. -/
theorem taken_iff {ps : List Piece} (h : d.functions = Piece.definitions ps) (name : String) :
    d.taken name = true ↔ name = "main" ∨ name ∈ Piece.names ps := by
  rw [taken, h, Bool.or_eq_true, beq_iff_eq, ← Piece.map_name_definitions]
  simp

end Draft

/-- Pieces without a fault are gone through to the end. Their functions and the rest are gathered
apart: what is gathered of the rest is what it would be without the functions. -/
theorem Scans.exists_run {ps : List Piece} (h : Scans ps) :
    ∃ b : Draft, b.functions = [] ∧ b.function? = none ∧
      Draft.extendAll {} (ps.filterMap Piece.single?) = (b, none) ∧
      Draft.extendAll {} (ps.flatMap Piece.entries) =
        (b.behind ⟨Piece.definitions ps, []⟩, none) := by
  induction ps using List.reverseRecOn with
  | nil => exact ⟨{}, rfl, rfl, rfl, rfl⟩
  | append_singleton ps p ih =>
    obtain ⟨b, hb, hf, hsingles, hrun⟩ := ih h.of_append
    have hfunctions : (b.behind ⟨Piece.definitions ps, []⟩).functions = Piece.definitions ps := by
      rw [Draft.behind, hb, List.append_nil]
    rw [List.filterMap_append, List.flatMap_append, Draft.extendAll_append hrun,
      Draft.extendAll_append hsingles]
    cases p with
    | function s =>
      have hfree : (b.behind ⟨Piece.definitions ps, []⟩).taken s.signature.name = false := by
        have hnodup := h.nodup
        have hmain := h.not_main
        rw [Piece.names_append, List.nodup_append] at hnodup
        rw [Piece.names_append, List.mem_append, not_or] at hmain
        rw [← Bool.not_eq_true, Draft.taken_iff hfunctions, not_or]
        refine ⟨fun hname => hmain.2 ?_, fun hmem => hnodup.2.2 _ hmem _ ?_ rfl⟩
        · simp [Piece.names, Piece.segment?, hname]
        · simp [Piece.names, Piece.segment?]
      have hsegment := Draft.extendAll_segment (d := b.behind ⟨Piece.definitions ps, []⟩) hf s
        hfree []
      refine ⟨b, hb, hf, rfl, ?_⟩
      rw [List.flatMap_singleton, Piece.entries, ← List.append_nil s.entries, hsegment,
        Draft.extendAll, hfunctions, Piece.definitions_append]
      simp [Draft.behind, Piece.definitions, Piece.segment?, hb]
    | single e he =>
      have hend : e.node = .endLoop → b.loops ≠ [] := by
        intro hnode hnil
        have hcount := (Draft.holds_of_run hrun hf).count_loops
        have hbelow := h.initial.count_le
        rw [List.filterMap_append, braces_append, List.count_append, List.count_append] at hbelow
        simp [Piece.single?, hnode, Node.step?] at hbelow
        simp [Draft.behind, hnil] at hcount
        omega
      obtain ⟨next, hnext, hnextFunctions, hnextOpen⟩ := Draft.exists_extends_single hf he hend
      rw [hb] at hnextFunctions
      have hbehind := hnext.behind (o := ⟨Piece.definitions ps, []⟩) (by simp [hnextFunctions])
      refine ⟨next, hnextFunctions, hnextOpen, Draft.extendAll_cons hnext [], ?_⟩
      have hnone : Piece.definitions [.single e he] = [] := rfl
      rw [List.flatMap_singleton, Piece.entries, Draft.extendAll_cons hbehind, Draft.extendAll,
        Piece.definitions_append, hnone, List.append_nil]

/-! ## Where the pieces end -/

/-- What cannot be gone through after the pieces `ps`, and why. -/
inductive Halts (ps : List Piece) : List Entry → Fault → Prop
  /-- A function with a statement that is neither a variable nor a returned value. -/
  | functionBody {header e : Entry} {bindings later : List Entry} {signature : Signature} :
    header.node = .function signature → (∀ b ∈ bindings, b.binding?.isSome) →
    e.binding? = none → (∀ value, e.node ≠ .result value) →
    Halts ps (header :: (bindings ++ e :: later))
      (.functionBody signature.name e.node.kindName e.location)
  /-- A function that goes on to the end. -/
  | missingReturn {header : Entry} {bindings : List Entry} {signature : Signature} :
    header.node = .function signature → (∀ b ∈ bindings, b.binding?.isSome) →
    Halts ps (header :: bindings) (.missingReturn signature.name header.location)
  /-- A whole function whose name is not free. -/
  | duplicateFunction {s : Segment} {later : List Entry} :
    s.signature.name = "main" ∨ s.signature.name ∈ Piece.names ps →
    Halts ps (s.entries ++ later) (.duplicateFunction s.signature.name s.header.location)
  /-- A returned value outside of functions. -/
  | unexpectedNode {e : Entry} {value : Expr} {later : List Entry} :
    e.node = .result value → Halts ps (e :: later) (.unexpectedNode "return" e.location)
  /-- The end of a loop when all are closed. -/
  | unmatchedEndLoop {e : Entry} {later : List Entry} :
    e.node = .endLoop → WellNested (braces (ps.filterMap Piece.single?)) →
    Halts ps (e :: later) (.unmatchedEndLoop e.location)
  /-- The end of the statements when a loop is open. The last one that was opened and not closed is
  told by what follows it: all loops there are closed. -/
  | unclosedLoop {before inside : List Entry} {header : Entry} {element collection : String} :
    ps.filterMap Piece.single? = before ++ header :: inside →
    header.node = .loop element collection → WellNested (braces inside) →
    Halts ps [] (.unclosedLoop collection header.location)

/-- Statements with an outline: pieces without a fault, with all loops closed. -/
def WellFormed (entries : List Entry) : Prop :=
  ∃ ps : List Piece, ps.flatMap Piece.entries = entries ∧ Scans ps ∧
    WellNested (braces (ps.filterMap Piece.single?))

/-- Statements with a fault: pieces without one, and then what cannot be gone through. -/
def Rejected (entries : List Entry) (fault : Fault) : Prop :=
  ∃ (ps : List Piece) (rest : List Entry), Scans ps ∧ ps.flatMap Piece.entries ++ rest = entries ∧
    Halts ps rest fault

/-! ## From pieces to the result -/

/-- A run that comes to a statement it cannot take has the fault of that statement. -/
theorem ofEntries_of_stop {entries later : List Entry} {d : Draft} {e : Entry} {fault : Fault}
    (hrun : Draft.extendAll {} entries = d.extendAll (e :: later))
    (hstop : d.extend e = .error fault) : ofEntries entries = .error fault := by
  rw [ofEntries, hrun, Draft.extendAll, hstop]

theorem ofEntries_of_run {entries : List Entry} {d : Draft}
    (h : Draft.extendAll {} entries = (d, none)) : ofEntries entries = d.finish := by
  rw [ofEntries, h]

/-- Of the loops that stay open, the last one is at one place only. -/
theorem last_open_unique {before before' inside inside' : List Entry} {e e' : Entry}
    (h : before ++ e :: inside = before' ++ e' :: inside') (he : e.node.step? = some .U)
    (he' : e'.node.step? = some .U) (hi : WellNested (braces inside))
    (hi' : WellNested (braces inside')) : e = e' := by
  rcases List.append_eq_append_iff.1 h with ⟨a, rfl, ha⟩ | ⟨a, rfl, ha⟩
  · cases a with
    | nil => exact (List.cons.inj ha).1
    | cons x a =>
      rw [List.cons_append] at ha
      obtain ⟨rfl, rfl⟩ := List.cons.inj ha
      rw [braces_append, braces_cons, he'] at hi
      exact absurd hi hi'.not_append_up
  · cases a with
    | nil => exact (List.cons.inj ha).1.symm
    | cons x a =>
      rw [List.cons_append] at ha
      obtain ⟨rfl, rfl⟩ := List.cons.inj ha
      rw [braces_append, braces_cons, he] at hi'
      exact absurd hi' hi.not_append_up

/-- The innermost open loop of a draft is the last among the statements that stays open. -/
theorem Draft.Holds.exists_innermost {seen pending : List Entry} {d : Draft} {ps : List Piece}
    (h : Holds seen d ps pending) {inner : OpenLoop} {outer : List OpenLoop}
    (hl : d.loops = inner :: outer) :
    ∃ before header inside, ps.filterMap Piece.single? = before ++ header :: inside ∧
      header.node = .loop inner.element inner.collection ∧ header.location = inner.location ∧
      WellNested (braces inside) := by
  have hmarks := h.marks
  rw [Draft.marks, hl, openMarks, ← List.append_assoc] at hmarks
  obtain ⟨before, rest, hsingles, -, hrest⟩ := List.map_eq_append_iff.1 hmarks.symm
  obtain ⟨header, inside, rfl, hheader, hinside⟩ := List.map_eq_cons_iff.1 hrest
  obtain ⟨hnode, hlocation⟩ := Entry.eq_of_mark_eq hheader
  refine ⟨before, header, inside, hsingles, hnode, hlocation, ?_⟩
  rw [← markBraces_map, hinside]
  exact wellNested_bodyMarks inner.body

/-- A draft that has gone through pieces without a fault, with no function open. -/
theorem Scans.exists_holds {ps : List Piece} (h : Scans ps) :
    ∃ d : Draft, d.function? = none ∧ Draft.extendAll {} (ps.flatMap Piece.entries) = (d, none) ∧
      d.Holds (ps.flatMap Piece.entries) ps [] := by
  obtain ⟨b, -, hf, -, hrun⟩ := h.exists_run
  exact ⟨b.behind ⟨Piece.definitions ps, []⟩, hf, hrun, Draft.holds_of_run hrun hf⟩

theorem WellFormed.exists_ofEntries {entries : List Entry} (h : WellFormed entries) :
    ∃ o, ofEntries entries = .ok o := by
  obtain ⟨ps, rfl, hscans, hnested⟩ := h
  obtain ⟨d, hf, hrun, hholds⟩ := hscans.exists_holds
  have hcount := hholds.count_loops
  rw [hnested.total, Nat.left_eq_add, List.length_eq_zero_iff] at hcount
  exact ⟨_, ofEntries_eq_ok_iff.2 ⟨d, hrun, hf, hcount, rfl⟩⟩

/-- What cannot be gone through is answered with its fault. -/
theorem Rejected.ofEntries_eq {entries : List Entry} {fault : Fault}
    (h : Rejected entries fault) : ofEntries entries = .error fault := by
  obtain ⟨ps, rest, hscans, rfl, hhalts⟩ := h
  obtain ⟨d, hf, hrun, hholds⟩ := hscans.exists_holds
  cases hhalts with
  | @functionBody header e bindings later signature hn hb he hr =>
    refine ofEntries_of_stop
      ((Draft.extendAll_append hrun _).trans (Draft.extendAll_header hf hn hb _)) ?_
    rw [Draft.extend_of_some rfl]
    obtain ⟨node, span, location⟩ := e
    cases node with
    | declare => cases he
    | result value => exact absurd rfl (hr value)
    | loop | endLoop | function | print => rfl
  | @missingReturn header bindings signature hn hb =>
    have hend := Draft.extendAll_header hf hn hb []
    rw [List.append_nil, Draft.extendAll] at hend
    rw [ofEntries_of_run ((Draft.extendAll_append hrun _).trans hend)]
    rfl
  | @duplicateFunction s later hname =>
    obtain ⟨header, bindings, ⟨node, span, location⟩, signature, returns, hn, hb, hlast⟩ := s
    simp only at hlast
    subst hlast
    have htaken := (Draft.taken_iff hholds.functions signature.name).2 hname
    rw [Segment.entries, List.cons_append, List.append_assoc, List.singleton_append]
    refine ofEntries_of_stop
      ((Draft.extendAll_append hrun _).trans (Draft.extendAll_header hf hn hb _)) ?_
    rw [Draft.extend_of_some rfl]
    exact if_pos htaken
  | @unexpectedNode e value later hn =>
    refine ofEntries_of_stop (Draft.extendAll_append hrun _) ?_
    rw [Draft.extend_of_none hf, Draft.extendBody, hn]
    rfl
  | @unmatchedEndLoop e later hn hnested =>
    have hcount := hholds.count_loops
    rw [hnested.total, Nat.left_eq_add, List.length_eq_zero_iff] at hcount
    refine ofEntries_of_stop (Draft.extendAll_append hrun _) ?_
    simp only [Draft.extend_of_none hf, Draft.extendBody, hn, hcount]
  | @unclosedLoop before inside header element collection hsingles hn hnested =>
    have hup : header.node.step? = some .U := by rw [hn, Node.step?]
    rw [List.append_nil, ofEntries_of_run hrun]
    cases hl : d.loops with
    | nil =>
      have hcount := hholds.count_loops
      have hall : WellNested (braces (before ++ header :: inside)) := by
        rw [← hsingles]
        exact ⟨hscans.initial, by rw [hcount, hl]; rfl⟩
      rw [braces_append, braces_cons, hup] at hall
      exact absurd hall hnested.not_append_up
    | cons inner outer =>
      obtain ⟨before', header', inside', hsingles', hn', hlocation, hnested'⟩ :=
        hholds.exists_innermost hl
      obtain rfl := last_open_unique (hsingles.symm.trans hsingles') hup
        (by rw [hn', Node.step?]) hnested hnested'
      obtain ⟨-, rfl⟩ := Node.loop.inj (hn.symm.trans hn')
      rw [Draft.finish, hf, hl, hlocation]

/-! ## From the result to pieces -/

namespace Draft

/-- No two functions have the same name, and none is called `main`. -/
def NamesFree (d : Draft) : Prop :=
  (d.functions.map (·.signature.name)).Nodup ∧ "main" ∉ d.functions.map (·.signature.name)

theorem Extends.namesFree {d next : Draft} {e : Entry} (h : Extends d e next)
    (hd : d.NamesFree) : next.NamesFree := by
  cases h with
  | @finish f value span location hf ht =>
    rw [taken, Bool.or_eq_false_iff, beq_eq_false_iff_ne, List.any_eq_false] at ht
    unfold NamesFree
    rw [List.map_append, List.nodup_append, List.mem_append, not_or]
    refine ⟨⟨hd.1, List.nodup_singleton _, ?_⟩, hd.2, ?_⟩
    · rintro name hname _ hlast rfl
      obtain ⟨g, hg, rfl⟩ := List.mem_map.1 hname
      exact ht.2 g hg (beq_iff_eq.2 (List.mem_singleton.1 hlast))
    · exact fun hmain => ht.1 (List.mem_singleton.1 hmain).symm
  | bind | enter | begin => exact hd
  | declare | print | leave =>
    unfold NamesFree
    rw [functions_push]
    exact hd

theorem namesFree_of_run {entries : List Entry} {d : Draft}
    (h : extendAll {} entries = (d, none)) : d.NamesFree := by
  have hempty : NamesFree {} := ⟨List.nodup_nil, List.not_mem_nil⟩
  exact @extendAll_induction (fun _ d => d.NamesFree) (fun hd hstep => hstep.namesFree hd) []
    entries {} d hempty h

theorem Holds.neverOverclosed {seen pending : List Entry} {d : Draft} {ps : List Piece}
    (h : Holds seen d ps pending) : NeverOverclosed (braces (ps.filterMap Piece.single?)) := by
  rw [← markBraces_map, ← h.marks]
  exact d.neverOverclosed_marks

theorem Holds.wellNested {seen pending : List Entry} {d : Draft} {ps : List Piece}
    (h : Holds seen d ps pending) (hl : d.loops = []) :
    WellNested (braces (ps.filterMap Piece.single?)) := by
  have hcount := h.count_loops
  rw [hl, List.length_nil, Nat.add_zero] at hcount
  exact ⟨h.neverOverclosed, hcount⟩

/-- The pieces that a draft holds have no fault. -/
theorem Holds.scans {seen pending : List Entry} {d : Draft} {ps : List Piece}
    (h : Holds seen d ps pending) (hd : d.NamesFree) : Scans ps := by
  have hnames : d.functions.map (·.signature.name) = Piece.names ps := by
    rw [h.functions]
    exact Piece.map_name_definitions ps
  unfold NamesFree at hd
  rw [hnames] at hd
  exact ⟨hd.1, hd.2, h.neverOverclosed⟩

/-- When a statement cannot be taken, the pieces end there, or at the header of the open
function. -/
theorem Holds.halts_of_stop {seen pending later : List Entry} {d : Draft} {ps : List Piece}
    (h : Holds seen d ps pending) {e : Entry} {fault : Fault} (hstop : d.extend e = .error fault) :
    Halts ps (pending ++ e :: later) fault := by
  obtain ⟨node, span, location⟩ := e
  have hpending := h.pending
  cases hf : d.function? with
  | some f =>
    rw [hf] at hpending
    obtain ⟨header, bindings, rfl, hn, hl, hb, -⟩ := hpending
    rw [extend_of_some hf] at hstop
    cases node with
    | declare => cases hstop
    | result value =>
      simp only [extendFunction, closeFunction] at hstop
      split at hstop
      · rename_i ht
        cases hstop
        let s : Segment :=
          ⟨header, bindings, ⟨.result value, span, location⟩, f.signature, value, hn, hb, rfl⟩
        have hentries : header :: bindings ++ ⟨.result value, span, location⟩ :: later =
            s.entries ++ later := by simp [s, Segment.entries]
        rw [hentries, ← hl]
        exact .duplicateFunction (s := s) ((taken_iff h.functions _).1 ht)
      · cases hstop
    | loop | endLoop | function | print =>
      cases hstop
      exact .functionBody (e := ⟨_, span, location⟩) hn hb rfl (by simp)
  | none =>
    rw [hf] at hpending
    obtain rfl : pending = [] := hpending
    rw [extend_of_none hf] at hstop
    cases node with
    | result value =>
      cases hstop
      exact .unexpectedNode (e := ⟨_, span, location⟩) rfl
    | endLoop =>
      simp only [extendBody] at hstop
      split at hstop
      · rename_i hl
        cases hstop
        exact .unmatchedEndLoop (e := ⟨_, span, location⟩) rfl (h.wellNested hl)
      · cases hstop
    | declare | loop | function | print => cases hstop

/-- When something is left open at the end, it is the function or the innermost loop. -/
theorem Holds.halts_of_finish {seen pending : List Entry} {d : Draft} {ps : List Piece}
    (h : Holds seen d ps pending) {fault : Fault} (hfinish : d.finish = .error fault) :
    Halts ps pending fault := by
  have hpending := h.pending
  unfold finish at hfinish
  split at hfinish
  · rename_i f hf
    cases hfinish
    rw [hf] at hpending
    obtain ⟨header, bindings, rfl, hn, hl, hb, -⟩ := hpending
    rw [← hl]
    exact .missingReturn hn hb
  · rename_i inner outer hf hl
    cases hfinish
    rw [hf] at hpending
    obtain rfl : pending = [] := hpending
    obtain ⟨before, header, inside, hsingles, hn, hlocation, hnested⟩ := h.exists_innermost hl
    rw [← hlocation]
    exact .unclosedLoop hsingles hn hnested
  · cases hfinish

end Draft

theorem rejected_of_ofEntries {entries : List Entry} {fault : Fault}
    (h : ofEntries entries = .error fault) : Rejected entries fault := by
  unfold ofEntries at h
  split at h
  · rename_i d _ hrun
    cases h
    obtain ⟨taken, e, later, rfl, htaken, hstop⟩ := Draft.exists_stop hrun
    obtain ⟨ps, pending, hholds⟩ := Draft.exists_holds htaken
    refine ⟨ps, pending ++ e :: later, hholds.scans (Draft.namesFree_of_run htaken), ?_,
      hholds.halts_of_stop hstop⟩
    rw [← List.append_assoc, ← hholds.entries]
  · rename_i d hrun
    obtain ⟨ps, pending, hholds⟩ := Draft.exists_holds hrun
    exact ⟨ps, pending, hholds.scans (Draft.namesFree_of_run hrun), hholds.entries.symm,
      hholds.halts_of_finish h⟩

theorem wellFormed_of_ofEntries {entries : List Entry} {o : Outline}
    (h : ofEntries entries = .ok o) : WellFormed entries := by
  obtain ⟨d, hrun, hf, hl, -⟩ := ofEntries_eq_ok_iff.1 h
  obtain ⟨ps, pending, hholds⟩ := Draft.exists_holds hrun
  obtain rfl := hholds.pending_nil hf
  refine ⟨ps, ?_, hholds.scans (Draft.namesFree_of_run hrun), hholds.wellNested hl⟩
  rw [hholds.entries, List.append_nil]

/-- **The first fault.** Statements have an outline just when they are well formed. Otherwise the
fault is that of the first place where they cannot be gone through. -/
theorem ofEntries_scan (entries : List Entry) :
    ((∃ o, ofEntries entries = .ok o) ↔ WellFormed entries) ∧
      ∀ fault, ofEntries entries = .error fault ↔ Rejected entries fault :=
  ⟨⟨fun ⟨_, h⟩ => wellFormed_of_ofEntries h, WellFormed.exists_ofEntries⟩,
    fun _ => ⟨rejected_of_ofEntries, Rejected.ofEntries_eq⟩⟩

/-- The body of a function is looked at before its name, and open loops only at the end. -/
example : ofEntries
    [⟨.loop "x" "xs", {}, ⟨1, 1⟩⟩, ⟨.function ⟨"main", "a", "int", "int"⟩, {}, ⟨2, 1⟩⟩,
      ⟨.print (.variable "a"), {}, ⟨3, 1⟩⟩] = .error (.functionBody "main" "print" ⟨3, 1⟩) := rfl

end FuzzLang.Outline
