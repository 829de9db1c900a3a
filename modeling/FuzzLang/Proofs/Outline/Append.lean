import FuzzLang.Proofs.Outline.Split

/-!
# Outlines of programs put together

While statements are taken, what an earlier program has left in the outline is not looked at, but
for the names of its functions. So a step can be made behind a finished outline (`Extends.behind`),
and with it a whole run; the outline of two programs, one after the other, is that of the first and
then that of the second (`ofEntries_append`).
-/

namespace FuzzLang

/-- The name that a statement gives to a function. -/
def Entry.functionName? (e : Entry) : Option String :=
  match e.node with
  | .function signature => some signature.name
  | _ => none

/-- The names of the functions among statements. -/
def functionNames (entries : List Entry) : List String := entries.filterMap Entry.functionName?

namespace Outline

/-- The names of the functions of an outline. -/
def names (o : Outline) : List String := o.functions.map (·.signature.name)

namespace Draft

/-- The names of the functions of a draft, the open one last. -/
def names (d : Draft) : List String :=
  d.functions.map (·.signature.name) ++ (d.function?.map (·.signature.name)).toList

theorem names_push (d : Draft) (item : Item) : (d.push item).names = d.names := by
  rw [names, names, functions_push, function?_push]

theorem Extends.names_eq {d next : Draft} {e : Entry} (h : Extends d e next) :
    next.names = d.names ++ e.functionName?.toList := by
  cases h with
  | bind hf => simp [names, hf, Entry.functionName?]
  | finish hf => simp [names, hf, Entry.functionName?]
  | begin hf => simp [names, hf, Entry.functionName?]
  | enter => simp [names, Entry.functionName?]
  | declare => simp [names_push, Entry.functionName?]
  | print => simp [names_push, Entry.functionName?]
  | leave =>
    rw [names_push]
    simp [names, Entry.functionName?]

/-- A draft with the functions and the items of an outline in front. -/
def behind (d : Draft) (o : Outline) : Draft :=
  { d with functions := o.functions ++ d.functions, main := o.main ++ d.main }

theorem push_behind (d : Draft) (o : Outline) (item : Item) :
    (d.behind o).push item = (d.push item).behind o := by
  obtain ⟨functions, main, loops, function?⟩ := d
  cases loops <;> simp [push, behind]

theorem taken_behind {d : Draft} {o : Outline} {name : String} (h : d.taken name = false)
    (hn : name ∉ o.names) : (d.behind o).taken name = false := by
  rw [taken, Bool.or_eq_false_iff] at h ⊢
  refine ⟨h.1, ?_⟩
  rw [behind, List.any_append, h.2, Bool.or_false, List.any_eq_false]
  intro f hf he
  exact hn (List.mem_map.2 ⟨f, hf, beq_iff_eq.1 he⟩)

theorem Extends.functions_grow {d next : Draft} {e : Entry} (h : Extends d e next) :
    d.functions <+: next.functions := by
  cases h with
  | finish => exact List.prefix_append _ _
  | bind | enter | begin => exact List.prefix_refl _
  | declare | print | leave => simp [functions_push]

/-- A step is also one behind an outline, if no function of the draft has a name of it. -/
theorem Extends.behind {d next : Draft} {e : Entry} {o : Outline} (h : Extends d e next)
    (hn : ∀ f ∈ next.functions, f.signature.name ∉ o.names) :
    Extends (d.behind o) e (next.behind o) := by
  cases h with
  | bind hf => exact .bind hf
  | @finish f value span location hf ht =>
    have hname := hn ⟨f.signature, f.body, value, f.location⟩ (by simp)
    have hnext : Extends (d.behind o) ⟨.result value, span, location⟩ _ :=
      .finish hf (taken_behind ht hname)
    simpa [Draft.behind] using hnext
  | declare hf => rw [← push_behind]; exact .declare hf
  | print hf => rw [← push_behind]; exact .print hf
  | enter hf => exact .enter hf
  | leave hf hl => rw [← push_behind]; exact .leave hf hl
  | begin hf => exact .begin hf

theorem extendAll_cons {d next : Draft} {e : Entry} (h : Extends d e next) (es : List Entry) :
    d.extendAll (e :: es) = next.extendAll es := by
  rw [extendAll, extend_eq_ok_iff.2 h]

theorem exists_extends {d last : Draft} {e : Entry} {es : List Entry}
    (h : d.extendAll (e :: es) = (last, none)) :
    ∃ next, Extends d e next ∧ next.extendAll es = (last, none) := by
  rw [extendAll] at h
  split at h
  · cases h
  · rename_i next hn
    exact ⟨next, extend_eq_ok_iff.1 hn, h⟩

theorem extendAll_append {d mid : Draft} {es : List Entry} (h : d.extendAll es = (mid, none))
    (more : List Entry) : d.extendAll (es ++ more) = mid.extendAll more := by
  induction es generalizing d with
  | nil =>
    cases h
    rfl
  | cons e es ih =>
    obtain ⟨next, hnext, hrun⟩ := exists_extends h
    rw [List.cons_append, extendAll_cons hnext]
    exact ih hrun

theorem extendAll_functions_grow {d last : Draft} {es : List Entry}
    (h : d.extendAll es = (last, none)) : d.functions <+: last.functions := by
  induction es generalizing d with
  | nil =>
    cases h
    exact List.prefix_refl _
  | cons e es ih =>
    obtain ⟨next, hnext, hrun⟩ := exists_extends h
    exact hnext.functions_grow.trans (ih hrun)

/-- A run is also one behind an outline, if no function it ends with has a name of it. -/
theorem extendAll_behind {d last : Draft} {es : List Entry} {o : Outline}
    (h : d.extendAll es = (last, none)) (hn : ∀ f ∈ last.functions, f.signature.name ∉ o.names) :
    (d.behind o).extendAll es = (last.behind o, none) := by
  induction es generalizing d with
  | nil =>
    cases h
    rfl
  | cons e es ih =>
    obtain ⟨next, hnext, hrun⟩ := exists_extends h
    have hsub := (extendAll_functions_grow hrun).subset
    rw [extendAll_cons (hnext.behind fun f hf => hn f (hsub hf))]
    exact ih hrun

end Draft

/-- The functions of an outline have the names that its statements give them, in order. -/
theorem names_of_ofEntries {entries : List Entry} {o : Outline} (h : ofEntries entries = .ok o) :
    o.names = functionNames entries := by
  have hnames := ofEntries_induction (P := fun seen d => d.names = functionNames seen) rfl
    (fun hd he => by
      rw [he.names_eq, hd, functionNames, functionNames, List.filterMap_append]
      cases hname : Entry.functionName? _ <;> simp [hname]) h
  rwa [Draft.names, Option.map_none, Option.toList_none, List.append_nil] at hnames

/-- Programs with different functions are outlined one after the other. -/
theorem ofEntries_append {es more : List Entry} {o p : Outline} (ho : ofEntries es = .ok o)
    (hp : ofEntries more = .ok p) (hn : ∀ name ∈ functionNames more, name ∉ functionNames es) :
    ofEntries (es ++ more) = .ok ⟨o.functions ++ p.functions, o.main ++ p.main⟩ := by
  rw [← names_of_ofEntries ho, ← names_of_ofEntries hp] at hn
  obtain ⟨⟨functions, main, loops, function?⟩, hrun, hf, hl, rfl⟩ := ofEntries_eq_ok_iff.1 ho
  obtain ⟨last, hmore, hf', hl', rfl⟩ := ofEntries_eq_ok_iff.1 hp
  simp only at hf hl
  subst hf hl
  have hbehind := Draft.extendAll_behind (o := ⟨functions, main⟩) hmore fun f hf =>
    hn _ (List.mem_map_of_mem hf)
  refine ofEntries_eq_ok_iff.2 ⟨last.behind ⟨functions, main⟩, ?_, hf', hl', rfl⟩
  rw [Draft.extendAll_append hrun, ← hbehind]
  simp [Draft.behind]

end Outline

end FuzzLang
