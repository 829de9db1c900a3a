import FuzzLang.Outline.Build

/-!
# What one statement does to a draft

`Extends d e next` lists the seven ways in which a draft can take a statement. It holds just when
`Draft.extend` succeeds, so facts about outlines are proved by cases on it and carried along a run
by `Draft.extendAll_induction`.
-/

namespace FuzzLang.Outline.Draft

/-- The draft `next` is the draft `d` after the statement `e`. -/
inductive Extends : Draft → Entry → Draft → Prop
  /-- A variable of the open function. -/
  | bind {d : Draft} {f : OpenFunction} {name : String} {type : VarType} {value : Expr}
      {span : Span} {location : Location} :
    d.function? = some f →
    Extends d ⟨.declare name type value, span, location⟩
      { d with function? := some { f with body := f.body ++ [⟨name, type, value, location⟩] } }
  /-- The end of the open function. -/
  | finish {d : Draft} {f : OpenFunction} {value : Expr} {span : Span} {location : Location} :
    d.function? = some f → d.taken f.signature.name = false →
    Extends d ⟨.result value, span, location⟩
      { d with
        functions := d.functions ++ [⟨f.signature, f.body, value, f.location⟩]
        function? := none }
  | declare {d : Draft} {name : String} {type : VarType} {value : Expr} {span : Span}
      {location : Location} :
    d.function? = none →
    Extends d ⟨.declare name type value, span, location⟩
      (d.push (.declare ⟨name, type, value, location⟩))
  | print {d : Draft} {value : Expr} {span : Span} {location : Location} :
    d.function? = none → Extends d ⟨.print value, span, location⟩ (d.push (.print value))
  | enter {d : Draft} {element collection : String} {span : Span} {location : Location} :
    d.function? = none →
    Extends d ⟨.loop element collection, span, location⟩
      { d with loops := ⟨element, collection, location, []⟩ :: d.loops }
  | leave {d : Draft} {inner : OpenLoop} {outer : List OpenLoop} {span : Span}
      {location : Location} :
    d.function? = none → d.loops = inner :: outer →
    Extends d ⟨.endLoop, span, location⟩
      ({ d with loops := outer }.push
        (.loop inner.element inner.collection inner.body inner.location))
  | begin {d : Draft} {signature : Signature} {span : Span} {location : Location} :
    d.function? = none →
    Extends d ⟨.function signature, span, location⟩
      { d with function? := some ⟨signature, location, []⟩ }

theorem extend_of_some {d : Draft} {f : OpenFunction} (h : d.function? = some f) (e : Entry) :
    d.extend e = d.extendFunction f e := by
  rw [extend, h]

theorem extend_of_none {d : Draft} (h : d.function? = none) (e : Entry) :
    d.extend e = d.extendBody e := by
  rw [extend, h]

theorem extend_eq_ok_iff {d next : Draft} {e : Entry} :
    d.extend e = .ok next ↔ Extends d e next := by
  obtain ⟨node, span, location⟩ := e
  constructor
  · intro h
    cases hf : d.function? with
    | some f =>
      rw [extend_of_some hf] at h
      cases node <;> simp only [extendFunction] at h
      case declare =>
        cases h
        exact .bind hf
      case result =>
        unfold closeFunction at h
        split at h
        · cases h
        · rename_i ht
          cases h
          exact .finish hf (by simpa using ht)
      all_goals cases h
    | none =>
      rw [extend_of_none hf] at h
      cases node <;> simp only [extendBody] at h
      case declare =>
        cases h
        exact .declare hf
      case loop =>
        cases h
        exact .enter hf
      case endLoop =>
        split at h
        · cases h
        · rename_i inner outer hl
          cases h
          exact .leave hf hl
      case function =>
        cases h
        exact .begin hf
      case print =>
        cases h
        exact .print hf
      case result => cases h
  · intro h
    cases h with
    | bind hf => rw [extend_of_some hf, extendFunction]
    | finish hf ht => simp [extend_of_some hf, extendFunction, closeFunction, ht]
    | declare hf | print hf | enter hf | begin hf => rw [extend_of_none hf, extendBody]
    | leave hf hl => simp only [extend_of_none hf, extendBody, hl]

/-- What holds of a draft and the statements it was made from, and is kept by every step, holds
after any run without a fault. -/
theorem extendAll_induction {P : List Entry → Draft → Prop}
    (step : ∀ {seen : List Entry} {d : Draft} {e : Entry} {next : Draft},
      P seen d → Extends d e next → P (seen ++ [e]) next)
    {seen es : List Entry} {d last : Draft} (h : P seen d)
    (hr : d.extendAll es = (last, none)) : P (seen ++ es) last := by
  induction es generalizing seen d with
  | nil =>
    cases hr
    simpa using h
  | cons e es ih =>
    rw [extendAll] at hr
    split at hr
    · cases hr
    · rename_i next hn
      have hnext := ih (step h (extend_eq_ok_iff.1 hn)) hr
      rwa [List.append_assoc, List.singleton_append] at hnext

/-- A run stops at the first statement that cannot be taken. -/
theorem exists_stop {entries : List Entry} {d last : Draft} {fault : Fault}
    (h : d.extendAll entries = (last, some fault)) :
    ∃ taken e later, entries = taken ++ e :: later ∧ d.extendAll taken = (last, none) ∧
      last.extend e = .error fault := by
  induction entries generalizing d with
  | nil => cases h
  | cons e es ih =>
    rw [extendAll] at h
    split at h
    · rename_i hfault
      cases h
      exact ⟨[], e, es, rfl, rfl, hfault⟩
    · rename_i next hnext
      obtain ⟨taken, stop, later, rfl, hrun, hfault⟩ := ih h
      refine ⟨e :: taken, stop, later, rfl, ?_, hfault⟩
      rw [extendAll, hnext]
      exact hrun

end Draft

/-- Statements have an outline when the run over them meets no fault and leaves nothing open. -/
theorem ofEntries_eq_ok_iff {entries : List Entry} {o : Outline} :
    ofEntries entries = .ok o ↔
      ∃ d, Draft.extendAll {} entries = (d, none) ∧ d.function? = none ∧ d.loops = [] ∧
        o = ⟨d.functions, d.main⟩ := by
  rcases hr : Draft.extendAll {} entries with ⟨d, _ | fault⟩
  · simp only [ofEntries, hr, Draft.finish]
    constructor
    · intro h
      split at h
      · cases h
      · cases h
      · rename_i hf hl
        cases h
        exact ⟨d, rfl, hf, hl, rfl⟩
    · rintro ⟨d', hd, hf, hl, rfl⟩
      cases hd
      simp only [hf, hl]
  · simp [ofEntries, hr]

/-- What every step keeps, from the empty draft on, holds of the draft behind an outline. -/
theorem ofEntries_induction {P : List Entry → Draft → Prop} (empty : P [] {})
    (step : ∀ {seen : List Entry} {d : Draft} {e : Entry} {next : Draft},
      P seen d → d.Extends e next → P (seen ++ [e]) next)
    {entries : List Entry} {o : Outline} (h : ofEntries entries = .ok o) :
    P entries ⟨o.functions, o.main, [], none⟩ := by
  obtain ⟨⟨functions, main, loops, function?⟩, hr, hf, hl, rfl⟩ := ofEntries_eq_ok_iff.1 h
  simp only at hf hl
  subst hf hl
  exact Draft.extendAll_induction step empty hr

end FuzzLang.Outline
