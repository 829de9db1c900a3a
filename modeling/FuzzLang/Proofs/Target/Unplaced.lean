import FuzzLang.Proofs.Grammar.Relocate
import FuzzLang.Proofs.Target.Layout

/-!
# Places do not matter

Statements are outlined and written without a look at their places: they are only copied into
outlines and faults. So statements that differ in places have outlines that differ in places
(`ofEntries_unplaced`), and outlines that differ in places are written alike (`write_unplaced`).
Both are shown for one step and carried along the run.
-/

namespace FuzzLang

theorem Item.bodyUnplaced_eq_map (items : List Item) :
    bodyUnplaced items = items.map Item.unplaced := by
  induction items with
  | nil => rfl
  | cons item items ih => rw [bodyUnplaced, ih, List.map_cons]

namespace Outline

def Fault.unplaced : Fault → Fault
  | .functionBody function found _ => .functionBody function found {}
  | .missingReturn function _ => .missingReturn function {}
  | .unexpectedNode kind _ => .unexpectedNode kind {}
  | .unmatchedEndLoop _ => .unmatchedEndLoop {}
  | .unclosedLoop collection _ => .unclosedLoop collection {}
  | .duplicateFunction name _ => .duplicateFunction name {}

def OpenLoop.unplaced (l : OpenLoop) : OpenLoop :=
  { l with location := {}, body := Item.bodyUnplaced l.body }

def OpenFunction.unplaced (f : OpenFunction) : OpenFunction :=
  { f with location := {}, body := f.body.map Binding.unplaced }

namespace Draft

def unplaced (d : Draft) : Draft :=
  ⟨d.functions.map FunctionDef.unplaced, Item.bodyUnplaced d.main, d.loops.map OpenLoop.unplaced,
    d.function?.map OpenFunction.unplaced⟩

theorem unplaced_push (d : Draft) (item : Item) :
    (d.push item).unplaced = d.unplaced.push item.unplaced := by
  obtain ⟨functions, main, loops, function?⟩ := d
  cases loops <;> simp [push, unplaced, OpenLoop.unplaced, Item.bodyUnplaced_eq_map]

theorem taken_unplaced (d : Draft) (name : String) : d.unplaced.taken name = d.taken name := by
  rw [taken, taken, unplaced, List.any_map]
  rfl

theorem extendFunction_unplaced (d : Draft) (f : OpenFunction) (e : Entry) :
    d.unplaced.extendFunction f.unplaced e.unplaced =
      mapBoth Fault.unplaced unplaced (d.extendFunction f e) := by
  obtain ⟨node, span, location⟩ := e
  cases node with
  | declare =>
    simp [extendFunction, Entry.unplaced, unplaced, OpenFunction.unplaced, Binding.unplaced]
  | result value =>
    have hname : f.unplaced.signature = f.signature := rfl
    simp only [extendFunction, Entry.unplaced, closeFunction, taken_unplaced, hname]
    split
    · rfl
    · simp [unplaced, FunctionDef.unplaced, OpenFunction.unplaced]
  | _ => rfl

theorem extendBody_unplaced (d : Draft) (e : Entry) :
    d.unplaced.extendBody e.unplaced = mapBoth Fault.unplaced unplaced (d.extendBody e) := by
  obtain ⟨node, span, location⟩ := e
  cases node with
  | declare => simp only [extendBody, Entry.unplaced, mapBoth_ok, unplaced_push]; rfl
  | print value => simp only [extendBody, Entry.unplaced, mapBoth_ok, unplaced_push]; rfl
  | endLoop =>
    obtain ⟨functions, main, loops, function?⟩ := d
    cases loops with
    | nil => rfl
    | cons inner outer => simp only [extendBody, Entry.unplaced, mapBoth_ok, unplaced_push]; rfl
  | _ => rfl

theorem extend_unplaced (d : Draft) (e : Entry) :
    d.unplaced.extend e.unplaced = mapBoth Fault.unplaced unplaced (d.extend e) := by
  cases hf : d.function? with
  | none =>
    have hunplaced : d.unplaced.function? = none := by rw [unplaced, hf]; rfl
    rw [extend, extend, hf, hunplaced]
    exact d.extendBody_unplaced e
  | some f =>
    have hunplaced : d.unplaced.function? = some f.unplaced := by rw [unplaced, hf]; rfl
    rw [extend, extend, hf, hunplaced]
    exact d.extendFunction_unplaced f e

theorem extendAll_unplaced (d : Draft) (es : List Entry) :
    d.unplaced.extendAll (es.map Entry.unplaced) =
      ((d.extendAll es).1.unplaced, (d.extendAll es).2.map Fault.unplaced) := by
  induction es generalizing d with
  | nil => rfl
  | cons e es ih =>
    rw [List.map_cons, extendAll, extendAll, extend_unplaced]
    cases d.extend e with
    | error fault => rfl
    | ok next => exact ih next

theorem finish_unplaced (d : Draft) :
    d.unplaced.finish = mapBoth Fault.unplaced Outline.unplaced d.finish := by
  obtain ⟨functions, main, loops, _ | f⟩ := d
  · cases loops <;> rfl
  · rfl

end Draft

theorem ofEntries_unplaced (es : List Entry) :
    ofEntries (es.map Entry.unplaced) = mapBoth Fault.unplaced Outline.unplaced (ofEntries es) := by
  have hrun := Draft.extendAll_unplaced {} es
  rcases hr : Draft.extendAll {} es with ⟨d, _ | fault⟩
  all_goals
    rw [hr] at hrun
    have hempty : Draft.extendAll {} (es.map Entry.unplaced) = _ := hrun
    simp only [ofEntries, hr, hempty, Option.map_none, Option.map_some]
  · exact d.finish_unplaced
  · rfl

end Outline

/-! ## Writing -/

namespace Target

def Fault.unplaced : Fault → Fault
  | .unknownType name _ => .unknownType name {}
  | .missingArrayLiteral name _ => .missingArrayLiteral name {}

theorem mapBoth_together (f : Fault → Fault) (xs ys : Except Fault (List Line)) :
    mapBoth f id (together xs ys) = together (mapBoth f id xs) (mapBoth f id ys) := by
  cases xs <;> cases ys <;> rfl

theorem mapBoth_only (f : Fault → Fault) (line : Except Fault Line) :
    mapBoth f id (only line) = only (mapBoth f id line) := by
  cases line <;> rfl

theorem scalarWord_unplaced (name : String) (location : Location) :
    scalarWord name {} = mapBoth Fault.unplaced id (scalarWord name location) := by
  unfold scalarWord
  cases scalarWord? name <;> rfl

theorem writtenType_unplaced (b : Binding) :
    writtenType b.unplaced = mapBoth Fault.unplaced id (writtenType b) := by
  obtain ⟨name, type, value, location⟩ := b
  cases type with
  | array =>
    cases value with
    | array literal =>
      have hword := scalarWord_unplaced literal.elementType location
      simp only [writtenType, Binding.unplaced, arrayType, hword]
      cases scalarWord literal.elementType location <;> rfl
    | _ => rfl
  | int | float | string =>
    simp only [writtenType, Binding.unplaced]
    exact scalarWord_unplaced _ location

theorem bindingLine_unplaced (depth : Nat) (b : Binding) :
    bindingLine depth b.unplaced = mapBoth Fault.unplaced id (bindingLine depth b) := by
  rw [bindingLine, bindingLine, writtenType_unplaced]
  cases writtenType b <;> rfl

theorem bindingLines_unplaced (depth : Nat) (bs : List Binding) :
    bindingLines depth (bs.map Binding.unplaced) =
      mapBoth Fault.unplaced id (bindingLines depth bs) := by
  induction bs with
  | nil => rfl
  | cons b bs ih =>
    rw [List.map_cons, bindingLines_cons, bindingLines_cons, mapBoth_together, mapBoth_only, ih,
      bindingLine_unplaced]

theorem headerLine_unplaced (f : FunctionDef) :
    headerLine f.unplaced = mapBoth Fault.unplaced id (headerLine f) := by
  have hinput := scalarWord_unplaced f.signature.inputType f.location
  have houtput := scalarWord_unplaced f.signature.outputType f.location
  simp only [headerLine, FunctionDef.unplaced, hinput, houtput]
  cases scalarWord f.signature.inputType f.location <;>
    cases scalarWord f.signature.outputType f.location <;> rfl

theorem functionLines_unplaced (f : FunctionDef) :
    functionLines f.unplaced = mapBoth Fault.unplaced id (functionLines f) := by
  rw [functionLines_eq, functionLines_eq, headerLine_unplaced, mapBoth_together, mapBoth_together,
    mapBoth_only, ← bindingLines_unplaced]
  rfl

theorem functionsLines_unplaced (fs : List FunctionDef) :
    functionsLines (fs.map FunctionDef.unplaced) =
      mapBoth Fault.unplaced id (functionsLines fs) := by
  induction fs with
  | nil => rfl
  | cons f fs ih =>
    rw [List.map_cons, functionsLines_cons, functionsLines_cons, mapBoth_together, ih,
      functionLines_unplaced]

mutual

theorem itemLines_unplaced (depth : Nat) (item : Item) :
    itemLines depth item.unplaced = mapBoth Fault.unplaced id (itemLines depth item) := by
  cases item with
  | declare b =>
    rw [Item.unplaced, itemLines_declare, itemLines_declare, bindingLine_unplaced, mapBoth_only]
  | print value => rfl
  | loop element collection body location =>
    rw [Item.unplaced, itemLines_loop, itemLines_loop, bodyLines_unplaced, mapBoth_together,
      mapBoth_together]
    rfl

theorem bodyLines_unplaced (depth : Nat) (items : List Item) :
    bodyLines depth (Item.bodyUnplaced items) =
      mapBoth Fault.unplaced id (bodyLines depth items) := by
  cases items with
  | nil => rfl
  | cons item items =>
    rw [Item.bodyUnplaced, bodyLines_cons, bodyLines_cons, mapBoth_together, itemLines_unplaced,
      bodyLines_unplaced]

end

theorem write_unplaced (indent : String) (o : Outline) :
    write indent o.unplaced = mapBoth Fault.unplaced id (write indent o) := by
  have hlines : programLines o.unplaced = mapBoth Fault.unplaced id (programLines o) := by
    rw [programLines_eq, programLines_eq]
    simp only [mapBoth_together, ← functionsLines_unplaced, ← bodyLines_unplaced]
    rfl
  rw [write, write, hlines]
  cases programLines o <;> rfl

end Target

end FuzzLang
