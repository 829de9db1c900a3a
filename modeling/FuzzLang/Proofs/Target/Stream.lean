import FuzzLang.Compile
import FuzzLang.Proofs.Outline.Steps
import FuzzLang.Proofs.Target.Lines

/-!
# Writing in one pass

`Stream.step` writes statements as they come. It has two buffers of text, one for functions and one
for `main`, and keeps no tree: of the loops it knows only how many are open. `Represents` ties it to
the draft of an outline, whose open loops it has already written (`Represents.step`); so for
statements with an outline, writing the outline and streaming give the same text or the same fault
(`generate_eq_stream`).

An `Emitter` writes an outline with the depth as a state of its own. It leaves every item and every
function at the depth where it found them.
-/

namespace FuzzLang.Target

/-! ## The one-pass writer -/

structure Stream where
  functions : Except Fault String := .ok ""
  main : Except Fault String := .ok ""
  /-- The number of open loops. -/
  depth : Nat := 0
  /-- Between the header of a function and its returned value. -/
  inFunction : Bool := false

/-- Add a line to a buffer. The first fault stays. -/
def put (indent : String) (depth : Nat) (line buffer : Except Fault String) :
    Except Fault String :=
  match buffer, line with
  | .error fault, _ => .error fault
  | .ok _, .error fault => .error fault
  | .ok text, .ok line => .ok (text ++ String.join (List.replicate depth indent) ++ line ++ "\n")

namespace Stream

/-- Write a statement, unless it is out of place. -/
def step (indent : String) (s : Stream) (e : Entry) : Option Stream :=
  match s.inFunction, e.node with
  | false, .declare name type value =>
    let line := bindingText ⟨name, type, value, e.location⟩
    some { s with main := put indent (1 + s.depth) line s.main }
  | false, .print value =>
    let line := "println!(\"\x7b\x7d\", " ++ value.text ++ ");"
    some { s with main := put indent (1 + s.depth) (.ok line) s.main }
  | false, .loop element collection =>
    let line := "for " ++ element ++ " in " ++ collection ++ ".iter() \x7b"
    some { s with main := put indent (1 + s.depth) (.ok line) s.main, depth := s.depth + 1 }
  | false, .endLoop =>
    match s.depth with
    | 0 => none
    | depth + 1 => some { s with main := put indent (1 + depth) (.ok "\x7d") s.main, depth }
  | false, .function signature =>
    let line := headerText signature e.location
    some { s with functions := put indent 0 line s.functions, inFunction := true }
  | true, .declare name type value =>
    let line := bindingText ⟨name, type, value, e.location⟩
    some { s with functions := put indent 1 line s.functions }
  | true, .result value =>
    let body := put indent 1 (.ok ("return " ++ value.text ++ ";")) s.functions
    some { s with functions := put indent 0 (.ok "\x7d") body, inFunction := false }
  | _, _ => none

/-- Write statement after statement. -/
def run (indent : String) (s : Stream) : List Entry → Option Stream
  | [] => some s
  | e :: es => (s.step indent e).bind fun next => next.run indent es

/-- The text of a program, or the first fault; faults of functions come before those of `main`. -/
def text (s : Stream) : Except Fault String :=
  match s.functions, s.main with
  | .error fault, _ => .error fault
  | .ok _, .error fault => .error fault
  | .ok functions, .ok main => .ok (functions ++ "fn main() \x7b\n" ++ main ++ "\x7d\n")

end Stream

/-! ## Buffers are rendered lines -/

theorem put_render (indent : String) (depth : Nat) (line : Except Fault String)
    (xs : Except Fault (List Line)) :
    put indent depth line (xs.map (render indent)) =
      (together xs (only (line.map (Line.mk depth)))).map (render indent) := by
  cases xs with
  | error => rfl
  | ok xs =>
    cases line with
    | error => rfl
    | ok line =>
      simp [put, together, only, Except.map, render, Line.render, String.append_assoc]

end FuzzLang.Target

namespace FuzzLang.Outline

open Target

/-! ## What a draft has written -/

/-- The lines of open loops, the outermost first. -/
def openLines : List OpenLoop → Except Target.Fault (List Line)
  | [] => .ok []
  | inner :: outer =>
    together (openLines outer)
      (together (.ok [loopLine (1 + outer.length) inner.element inner.collection])
        (bodyLines (1 + outer.length + 1) inner.body))

/-- The lines of the open function. -/
def OpenFunction.lines (f : OpenFunction) : Except Target.Fault (List Line) :=
  together (only ((headerText f.signature f.location).map (Line.mk 0))) (bindingLines 1 f.body)

namespace Draft

def mainLines (d : Draft) : Except Target.Fault (List Line) :=
  together (bodyLines 1 d.main) (openLines d.loops)

def functionLines (d : Draft) : Except Target.Fault (List Line) :=
  together (functionsLines d.functions)
    (match d.function? with
    | none => .ok []
    | some f => f.lines)

/-- An item goes to the depth of the open loops. -/
theorem mainLines_push (d : Draft) (item : Item) :
    (d.push item).mainLines = together d.mainLines (itemLines (1 + d.loops.length) item) := by
  unfold push mainLines
  split
  · rename_i inner outer hl
    simp only [hl, openLines, bodyLines_append, bodyLines_singleton, together_assoc,
      List.length_cons, Nat.add_assoc]
  · rename_i hl
    simp only [hl, openLines, bodyLines_append, bodyLines_singleton, together_nil, List.length_nil,
      Nat.add_zero]

theorem length_loops_push (d : Draft) (item : Item) :
    (d.push item).loops.length = d.loops.length := by
  unfold push
  split <;> simp_all

theorem isSome_function?_push (d : Draft) (item : Item) :
    (d.push item).function?.isSome = d.function?.isSome := by
  unfold push
  split <;> rfl

theorem functionLines_push (d : Draft) (item : Item) :
    (d.push item).functionLines = d.functionLines := by
  unfold push functionLines
  split <;> rfl

/-- A stream has written what a draft holds. -/
structure Represents (indent : String) (d : Draft) (s : Stream) : Prop where
  depth : s.depth = d.loops.length
  inFunction : s.inFunction = d.function?.isSome
  functions : s.functions = d.functionLines.map (render indent)
  main : s.main = d.mainLines.map (render indent)

namespace Represents

variable {indent : String} {d next : Draft} {s : Stream} {e : Entry}

/-- An item that the stream writes at the depth of the open loops. -/
theorem push (h : Represents indent d s) (item : Item) (line : Except Target.Fault String)
    (hi : itemLines (1 + d.loops.length) item = only (line.map (Line.mk (1 + d.loops.length)))) :
    Represents indent (d.push item) { s with main := put indent (1 + s.depth) line s.main } where
  depth := h.depth.trans (length_loops_push d item).symm
  inFunction := by rw [h.inFunction, isSome_function?_push]
  functions := h.functions.trans (by rw [functionLines_push])
  main := by rw [h.main, h.depth, put_render, mainLines_push, hi]

/-- The stream follows the draft from statement to statement. -/
theorem step (h : Represents indent d s) (hs : d.Extends e next) :
    ∃ s', s.step indent e = some s' ∧ Represents indent next s' := by
  obtain ⟨functions, main, depth, inFunction⟩ := s
  have hin := h.inFunction
  have hdepth := h.depth
  have hfunctions := h.functions
  have hmain := h.main
  simp only at hin hdepth hfunctions hmain
  cases hs with
  | @bind f name type value span location hf =>
    rw [hf] at hin
    subst hin
    refine ⟨_, rfl, hdepth, rfl, ?_, hmain⟩
    have hbody : bindingLines 1 (f.body ++ [⟨name, type, value, location⟩]) =
        together (bindingLines 1 f.body)
          (only ((bindingText ⟨name, type, value, location⟩).map (Line.mk 1))) := by
      rw [bindingLines_append, bindingLines_cons, bindingLines, together_nil, bindingLine_eq]
    simp only [hfunctions, put_render, functionLines, hf, OpenFunction.lines, hbody, together_assoc]
  | @finish f value span location hf ht =>
    rw [hf] at hin
    subst hin
    refine ⟨_, rfl, hdepth, rfl, ?_, hmain⟩
    simp only [hfunctions, put_render, functionLines, hf, OpenFunction.lines,
      functionsLines_append, functionsLines_singleton, functionLines_eq, headerLine_eq,
      together_nil, together_assoc]
    rfl
  | declare hf =>
    rw [hf] at hin
    subst hin
    exact ⟨_, rfl, h.push _ _ (by rw [itemLines_declare, bindingLine_eq])⟩
  | print hf =>
    rw [hf] at hin
    subst hin
    exact ⟨_, rfl, h.push _ (.ok _) (by rw [itemLines]; rfl)⟩
  | enter hf =>
    rw [hf] at hin
    subst hin hdepth
    refine ⟨_, rfl, rfl, by rw [hf], hfunctions, ?_⟩
    simp only [hmain, put_render, mainLines, openLines, bodyLines, together_nil, together_assoc]
    rfl
  | @leave inner outer span location hf hl =>
    rw [hf] at hin
    rw [hl, List.length_cons] at hdepth
    subst hin hdepth
    refine ⟨_, rfl, ?_, ?_, ?_, ?_⟩
    · rw [length_loops_push]
    · rw [isSome_function?_push, hf]
    · rw [functionLines_push]
      exact hfunctions
    · rw [mainLines_push]
      simp only [hmain, put_render, itemLines_loop, mainLines, hl, openLines, together_assoc]
      rfl
  | begin hf =>
    rw [hf] at hin
    subst hin
    refine ⟨_, rfl, hdepth, rfl, ?_, hmain⟩
    simp only [hfunctions, put_render, functionLines, hf, OpenFunction.lines, bindingLines,
      together_nil]

end Represents

end Draft

end FuzzLang.Outline

namespace FuzzLang.Target

theorem Stream.run_append_singleton (indent : String) (s : Stream) (es : List Entry) (e : Entry) :
    s.run indent (es ++ [e]) = (s.run indent es).bind fun t => t.step indent e := by
  induction es generalizing s with
  | nil => simp [run]
  | cons e' es ih =>
    rw [List.cons_append, run, run]
    cases s.step indent e' with
    | none => rfl
    | some next => exact ih next

/-- Statements with an outline are streamed to the end, and what is written then is what the outline
holds. -/
theorem exists_run_of_ofEntries {entries : List Entry} {o : Outline}
    (h : Outline.ofEntries entries = .ok o) (indent : String) :
    ∃ s, Stream.run indent {} entries = some s ∧
      Outline.Draft.Represents indent ⟨o.functions, o.main, [], none⟩ s := by
  refine Outline.ofEntries_induction
    (P := fun seen d => ∃ s, Stream.run indent {} seen = some s ∧ d.Represents indent s)
    ⟨{}, rfl, rfl, rfl, rfl, rfl⟩ ?_ h
  rintro seen d e next ⟨s, hr, hs⟩ hd
  obtain ⟨s', he, hs'⟩ := hs.step hd
  exact ⟨s', by rw [Stream.run_append_singleton, hr]; exact he, hs'⟩

theorem Stream.text_eq_write {indent : String} {o : Outline} {s : Stream}
    (h : Outline.Draft.Represents indent ⟨o.functions, o.main, [], none⟩ s) :
    s.text = write indent o := by
  rw [Stream.text, h.functions, h.main, write, programLines_eq]
  simp only [Outline.Draft.functionLines, Outline.Draft.mainLines, Outline.openLines, together_nil]
  cases functionsLines o.functions with
  | error => rfl
  | ok fs =>
    cases bodyLines 1 o.main with
    | error => rfl
    | ok ls =>
      simp [together, Except.map, render, Line.render, mainLine, closeLine, String.append_assoc]

/-! ## A writer with the depth as its state -/

structure Emitter where
  lines : List Line := []
  depth : Nat := 0

namespace Emitter

def line (m : Emitter) (text : String) : Emitter := { m with lines := m.lines ++ [⟨m.depth, text⟩] }

def enter (m : Emitter) (text : String) : Emitter := { m.line text with depth := m.depth + 1 }

/-- At depth zero the depth stays. -/
def leave (m : Emitter) : Emitter := { m with depth := m.depth - 1 }.line "\x7d"

def binding (m : Emitter) (b : Binding) : Except Fault Emitter := (bindingText b).map m.line

def bindings (m : Emitter) : List Binding → Except Fault Emitter
  | [] => .ok m
  | b :: bs => (m.binding b).bind fun next => next.bindings bs

mutual

def item (m : Emitter) : Item → Except Fault Emitter
  | .declare b => m.binding b
  | .print value => .ok (m.line ("println!(\"\x7b\x7d\", " ++ value.text ++ ");"))
  | .loop element collection body _ =>
    ((m.enter ("for " ++ element ++ " in " ++ collection ++ ".iter() \x7b")).items body).map leave

def items (m : Emitter) : List Item → Except Fault Emitter
  | [] => .ok m
  | i :: is => (m.item i).bind fun next => next.items is

end

def function (m : Emitter) (f : FunctionDef) : Except Fault Emitter :=
  (headerText f.signature f.location).bind fun header =>
    ((m.enter header).bindings f.body).map fun inside =>
      (inside.line ("return " ++ f.returns.text ++ ";")).leave

def functions (m : Emitter) : List FunctionDef → Except Fault Emitter
  | [] => .ok m
  | f :: fs => (m.function f).bind fun next => next.functions fs

def program (m : Emitter) (o : Outline) : Except Fault Emitter :=
  (m.functions o.functions).bind fun next =>
    ((next.enter "fn main() \x7b").items o.main).map leave

/-- The emitter after some lines, at the depth where it was. -/
def after (m : Emitter) (ls : Except Fault (List Line)) : Except Fault Emitter :=
  ls.map fun ls => ⟨m.lines ++ ls, m.depth⟩

theorem after_bind {m : Emitter} {xs ys : Except Fault (List Line)}
    {next : Emitter → Except Fault Emitter}
    (h : ∀ ls, next ⟨m.lines ++ ls, m.depth⟩ = after ⟨m.lines ++ ls, m.depth⟩ ys) :
    (m.after xs).bind next = m.after (together xs ys) := by
  cases xs with
  | error => rfl
  | ok xs =>
    rw [after, Except.map, Except.bind, h]
    cases ys <;> simp [after, together, Except.map]

/-- Entering a block, writing its body and leaving it ends at the depth of the start. -/
theorem map_leave_enter (m : Emitter) (text : String) (body : Except Fault (List Line)) :
    ((m.enter text).after body).map leave =
      m.after (together (.ok [⟨m.depth, text⟩]) (together body (.ok [closeLine m.depth]))) := by
  cases body <;>
    simp [after, enter, line, leave, together, Except.map, closeLine]

theorem binding_eq (m : Emitter) (b : Binding) :
    m.binding b = m.after (only (bindingLine m.depth b)) := by
  rw [binding, bindingLine_eq]
  cases bindingText b <;> rfl

theorem bindings_eq (m : Emitter) (bs : List Binding) :
    m.bindings bs = m.after (bindingLines m.depth bs) := by
  induction bs generalizing m with
  | nil => simp [bindings, bindingLines, after, Except.map]
  | cons b bs ih =>
    rw [bindings, binding_eq, bindingLines_cons]
    exact after_bind fun ls => ih _

mutual

/-- An item is written at the depth of the emitter and leaves the depth as it was. -/
theorem item_eq (m : Emitter) : (i : Item) → m.item i = m.after (itemLines m.depth i)
  | .declare b => by rw [item, binding_eq, itemLines_declare]
  | .print value => by rw [item, itemLines]; rfl
  | .loop element collection body location => by
    rw [item, itemLines_loop, items_eq, map_leave_enter]
    rfl

theorem items_eq (m : Emitter) : (is : List Item) → m.items is = m.after (bodyLines m.depth is)
  | [] => by simp [items, bodyLines, after, Except.map]
  | i :: is => by
    rw [items, item_eq m i, bodyLines_cons]
    exact after_bind fun ls => items_eq _ is

end

theorem function_eq {m : Emitter} (hm : m.depth = 0) (f : FunctionDef) :
    m.function f = m.after (functionLines f) := by
  rw [function, functionLines_eq, headerLine_eq]
  cases headerText f.signature f.location with
  | error => rfl
  | ok header =>
    simp only [Except.bind, Except.map, bindings_eq, enter, line, hm]
    cases bindingLines (0 + 1) f.body <;>
      simp [after, together, only, Except.map, line, leave, returnLine, closeLine, hm]

theorem functions_eq {m : Emitter} (hm : m.depth = 0) (fs : List FunctionDef) :
    m.functions fs = m.after (functionsLines fs) := by
  induction fs generalizing m with
  | nil => simp [functions, functionsLines, after, Except.map]
  | cons f fs ih =>
    rw [functions, function_eq hm, functionsLines_cons]
    exact after_bind fun ls => ih hm

/-- The emitter writes the lines of the program and ends at depth zero. -/
theorem program_eq (o : Outline) :
    Emitter.program {} o = (programLines o).map fun ls => ⟨ls, 0⟩ := by
  rw [program, functions_eq rfl, programLines_eq, after_bind]
  · cases together _ _ <;> rfl
  · intro ls
    rw [items_eq, map_leave_enter]
    rfl

end Emitter

/-- **One pass is enough.** Statements with an outline are streamed to the end, where no loop and no
function is open, and the text or fault is that of the outline; an emitter with the depth as its
state writes the same and is back at depth zero. -/
theorem generate_eq_stream {entries : List Entry} {o : Outline}
    (h : Outline.ofEntries entries = .ok o) (indent : String) :
    ∃ s, Stream.run indent {} entries = some s ∧ s.depth = 0 ∧ s.inFunction = false ∧
      Compilation.generate indent entries = s.text.mapError .target ∧
      (Emitter.program {} o).map (fun m => (render indent m.lines, m.depth)) =
        s.text.map fun text => (text, 0) := by
  obtain ⟨s, hr, hs⟩ := exists_run_of_ofEntries h indent
  refine ⟨s, hr, hs.depth, hs.inFunction, ?_, ?_⟩
  · rw [Compilation.generate, h, Stream.text_eq_write hs]
    cases hw : write indent o <;> simp only [hw] <;> rfl
  · rw [Emitter.program_eq, Stream.text_eq_write hs, write]
    cases programLines o <;> rfl

/-- A function and a print in two loops, then a variable. -/
def nested : List Entry :=
  [⟨.loop "x" "xs", {}, ⟨1, 1⟩⟩, ⟨.loop "y" "ys", {}, ⟨2, 1⟩⟩,
    ⟨.function ⟨"f", "a", "int", "float"⟩, {}, ⟨3, 1⟩⟩, ⟨.result (.variable "a"), {}, ⟨4, 1⟩⟩,
    ⟨.print (.variable "y"), {}, ⟨5, 1⟩⟩, ⟨.endLoop, {}, ⟨6, 1⟩⟩, ⟨.endLoop, {}, ⟨7, 1⟩⟩,
    ⟨.declare "z" .int (.number (.int 1)), {}, ⟨8, 1⟩⟩]

/-- The print is three levels deep, the function none, and the variable is back at one. -/
theorem generate_eq_stream_nested :
    ∃ s, Stream.run " " {} nested = some s ∧ s.depth = 0 ∧ s.inFunction = false ∧
      Compilation.generate " " nested = s.text.mapError .target ∧
      s.text = .ok ("fn f(a: i32) -> f32 \x7b\n return a;\n\x7d\nfn main() \x7b\n" ++
        " for x in xs.iter() \x7b\n  for y in ys.iter() \x7b\n   println!(\"\x7b\x7d\", y);\n" ++
        "  \x7d\n \x7d\n let z: i32 = 1;\n\x7d\n") := by
  have h : Outline.ofEntries nested = .ok ⟨
      [⟨⟨"f", "a", "int", "float"⟩, [], .variable "a", ⟨3, 1⟩⟩],
      [.loop "x" "xs" [.loop "y" "ys" [.print (.variable "y")] ⟨2, 1⟩] ⟨1, 1⟩,
        .declare ⟨"z", .int, .number (.int 1), ⟨8, 1⟩⟩]⟩ := rfl
  obtain ⟨s, hr, hd, hf, hg, _⟩ := generate_eq_stream h " "
  refine ⟨s, hr, hd, hf, hg, Option.some.inj ?_⟩
  calc some s.text = (Stream.run " " {} nested).map Stream.text := by rw [hr]; rfl
    _ = _ := by rfl

end FuzzLang.Target
