import FuzzLang.Proofs.Compile.Injective
import FuzzLang.Proofs.Outline.Append
import FuzzLang.Proofs.Target.Unplaced

/-!
# Programs one after the other

Two programs that compile and share no name of a function can be put into one source, with a line
feed between them (`compile_append`). At each step the second is treated as it is alone: its tokens
stand further down, its statements further on, and its outline differs in places only, which do not
show in the output.
-/

namespace FuzzLang

open Token Target

namespace Target

theorem render_append (indent : String) (xs ys : List Line) :
    render indent (xs ++ ys) = render indent xs ++ render indent ys := by
  rw [render, List.map_append, String.join_append]
  rfl

/-- The text of a program: its functions and then `main`. -/
def assembled (functions main : String) : String :=
  functions ++ "fn main() \x7b\n" ++ main ++ "\x7d\n"

theorem write_eq_ok {indent text : String} {o : Outline} :
    write indent o = .ok text ↔
      ∃ functions main, functionsLines o.functions = .ok functions ∧
        bodyLines 1 o.main = .ok main ∧
        text = assembled (render indent functions) (render indent main) := by
  have hmain : render indent [mainLine] = "fn main() \x7b\n" := rfl
  have hclose : render indent [closeLine 0] = "\x7d\n" := rfl
  have hrender (functions main : List Line) :
      render indent (functions ++ mainLine :: main ++ [closeLine 0]) =
        assembled (render indent functions) (render indent main) := by
    rw [← List.singleton_append, ← List.append_assoc, render_append, render_append, render_append,
      hmain, hclose, assembled]
  constructor
  · intro h
    cases hf : functionsLines o.functions with
    | error fault =>
      rw [write, programLines, hf] at h
      cases h
    | ok functions =>
      cases hm : bodyLines 1 o.main with
      | error fault =>
        rw [write, programLines, hf, hm] at h
        cases h
      | ok main =>
        rw [write, programLines, hf, hm] at h
        refine ⟨functions, main, rfl, rfl, ?_⟩
        rw [← hrender]
        exact (Except.ok.inj h).symm
  · rintro ⟨functions, main, hf, hm, rfl⟩
    rw [write, programLines, hf, hm, ← hrender]
    rfl

/-- Functions that differ in places only have the same lines. -/
theorem functionsLines_eq_ok {fs gs : List FunctionDef} {lines : List Line}
    (h : fs.map FunctionDef.unplaced = gs.map FunctionDef.unplaced)
    (hf : functionsLines fs = .ok lines) : functionsLines gs = .ok lines := by
  have hlines := functionsLines_unplaced gs
  rw [← h, functionsLines_unplaced, hf] at hlines
  obtain ⟨_, hg, rfl⟩ := mapBoth_eq_ok hlines.symm
  exact hg

theorem bodyLines_eq_ok {depth : Nat} {xs ys : List Item} {lines : List Line}
    (h : Item.bodyUnplaced xs = Item.bodyUnplaced ys) (hx : bodyLines depth xs = .ok lines) :
    bodyLines depth ys = .ok lines := by
  have hlines := bodyLines_unplaced depth ys
  rw [← h, bodyLines_unplaced, hx] at hlines
  obtain ⟨_, hy, rfl⟩ := mapBoth_eq_ok hlines.symm
  exact hy

end Target

/-! ## Statements further on -/

theorem functionNames_moved (g : Location → Location) (n : Nat) (entries : List Entry) :
    functionNames (entries.map (Entry.moved g n)) = functionNames entries :=
  List.filterMap_map.trans rfl

/-- Moved statements have the same outline but for places. -/
theorem Outline.exists_ofEntries_moved (g : Location → Location) (n : Nat) {entries : List Entry}
    {o : Outline} (h : ofEntries entries = .ok o) :
    ∃ p, ofEntries (entries.map (Entry.moved g n)) = .ok p ∧ p.unplaced = o.unplaced := by
  have hmoved := ofEntries_unplaced (entries.map (Entry.moved g n))
  rw [Entry.map_unplaced_moved, ofEntries_unplaced, h] at hmoved
  exact mapBoth_eq_ok hmoved.symm

/-! ## Compiling -/

theorem compile_of_steps {indent source output : String} {tokens : List Token}
    {entries : List Entry} {o : Outline} (ht : tokenize source = .ok tokens)
    (hp : Grammar.parse tokens = .ok entries) (ho : Outline.ofEntries entries = .ok o)
    (hw : write indent o = .ok output) :
    compile indent source = .ok ⟨tokens, entries, output⟩ := by
  simp only [compile, Compilation.read, Compilation.generate, ht, hp, ho, hw]

/-- The output of a program is made of the text of its functions and that of its main lines. -/
def Compilation.Parts (indent : String) (c : Compilation) (functions main : String) : Prop :=
  ∃ o fs ms, Outline.ofEntries c.entries = .ok o ∧ functionsLines o.functions = .ok fs ∧
    bodyLines 1 o.main = .ok ms ∧ functions = render indent fs ∧ main = render indent ms ∧
    c.output = assembled functions main

/-- **Composition.** Two programs that compile and share no name of a function compile together:
tokens and statements are those of the first and then those of the second, further down and further
on, and the output has the functions of both and then the main lines of both. -/
theorem compile_append {indent s₁ s₂ : String} {c₁ c₂ : Compilation}
    (h₁ : compile indent s₁ = .ok c₁) (h₂ : compile indent s₂ = .ok c₂)
    (hn : ∀ name ∈ functionNames c₁.entries, name ∉ functionNames c₂.entries) :
    ∃ functions₁ main₁ functions₂ main₂,
      c₁.Parts indent functions₁ main₁ ∧ c₂.Parts indent functions₂ main₂ ∧
      compile indent (s₁ ++ "\n" ++ s₂) = .ok {
        tokens := c₁.tokens ++
          c₂.tokens.map (Token.relocate (.lower (1 + s₁.toList.count '\n')))
        entries := c₁.entries ++
          c₂.entries.map (Entry.moved (.lower (1 + s₁.toList.count '\n')) c₁.tokens.length)
        output :=
          functions₁ ++ functions₂ ++ "fn main() \x7b\n" ++ main₁ ++ main₂ ++ "\x7d\n" } := by
  obtain ⟨ht₁, hp₁, o₁, ho₁, hw₁⟩ := compile_eq_ok h₁
  obtain ⟨ht₂, hp₂, o₂, ho₂, hw₂⟩ := compile_eq_ok h₂
  obtain ⟨fs₁, ms₁, hf₁, hm₁, hout₁⟩ := write_eq_ok.1 hw₁
  obtain ⟨fs₂, ms₂, hf₂, hm₂, hout₂⟩ := write_eq_ok.1 hw₂
  refine ⟨_, _, _, _, ⟨o₁, fs₁, ms₁, ho₁, hf₁, hm₁, rfl, rfl, hout₁⟩,
    ⟨o₂, fs₂, ms₂, ho₂, hf₂, hm₂, rfl, rfl, hout₂⟩, ?_⟩
  have htokens := tokenize_newline ht₁ ht₂
  have hentries := Grammar.parse_append (.lower (1 + s₁.toList.count '\n')) hp₁ hp₂
  -- the second outline differs from the one it has alone in places only
  obtain ⟨p, hp, hplaces⟩ := Outline.exists_ofEntries_moved
    (.lower (1 + s₁.toList.count '\n')) c₁.tokens.length ho₂
  obtain ⟨hfunctions, hmain⟩ := Outline.mk.inj hplaces.symm
  have houtline := Outline.ofEntries_append ho₁ hp fun name hname hmem =>
    hn name hmem (functionNames_moved _ _ c₂.entries ▸ hname)
  refine compile_of_steps htokens hentries houtline (write_eq_ok.2 ⟨fs₁ ++ fs₂, ms₁ ++ ms₂, ?_⟩)
  rw [functionsLines_append, bodyLines_append, hf₁, hm₁, functionsLines_eq_ok hfunctions hf₂,
    bodyLines_eq_ok hmain hm₂]
  refine ⟨rfl, rfl, ?_⟩
  simp only [assembled, render_append, String.append_assoc]

/-- A function and a variable, with a comment that nothing ends. -/
def openEnded : String :=
  "suzy half(x: int) -> int \x7b flabs x \x7d\nfuzzy int a = 1 comment: no line feed"

/-- A loop with a function in it. -/
def selfContained : String :=
  "every e in xs \x7b labs(e); suzy twice(x: int) -> int \x7b flabs x \x7d \x7d"

/-- Put together, the two compile: the comment ends with its line, and `twice` comes before `main`.
-/
theorem compile_append_openEnded :
    ∃ c₁ c₂ functions₁ main₁ functions₂ main₂,
      compile "  " openEnded = .ok c₁ ∧ compile "  " selfContained = .ok c₂ ∧
      (∀ name ∈ functionNames c₁.entries, name ∉ functionNames c₂.entries) ∧
      c₁.Parts "  " functions₁ main₁ ∧ c₂.Parts "  " functions₂ main₂ ∧
      compile "  " (openEnded ++ "\n" ++ selfContained) = .ok {
        tokens := c₁.tokens ++ c₂.tokens.map (Token.relocate (.lower 2))
        entries := c₁.entries ++ c₂.entries.map (Entry.moved (.lower 2) 18)
        output :=
          functions₁ ++ functions₂ ++ "fn main() \x7b\n" ++ main₁ ++ main₂ ++ "\x7d\n" } := by
  have hcompiles : (match compile "  " openEnded, compile "  " selfContained with
      | .ok c₁, .ok c₂ => decide (c₁.tokens.length = 18 ∧
          ∀ name ∈ functionNames c₁.entries, name ∉ functionNames c₂.entries)
      | _, _ => false) = true := by
    decide +kernel
  have hlines : 1 + openEnded.toList.count '\n' = 2 := by decide +kernel
  split at hcompiles
  · rename_i c₁ c₂ h₁ h₂
    obtain ⟨hlength, hn⟩ := of_decide_eq_true hcompiles
    obtain ⟨functions₁, main₁, functions₂, main₂, hparts₁, hparts₂, h⟩ := compile_append h₁ h₂ hn
    rw [hlines, hlength] at h
    exact ⟨c₁, c₂, functions₁, main₁, functions₂, main₂, h₁, h₂, hn, hparts₁, hparts₂, h⟩
  · cases hcompiles

end FuzzLang
