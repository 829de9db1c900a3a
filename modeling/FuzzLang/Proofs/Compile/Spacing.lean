import FuzzLang.Compile
import FuzzLang.Proofs.Target.Unplaced

/-!
# Spacing does not matter

Blanks and comments put where a token begins or ends change the places of tokens and nothing else.
No later step looks at places, so the source compiles to the same output or fails for the same
reason (`compile_insert`).
-/

namespace FuzzLang

open Token

namespace Compilation

def GenerateError.unplaced : GenerateError → GenerateError
  | .outline fault => .outline fault.unplaced
  | .target fault => .target fault.unplaced

theorem generate_unplaced (indent : String) (entries : List Entry) :
    generate indent (entries.map Entry.unplaced) =
      mapBoth GenerateError.unplaced id (generate indent entries) := by
  rw [generate, generate, Outline.ofEntries_unplaced]
  cases Outline.ofEntries entries with
  | error fault => rfl
  | ok o =>
    simp only [mapBoth_ok, Target.write_unplaced]
    cases Target.write indent o <;> rfl

/-- Errors that differ in places only. The message of a fault in a source or in its grammar names no
place; the others are the same once their place is left out. -/
inductive Error.Alike : Error → Error → Prop
  | lex {e e' : Token.Error} : e.fault = e'.fault → Alike (.lex e) (.lex e')
  | parse {e e' : Grammar.Error} :
    e.fault.kind = e'.fault.kind → e.fault.message = e'.fault.message →
    e.fault.relocate (fun _ => {}) = e'.fault.relocate (fun _ => {}) → Alike (.parse e) (.parse e')
  | outline {fault fault' : Outline.Fault} :
    fault.unplaced = fault'.unplaced →
    Alike (.generate (.outline fault)) (.generate (.outline fault'))
  | target {fault fault' : Target.Fault} :
    fault.unplaced = fault'.unplaced →
    Alike (.generate (.target fault)) (.generate (.target fault'))

theorem Error.Alike.of_parse {e e' : Grammar.Error}
    (h : e.relocate (fun _ => {}) = e'.relocate (fun _ => {})) : Alike (.parse e) (.parse e') := by
  have hfault : e.fault.relocate (fun _ => {}) = e'.fault.relocate (fun _ => {}) :=
    (Grammar.Error.mk.inj h).1
  refine .parse ?_ ?_ hfault
  · rw [← e.fault.kind_relocate (g := fun _ => {}), hfault, e'.fault.kind_relocate]
  · rw [← e.fault.message_relocate (g := fun _ => {}), hfault, e'.fault.message_relocate]

theorem Error.Alike.of_generate {e e' : GenerateError} (h : e.unplaced = e'.unplaced) :
    Alike (.generate e) (.generate e') := by
  cases e <;> cases e'
  · exact .outline (GenerateError.outline.inj h)
  · cases h
  · cases h
  · exact .target (GenerateError.target.inj h)

/-- Results that differ in places only: the same output, or errors that are alike. -/
def Agree : Except Error Compilation → Except Error Compilation → Prop
  | .ok c, .ok d => c.output = d.output
  | .error e, .error e' => e.Alike e'
  | _, _ => False

/-- Statements that differ in places only are written alike. -/
theorem generate_agree (indent : String) {entries more : List Entry}
    (h : entries.map Entry.unplaced = more.map Entry.unplaced) :
    (∃ e e', generate indent entries = .error e ∧ generate indent more = .error e' ∧
        e.unplaced = e'.unplaced) ∨
      ∃ text, generate indent entries = .ok text ∧ generate indent more = .ok text := by
  have hboth := generate_unplaced indent entries
  rw [h, generate_unplaced] at hboth
  rcases mapBoth_eq_mapBoth hboth.symm with herror | ⟨text, _, hx, hy, rfl⟩
  · exact .inl herror
  · exact .inr ⟨text, hx, hy⟩

end Compilation

open Compilation

/-- Sources whose tokens differ in places only compile alike. -/
theorem compile_agree (indent : String) {s t : String}
    (h : relocated (fun _ => {}) (tokenize s) = relocated (fun _ => {}) (tokenize t)) :
    Agree (compile indent s) (compile indent t) := by
  rcases mapBoth_eq_mapBoth h with ⟨e, e', hs, ht, he⟩ | ⟨ts, us, hs, ht, htokens⟩
  · simp only [compile, Compilation.read, hs, ht]
    exact .lex (Token.Error.mk.inj he).1
  · have hparse := Grammar.parse_relocate (fun _ => {}) ts
    rw [htokens, Grammar.parse_relocate] at hparse
    rcases mapBoth_eq_mapBoth hparse.symm with ⟨e, e', hp, hq, he⟩ | ⟨entries, more, hp, hq, hmoved⟩
    · simp only [compile, Compilation.read, hs, ht, hp, hq]
      exact .of_parse he
    · have hunplaced : entries.map Entry.unplaced = more.map Entry.unplaced := by
        rw [← Entry.map_unplaced_moved (fun _ => {}) 0, hmoved, Entry.map_unplaced_moved]
      simp only [compile, Compilation.read, hs, ht, hp, hq]
      rcases generate_agree indent hunplaced with ⟨e, e', hx, hy, he⟩ | ⟨text, hx, hy⟩
      · rw [hx, hy]
        exact .of_generate he
      · rw [hx, hy]
        rfl

/-- **Spacing.** Blanks and lines of comments put where a token begins or ends, the first of them a
blank, leave the kinds and lexemes of all tokens as they are, and the source compiles to the same
output, or fails with the same error at a place of its own. -/
theorem compile_insert (indent : String) {s₁ s₂ gap : String}
    (he : TokenEdge s₁.toList s₂.toList) (hg : Spacing gap.toList) :
    (∀ ts, tokenize (s₁ ++ s₂) = .ok ts → ∃ us, tokenize (s₁ ++ gap ++ s₂) = .ok us ∧
      us.map (fun t => (t.kind, t.lexeme)) = ts.map (fun t => (t.kind, t.lexeme))) ∧
    Agree (compile indent (s₁ ++ gap ++ s₂)) (compile indent (s₁ ++ s₂)) := by
  have htokens := relocated_tokenize_insert he hg
  refine ⟨fun ts hts => ?_, compile_agree indent htokens⟩
  rw [hts] at htokens
  obtain ⟨us, hus, hmap⟩ := mapBoth_eq_ok htokens
  exact ⟨us, hus, map_kind_lexeme hmap⟩

/-- A number and a keyword with nothing between them, and a type that no function can have. -/
def crowded : String × String := ("suzy f(x: int) -> odd \x7b fuzzy int a = 1", "flabs a\x7d")

theorem tokenEdge_crowded : TokenEdge crowded.1.toList crowded.2.toList := by
  have hm := munch_cut (crowded.1.toList ++ crowded.2.toList)
  rw [← List.take_append_drop 25 (cut (crowded.1.toList ++ crowded.2.toList)).1] at hm
  refine ⟨_, _, _, hm, ?_, .number, .inl ?_⟩ <;> decide +kernel

theorem spacing_comment : Spacing "\tcomment: one \n\r\n".toList := by
  have htext : "\tcomment: one \n\r\n".toList =
      '\t' :: (commentMark ++ (" one ".toList ++ ['\n', '\r', '\n'])) := by
    decide +kernel
  rw [htext]
  exact ⟨_, _, rfl, by simp, .comment (by decide) (.blank (by simp) (.blank (by simp) .nil))⟩

/-- A comment between the two leaves the tokens and the complaint about the type as they are. -/
theorem compile_insert_crowded :
    TokenEdge crowded.1.toList crowded.2.toList ∧ Spacing "\tcomment: one \n\r\n".toList ∧
    (∃ e, compile "" (crowded.1 ++ crowded.2) = .error e) ∧
    (∀ ts, tokenize (crowded.1 ++ crowded.2) = .ok ts →
      ∃ us, tokenize (crowded.1 ++ "\tcomment: one \n\r\n" ++ crowded.2) = .ok us ∧
        us.map (fun t => (t.kind, t.lexeme)) = ts.map (fun t => (t.kind, t.lexeme))) ∧
    Agree (compile "" (crowded.1 ++ "\tcomment: one \n\r\n" ++ crowded.2))
      (compile "" (crowded.1 ++ crowded.2)) := by
  have hfails : (match compile "" (crowded.1 ++ crowded.2) with
      | .error _ => true
      | .ok _ => false) = true := by
    decide +kernel
  refine ⟨tokenEdge_crowded, spacing_comment, ?_,
    compile_insert "" tokenEdge_crowded spacing_comment⟩
  split at hfails
  · rename_i e he
    exact ⟨e, he⟩
  · cases hfails

end FuzzLang
