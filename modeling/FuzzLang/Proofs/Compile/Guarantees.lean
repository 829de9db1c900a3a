import FuzzLang.Proofs.Compile.Culprit
import FuzzLang.Proofs.Grammar.Tiling

/-!
# What the grammar spares the writer

A program that was read declares an array only with a literal of the length it says
(`Node.Sized`), so some faults of writing cannot be met, and a written array has as many values as
its type counts (`generate_of_parse`). The values are counted in the text itself, by their commas
(`valueCount`).
-/

namespace FuzzLang

open Target

/-! ## Arrays of a program -/

/-- A declared array has a literal with as many values as it says. -/
def Node.Sized : Node → Prop
  | .declare _ .array (.array literal) => literal.length = literal.values.length
  | .declare _ .array _ => False
  | _ => True

theorem Node.Sized.exists_literal {name : String} {value : Expr}
    (h : (Node.declare name .array value).Sized) :
    ∃ literal, value = .array literal ∧ literal.length = literal.values.length := by
  cases value with
  | array literal => exact ⟨literal, rfl, h⟩
  | _ => exact h.elim

theorem Node.sized_of_ne {name : String} {type : VarType} {value : Expr} (h : type ≠ .array) :
    (Node.declare name type value).Sized := by
  cases type with
  | array => exact absurd rfl h
  | _ => trivial

namespace Grammar

theorem Initializer.length_eq {shape : Option Shape} {literal : ArrayLiteral} {ts : List Token}
    (h : Initializer shape (.array literal) ts) : literal.length = literal.values.length := by
  cases h with
  | operand ho =>
    cases ho with
    | array => rfl

theorem Phrase.sized {node : Node} {ts : List Token} (h : Phrase node ts) : node.Sized := by
  cases h with
  | @declare _ _ _ type _ _ e _ _ _ ht _ _ hv hs =>
    by_cases harray : type = .array
    · subst harray
      cases e with
      | array literal => exact hv.length_eq
      | _ => exact hs.elim
    · exact Node.sized_of_ne harray
  | loop | endLoop | function | result | resultTerminated | print => trivial

theorem sized_of_parse {ts : List Token} {entries : List Entry} (h : parse ts = .ok entries) :
    ∀ e ∈ entries, e.node.Sized := by
  obtain ⟨nodes, segments, hs, -, rfl⟩ := exists_placed_of_parse h
  intro e he
  obtain ⟨-, segment, -, -, hsegment, -⟩ := exists_segment_of_mem_placed hs he
  cases hsegment with
  | bare hp => exact hp.sized
  | terminated hp => exact hp.sized

end Grammar

/-! ## Values in a text -/

theorem Number.comma_not_mem (n : Number) : ',' ∉ n.text.toList := by
  rcases n.isFinite_or_named with hn | hn | hn | hn
  · intro hc
    cases isNumeral_of_mem_text hn hc
  all_goals simp [hn]

theorem Number.text_ne_empty (n : Number) : n.text ≠ "" := by
  rcases n.isFinite_or_named with hn | hn | hn | hn
  · obtain ⟨c, cs, hcs, -⟩ := exists_cons_text hn
    intro hempty
    rw [hempty] at hcs
    cases hcs
  all_goals simp [hn]

namespace Target

/-- The number of values in a written array: one more than its commas, or none at all. -/
def valueCount (array : String) : Nat :=
  if array = "[]" then 0 else array.toList.count ',' + 1

theorem count_laterValues (ns : List Number) : (Expr.laterValues ns).count ',' = ns.length := by
  induction ns with
  | nil => rfl
  | cons n ns ih =>
    rw [Expr.laterValues_cons, List.count_cons_self, List.count_cons_of_ne (by decide),
      List.count_append, List.count_eq_zero.2 n.comma_not_mem, ih, Nat.zero_add, List.length_cons]

/-- A written array shows how many values it has. -/
theorem valueCount_text (literal : ArrayLiteral) :
    valueCount (Expr.array literal).text = literal.values.length := by
  cases hvalues : literal.values with
  | nil =>
    rw [Expr.text, hvalues]
    rfl
  | cons n ns =>
    have htext : (Expr.array literal).text.toList =
        '[' :: (n.text.toList ++ (Expr.laterValues ns ++ [']'])) := by
      rw [Expr.text, hvalues, String.toList_append, String.toList_append,
        Expr.toList_intercalate, List.append_assoc, List.append_assoc]
      rfl
    have hne : (Expr.array literal).text ≠ "[]" := by
      intro hempty
      rw [hempty] at htext
      have hcs := (List.cons.inj htext).2
      obtain ⟨c, cs, hn⟩ := List.exists_cons_of_ne_nil
        fun h => n.text_ne_empty (String.toList_eq_nil_iff.1 h)
      rw [hn] at hcs
      obtain ⟨-, hrest⟩ := List.cons.inj hcs
      simp at hrest
    rw [valueCount, if_neg hne, htext, List.count_cons_of_ne (by decide), List.count_append,
      List.count_append, List.count_eq_zero.2 n.comma_not_mem, count_laterValues]
    simp

/-- A line that declares an array, whose type counts the values after it. -/
def Counts (name : String) (value : Expr) (text : String) : Prop :=
  ∃ word, text = "let " ++ name ++ ": [" ++ word ++ "; " ++ toString (valueCount value.text) ++
    "] = " ++ value.text ++ ";"

theorem Row.Written.counts {name text : String} {value : Expr}
    (h : (Row.statement (.declare name .array value)).Written text)
    (hs : (Node.declare name .array value).Sized) : Counts name value text := by
  obtain ⟨literal, rfl, hlength⟩ := hs.exists_literal
  obtain ⟨location, htext⟩ := h
  obtain ⟨type, htype, rfl⟩ := Row.bindingText_eq_ok htext
  cases htype with
  | scalar hne => exact absurd rfl hne
  | @array _ word _ _ heq =>
    refine ⟨word, ?_⟩
    rw [heq, valueCount_text, hlength]
    simp only [String.append_assoc]
    rfl

theorem Spells.counts {rows : List Row} {lines : List Line} (h : Spells rows lines)
    (hs : ∀ node, .statement node ∈ rows → node.Sized) :
    List.Forall₂ (fun row line => row.Written line.text ∧
      ∀ name value, row = .statement (.declare name .array value) →
        Counts name value line.text) rows lines := by
  refine h.forall₂ fun row hrow line hwritten => ?_
  rintro name value rfl
  exact hwritten.counts (hs _ hrow)

end Target

theorem Outline.sized_of_mem_rows {entries : List Entry} {o : Outline}
    (h : ofEntries entries = .ok o) (hs : ∀ e ∈ entries, e.node.Sized) {node : Node}
    (hn : .statement node ∈ o.rows) : node.Sized := by
  rcases mem_rows h hn with rfl | ⟨e, he, rfl⟩
  · trivial
  · exact hs e he

/-- The names of types in a statement that the writer has to know: of the elements of an array, and
of what a function takes and returns. -/
def Node.TypeName (name : String) : Node → Prop
  | .declare _ .array (.array literal) => name = literal.elementType
  | .function s => name = s.inputType ∨ name = s.outputType
  | _ => False

/-! ## Faults of a program -/

/-- An array of a program has its literal. -/
theorem Node.Sized.not_about {e : Entry} (h : e.node.Sized) (name : String) (l : Location) :
    ¬ (Target.Fault.missingArrayLiteral name l).About e := by
  intro habout
  cases habout with
  | literal hnode hno =>
    rw [hnode] at h
    obtain ⟨literal, hvalue, -⟩ := h.exists_literal
    exact hno literal hvalue

theorem Outline.Fault.About.result {kind : String} {l : Location} {e : Entry}
    (h : (Outline.Fault.unexpectedNode kind l).About e) :
    kind = "return" ∧ l = e.location ∧ ∃ value, e.node = .result value := by
  cases h with
  | unexpectedNode hnode =>
    refine ⟨?_, rfl, _, hnode⟩
    rw [hnode]
    rfl

theorem Target.Fault.About.typeName {name : String} {l : Location} {e : Entry}
    (h : (Target.Fault.unknownType name l).About e) :
    scalarWord? name = none ∧ l = e.location ∧ e.node.TypeName name := by
  cases h with
  | element hnode hnone =>
    rw [hnode]
    exact ⟨hnone, rfl, rfl⟩
  | input hnode hnone =>
    rw [hnode]
    exact ⟨hnone, rfl, .inl rfl⟩
  | output hnode hnone =>
    rw [hnode]
    exact ⟨hnone, rfl, .inr rfl⟩

theorem Target.ne_name_of_scalarWord? {name : String} (h : scalarWord? name = none)
    {type : VarType} (hne : type ≠ .array) : name ≠ type.name := by
  rintro rfl
  obtain ⟨word, hword⟩ := scalarWord_isOk hne {}
  rw [scalarWord_eq_ok.1 hword] at h
  cases h

namespace Compilation

theorem generate_eq_ok {indent text : String} {entries : List Entry}
    (h : generate indent entries = .ok text) :
    ∃ o lines, Outline.ofEntries entries = .ok o ∧ programLines o = .ok lines ∧
      text = render indent lines := by
  unfold generate at h
  cases ho : Outline.ofEntries entries with
  | error fault =>
    rw [ho] at h
    cases h
  | ok o =>
    cases hw : write indent o with
    | error fault =>
      rw [ho] at h
      simp only [hw] at h
      cases h
    | ok output =>
      rw [ho] at h
      simp only [hw] at h
      cases h
      obtain ⟨lines, hlines, htext⟩ := exists_lines_of_write hw
      exact ⟨o, lines, rfl, hlines, htext⟩

/-- **Guarantees of the grammar.** Statements that were read are never refused for an array without
a literal; a statement out of place is a returned value; and a type is unknown only if it is that of
the elements of an array, or one that a function takes or returns, and it is the name of no scalar
type. If they are written, every line that declares an array counts its values right. -/
theorem generate_of_parse {ts : List Token} {entries : List Entry}
    (h : Grammar.parse ts = .ok entries) (indent : String) :
    (∀ name l, generate indent entries ≠ .error (.target (.missingArrayLiteral name l))) ∧
    (∀ kind l, generate indent entries = .error (.outline (.unexpectedNode kind l)) →
      kind = "return" ∧ ∃ e ∈ entries, l = e.location ∧ ∃ value, e.node = .result value) ∧
    (∀ name l, generate indent entries = .error (.target (.unknownType name l)) →
      (∀ type : VarType, type ≠ .array → name ≠ type.name) ∧
        ∃ e ∈ entries, l = e.location ∧ e.node.TypeName name) ∧
    ∀ text, generate indent entries = .ok text →
      ∃ o lines, Outline.ofEntries entries = .ok o ∧ text = render indent lines ∧
        List.Forall₂ (fun row line => row.Written line.text ∧
          ∀ name value, row = .statement (.declare name .array value) →
            Counts name value line.text) o.rows lines := by
  have hsized := Grammar.sized_of_parse h
  refine ⟨?_, ?_, ?_, ?_⟩
  · intro name l herror
    obtain ⟨e, he, habout⟩ := generate_eq_error herror
    exact (hsized e he).not_about name l habout
  · intro kind l herror
    obtain ⟨e, he, habout⟩ := generate_eq_error herror
    obtain ⟨hkind, hl, hnode⟩ := Outline.Fault.About.result habout
    exact ⟨hkind, e, he, hl, hnode⟩
  · intro name l herror
    obtain ⟨e, he, habout⟩ := generate_eq_error herror
    obtain ⟨hnone, hl, hname⟩ := Target.Fault.About.typeName habout
    exact ⟨fun type hne => ne_name_of_scalarWord? hnone hne, e, he, hl, hname⟩
  · intro text htext
    obtain ⟨o, lines, ho, hlines, rfl⟩ := generate_eq_ok htext
    exact ⟨o, lines, ho, rfl,
      (spells_rows hlines).counts fun node => Outline.sized_of_mem_rows ho hsized⟩

/-- An array put together by hand: its length is no number token, and commas stand where they like.
-/
def handMade : List Token :=
  [⟨.declare, .text "fuzzy", {}⟩, ⟨.string, .text "array", {}⟩, ⟨.leftBracket, .text "[", {}⟩,
    ⟨.identifier, .text "float", {}⟩, ⟨.semicolon, .text ";", {}⟩, ⟨.comma, .number (.int 2), {}⟩,
    ⟨.rightBracket, .text "]", {}⟩, ⟨.identifier, .text "xs", {}⟩, ⟨.equals, .text "=", {}⟩,
    ⟨.leftBracket, .text "[", {}⟩, ⟨.comma, .text ",", {}⟩, ⟨.number, .number (.float .nan), {}⟩,
    ⟨.number, .number (.float (.infinite true)), {}⟩, ⟨.rightBracket, .text "]", {}⟩]

/-- The array that it declares. -/
def handMadeEntry : Entry :=
  ⟨.declare "xs" .array (.array ⟨"float", 2, [.float .nan, .float (.infinite true)]⟩), ⟨0, 14⟩, {}⟩

/-- It is written with its two values, and the line counts them. -/
theorem generate_of_parse_handMade :
    Grammar.parse handMade = .ok [handMadeEntry] ∧
      (∀ name l, generate "" [handMadeEntry] ≠ .error (.target (.missingArrayLiteral name l))) ∧
      generate "" [handMadeEntry] =
        .ok "fn main() \x7b\nlet xs: [f32; 2] = [NaN, -inf];\n\x7d\n" ∧
      ∃ o lines, Outline.ofEntries [handMadeEntry] = .ok o ∧
        "fn main() \x7b\nlet xs: [f32; 2] = [NaN, -inf];\n\x7d\n" = render "" lines ∧
        List.Forall₂ (fun row line => row.Written line.text ∧
          ∀ name value, row = .statement (.declare name .array value) →
            Counts name value line.text) o.rows lines := by
  have hparse : Grammar.parse handMade = .ok [handMadeEntry] := by decide +kernel
  have htext : generate "" [handMadeEntry] =
      .ok "fn main() \x7b\nlet xs: [f32; 2] = [NaN, -inf];\n\x7d\n" := by decide +kernel
  obtain ⟨hliteral, -, -, hwritten⟩ := generate_of_parse hparse ""
  exact ⟨hparse, hliteral, htext, hwritten _ htext⟩

end Compilation

end FuzzLang
