import FuzzLang.Proofs.Compile.Append
import FuzzLang.Proofs.Compile.Guarantees
import FuzzLang.Proofs.Grammar.ReadBack

/-!
# Literals and the types they are declared with

The values of a declaration are checked while it is read, and the type in front of them is written
much later. A literal is of the type that is written, but for the values of an array of strings,
which nothing checks (`compile_typed`).

Integers are read with 64 bits and declared with 32. Nothing in between looks at their size, so
whatever can be read is written under the smaller type (`compile_integers`).
-/

attribute [local instance (high)] instPowNat

namespace FuzzLang

open Token Target

namespace Expr

/-- Literals of a type of the target language. Any numbers pass for the strings of an array. -/
inductive OfType : Expr → String → Prop
  | integer {k : Int} : OfType (.number (.int k)) "i32"
  | double {x : Double} : OfType (.number (.float x)) "f32"
  | string {s : String} : Token.IsQuoted s → OfType (.string s) "&str"
  | integers {a : ArrayLiteral} : (∀ n ∈ a.values, ∃ k, n = .int k) →
    OfType (.array a) ("[i32; " ++ toString a.values.length ++ "]")
  | doubles {a : ArrayLiteral} : (∀ n ∈ a.values, ∃ x, n = .float x) →
    OfType (.array a) ("[f32; " ++ toString a.values.length ++ "]")
  | numbers {a : ArrayLiteral} : OfType (.array a) ("[&str; " ++ toString a.values.length ++ "]")

/-- The integers that stand under a type of 32 bits, alone or in an array of any length. -/
inductive Holds : Expr → String → Int → Prop
  | value {k : Int} : Holds (.number (.int k)) "i32" k
  | item {a : ArrayLiteral} {length : String} {k : Int} : .int k ∈ a.values →
    Holds (.array a) ("[i32; " ++ length ++ "]") k

theorem Holds.mem_numbers {e : Expr} {word : String} {k : Int} (h : e.Holds word k) :
    .int k ∈ e.numbers := by
  cases h with
  | value => exact List.mem_singleton_self _
  | item hk => exact hk

end Expr

theorem Number.exists_int {n : Number} (h : n.isFloat = false) : ∃ k, n = .int k := by
  cases n with
  | int k => exact ⟨k, rfl⟩
  | float => cases h

theorem Number.exists_float {n : Number} (h : n.isFloat = true) : ∃ x, n = .float x := by
  cases n with
  | int => cases h
  | float x => exact ⟨x, rfl⟩

/-! ## Values of a declaration -/

namespace Grammar

theorem Atom.counted {e : Expr} {t : Token} (h : Atom e t) : ∀ n ∈ e.numbers, Counted n t := by
  cases h with
  | name => simp [Expr.numbers]
  | number hn => simpa [Expr.numbers] using hn

theorem Operand.exists_counted {shape : Option Shape} {e : Expr} {ts : List Token}
    (h : Operand shape e ts) : ∀ n ∈ e.numbers, ∃ t ∈ ts, Counted n t := by
  cases h with
  | name | string => simp [Expr.numbers]
  | call _ _ ha _ => exact fun n hn => ⟨_, by simp, ha.counted n hn⟩
  | number hn => simpa [Expr.numbers] using hn
  | array _ hitems _ =>
    intro n hn
    obtain ⟨t, ht, hcounted⟩ := hitems.exists_counted n hn
    exact ⟨t, by simp [ht], hcounted⟩

/-- The numbers of a value are number tokens. -/
theorem Initializer.exists_counted {shape : Option Shape} {e : Expr} {ts : List Token}
    (h : Initializer shape e ts) : ∀ n ∈ e.numbers, ∃ t ∈ ts, Counted n t := by
  cases h with
  | operand ho => exact ho.exists_counted
  | binary ho _ _ ha =>
    intro n hn
    rcases List.mem_append.1 hn with hn | hn
    · obtain ⟨t, ht, hcounted⟩ := ho.exists_counted n hn
      exact ⟨t, List.mem_append_left _ ht, hcounted⟩
    · exact ⟨_, by simp, ha.counted n hn⟩

theorem Phrase.exists_counted {name : String} {type : VarType} {value : Expr} {ts : List Token}
    (h : Phrase (.declare name type value) ts) : ∀ n ∈ value.numbers, ∃ t ∈ ts, Counted n t := by
  cases h with
  | declare _ _ _ _ hv _ =>
    intro n hn
    obtain ⟨t, ht, hcounted⟩ := hv.exists_counted n hn
    exact ⟨t, by simp [ht], hcounted⟩

theorem Initializer.exists_quoted {shape : Option Shape} {s : String} {ts : List Token}
    (h : Initializer shape (.string s) ts) : ∃ t ∈ ts, Quoted s t := by
  cases h with
  | operand ho =>
    cases ho with
    | string hs => exact ⟨_, List.mem_singleton_self _, hs⟩

/-- An array that suits its declaration is of the type that is written for it. -/
theorem ofType_of_suits_array {a : ArrayLiteral} {word : String} (hs : Suits .array (.array a))
    (hw : scalarWord? a.elementType = some word) (hlength : a.length = a.values.length) :
    (Expr.array a).OfType ("[" ++ word ++ "; " ++ toString a.length ++ "]") := by
  rw [hlength]
  rcases scalarWord?_cases hw with ⟨helement, rfl⟩ | ⟨helement, rfl⟩ | ⟨helement, rfl⟩
  · exact .integers fun n hn => Number.exists_int (hs.1 helement n hn)
  · exact .doubles fun n hn => Number.exists_float (hs.2 helement n hn)
  · exact .numbers

theorem ofType_of_suits_number {type : VarType} {n : Number} {word : String}
    (hs : Suits type (.number n)) (hw : scalarWord? type.name = some word) :
    (Expr.number n).OfType word := by
  cases type with
  | int =>
    obtain ⟨k, rfl⟩ := Number.exists_int hs
    cases hw
    exact .integer
  | float =>
    obtain ⟨x, rfl⟩ := Number.exists_float hs
    cases hw
    exact .double
  | string | array => exact hs.elim

theorem ofType_of_suits_string {type : VarType} {s word : String} (hquoted : IsQuoted s)
    (hs : Suits type (.string s)) (hw : scalarWord? type.name = some word) :
    (Expr.string s).OfType word := by
  cases type with
  | string =>
    cases hw
    exact .string hquoted
  | int | float | array => exact hs.elim

/-- A literal is of the type that is written in front of it. -/
theorem Phrase.ofType {name word : String} {type : VarType} {value : Expr} {ts : List Token}
    (h : Phrase (.declare name type value) ts) (hlexed : ∀ t ∈ ts, t.Lexed)
    (hliteral : value.isLiteral = true) (ht : Typing type value word) : value.OfType word := by
  cases h with
  | declare _ hshape _ _ hv hs =>
    cases ht with
    | array hw heq =>
      rw [heq]
      exact ofType_of_suits_array hs hw hv.length_eq
    | scalar hne hw =>
      cases hshape with
      | array => exact absurd rfl hne
      | scalar =>
        cases value with
        | number => exact ofType_of_suits_number hs hw
        | string =>
          obtain ⟨t, hmem, hquoted⟩ := hv.exists_quoted
          exact ofType_of_suits_string (hquoted.isQuoted (hlexed t (by simp [hmem]))) hs hw
        | array =>
          -- only a declared length admits an array
          cases hv with
          | operand ho => cases ho
        | _ => cases hliteral

end Grammar

/-! ## Lines of a program -/

/-- Each declaration that is written was read from tokens of the source. -/
theorem exists_spells_of_compile {indent source : String} {c : Compilation}
    (h : compile indent source = .ok c) :
    ∃ o lines, Outline.ofEntries c.entries = .ok o ∧ programLines o = .ok lines ∧
      c.output = render indent lines ∧ Spells o.rows lines ∧
      ∀ name type value, .statement (.declare name type value) ∈ o.rows →
        ∃ phrase, Grammar.Phrase (.declare name type value) phrase ∧ phrase ⊆ c.tokens := by
  obtain ⟨-, hentries, o, ho, hw⟩ := compile_eq_ok h
  obtain ⟨lines, hlines, houtput⟩ := exists_lines_of_write hw
  refine ⟨o, lines, ho, hlines, houtput, spells_rows hlines, fun name type value hrow => ?_⟩
  rcases Outline.mem_rows ho hrow with hend | ⟨e, he, hnode⟩
  · cases hend
  · rw [← hnode]
    exact Grammar.exists_phrase_of_parse hentries he

/-- **Types of literals.** In a compiled program every literal that a variable is declared with is
of the type written in front of it: an integer, a double or a string, or an array that has as many
values as its type says, integers or doubles. What stands in an array of strings are any numbers. -/
theorem compile_typed {indent source : String} {c : Compilation}
    (h : compile indent source = .ok c) :
    ∃ o lines, Outline.ofEntries c.entries = .ok o ∧ programLines o = .ok lines ∧
      c.output = render indent lines ∧
      List.Forall₂ (fun row line => row.Written line.text ∧
        ∀ name type value, row = .statement (.declare name type value) →
          value.isLiteral = true →
          ∃ word, line.text = "let " ++ name ++ ": " ++ word ++ " = " ++ value.text ++ ";" ∧
            value.OfType word) o.rows lines := by
  obtain ⟨o, lines, ho, hlines, houtput, hspells, hphrases⟩ := exists_spells_of_compile h
  refine ⟨o, lines, ho, hlines, houtput, hspells.forall₂ ?_⟩
  rintro row hrow line hwritten name type value rfl hliteral
  obtain ⟨location, htext⟩ := hwritten
  obtain ⟨phrase, hphrase, hsub⟩ := hphrases name type value hrow
  obtain ⟨word, htyping, htext⟩ := Row.bindingText_eq_ok htext
  have hlexed : ∀ t ∈ phrase, t.Lexed := fun t ht =>
    lexed_of_tokenize (compile_eq_ok h).1 (hsub ht)
  exact ⟨word, htext, hphrase.ofType hlexed hliteral htyping⟩

/-- A string, and an array of integers. -/
def twoLiterals : String := "fuzzy string s=\"\"fuzzy array[int;2]a=[1,-2]"

def twoLiteralsCompiled : Compilation where
  tokens := [⟨.declare, .text "fuzzy", ⟨1, 1⟩⟩, ⟨.identifier, .text "string", ⟨1, 7⟩⟩,
    ⟨.identifier, .text "s", ⟨1, 14⟩⟩, ⟨.equals, .text "=", ⟨1, 15⟩⟩,
    ⟨.string, .text "\"\"", ⟨1, 16⟩⟩, ⟨.declare, .text "fuzzy", ⟨1, 18⟩⟩,
    ⟨.identifier, .text "array", ⟨1, 24⟩⟩, ⟨.leftBracket, .text "[", ⟨1, 29⟩⟩,
    ⟨.identifier, .text "int", ⟨1, 30⟩⟩, ⟨.semicolon, .text ";", ⟨1, 33⟩⟩,
    ⟨.number, .number (.int 2), ⟨1, 34⟩⟩, ⟨.rightBracket, .text "]", ⟨1, 35⟩⟩,
    ⟨.identifier, .text "a", ⟨1, 36⟩⟩, ⟨.equals, .text "=", ⟨1, 37⟩⟩,
    ⟨.leftBracket, .text "[", ⟨1, 38⟩⟩, ⟨.number, .number (.int 1), ⟨1, 39⟩⟩,
    ⟨.comma, .text ",", ⟨1, 40⟩⟩, ⟨.number, .number (.int (-2)), ⟨1, 41⟩⟩,
    ⟨.rightBracket, .text "]", ⟨1, 43⟩⟩]
  entries := [⟨.declare "s" .string (.string "\"\""), ⟨0, 5⟩, ⟨1, 1⟩⟩,
    ⟨.declare "a" .array (.array ⟨"int", 2, [.int 1, .int (-2)]⟩), ⟨5, 19⟩, ⟨1, 18⟩⟩]
  output := "fn main() \x7b\nlet s: &str = \"\";\nlet a: [i32; 2] = [1, -2];\n\x7d\n"

/-- Both are of their types. -/
theorem compile_typed_twoLiterals :
    compile "" twoLiterals = .ok twoLiteralsCompiled ∧
      ∃ o lines, Outline.ofEntries twoLiteralsCompiled.entries = .ok o ∧
        programLines o = .ok lines ∧ twoLiteralsCompiled.output = render "" lines ∧
        List.Forall₂ (fun row line => row.Written line.text ∧
          ∀ name type value, row = .statement (.declare name type value) →
            value.isLiteral = true →
            ∃ word, line.text = "let " ++ name ++ ": " ++ word ++ " = " ++ value.text ++ ";" ∧
              value.OfType word) o.rows lines := by
  have hcompile : compile "" twoLiterals = .ok twoLiteralsCompiled := by decide +kernel
  exact ⟨hcompile, compile_typed hcompile⟩

/-- An array of strings with a number in it. -/
def numberForString : String := "fuzzy array[string;1] a = [1];"

/-- It is accepted, and the number is written under the type of strings. -/
theorem numberForString_accepted :
    ∃ c, compile Compilation.defaultIndent numberForString = .ok c ∧
      c.entries.map (·.node) = [.declare "a" .array (.array ⟨"string", 1, [.int 1]⟩)] ∧
      c.output = "fn main() \x7b\n    let a: [&str; 1] = [1];\n\x7d\n" := by
  refine ⟨⟨[⟨.declare, .text "fuzzy", ⟨1, 1⟩⟩, ⟨.identifier, .text "array", ⟨1, 7⟩⟩,
      ⟨.leftBracket, .text "[", ⟨1, 12⟩⟩, ⟨.identifier, .text "string", ⟨1, 13⟩⟩,
      ⟨.semicolon, .text ";", ⟨1, 19⟩⟩, ⟨.number, .number (.int 1), ⟨1, 20⟩⟩,
      ⟨.rightBracket, .text "]", ⟨1, 21⟩⟩, ⟨.identifier, .text "a", ⟨1, 23⟩⟩,
      ⟨.equals, .text "=", ⟨1, 25⟩⟩, ⟨.leftBracket, .text "[", ⟨1, 27⟩⟩,
      ⟨.number, .number (.int 1), ⟨1, 28⟩⟩, ⟨.rightBracket, .text "]", ⟨1, 29⟩⟩,
      ⟨.semicolon, .text ";", ⟨1, 30⟩⟩],
    [⟨.declare "a" .array (.array ⟨"string", 1, [.int 1]⟩), ⟨0, 13⟩, ⟨1, 1⟩⟩],
    "fn main() \x7b\n    let a: [&str; 1] = [1];\n\x7d\n"⟩, ?_, ?_, ?_⟩ <;> decide +kernel

/-! ## Integers -/

namespace Token

/-- The integers of a source have 64 bits. -/
theorem bounds_of_tokenize {source : String} {ts : List Token} (h : tokenize source = .ok ts)
    {t : Token} (ht : t ∈ ts) {k : Int} (hk : t.lexeme = .number (.int k)) :
    -2 ^ (63 : Nat) ≤ k ∧ k ≤ 2 ^ (63 : Nat) - 1 := by
  obtain ⟨piece, hp, hspelled⟩ := (yields_of_tokenize h).exists_spelled ht
  have hfits := fits_of_tokenize h piece hp
  cases hspelled with
  | text | decimal => cases hk
  | integer hpoint =>
    cases hk
    exact hfits rfl hpoint

end Token

/-- The output for a program that declares `v` and does nothing else. -/
def declared (indent word value : String) : String :=
  assembled "" (indent ++ ("let v: " ++ word ++ " = " ++ value ++ ";") ++ "\n")

theorem write_declare {type : VarType} {value : Expr} {word : String} {location : Location}
    (h : writtenType ⟨"v", type, value, location⟩ = .ok word) (indent : String) :
    write indent ⟨[], [.declare ⟨"v", type, value, location⟩]⟩ =
      .ok (declared indent word value.text) := by
  have hbody : bodyLines 1 [.declare ⟨"v", type, value, location⟩] =
      .ok [⟨1, "let v: " ++ word ++ " = " ++ value.text ++ ";"⟩] := by
    rw [bodyLines_singleton, itemLines_declare, bindingLine, h]
    rfl
  have hline (text : String) : render indent [⟨1, text⟩] = indent ++ text ++ "\n" := by
    simp [render, Line.render]
  refine write_eq_ok.2 ⟨[], _, rfl, hbody, ?_⟩
  rw [hline, render_nil, declared]

/-- A declaration that can be spelled compiles alone. -/
theorem Grammar.exists_compile_declare {type : VarType} {shape : Option Shape} {value : Expr}
    {typing values : List Token} {word : String} (ht : TypePhrase type shape typing)
    (hwt : Written (type.spelling shape).toList typing) (hv : Initializer shape value values)
    (hwv : Written value.text.toList values) (hs : Suits type value)
    (hword : ∀ location, writtenType ⟨"v", type, value, location⟩ = .ok word) (indent : String) :
    ∃ c, compile indent ("fuzzy " ++ type.spelling shape ++ " v = " ++ value.text) = .ok c ∧
      c.output = declared indent word value.text := by
  have hphrase : Phrase (.declare "v" type value) (⟨.declare, .text "fuzzy", {}⟩ ::
      (typing ++ ⟨.identifier, .text "v", {}⟩ :: ⟨.equals, .text "=", {}⟩ :: values)) :=
    .declare rfl ht ⟨rfl, rfl⟩ rfl hv hs
  have hread := parse_flatten (.cons (.bare hphrase) .nil)
  rw [List.flatten_singleton] at hread
  obtain ⟨us, hus, hplaces⟩ := (written_declaration hwt hwv).exists_tokenize
  obtain ⟨more, hmore, hunplaced⟩ := exists_parse_of_relocate hplaces hread
  obtain ⟨⟨node, span, location⟩, rfl, hentry⟩ := List.map_eq_singleton_iff.1 hunplaced
  obtain ⟨rfl, -⟩ := Entry.mk.inj hentry
  exact ⟨_, compile_of_steps hus hmore rfl (write_declare (hword location) indent), rfl⟩

section

variable {k : Int} (hlow : -2 ^ (63 : Nat) ≤ k) (hhigh : k ≤ 2 ^ (63 : Nat) - 1) (indent : String)

include hlow hhigh

theorem exists_compile_int :
    ∃ c, compile indent ("fuzzy int v = " ++ toString k) = .ok c ∧
      c.output = declared indent "i32" (toString k) := by
  have htype : tokenize "int" = .ok [⟨.identifier, .text "int", ⟨1, 1⟩⟩] := by decide +kernel
  have hscalar : Grammar.TypePhrase .int none [⟨.identifier, .text "int", ⟨1, 1⟩⟩] :=
    .scalar (by simp) rfl
  obtain ⟨typing, htyping, hwritten⟩ := hscalar.exists_written htype (List.Subset.refl _)
  have hvalue : Grammar.Initializer none (.number (.int k)) [⟨.number, .number (.int k), {}⟩] :=
    .operand (.number ⟨rfl, rfl⟩)
  exact Grammar.exists_compile_declare htyping hwritten hvalue
    (.single (standalone_int hlow hhigh {})) rfl (fun _ => rfl) indent

theorem exists_compile_array :
    ∃ c, compile indent ("fuzzy array[int;1] v = [" ++ toString k ++ "]") = .ok c ∧
      c.output = declared indent "[i32; 1]" ("[" ++ toString k ++ "]") := by
  have htype : tokenize "array[int;1]" = .ok [⟨.identifier, .text "array", ⟨1, 1⟩⟩,
      ⟨.leftBracket, .text "[", ⟨1, 6⟩⟩, ⟨.identifier, .text "int", ⟨1, 7⟩⟩,
      ⟨.semicolon, .text ";", ⟨1, 10⟩⟩, ⟨.number, .number (.int 1), ⟨1, 11⟩⟩,
      ⟨.rightBracket, .text "]", ⟨1, 12⟩⟩] := by
    decide +kernel
  obtain ⟨typing, htyping, hwritten⟩ := (Grammar.TypePhrase.array rfl rfl ⟨rfl, rfl⟩ rfl rfl
    rfl).exists_written htype (List.Subset.refl _)
  have hvalue : Grammar.Initializer (some ⟨"int", 1⟩) (.array ⟨"int", 1, [.int k]⟩)
      [⟨.leftBracket, .text "[", {}⟩, ⟨.number, .number (.int k), {}⟩,
        ⟨.rightBracket, .text "]", {}⟩] :=
    .operand (.array rfl (.number ⟨rfl, rfl⟩ .nil) rfl)
  have htext : (Expr.array ⟨"int", 1, [.int k]⟩).text = "[" ++ toString k ++ "]" := rfl
  have hwrittenValue : Written ("[" ++ toString k ++ "]").toList
      [⟨.leftBracket, .text "[", {}⟩, ⟨.number, .number (.int k), {}⟩,
        ⟨.rightBracket, .text "]", {}⟩] := by
    rw [String.toList_append, String.toList_append, List.append_assoc]
    have hclosing : Written [']'] [⟨.rightBracket, .text "]", {}⟩] := .spelled rfl rfl rfl .nil
    exact .spelled rfl rfl rfl
      (.token (standalone_int hlow hhigh {}) (by simp [isBreak, isMark]) hclosing)
  have hword : "[" ++ "i32" ++ "; " ++ toString 1 ++ "]" = "[i32; 1]" := by decide +kernel
  have hsuits : Grammar.Suits .array (.array ⟨"int", 1, [.int k]⟩) := by
    simp [Grammar.Suits, Number.isFloat]
  have hcompile := Grammar.exists_compile_declare htyping hwritten hvalue hwrittenValue hsuits
    (fun _ => congrArg Except.ok hword) indent
  have hopening : "fuzzy " ++ VarType.array.spelling (some ⟨"int", 1⟩) ++ " v = " ++ "[" =
      "fuzzy array[int;1] v = [" := by
    decide +kernel
  rw [htext, ← String.append_assoc, ← String.append_assoc, hopening] at hcompile
  exact hcompile

end

/-- **Integers.** An integer that a compiled program declares with 32 bits, alone or in an array, is
a number of the source and has 64 bits. No more can be said: each integer of 64 bits is compiled as
it is, under the type of 32 bits, alone and in an array. -/
theorem compile_integers {indent source : String} {c : Compilation}
    (h : compile indent source = .ok c) :
    (∃ o lines, Outline.ofEntries c.entries = .ok o ∧ programLines o = .ok lines ∧
      c.output = render indent lines ∧
      List.Forall₂ (fun row line => row.Written line.text ∧
        ∀ name type value, row = .statement (.declare name type value) →
          ∃ word, line.text = "let " ++ name ++ ": " ++ word ++ " = " ++ value.text ++ ";" ∧
            ∀ k, value.Holds word k → (∃ t ∈ c.tokens, Grammar.Counted (.int k) t) ∧
              -2 ^ (63 : Nat) ≤ k ∧ k ≤ 2 ^ (63 : Nat) - 1) o.rows lines) ∧
    ∀ k : Int, -2 ^ (63 : Nat) ≤ k → k ≤ 2 ^ (63 : Nat) - 1 →
      (∃ d, compile indent ("fuzzy int v = " ++ toString k) = .ok d ∧
        d.output = declared indent "i32" (toString k)) ∧
      ∃ d, compile indent ("fuzzy array[int;1] v = [" ++ toString k ++ "]") = .ok d ∧
        d.output = declared indent "[i32; 1]" ("[" ++ toString k ++ "]") := by
  refine ⟨?_, fun k hlow hhigh => ⟨?_, ?_⟩⟩
  · obtain ⟨o, lines, ho, hlines, houtput, hspells, hphrases⟩ := exists_spells_of_compile h
    refine ⟨o, lines, ho, hlines, houtput, hspells.forall₂ ?_⟩
    rintro row hrow line hwritten name type value rfl
    obtain ⟨location, htext⟩ := hwritten
    obtain ⟨phrase, hphrase, hsub⟩ := hphrases name type value hrow
    obtain ⟨word, -, htext⟩ := Row.bindingText_eq_ok htext
    refine ⟨word, htext, fun k hk => ?_⟩
    obtain ⟨t, ht, hcounted⟩ := hphrase.exists_counted (.int k) hk.mem_numbers
    exact ⟨⟨t, hsub ht, hcounted⟩,
      bounds_of_tokenize (compile_eq_ok h).1 (hsub ht) hcounted.2⟩
  · exact exists_compile_int hlow hhigh indent
  · exact exists_compile_array hlow hhigh indent

/-- The greatest integer of 32 bits. -/
def greatest : String := "fuzzy int x = 2147483647"

def greatestCompiled : Compilation where
  tokens := [⟨.declare, .text "fuzzy", ⟨1, 1⟩⟩, ⟨.identifier, .text "int", ⟨1, 7⟩⟩,
    ⟨.identifier, .text "x", ⟨1, 11⟩⟩, ⟨.equals, .text "=", ⟨1, 13⟩⟩,
    ⟨.number, .number (.int 2147483647), ⟨1, 15⟩⟩]
  entries := [⟨.declare "x" .int (.number (.int 2147483647)), ⟨0, 5⟩, ⟨1, 1⟩⟩]
  output := "fn main() \x7b\nlet x: i32 = 2147483647;\n\x7d\n"

/-- It is a number of the source, and no bound for those of others. -/
theorem compile_integers_greatest :
    compile "" greatest = .ok greatestCompiled ∧
      (∃ o lines, Outline.ofEntries greatestCompiled.entries = .ok o ∧
        programLines o = .ok lines ∧ greatestCompiled.output = render "" lines ∧
        List.Forall₂ (fun row line => row.Written line.text ∧
          ∀ name type value, row = .statement (.declare name type value) →
            ∃ word, line.text = "let " ++ name ++ ": " ++ word ++ " = " ++ value.text ++ ";" ∧
              ∀ k, value.Holds word k →
                (∃ t ∈ greatestCompiled.tokens, Grammar.Counted (.int k) t) ∧
                -2 ^ (63 : Nat) ≤ k ∧ k ≤ 2 ^ (63 : Nat) - 1) o.rows lines) ∧
      ∃ d, compile ""
          ("fuzzy array[int;1] v = [" ++ toString (2 ^ (63 : Nat) - 1 : Int) ++ "]") = .ok d ∧
        d.output = declared "" "[i32; 1]" ("[" ++ toString (2 ^ (63 : Nat) - 1 : Int) ++ "]") := by
  have hcompile : compile "" greatest = .ok greatestCompiled := by decide +kernel
  obtain ⟨hlines, hall⟩ := compile_integers hcompile
  exact ⟨hcompile, hlines, (hall (2 ^ (63 : Nat) - 1) (by decide) (by decide)).2⟩

/-- The least integer that 32 bits do not hold. -/
def tooGreat : String := "fuzzy int x = 2147483648;"

/-- It is accepted, and written under a type of 32 bits. -/
theorem tooGreat_accepted :
    ∃ c, compile Compilation.defaultIndent tooGreat = .ok c ∧
      c.entries.map (·.node) = [.declare "x" .int (.number (.int (2 ^ (31 : Nat))))] ∧
      c.output = "fn main() \x7b\n    let x: i32 = 2147483648;\n\x7d\n" := by
  refine ⟨⟨[⟨.declare, .text "fuzzy", ⟨1, 1⟩⟩, ⟨.identifier, .text "int", ⟨1, 7⟩⟩,
      ⟨.identifier, .text "x", ⟨1, 11⟩⟩, ⟨.equals, .text "=", ⟨1, 13⟩⟩,
      ⟨.number, .number (.int 2147483648), ⟨1, 15⟩⟩, ⟨.semicolon, .text ";", ⟨1, 25⟩⟩],
    [⟨.declare "x" .int (.number (.int 2147483648)), ⟨0, 6⟩, ⟨1, 1⟩⟩],
    "fn main() \x7b\n    let x: i32 = 2147483648;\n\x7d\n"⟩, ?_, ?_, ?_⟩ <;> decide +kernel

end FuzzLang
