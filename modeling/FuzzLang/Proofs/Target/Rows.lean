import FuzzLang.Proofs.Target.Lines
import FuzzLang.Proofs.Target.Readable

/-!
# Rows of a written program

Each line of a written program is a row: a statement, the brace that closes a function or a loop, or
the line that opens `main`. Rows of a program that are written the same are the same
(`Row.Written.inj`): the first two characters tell most sorts of rows apart, and the words of a row
end where its punctuation begins.
-/

namespace FuzzLang

open Token

/-! ## Statements of a program -/

/-- A value and the type of the variable it initialises. Array literals belong to arrays. -/
inductive Initial : VarType → Expr → Prop
  | scalar {type : VarType} {value : Expr} : type ≠ .array → value.Scalar → Initial type value
  | array {literal : ArrayLiteral} :
    (∀ n ∈ literal.values, n.IsFinite) → Initial .array (.array literal)

theorem Initial.eq_of_text_eq {type : VarType} {v w : Expr} (hv : Initial type v)
    (hw : Initial type w) (h : v.text = w.text)
    (harray : ∀ a b, v = .array a → w = .array b → type = .array →
      a.elementType = b.elementType ∧ a.length = b.length) : v = w := by
  cases hv with
  | scalar hne hv =>
    cases hw with
    | scalar _ hw => exact hv.text_inj hw h
    | array => exact absurd rfl hne
  | @array a ha =>
    cases hw with
    | scalar hne _ => exact absurd rfl hne
    | @array b hb =>
      obtain ⟨helement, hlength⟩ := harray a b rfl rfl rfl
      have hvalues := Expr.values_eq_of_text_eq ha hb h
      cases a
      cases b
      simp only at helement hlength hvalues
      rw [helement, hlength, hvalues]

theorem Initial.oneLine {type : VarType} {v : Expr} (h : Initial type v) : OneLine v.text := by
  cases h with
  | scalar _ hv => exact hv.oneLine
  | array ha => exact Expr.oneLine_array ha

/-- The words of a statement are words of a source, and its doubles are finite. -/
def Node.Plain : Node → Prop
  | .declare name type value => IsName name ∧ Initial type value
  | .loop element collection => IsName element ∧ IsName collection
  | .endLoop => True
  | .function s => IsName s.name ∧ IsName s.argument
  | .result value | .print value => value.Atomic

namespace Target

/-! ## Types -/

theorem scalarWord_eq_ok {name word : String} {location : Location} :
    scalarWord name location = .ok word ↔ scalarWord? name = some word := by
  unfold scalarWord
  cases scalarWord? name <;> simp

theorem scalarWord?_cases {name word : String} (h : scalarWord? name = some word) :
    (name = "int" ∧ word = "i32") ∨ (name = "float" ∧ word = "f32") ∨
      (name = "string" ∧ word = "&str") := by
  unfold scalarWord? at h
  split at h <;> cases h <;> simp

theorem scalarWord?_inj {a b word : String} (ha : scalarWord? a = some word)
    (hb : scalarWord? b = some word) : a = b := by
  rcases scalarWord?_cases ha with ⟨rfl, rfl⟩ | ⟨rfl, rfl⟩ | ⟨rfl, rfl⟩ <;>
    rcases scalarWord?_cases hb with ⟨rfl, h⟩ | ⟨rfl, h⟩ | ⟨rfl, h⟩ <;> simp_all

/-- The word for a scalar type has no characters that stand around types. -/
theorem not_mem_scalarWord {name word : String} (h : scalarWord? name = some word) :
    ∀ c ∈ ['=', ';', ')', '\n', '[', '"'], c ∉ word.toList := by
  rcases scalarWord?_cases h with ⟨_, rfl⟩ | ⟨_, rfl⟩ | ⟨_, rfl⟩ <;> simp

theorem name_injective {s t : VarType} (h : s.name = t.name) : s = t := by
  have := congrArg VarType.ofName? h
  simpa using this

/-- How the type of a variable is written. -/
inductive Typing : VarType → Expr → String → Prop
  | scalar {type : VarType} {value : Expr} {word : String} :
    type ≠ .array → scalarWord? type.name = some word → Typing type value word
  | array {literal : ArrayLiteral} {word text : String} :
    scalarWord? literal.elementType = some word →
    text = "[" ++ word ++ "; " ++ toString literal.length ++ "]" →
    Typing .array (.array literal) text

theorem typing_of_writtenType {b : Binding} {word : String} (h : writtenType b = .ok word) :
    Typing b.type b.value word := by
  obtain ⟨name, type, value, location⟩ := b
  revert h
  fun_cases writtenType with
  | case1 literal ht hv =>
    intro h
    simp only at ht hv
    subst ht hv
    unfold arrayType at h
    split at h
    · cases h
    · rename_i w hw
      cases h
      exact .array (scalarWord_eq_ok.1 hw) rfl
  | case2 => exact fun h => nomatch h
  | case3 hne _ => exact fun h => .scalar hne (scalarWord_eq_ok.1 h)

theorem not_mem_toDigits {c : Char} (hc : c.isDigit = false) (n : Nat) :
    c ∉ Nat.toDigits 10 n := by
  intro h
  rw [isDigit_of_mem_toDigits h] at hc
  cases hc

theorem ne_of_not_mem {c : Char} {s : String} (h : c ∉ s.toList) : ∀ d ∈ s.toList, d ≠ c := by
  rintro d hd rfl
  exact h hd

namespace Typing

variable {s t : VarType} {v w : Expr} {text : String}

/-- A written type has no characters that end it, and no quotes. -/
theorem not_mem (h : Typing t v text) : ∀ c ∈ ['=', '\n', '"'], c ∉ text.toList := by
  cases h with
  | scalar _ hword =>
    have hc := not_mem_scalarWord hword
    simp only [List.forall_mem_cons] at hc ⊢
    exact ⟨hc.1, hc.2.2.2.1, hc.2.2.2.2.2.1, by simp⟩
  | @array literal _ _ hword heq =>
    subst heq
    have hc := not_mem_scalarWord hword
    simp only [List.forall_mem_cons] at hc ⊢
    refine ⟨?_, ?_, ?_, by simp⟩
    · simp [hc.1, not_mem_toDigits]
    · simp [hc.2.2.2.1, not_mem_toDigits]
    · simp [hc.2.2.2.2.2.1, not_mem_toDigits]

theorem scalar_ne_array {name word w : String} {n : Nat} (h : scalarWord? name = some word) :
    word ≠ "[" ++ w ++ "; " ++ toString n ++ "]" := by
  rintro rfl
  have := not_mem_scalarWord h '[' (by simp)
  simp at this

/-- A written type says which type it is, and for arrays the element type and the length. -/
theorem inj (hs : Typing s v text) (ht : Typing t w text) :
    s = t ∧ ∀ a b, v = .array a → w = .array b → s = .array →
      a.elementType = b.elementType ∧ a.length = b.length := by
  cases hs with
  | scalar hne hword =>
    cases ht with
    | scalar _ hword' =>
      exact ⟨name_injective (scalarWord?_inj hword hword'), fun _ _ _ _ h => absurd h hne⟩
    | array _ heq => exact absurd heq (scalar_ne_array hword)
  | @array a _ _ hword heq =>
    cases ht with
    | scalar _ hword' => exact absurd heq (scalar_ne_array hword')
    | @array b _ _ hword' heq' =>
      refine ⟨rfl, ?_⟩
      rintro _ _ ⟨⟩ ⟨⟩ -
      have h := congrArg String.toList (heq.symm.trans heq')
      simp only [String.toList_append, String.reduceToList, List.cons_append, List.nil_append,
        List.append_assoc, List.cons.injEq, true_and] at h
      obtain ⟨hw, _, hn⟩ := run_cons_inj
        (ne_of_not_mem (not_mem_scalarWord hword ';' (by simp)))
        (ne_of_not_mem (not_mem_scalarWord hword' ';' (by simp))) (by simp) (by simp) h
      rw [String.toList_inj.1 hw] at hword
      refine ⟨scalarWord?_inj hword hword', ?_⟩
      have hlen := List.append_cancel_right (List.cons.inj hn).2
      rw [← digitsValue_toDigits a.length, ← digitsValue_toDigits b.length]
      exact congrArg digitsValue (Nat.toList_repr.symm.trans (hlen.trans Nat.toList_repr))

end Typing

/-! ## Rows -/

/-- A line of a written program. A brace that closes is the end of a loop. -/
inductive Row where
  | main
  | statement (node : Node)

namespace Row

def Plain : Row → Prop
  | .main => True
  | .statement node => node.Plain

/-- The text of a row. The place of a statement only shows in faults. -/
def Written (text : String) : Row → Prop
  | .main => text = "fn main() \x7b"
  | .statement (.declare name type value) =>
    ∃ location, bindingText ⟨name, type, value, location⟩ = .ok text
  | .statement (.loop element collection) =>
    text = "for " ++ element ++ " in " ++ collection ++ ".iter() \x7b"
  | .statement .endLoop => text = "\x7d"
  | .statement (.function s) => ∃ location, headerText s location = .ok text
  | .statement (.result value) => text = "return " ++ value.text ++ ";"
  | .statement (.print value) => text = "println!(\"\x7b\x7d\", " ++ value.text ++ ");"

variable {text : String} {r s : Row}

theorem bindingText_eq_ok {b : Binding} (h : bindingText b = .ok text) :
    ∃ word, Typing b.type b.value word ∧
      text = "let " ++ b.name ++ ": " ++ word ++ " = " ++ b.value.text ++ ";" := by
  unfold bindingText at h
  split at h
  · cases h
  · rename_i word hw
    cases h
    exact ⟨word, typing_of_writtenType hw, rfl⟩

theorem headerText_eq_ok {s : Signature} {location : Location}
    (h : headerText s location = .ok text) :
    ∃ input output, scalarWord? s.inputType = some input ∧ scalarWord? s.outputType = some output ∧
      text = "fn " ++ s.name ++ "(" ++ s.argument ++ ": " ++ input ++ ") -> " ++ output ++
        " \x7b" := by
  unfold headerText at h
  split at h
  · cases h
  · cases h
  · rename_i input output hi ho
    cases h
    exact ⟨input, output, scalarWord_eq_ok.1 hi, scalarWord_eq_ok.1 ho, rfl⟩

/-- The first two characters of a row. -/
def opening : Row → List Char
  | .main | .statement (.function _) => ['f', 'n']
  | .statement (.declare ..) => ['l', 'e']
  | .statement (.loop ..) => ['f', 'o']
  | .statement .endLoop => ['\x7d']
  | .statement (.result _) => ['r', 'e']
  | .statement (.print _) => ['p', 'r']

theorem Written.take_two (h : r.Written text) : text.toList.take 2 = r.opening := by
  cases r with
  | main => subst h; rfl
  | statement node =>
    cases node with
    | declare =>
      obtain ⟨_, h⟩ := h
      obtain ⟨word, _, rfl⟩ := bindingText_eq_ok h
      simp [opening]
    | function =>
      obtain ⟨_, h⟩ := h
      obtain ⟨_, _, _, _, rfl⟩ := headerText_eq_ok h
      simp [opening]
    | loop | endLoop | result | print => subst h; simp [opening]

theorem bindingText_inj {b c : Binding} (hb : IsName b.name) (hc : IsName c.name)
    (hvb : Initial b.type b.value) (hvc : Initial c.type c.value)
    (h₁ : bindingText b = .ok text) (h₂ : bindingText c = .ok text) :
    b.name = c.name ∧ b.type = c.type ∧ b.value = c.value := by
  obtain ⟨u, hu, rfl⟩ := bindingText_eq_ok h₁
  obtain ⟨w, hw, h⟩ := bindingText_eq_ok h₂
  replace h := congrArg String.toList h
  simp only [String.toList_append, String.reduceToList, List.cons_append, List.nil_append,
    List.append_assoc, List.cons.injEq, true_and] at h
  obtain ⟨hname, h⟩ := hb.append_inj hc (isNameRest_head? rfl _) (isNameRest_head? rfl _) h
  simp only [List.cons.injEq, true_and] at h
  -- the type ends before the first equals sign
  have hrun : (u ++ " ").toList ++ '=' :: ' ' :: (b.value.text.toList ++ [';']) =
      (w ++ " ").toList ++ '=' :: ' ' :: (c.value.text.toList ++ [';']) := by simpa using h
  have hnot {v : VarType} {e : Expr} {word : String} (h : Typing v e word) :
      '=' ∉ (word ++ " ").toList := by
    simp [h.not_mem '=' (by simp)]
  obtain ⟨hword, _, hvalue⟩ := run_cons_inj (ne_of_not_mem (hnot hu)) (ne_of_not_mem (hnot hw))
    (by simp) (by simp) hrun
  obtain rfl : u = w := String.append_left_inj _ |>.1 (String.toList_inj.1 hword)
  have hvalue : b.value.text = c.value.text :=
    String.toList_inj.1 (List.append_cancel_right (List.cons.inj hvalue).2)
  obtain ⟨htype, harray⟩ := hu.inj hw
  rw [htype] at hvb harray
  exact ⟨hname, htype, hvb.eq_of_text_eq hvc hvalue harray⟩

theorem headerText_inj {s t : Signature} {k l : Location} (hs : (Node.function s).Plain)
    (ht : (Node.function t).Plain) (h₁ : headerText s k = .ok text)
    (h₂ : headerText t l = .ok text) : s = t := by
  obtain ⟨a, b, ha, hb, rfl⟩ := headerText_eq_ok h₁
  obtain ⟨c, d, hc, hd, h⟩ := headerText_eq_ok h₂
  replace h := congrArg String.toList h
  simp only [String.toList_append, String.reduceToList, List.cons_append, List.nil_append,
    List.append_assoc, List.cons.injEq, true_and] at h
  obtain ⟨hname, h⟩ := hs.1.append_inj ht.1 (isNameRest_head? rfl _) (isNameRest_head? rfl _) h
  obtain ⟨hargument, h⟩ := hs.2.append_inj ht.2 (isNameRest_head? rfl _) (isNameRest_head? rfl _)
    (List.cons.inj h).2
  simp only [List.cons.injEq, true_and] at h
  obtain ⟨hinput, _, h⟩ := run_cons_inj (ne_of_not_mem (not_mem_scalarWord ha ')' (by simp)))
    (ne_of_not_mem (not_mem_scalarWord hc ')' (by simp))) (by simp) (by simp) h
  simp only [List.cons.injEq, true_and] at h
  have houtput := List.append_cancel_right h
  rw [String.toList_inj.1 hinput] at ha
  rw [String.toList_inj.1 houtput] at hb
  cases s
  cases t
  simp only [Signature.mk.injEq]
  exact ⟨hname, hargument, scalarWord?_inj ha hc, scalarWord?_inj hb hd⟩

/-- A function has an argument, `main` has none. -/
theorem headerText_ne_main {s : Signature} {location : Location} (hs : (Node.function s).Plain) :
    headerText s location ≠ .ok "fn main() \x7b" := by
  intro h
  obtain ⟨input, output, _, _, h⟩ := headerText_eq_ok h
  replace h := congrArg String.toList h
  have hmain : IsName "main" := ⟨'m', ['a', 'i', 'n'], rfl, rfl, List.all_eq_true.1 rfl⟩
  have hrun : "main".toList ++ '(' :: [')', ' ', '\x7b'] =
      s.name.toList ++ '(' :: (s.argument.toList ++ ':' :: ' ' :: (input.toList ++
        ')' :: ' ' :: '-' :: '>' :: ' ' :: (output.toList ++ [' ', '\x7b']))) := by
    simpa using h
  obtain ⟨_, h⟩ := hmain.append_inj hs.1 (isNameRest_head? rfl _) (isNameRest_head? rfl _) hrun
  obtain ⟨c, cs, hc, hstart, _⟩ := hs.2
  rw [hc] at h
  obtain rfl := (List.cons.inj (List.cons.inj h).2).1
  cases hstart

theorem loop_inj {x y xs ys : String} (hx : (Node.loop x xs).Plain) (hy : (Node.loop y ys).Plain)
    (h : "for " ++ x ++ " in " ++ xs ++ ".iter() \x7b" =
      "for " ++ y ++ " in " ++ ys ++ ".iter() \x7b") : x = y ∧ xs = ys := by
  replace h := congrArg String.toList h
  simp only [String.toList_append, String.reduceToList, List.cons_append, List.nil_append,
    List.append_assoc, List.cons.injEq, true_and] at h
  obtain ⟨helement, h⟩ := hx.1.append_inj hy.1 (isNameRest_head? rfl _) (isNameRest_head? rfl _) h
  simp only [List.cons.injEq, true_and] at h
  exact ⟨helement, String.toList_inj.1 (List.append_cancel_right h)⟩

theorem around_inj {left right : String} {v w : Expr} (hv : v.Atomic) (hw : w.Atomic)
    (h : left ++ v.text ++ right = left ++ w.text ++ right) : v = w :=
  hv.text_inj hw ((String.append_right_inj _).1 ((String.append_left_inj _).1 h))

/-- Rows with the same text are the same. -/
theorem Written.inj (hr : r.Written text) (hs : s.Written text) (pr : r.Plain) (ps : s.Plain) :
    r = s := by
  have hopening : r.opening = s.opening := hr.take_two.symm.trans hs.take_two
  cases r with
  | main =>
    cases s with
    | main => rfl
    | statement node =>
      cases node with
      | function =>
        obtain ⟨location, hs⟩ := hs
        subst hr
        exact absurd hs (headerText_ne_main ps)
      | _ => exact absurd hopening (by simp [opening])
  | statement m =>
    cases s with
    | main =>
      cases m with
      | function =>
        obtain ⟨location, hr⟩ := hr
        subst hs
        exact absurd hr (headerText_ne_main pr)
      | _ => exact absurd hopening (by simp [opening])
    | statement n =>
      cases m with
      | declare =>
        cases n with
        | declare =>
          obtain ⟨k, hr⟩ := hr
          obtain ⟨l, hs⟩ := hs
          obtain ⟨hname, htype, hvalue⟩ := bindingText_inj pr.1 ps.1 pr.2 ps.2 hr hs
          simp only at hname htype hvalue
          rw [hname, htype, hvalue]
        | _ => exact absurd hopening (by simp [opening])
      | loop =>
        cases n with
        | loop =>
          obtain ⟨hx, hxs⟩ := loop_inj pr ps (hr.symm.trans hs)
          rw [hx, hxs]
        | _ => exact absurd hopening (by simp [opening])
      | endLoop =>
        cases n with
        | endLoop => rfl
        | _ => exact absurd hopening (by simp [opening])
      | function =>
        cases n with
        | function =>
          obtain ⟨k, hr⟩ := hr
          obtain ⟨l, hs⟩ := hs
          rw [headerText_inj pr ps hr hs]
        | _ => exact absurd hopening (by simp [opening])
      | result =>
        cases n with
        | result => rw [around_inj pr ps (hr.symm.trans hs)]
        | _ => exact absurd hopening (by simp [opening])
      | print =>
        cases n with
        | print => rw [around_inj pr ps (hr.symm.trans hs)]
        | _ => exact absurd hopening (by simp [opening])

/-! ## Lines -/

theorem Written.oneLine (hr : r.Written text) (pr : r.Plain) : OneLine text := by
  unfold OneLine
  cases r with
  | main => subst hr; simp
  | statement node =>
    cases node with
    | declare name type value =>
      obtain ⟨_, h⟩ := hr
      obtain ⟨word, hword, rfl⟩ := bindingText_eq_ok h
      have hname : '\n' ∉ name.toList := pr.1.oneLine
      have hvalue : '\n' ∉ value.text.toList := pr.2.oneLine
      simp [hname, hvalue, hword.not_mem '\n' (by simp)]
    | function s =>
      obtain ⟨_, h⟩ := hr
      obtain ⟨input, output, hinput, houtput, rfl⟩ := headerText_eq_ok h
      have hname : '\n' ∉ s.name.toList := pr.1.oneLine
      have hargument : '\n' ∉ s.argument.toList := pr.2.oneLine
      have hi := not_mem_scalarWord hinput '\n' (by simp)
      have ho := not_mem_scalarWord houtput '\n' (by simp)
      simp [hname, hargument, hi, ho]
    | loop element collection =>
      have helement : '\n' ∉ element.toList := pr.1.oneLine
      have hcollection : '\n' ∉ collection.toList := pr.2.oneLine
      subst hr
      simp [helement, hcollection]
    | endLoop => subst hr; simp
    | result value | print value =>
      have hvalue : '\n' ∉ value.text.toList := Expr.Atomic.oneLine pr
      subst hr
      simp [hvalue]

/-- A row does not begin with a space, so its indentation can be told from it. -/
theorem Written.head_ne (hr : r.Written text) : ∀ c ∈ text.toList.head?, c ≠ ' ' := by
  have hhead : text.toList.head? = r.opening.head? := by
    rw [← hr.take_two, List.head?_take, if_neg (by decide)]
  rw [hhead]
  cases r with
  | main => simp [opening]
  | statement node => cases node <;> simp [opening]

end Row

end Target

end FuzzLang
