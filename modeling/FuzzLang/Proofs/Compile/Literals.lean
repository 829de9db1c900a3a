import FuzzLang.Proofs.Compile.Injective
import FuzzLang.Proofs.Grammar.Tiling
import Mathlib.Algebra.Group.Nat.Even
import Mathlib.Control.Monad.Basic
import Mathlib.Data.List.Induction

/-!
# Where string literals end

A string of a source ends at the first quote after the one that opens it. In the target language a
backslash takes the character after it along, so that a quote may be taken and does not end the
literal (`afterLiteral?`). Strings are copied as they are. A copy ends at its last quote if the
number of backslashes right before that quote is even; if it is odd, the literal does not even end
on its line (`compile_literals`).
-/

namespace FuzzLang

open Token Target

/-! ## The rule of the target language -/

/-- What comes after a string literal, once its opening quote has been read. A character that is
taken by the backslash before it neither ends the literal nor takes another. -/
def afterQuote? (taken : Bool) : List Char → Option (List Char)
  | [] => none
  | c :: cs =>
    if taken then afterQuote? false cs
    else if c = '"' then some cs
    else afterQuote? (c = '\\') cs

/-- What comes after the string literal that a text begins with. -/
def afterLiteral? : List Char → Option (List Char)
  | [] => none
  | c :: cs => if c = '"' then afterQuote? false cs else none

/-- Whether the character after these is taken. -/
def takes (taken : Bool) (cs : List Char) : Bool :=
  cs.foldl (fun taken c => !taken && c = '\\') taken

/-- Characters that are no quotes are passed over. -/
theorem afterQuote?_append {cs : List Char} (h : '"' ∉ cs) (taken : Bool) (rest : List Char) :
    afterQuote? taken (cs ++ rest) = afterQuote? (takes taken cs) rest := by
  induction cs generalizing taken with
  | nil => rfl
  | cons c cs ih =>
    obtain ⟨hc, hcs⟩ := List.ne_and_not_mem_of_not_mem_cons h
    rw [List.cons_append, afterQuote?]
    cases taken with
    | true =>
      rw [if_pos rfl]
      exact ih hcs false
    | false =>
      rw [if_neg (by simp), if_neg hc.symm]
      exact ih hcs (c = '\\')

theorem length_lt_of_afterQuote? {taken : Bool} {cs rest : List Char}
    (h : afterQuote? taken cs = some rest) : rest.length < cs.length := by
  induction cs generalizing taken with
  | nil => cases h
  | cons c cs ih =>
    rw [afterQuote?] at h
    split_ifs at h
    · exact Nat.lt_succ_of_lt (ih h)
    · cases h
      exact Nat.lt_succ_self _
    · exact Nat.lt_succ_of_lt (ih h)

/-- How many backslashes a text ends with. -/
def backslashesAtEnd (cs : List Char) : Nat := (cs.reverse.takeWhile (· = '\\')).length

theorem backslashesAtEnd_concat (cs : List Char) (c : Char) :
    backslashesAtEnd (cs ++ [c]) = if c = '\\' then backslashesAtEnd cs + 1 else 0 := by
  unfold backslashesAtEnd
  rw [List.reverse_append, List.reverse_singleton, List.singleton_append, List.takeWhile_cons]
  by_cases hc : c = '\\'
  · simp [hc]
  · simp [hc]

/-- Backslashes in a row take each other in pairs. -/
theorem takes_eq_false_iff (cs : List Char) :
    takes false cs = false ↔ Even (backslashesAtEnd cs) := by
  induction cs using List.reverseRecOn with
  | nil => simp [takes, backslashesAtEnd]
  | append_singleton cs c ih =>
    have hstep : takes false (cs ++ [c]) = (!takes false cs && decide (c = '\\')) := by
      simp [takes]
    rw [hstep, backslashesAtEnd_concat]
    by_cases hc : c = '\\'
    · rw [if_pos hc, Nat.even_add_one, ← ih]
      simp [hc]
    · simp [hc]

/-- How many backslashes stand right before the last character of a text. -/
def closingBackslashes (s : String) : Nat := backslashesAtEnd s.toList.dropLast

theorem afterLiteral?_append {s : String} (h : IsQuoted s) (rest : List Char) :
    afterLiteral? (s.toList ++ rest) =
      if Even (closingBackslashes s) then some rest else afterQuote? false rest := by
  obtain ⟨body, hs, hbody⟩ := h
  have hquote : '"' ∉ body := fun hc => (hbody _ hc).1 rfl
  have hlast : s.toList.dropLast = '"' :: body := by
    rw [hs, ← List.cons_append, List.dropLast_concat]
  -- the opening quote takes nothing
  have htakes : takes false body = takes false s.toList.dropLast := by
    rw [hlast]
    rfl
  rw [hs, List.cons_append, List.append_assoc, afterLiteral?, if_pos rfl, afterQuote?_append hquote,
    htakes, closingBackslashes]
  by_cases heven : Even (backslashesAtEnd s.toList.dropLast)
  · rw [if_pos heven, (takes_eq_false_iff _).2 heven]
    rfl
  · rw [if_neg heven, eq_true_of_ne_false fun hf => heven ((takes_eq_false_iff _).1 hf)]
    rfl

/-- A literal ends at its last quote just if the backslashes before that take each other. -/
theorem afterLiteral?_eq_some_iff {s : String} (h : IsQuoted s) (rest : List Char) :
    afterLiteral? (s.toList ++ rest) = some rest ↔ Even (closingBackslashes s) := by
  rw [afterLiteral?_append h]
  by_cases heven : Even (closingBackslashes s)
  · rw [if_pos heven]
    exact iff_of_true rfl heven
  · rw [if_neg heven]
    refine iff_of_false (fun hrest => ?_) heven
    exact Nat.lt_irrefl _ (length_lt_of_afterQuote? hrest)

/-- A literal whose last quote is taken goes on through the rest of its line. -/
theorem length_lt_of_afterLiteral? {s : String} (h : IsQuoted s)
    (hodd : ¬ Even (closingBackslashes s)) {after rest later : List Char} (ha : '"' ∉ after)
    (hlater : afterLiteral? (s.toList ++ (after ++ '\n' :: rest)) = some later) :
    later.length < rest.length := by
  have hline : '"' ∉ after ++ ['\n'] := by simp [ha]
  rw [afterLiteral?_append h, if_neg hodd, ← List.singleton_append, ← List.append_assoc,
    afterQuote?_append hline] at hlater
  exact length_lt_of_afterQuote? hlater

/-! ## Texts with one literal -/

/-- The text of a string token, or the format that values are printed with. -/
def Copied (ts : List Token) (s : String) : Prop :=
  s = "\"\x7b\x7d\"" ∨ ∃ t ∈ ts, t.kind = .string ∧ t.lexeme = .text s

/-- A text without quotes, or with those of one literal only. -/
inductive Quoting (ts : List Token) : List Char → Prop
  | code {cs : List Char} : '"' ∉ cs → Quoting ts cs
  | literal {s : String} {before after : List Char} :
    '"' ∉ before → IsQuoted s → Copied ts s → '"' ∉ after →
    Quoting ts (before ++ (s.toList ++ after))

theorem Quoting.around {ts : List Token} {cs before after : List Char} (h : Quoting ts cs)
    (hb : '"' ∉ before) (ha : '"' ∉ after) : Quoting ts (before ++ (cs ++ after)) := by
  cases h with
  | code hcs =>
    refine .code ?_
    simp [hb, hcs, ha]
  | @literal s left right hleft hs hcopied hright =>
    have htext : before ++ (left ++ (s.toList ++ right) ++ after) =
        (before ++ left) ++ (s.toList ++ (right ++ after)) := by
      simp
    rw [htext]
    refine .literal ?_ hs hcopied ?_
    · simp [hb, hleft]
    · simp [hright, ha]

theorem Token.IsName.quote_not_mem {s : String} (h : IsName s) : '"' ∉ s.toList := by
  intro hc
  cases h.rest_of_mem hc

theorem Number.quote_not_mem (n : Number) : '"' ∉ n.text.toList := by
  rcases n.isFinite_or_named with hn | hn | hn | hn
  · intro hc
    cases isNumeral_of_mem_text hn hc
  all_goals simp [hn]

theorem Expr.quote_not_mem_values (ns : List Number) :
    '"' ∉ (", ".intercalate (ns.map Number.text)).toList := by
  cases ns with
  | nil => simp
  | cons n ns =>
    rw [toList_intercalate]
    simp [laterValues, Number.quote_not_mem]

/-! ## Statements of a source -/

namespace Grammar

section

variable {ts : List Token} (hlexed : ∀ t ∈ ts, t.Lexed)

include hlexed

theorem Named.quote_not_mem {s : String} {t : Token} (h : Named s t) (ht : t ∈ ts) :
    '"' ∉ s.toList :=
  (h.isName (hlexed t ht)).quote_not_mem

theorem Atom.quote_not_mem {e : Expr} {t : Token} (h : Atom e t) (ht : t ∈ ts) :
    '"' ∉ e.text.toList := by
  cases h with
  | name hs => exact hs.quote_not_mem hlexed ht
  | number => exact Number.quote_not_mem _

theorem Operand.quoting {shape : Option Shape} {e : Expr} {vs : List Token}
    (h : Operand shape e vs) (hvs : vs ⊆ ts) : Quoting ts e.text.toList := by
  cases h with
  | name hs => exact .code (hs.quote_not_mem hlexed (hvs List.mem_cons_self))
  | number => exact .code (Number.quote_not_mem _)
  | @string _ s t hs =>
    have ht := hvs List.mem_cons_self
    have hquoting : Quoting ts ([] ++ (s.toList ++ [])) :=
      .literal (by simp) (hs.isQuoted (hlexed t ht)) (.inr ⟨t, ht, hs⟩) (by simp)
    rwa [List.nil_append, List.append_nil] at hquoting
  | call hs _ ha _ =>
    have hname := hs.quote_not_mem hlexed (hvs List.mem_cons_self)
    have hargument := ha.quote_not_mem hlexed (hvs (by simp))
    refine .code ?_
    simp [Expr.text, hname, hargument]
  | @array _ ns =>
    have hvalues := Expr.quote_not_mem_values ns
    refine .code ?_
    simpa [Expr.text] using hvalues

theorem Initializer.quoting {shape : Option Shape} {e : Expr} {vs : List Token}
    (h : Initializer shape e vs) (hvs : vs ⊆ ts) : Quoting ts e.text.toList := by
  cases h with
  | operand ho => exact ho.quoting hlexed hvs
  | @binary left right o vs sign last ho _ _ ha =>
    obtain ⟨hvs, hends⟩ := List.append_subset.1 hvs
    have hright := ha.quote_not_mem hlexed (hends (by simp))
    have hsymbol : '"' ∉ o.symbol.toList := by cases o <;> simp [Operator.symbol]
    rw [Expr.toList_text_binary]
    refine (ho.quoting hlexed hvs).around List.not_mem_nil ?_
    simp [hsymbol, hright]

/-- The line of a statement has at most one literal. -/
theorem Phrase.quoting {node : Node} {vs : List Token} (h : Phrase node vs) (hvs : vs ⊆ ts)
    {text : String} (hw : (Row.statement node).Written text) : Quoting ts text.toList := by
  cases h with
  | @declare _ name _ type _ s e typing value _ _ hs _ hv _ =>
    obtain ⟨_, hw⟩ := hw
    obtain ⟨word, hword, rfl⟩ := Row.bindingText_eq_ok hw
    have hname := hs.quote_not_mem hlexed (hvs (by simp))
    have htype := hword.not_mem '"' (by simp)
    have hvalue := hv.quoting hlexed fun t ht => hvs (by simp [ht])
    have hbefore : '"' ∉ ("let " ++ s ++ ": " ++ word ++ " = ").toList := by
      simp [hname, htype]
    have hline : Quoting ts
        (("let " ++ s ++ ": " ++ word ++ " = ").toList ++ (e.text.toList ++ ";".toList)) :=
      hvalue.around hbefore (by simp)
    rwa [← String.toList_append, ← String.toList_append, ← String.append_assoc] at hline
  | loop _ hx _ hxs _ =>
    have helement := hx.quote_not_mem hlexed (hvs (by simp))
    have hcollection := hxs.quote_not_mem hlexed (hvs (by simp))
    subst hw
    refine .code ?_
    simp [helement, hcollection]
  | endLoop =>
    subst hw
    exact .code (by simp)
  | function _ hf _ hx =>
    obtain ⟨_, hw⟩ := hw
    obtain ⟨input, output, hinput, houtput, rfl⟩ := Row.headerText_eq_ok hw
    have hname := hf.quote_not_mem hlexed (hvs (by simp))
    have hargument := hx.quote_not_mem hlexed (hvs (by simp))
    have hi := not_mem_scalarWord hinput '"' (by simp)
    have ho := not_mem_scalarWord houtput '"' (by simp)
    refine .code ?_
    simp [hname, hargument, hi, ho]
  | result _ ha | resultTerminated _ ha =>
    have hvalue := ha.quote_not_mem hlexed (hvs (by simp))
    subst hw
    refine .code ?_
    simp [hvalue]
  | @print _ _ _ _ e _ _ ha =>
    have hvalue := ha.quote_not_mem hlexed (hvs (by simp))
    have hformat : IsQuoted "\"\x7b\x7d\"" := ⟨['\x7b', '\x7d'], rfl, by simp⟩
    have hline : Quoting ts ("println!(".toList ++
        ("\"\x7b\x7d\"".toList ++ (", " ++ e.text ++ ");").toList)) :=
      .literal (by simp) hformat (.inl rfl) (by simp [hvalue])
    subst hw
    simpa using hline

end

end Grammar

/-! ## Compiling -/

/-- Each line of a compiled program has at most one literal. -/
theorem quoting_of_compile {indent source : String} {c : Compilation}
    (h : compile indent source = .ok c) :
    ∃ o lines, Outline.ofEntries c.entries = .ok o ∧ programLines o = .ok lines ∧
      c.output = render indent lines ∧ ∀ line ∈ lines, Quoting c.tokens line.text.toList := by
  obtain ⟨htokens, hentries, o, ho, hw⟩ := compile_eq_ok h
  obtain ⟨lines, hlines, houtput⟩ := exists_lines_of_write hw
  refine ⟨o, lines, ho, hlines, houtput, fun line hline => ?_⟩
  obtain ⟨row, hrow, hwritten⟩ := (spells_rows hlines).exists_row line hline
  cases row with
  | main =>
    refine .code ?_
    rw [show line.text = _ from hwritten]
    simp
  | statement node =>
    rcases Outline.mem_rows ho hrow with rfl | ⟨e, he, rfl⟩
    · refine .code ?_
      rw [show line.text = _ from hwritten]
      simp
    · obtain ⟨phrase, hphrase, hsub⟩ := Grammar.exists_phrase_of_parse hentries he
      exact hphrase.quoting (fun t ht => lexed_of_tokenize htokens ht) hsub hwritten

/-- **Literals.** A line of a compiled program has no quotes but those of one literal, which is a
string of the source as it stands there, or the format that values are printed with. Whatever
follows, the literal ends at its last quote just if an even number of backslashes stands before it.
Otherwise the rest of its line is part of it. -/
theorem compile_literals {indent source : String} {c : Compilation}
    (h : compile indent source = .ok c) :
    ∃ o lines, Outline.ofEntries c.entries = .ok o ∧ programLines o = .ok lines ∧
      c.output = render indent lines ∧
      ∀ line ∈ lines, '"' ∉ line.text.toList ∨
        ∃ before literal after, line.text.toList = before ++ (literal.toList ++ after) ∧
          '"' ∉ before ∧ IsQuoted literal ∧ Copied c.tokens literal ∧ '"' ∉ after ∧
          (∀ rest, afterLiteral? (literal.toList ++ (after ++ rest)) = some (after ++ rest) ↔
            Even (closingBackslashes literal)) ∧
          (¬ Even (closingBackslashes literal) → ∀ rest later,
            afterLiteral? (literal.toList ++ (after ++ '\n' :: rest)) = some later →
              later.length < rest.length) := by
  obtain ⟨o, lines, ho, hlines, houtput, hquoting⟩ := quoting_of_compile h
  refine ⟨o, lines, ho, hlines, houtput, fun line hline => ?_⟩
  have hline := hquoting line hline
  generalize line.text.toList = text at hline
  cases hline with
  | code hcs => exact .inl hcs
  | @literal s before after hbefore hs hcopied hafter =>
    refine .inr ⟨before, s, after, rfl, hbefore, hs, hcopied, hafter, fun rest => ?_, ?_⟩
    · exact afterLiteral?_eq_some_iff hs (after ++ rest)
    · intro hodd rest later hlater
      exact length_lt_of_afterLiteral? hs hodd hafter hlater

/-- A string of two backslashes and a string of one. -/
def backslashes : String := "fuzzy string s=\"\\\\\"fuzzy string t=\"\\\""

def backslashesCompiled : Compilation where
  tokens := [⟨.declare, .text "fuzzy", ⟨1, 1⟩⟩, ⟨.identifier, .text "string", ⟨1, 7⟩⟩,
    ⟨.identifier, .text "s", ⟨1, 14⟩⟩, ⟨.equals, .text "=", ⟨1, 15⟩⟩,
    ⟨.string, .text "\"\\\\\"", ⟨1, 16⟩⟩, ⟨.declare, .text "fuzzy", ⟨1, 20⟩⟩,
    ⟨.identifier, .text "string", ⟨1, 26⟩⟩, ⟨.identifier, .text "t", ⟨1, 33⟩⟩,
    ⟨.equals, .text "=", ⟨1, 34⟩⟩, ⟨.string, .text "\"\\\"", ⟨1, 35⟩⟩]
  entries := [⟨.declare "s" .string (.string "\"\\\\\""), ⟨0, 5⟩, ⟨1, 1⟩⟩,
    ⟨.declare "t" .string (.string "\"\\\""), ⟨5, 10⟩, ⟨1, 20⟩⟩]
  output := "fn main() \x7b\n let s: &str = \"\\\\\";\n let t: &str = \"\\\";\n\x7d\n"

/-- The first literal ends with its line and the second does not. -/
theorem compile_literals_backslashes :
    compile " " backslashes = .ok backslashesCompiled ∧
      Even (closingBackslashes "\"\\\\\"") ∧ ¬ Even (closingBackslashes "\"\\\"") ∧
      ∃ o lines, Outline.ofEntries backslashesCompiled.entries = .ok o ∧
        programLines o = .ok lines ∧ backslashesCompiled.output = render " " lines ∧
        ∀ line ∈ lines, '"' ∉ line.text.toList ∨
          ∃ before literal after, line.text.toList = before ++ (literal.toList ++ after) ∧
            '"' ∉ before ∧ IsQuoted literal ∧ Copied backslashesCompiled.tokens literal ∧
            '"' ∉ after ∧
            (∀ rest, afterLiteral? (literal.toList ++ (after ++ rest)) = some (after ++ rest) ↔
              Even (closingBackslashes literal)) ∧
            (¬ Even (closingBackslashes literal) → ∀ rest later,
              afterLiteral? (literal.toList ++ (after ++ '\n' :: rest)) = some later →
                later.length < rest.length) := by
  have hcompile : compile " " backslashes = .ok backslashesCompiled := by decide +kernel
  exact ⟨hcompile, by decide +kernel, by decide +kernel, compile_literals hcompile⟩

/-- A string that ends in a backslash. -/
def trailingBackslash : String := "fuzzy string s = \"a\\\";"

/-- Its copy takes its own last quote along, and nothing after it ends the literal. -/
theorem trailingBackslash_unended :
    ∃ c, compile Compilation.defaultIndent trailingBackslash = .ok c ∧
      ⟨.string, .text "\"a\\\"", ⟨1, 18⟩⟩ ∈ c.tokens ∧
      c.output = "fn main() \x7b\n    let s: &str = " ++ "\"a\\\"" ++ ";\n\x7d\n" ∧
      afterLiteral? ("\"a\\\"" ++ ";\n\x7d\n").toList = none := by
  refine ⟨⟨[⟨.declare, .text "fuzzy", ⟨1, 1⟩⟩, ⟨.identifier, .text "string", ⟨1, 7⟩⟩,
      ⟨.identifier, .text "s", ⟨1, 14⟩⟩, ⟨.equals, .text "=", ⟨1, 16⟩⟩,
      ⟨.string, .text "\"a\\\"", ⟨1, 18⟩⟩, ⟨.semicolon, .text ";", ⟨1, 22⟩⟩],
    [⟨.declare "s" .string (.string "\"a\\\""), ⟨0, 6⟩, ⟨1, 1⟩⟩],
    "fn main() \x7b\n    let s: &str = \"a\\\";\n\x7d\n"⟩, ?_, ?_, ?_, ?_⟩ <;> decide +kernel

end FuzzLang
