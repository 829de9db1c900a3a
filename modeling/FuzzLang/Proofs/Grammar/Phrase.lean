import FuzzLang.Grammar.Statement
import Mathlib.Data.List.Forall2

/-!
# The grammar as a relation

`Phrase node ts` says that the tokens `ts` spell the statement `node`, rule by rule and without
reference to how they are read. A token is known by its kind and, where the statement keeps a value
of it, by its lexeme; streams put together by hand may combine the two in any way.

A program is a row of segments, each a phrase with at most one semicolon after it (`Program`).
-/

namespace FuzzLang.Grammar

/-! ## Tokens that carry a value -/

/-- An identifier with its name. -/
def Named (s : String) (t : Token) : Prop := t.kind = .identifier ∧ t.lexeme = .text s

/-- A number token with its value. -/
def Counted (n : Number) (t : Token) : Prop := t.kind = .number ∧ t.lexeme = .number n

/-- A string literal with its text. -/
def Quoted (s : String) (t : Token) : Prop := t.kind = .string ∧ t.lexeme = .text s

/-- A name or a number, and the expression it stands for. -/
inductive Atom : Expr → Token → Prop
  | name {s : String} {t : Token} : Named s t → Atom (.variable s) t
  | number {n : Number} {t : Token} : Counted n t → Atom (.number n) t

/-! ## Declarations -/

/-- The numbers and commas between the brackets of an array literal. -/
inductive Items : List Number → List Token → Prop
  | nil : Items [] []
  | number {n : Number} {t : Token} {ns : List Number} {ts : List Token} :
    Counted n t → Items ns ts → Items (n :: ns) (t :: ts)
  | comma {t : Token} {ns : List Number} {ts : List Token} :
    t.kind = .comma → Items ns ts → Items ns (t :: ts)

theorem Items.exists_counted {ns : List Number} {ts : List Token} (h : Items ns ts) :
    ∀ n ∈ ns, ∃ t ∈ ts, Counted n t := by
  induction h with
  | nil => simp
  | @number n t ns ts hn _ ih =>
    refine List.forall_mem_cons.2 ⟨⟨t, List.mem_cons_self, hn⟩, fun m hm => ?_⟩
    obtain ⟨u, hu, hcounted⟩ := ih m hm
    exact ⟨u, List.mem_cons_of_mem t hu, hcounted⟩
  | @comma t ns ts _ _ ih =>
    intro m hm
    obtain ⟨u, hu, hcounted⟩ := ih m hm
    exact ⟨u, List.mem_cons_of_mem t hu, hcounted⟩

/-- A declared type, for arrays with the element type and the length. The word that names the type
and the length may be tokens of any kind. -/
inductive TypePhrase : VarType → Option Shape → List Token → Prop
  | scalar {type : VarType} {t : Token} :
    type ≠ .array → t.lexeme = .text type.name → TypePhrase type none [t]
  | array {word opening element separator length closing : Token} {s : String} {n : Nat} :
    word.lexeme = .text VarType.array.name → opening.kind = .leftBracket → Named s element →
    separator.kind = .semicolon → length.lexeme = .number (.int n) →
    closing.kind = .rightBracket →
    TypePhrase .array (some ⟨s, n⟩) [word, opening, element, separator, length, closing]

/-- An operand; only a declared shape admits an array literal. -/
inductive Operand : Option Shape → Expr → List Token → Prop
  | name {shape : Option Shape} {s : String} {t : Token} :
    Named s t → Operand shape (.variable s) [t]
  | call {shape : Option Shape} {s : String} {e : Expr}
      {t opening argument closing : Token} :
    Named s t → opening.kind = .leftParen → Atom e argument → closing.kind = .rightParen →
    Operand shape (.call s e) [t, opening, argument, closing]
  | number {shape : Option Shape} {n : Number} {t : Token} :
    Counted n t → Operand shape (.number n) [t]
  | string {shape : Option Shape} {s : String} {t : Token} :
    Quoted s t → Operand shape (.string s) [t]
  | array {s : String} {ns : List Number} {opening closing : Token} {ts : List Token} :
    opening.kind = .leftBracket → Items ns ts → closing.kind = .rightBracket →
    Operand (some ⟨s, ns.length⟩) (.array ⟨s, ns.length, ns⟩) (opening :: (ts ++ [closing]))

/-- Whether a value may initialise a variable of a type. Arrays need an array literal, and a literal
must be of the declared kind; anything that is not a literal suits every scalar type. -/
def Suits : VarType → Expr → Prop
  | .array, .array a =>
    (a.elementType = "int" → ∀ n ∈ a.values, n.isFloat = false) ∧
      (a.elementType = "float" → ∀ n ∈ a.values, n.isFloat = true)
  | .array, _ => False
  | .int, .number n => n.isFloat = false
  | .float, .number n => n.isFloat = true
  | .int, .string _ | .float, .string _ | .string, .number _ => False
  | _, _ => True

/-- An operand alone, or with an operator and a name or number after it. -/
inductive Initializer (shape : Option Shape) : Expr → List Token → Prop
  | operand {e : Expr} {ts : List Token} : Operand shape e ts → Initializer shape e ts
  | binary {left right : Expr} {o : Operator} {ts : List Token} {sign last : Token} :
    Operand shape left ts → sign.kind = .operator → sign.lexeme = .text o.symbol →
    Atom right last → Initializer shape (.binary left o right) (ts ++ [sign, last])

/-! ## Statements -/

/-- The tokens that spell a statement. -/
inductive Phrase : Node → List Token → Prop
  | declare {first name equals : Token} {type : VarType} {shape : Option Shape}
      {s : String} {e : Expr} {typing value : List Token} :
    first.kind = .declare → TypePhrase type shape typing → Named s name → equals.kind = .equals →
    Initializer shape e value → Suits type e →
    Phrase (.declare s type e) (first :: (typing ++ name :: equals :: value))
  | loop {first element keyword collection opening : Token} {x xs : String} :
    first.kind = .loop → Named x element → Named "in" keyword → Named xs collection →
    opening.kind = .leftBrace →
    Phrase (.loop x xs) [first, element, keyword, collection, opening]
  | endLoop {closing : Token} : closing.kind = .rightBrace → Phrase .endLoop [closing]
  | function {first name opening argument colon input closing arrow output body : Token}
      {f x a b : String} :
    first.kind = .function → Named f name → opening.kind = .leftParen → Named x argument →
    colon.kind = .colon → Named a input → closing.kind = .rightParen → arrow.kind = .arrow →
    Named b output → body.kind = .leftBrace →
    Phrase (.function ⟨f, x, a, b⟩)
      [first, name, opening, argument, colon, input, closing, arrow, output, body]
  | result {first value closing : Token} {e : Expr} :
    first.kind = .result → Atom e value → closing.kind = .rightBrace →
    Phrase (.result e) [first, value, closing]
  | resultTerminated {first value terminator closing : Token} {e : Expr} :
    first.kind = .result → Atom e value → terminator.kind = .semicolon →
    closing.kind = .rightBrace →
    Phrase (.result e) [first, value, terminator, closing]
  | print {first opening value closing : Token} {e : Expr} :
    first.kind = .print → opening.kind = .leftParen → Atom e value →
    closing.kind = .rightParen →
    Phrase (.print e) [first, opening, value, closing]

/-- The kinds of the tokens that begin a statement. -/
def openers : List Token.Kind := [.declare, .loop, .rightBrace, .function, .result, .print]

/-- A phrase begins with the keyword or brace of its statement. -/
theorem Phrase.exists_cons {node : Node} {ts : List Token} (h : Phrase node ts) :
    ∃ first later, ts = first :: later ∧ first.kind ∈ openers := by
  cases h <;> exact ⟨_, _, rfl, by simp_all [openers]⟩

/-- A phrase with at most one semicolon after it. -/
inductive Segment : Node → List Token → Prop
  | bare {node : Node} {ts : List Token} : Phrase node ts → Segment node ts
  | terminated {node : Node} {ts : List Token} {t : Token} :
    Phrase node ts → t.kind = .semicolon → Segment node (ts ++ [t])

theorem Segment.exists_cons {node : Node} {ts : List Token} (h : Segment node ts) :
    ∃ first later, ts = first :: later ∧ first.kind ∈ openers := by
  cases h with
  | bare hp => exact hp.exists_cons
  | @terminated _ t hp _ =>
    obtain ⟨first, later, rfl, hk⟩ := hp.exists_cons
    exact ⟨first, later ++ [t], rfl, hk⟩

theorem Segment.exists_phrase {node : Node} {ts : List Token} (h : Segment node ts) :
    ∃ phrase later, Phrase node phrase ∧ ts = phrase ++ later := by
  cases h with
  | bare hp => exact ⟨ts, [], hp, (List.append_nil ts).symm⟩
  | terminated hp _ => exact ⟨_, _, hp, rfl⟩

/-- The tokens of a program: one segment per statement, in order. -/
def Program (nodes : List Node) (ts : List Token) : Prop :=
  ∃ segments : List (List Token), List.Forall₂ Segment nodes segments ∧ segments.flatten = ts

end FuzzLang.Grammar
