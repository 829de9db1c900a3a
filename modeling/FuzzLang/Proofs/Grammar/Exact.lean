import FuzzLang.Grammar.Program
import FuzzLang.Proofs.Grammar.Phrase

/-!
# Reading accepts exactly the grammar

Soundness: what a rule reads is a phrase of the grammar. Completeness: a rule reads any phrase of
the grammar, provided that what follows cannot extend it (`Avoids`). A statement can only be
extended by an opening parenthesis, an operator or a semicolon, and no statement begins with one of
these; so both directions meet in `exists_parse_iff_program`.
-/

namespace FuzzLang.Grammar

open Rule

/-! ## When rules succeed -/

namespace Rule

variable {α β : Type} {ts rest : List Token}

theorem pure_eq_ok {a b : α} : (pure a : Rule α) ts = .ok (b, rest) ↔ a = b ∧ ts = rest := by
  rw [pure_apply, Except.ok.injEq, Prod.mk.injEq]

theorem bind_eq_ok {r : Rule α} {next : α → Rule β} {b : β} :
    (r >>= next) ts = .ok (b, rest) ↔
      ∃ a mid, r ts = .ok (a, mid) ∧ next a mid = .ok (b, rest) := by
  rw [bind_apply]
  constructor
  · intro h
    split at h
    · cases h
    · rename_i a mid hm
      exact ⟨a, mid, hm, h⟩
  · rintro ⟨a, mid, hm, h⟩
    rw [hm]
    exact h

theorem fail_eq_ok {fault : Fault} {a : α} : (fail fault : Rule α) ts = .ok (a, rest) ↔ False := by
  simp [fail]

theorem fill_eq_ok {slot : Slot} {read : Token → Option α} {a : α} :
    fill slot read ts = .ok (a, rest) ↔ ∃ t, ts = t :: rest ∧ read t = some a := by
  cases ts with
  | nil => simp [fill]
  | cons t ts =>
    rw [fill]
    cases hr : read t with
    | none => simp [hr]
    | some b => simp [hr, and_comm, eq_comm]

theorem expect_eq_ok {slot : Slot} {kind : Token.Kind} {u : Unit} :
    expect slot kind ts = .ok (u, rest) ↔ ∃ t, ts = t :: rest ∧ t.kind = kind := by
  rw [expect, fill_eq_ok]
  simp

/-- `rest` does not begin with a token of these kinds. -/
def Avoids (kinds : List Token.Kind) (rest : List Token) : Prop :=
  ∀ t ∈ rest.head?, t.kind ∉ kinds

theorem avoids_cons {kinds : List Token.Kind} {t : Token} :
    Avoids kinds (t :: rest) ↔ t.kind ∉ kinds := by
  simp [Avoids]

theorem Avoids.mono {kinds fewer : List Token.Kind} (h : Avoids kinds rest)
    (hs : fewer ⊆ kinds) : Avoids fewer rest :=
  fun t ht hk => h t ht (hs hk)

theorem accept_eq_ok {kind : Token.Kind} {b : Bool} :
    accept kind ts = .ok (b, rest) ↔
      (b = true ∧ ∃ t, ts = t :: rest ∧ t.kind = kind) ∨
        (b = false ∧ ts = rest ∧ Avoids [kind] rest) := by
  cases ts with
  | nil =>
    constructor
    · intro h
      cases h
      exact .inr ⟨rfl, rfl, by simp [Avoids]⟩
    · rintro (⟨_, t, ht, _⟩ | ⟨rfl, rfl, _⟩)
      · cases ht
      · rfl
  | cons t ts =>
    rw [accept]
    constructor
    · intro h
      split at h <;> cases h
      · rename_i hk
        exact .inl ⟨rfl, t, rfl, hk⟩
      · rename_i hk
        exact .inr ⟨rfl, rfl, by simpa [avoids_cons] using hk⟩
    · rintro (⟨rfl, t', ht, hk⟩ | ⟨rfl, rfl, hk⟩)
      · cases ht
        rw [if_pos hk]
      · rw [if_neg (by simpa [avoids_cons] using hk)]

end Rule

/-! ## Tokens that carry a value -/

theorem name?_eq_some {t : Token} {s : String} : t.name? = some s ↔ Named s t := by
  unfold Token.name? Named
  split <;> simp_all

theorem number?_eq_some {t : Token} {n : Number} : t.number? = some n ↔ Counted n t := by
  unfold Token.number? Counted
  split <;> simp_all

theorem atom?_eq_some {t : Token} {e : Expr} : atom? t = some e ↔ Atom e t := by
  unfold atom?
  constructor
  · intro h
    split at h
    · rename_i s hs
      cases h
      exact .name (name?_eq_some.1 hs)
    · rename_i n _ hn
      cases h
      exact .number (number?_eq_some.1 hn)
    · cases h
  · intro h
    cases h with
    | name h => rw [name?_eq_some.2 h]
    | number h =>
      have hn : t.name? = none := by simp [Token.name?, h.1]
      rw [hn, number?_eq_some.2 h]

/-! ## Values of declarations -/

variable {ts rest : List Token}

theorem arrayItems_eq_ok {ns : List Number} :
    arrayItems ts = .ok (ns, rest) ↔
      ∃ items closing, Items ns items ∧ closing.kind = .rightBracket ∧
        ts = items ++ closing :: rest := by
  constructor
  · intro h
    induction ts generalizing ns with
    | nil => cases h
    | cons t ts ih =>
      rw [arrayItems] at h
      split at h
      · rename_i n hk hl
        split at h
        · cases h
        · rename_i ns' rest' hm
          cases h
          obtain ⟨items, closing, hi, hc, rfl⟩ := ih hm
          exact ⟨t :: items, closing, .number ⟨hk, hl⟩ hi, hc, rfl⟩
      · rename_i hk
        obtain ⟨items, closing, hi, hc, rfl⟩ := ih h
        exact ⟨t :: items, closing, .comma hk hi, hc, rfl⟩
      · rename_i hk
        cases h
        exact ⟨[], t, .nil, hk, rfl⟩
      · cases h
  · rintro ⟨items, closing, hi, hc, rfl⟩
    induction hi with
    | nil => simp [arrayItems, hc]
    | number hn _ ih => simp [arrayItems, hn.1, hn.2, ih]
    | comma hk _ ih => simp [arrayItems, hk, ih]

theorem exists_operand {start : Location} {shape : Option Shape} {e : Expr}
    (h : operand start shape ts = .ok (e, rest)) :
    ∃ phrase, Operand shape e phrase ∧ ts = phrase ++ rest := by
  rw [operand, bind_eq_ok] at h
  obtain ⟨head, mid, hf, h⟩ := h
  obtain ⟨t, rfl, ht⟩ := fill_eq_ok.1 hf
  unfold operandHead? at ht
  split at ht <;> cases ht
  · rename_i s hk hl
    have hn : Named s t := ⟨hk, hl⟩
    simp only [nameOrCall, bind_eq_ok, accept_eq_ok] at h
    obtain ⟨b, mid', ⟨rfl, opening, rfl, ho⟩ | ⟨rfl, rfl, _⟩, h⟩ := h
    · simp only [if_true, bind_eq_ok, fill_eq_ok, expect_eq_ok, pure_eq_ok] at h
      obtain ⟨a, _, ⟨argument, rfl, ha⟩, _, _, ⟨closing, rfl, hc⟩, rfl, rfl⟩ := h
      exact ⟨[t, opening, argument, closing], .call hn ho (atom?_eq_some.1 ha) hc, rfl⟩
    · obtain ⟨rfl, rfl⟩ := pure_eq_ok.1 h
      exact ⟨[t], .name hn, rfl⟩
  · rename_i n hk hl
    obtain ⟨rfl, rfl⟩ := pure_eq_ok.1 h
    exact ⟨[t], .number ⟨hk, hl⟩, rfl⟩
  · rename_i s hk hl
    obtain ⟨rfl, rfl⟩ := pure_eq_ok.1 h
    exact ⟨[t], .string ⟨hk, hl⟩, rfl⟩
  · rename_i hk
    cases shape with
    | none => cases h
    | some shape =>
      simp only [arrayLiteral, bind_eq_ok, arrayItems_eq_ok] at h
      obtain ⟨ns, mid', ⟨items, closing, hi, hc, rfl⟩, h⟩ := h
      split at h
      · rename_i hlen
        obtain ⟨rfl, rfl⟩ := pure_eq_ok.1 h
        refine ⟨t :: (items ++ [closing]), ?_, by simp⟩
        obtain ⟨s, n⟩ := shape
        subst hlen
        exact .array hk hi hc
      · exact (fail_eq_ok.1 h).elim

/-- An operand is read whole unless a parenthesis makes a call of it. -/
theorem operand_append {shape : Option Shape} {e : Expr} {phrase : List Token}
    (h : Operand shape e phrase) (start : Location) (hr : Avoids [.leftParen] rest) :
    operand start shape (phrase ++ rest) = .ok (e, rest) := by
  simp only [operand, bind_eq_ok, fill_eq_ok]
  cases h with
  | @name _ s t hn =>
    refine ⟨.name s, rest, ⟨t, rfl, by simp [operandHead?, hn.1, hn.2]⟩, ?_⟩
    simp only [nameOrCall, bind_eq_ok, accept_eq_ok]
    exact ⟨false, rest, .inr ⟨rfl, rfl, hr⟩, rfl⟩
  | @call _ s a t opening argument closing hn ho ha hc =>
    refine ⟨.name s, _, ⟨t, rfl, by simp [operandHead?, hn.1, hn.2]⟩, ?_⟩
    simp only [nameOrCall, bind_eq_ok, accept_eq_ok]
    refine ⟨true, argument :: closing :: rest, .inl ⟨rfl, opening, rfl, ho⟩, ?_⟩
    simp only [if_true, bind_eq_ok, fill_eq_ok, expect_eq_ok, pure_eq_ok]
    exact ⟨a, _, ⟨argument, rfl, atom?_eq_some.2 ha⟩, (), _, ⟨closing, rfl, hc⟩, rfl, rfl⟩
  | @number _ n t hn =>
    exact ⟨.number n, rest, ⟨t, rfl, by simp [operandHead?, hn.1, hn.2]⟩, rfl⟩
  | @string _ s t hs =>
    exact ⟨.string s, rest, ⟨t, rfl, by simp [operandHead?, hs.1, hs.2]⟩, rfl⟩
  | @array s ns opening closing items ho hi hc =>
    refine ⟨.bracket, _, ⟨opening, rfl, by simp [operandHead?, ho]⟩, ?_⟩
    simp only [arrayLiteral, bind_eq_ok, arrayItems_eq_ok]
    exact ⟨ns, rest, ⟨items, closing, hi, hc, by simp⟩, by rw [if_pos rfl]; rfl⟩

theorem operator?_eq_some {t : Token} {o : Operator} :
    operator? t = some o ↔ t.lexeme = .text o.symbol := by
  unfold operator?
  constructor
  · intro h
    split at h
    · rename_i s hs
      rw [hs]
      unfold Operator.ofSymbol? at h
      split at h <;> cases h <;> rfl
    · cases h
  · intro h
    rw [h]
    exact Operator.ofSymbol?_symbol o

/-- The tail of a value: nothing where no operator follows, else an operator with its operand. -/
theorem operatorTail_eq_ok {left e : Expr} :
    operatorTail left ts = .ok (e, rest) ↔
      (e = left ∧ ts = rest ∧ Avoids [.operator] rest) ∨
        ∃ o right sign last, e = .binary left o right ∧ ts = sign :: last :: rest ∧
          sign.kind = .operator ∧ sign.lexeme = .text o.symbol ∧ Atom right last := by
  cases ts with
  | nil =>
    simp only [operatorTail, Except.ok.injEq, Prod.mk.injEq]
    constructor
    · rintro ⟨rfl, rfl⟩
      exact .inl ⟨rfl, rfl, by simp [Avoids]⟩
    · rintro (⟨rfl, rfl, _⟩ | ⟨_, _, _, _, _, h, _⟩)
      · exact ⟨rfl, rfl⟩
      · cases h
  | cons t ts =>
    by_cases hk : t.kind = .operator
    · simp only [operatorTail, hk, if_true, bind_eq_ok, fill_eq_ok, pure_eq_ok]
      constructor
      · rintro ⟨o, _, ⟨sign, hs, ho⟩, right, _, ⟨last, rfl, hr⟩, rfl, rfl⟩
        cases hs
        exact .inr ⟨o, right, t, last, rfl, rfl, hk, operator?_eq_some.1 ho, atom?_eq_some.1 hr⟩
      · rintro (⟨_, rfl, hr⟩ | ⟨o, right, sign, last, rfl, hs, _, ho, hr⟩)
        · exact absurd (by simp [hk]) (avoids_cons.1 hr)
        · cases hs
          exact ⟨o, _, ⟨t, rfl, operator?_eq_some.2 ho⟩, right, _,
            ⟨last, rfl, atom?_eq_some.2 hr⟩, rfl, rfl⟩
    · simp only [operatorTail, hk, if_false, Except.ok.injEq, Prod.mk.injEq]
      constructor
      · rintro ⟨rfl, rfl⟩
        exact .inl ⟨rfl, rfl, by simp [avoids_cons, hk]⟩
      · rintro (⟨rfl, rfl, _⟩ | ⟨_, _, _, _, _, hs, hk', _⟩)
        · exact ⟨rfl, rfl⟩
        · cases hs
          exact absurd hk' hk

/-- The values of an array literal are checked only against the element types of numbers. -/
theorem suits_array_iff {a : ArrayLiteral} :
    Suits .array (.array a) ↔ mismatched .array (.array a) = false := by
  rw [Suits, mismatched]
  split
  · rename_i h
    simp [h]
  · rename_i h
    simp [h]
  · rename_i hi hf
    exact ⟨fun _ => rfl, fun _ => ⟨fun h => (hi h).elim, fun h => (hf h).elim⟩⟩

theorem suits_iff {type : VarType} {e : Expr} :
    Suits type e ↔ ¬ (type = .array ∧ isArray e = false) ∧ mismatched type e = false := by
  cases e with
  | array a =>
    cases type with
    | array => rw [suits_array_iff]; simp [isArray]
    | _ => simp [Suits, mismatched]
  | _ => cases type <;> simp [Suits, mismatched, isArray]

theorem checked_eq_ok {type : VarType} {start : Location} {e e' : Expr} :
    checked type start e ts = .ok (e', rest) ↔ Suits type e ∧ e = e' ∧ ts = rest := by
  rw [checked, suits_iff]
  split
  · rename_i h
    simp [fail_eq_ok, h]
  · rename_i h
    split
    · rename_i hm
      simp [fail_eq_ok, hm]
    · rename_i hm
      simp only [pure_eq_ok, h, hm, not_false_eq_true, true_and]

theorem exists_initializer {type : VarType} {shape : Option Shape} {e : Expr}
    (h : initializer type shape ts = .ok (e, rest)) :
    ∃ phrase, Initializer shape e phrase ∧ Suits type e ∧ ts = phrase ++ rest := by
  simp only [initializer, bind_eq_ok, checked_eq_ok, operatorTail_eq_ok] at h
  obtain ⟨start, mid, hp, left, mid', ho, _, _, ht, hs, rfl, rfl⟩ := h
  cases hp
  obtain ⟨phrase, hphrase, rfl⟩ := exists_operand ho
  obtain ⟨rfl, rfl, _⟩ | ⟨o, right, sign, last, rfl, rfl, hk, hl, hr⟩ := ht
  · exact ⟨phrase, .operand hphrase, hs, rfl⟩
  · exact ⟨phrase ++ [sign, last], .binary hphrase hk hl hr, hs, by simp⟩

theorem initializer_append {type : VarType} {shape : Option Shape} {e : Expr}
    {phrase : List Token} (h : Initializer shape e phrase) (hs : Suits type e)
    (hr : Avoids [.leftParen, .operator] rest) :
    initializer type shape (phrase ++ rest) = .ok (e, rest) := by
  simp only [initializer, bind_eq_ok, checked_eq_ok, operatorTail_eq_ok]
  refine ⟨_, _, rfl, ?_⟩
  cases h with
  | operand ho =>
    exact ⟨e, rest, operand_append ho _ (hr.mono (by simp)), e, rest,
      .inl ⟨rfl, rfl, hr.mono (by simp)⟩, hs, rfl, rfl⟩
  | @binary left right o ts sign last ho hk hl ha =>
    have hnext : Avoids [.leftParen] (sign :: last :: rest) := avoids_cons.2 (by simp [hk])
    refine ⟨left, sign :: last :: rest, ?_, _, rest,
      .inr ⟨o, right, sign, last, rfl, rfl, hk, hl, ha⟩, hs, rfl, rfl⟩
    simpa using operand_append ho _ hnext

/-! ## Statements -/

theorem length?_eq_some {t : Token} {n : Nat} :
    length? t = some n ↔ t.lexeme = .number (.int n) := by
  unfold length?
  constructor
  · intro h
    split at h
    · rename_i m hm
      split at h
      · rename_i hpos
        cases h
        rw [hm, Int.toNat_of_nonneg hpos]
      · cases h
    · cases h
  · intro h
    simp [h]

theorem ofName?_typeText_eq_some {t : Token} {type : VarType} :
    VarType.ofName? (typeText t) = some type ↔ t.lexeme = .text type.name := by
  unfold typeText
  constructor
  · intro h
    split at h
    · rename_i s hs
      rw [hs]
      unfold VarType.ofName? at h
      split at h <;> cases h <;> rfl
    · cases h
  · intro h
    rw [h]
    exact VarType.ofName?_name type

theorem arrayShape_eq_ok {shape : Shape} :
    arrayShape ts = .ok (shape, rest) ↔
      ∃ opening element separator length closing,
        ts = opening :: element :: separator :: length :: closing :: rest ∧
        opening.kind = .leftBracket ∧ Named shape.elementType element ∧
        separator.kind = .semicolon ∧ length.lexeme = .number (.int shape.length) ∧
        closing.kind = .rightBracket := by
  simp only [arrayShape, bind_eq_ok, expect_eq_ok, fill_eq_ok, pure_eq_ok, name?_eq_some,
    length?_eq_some]
  constructor
  · rintro ⟨_, _, ⟨opening, rfl, ho⟩, s, _, ⟨element, rfl, he⟩, _, _, ⟨separator, rfl, hs⟩, n, _,
      ⟨length, rfl, hl⟩, _, _, ⟨closing, rfl, hc⟩, rfl, rfl⟩
    exact ⟨opening, element, separator, length, closing, rfl, ho, he, hs, hl, hc⟩
  · rintro ⟨opening, element, separator, length, closing, rfl, ho, he, hs, hl, hc⟩
    exact ⟨(), _, ⟨opening, rfl, ho⟩, _, _, ⟨element, rfl, he⟩, (), _, ⟨separator, rfl, hs⟩, _, _,
      ⟨length, rfl, hl⟩, (), _, ⟨closing, rfl, hc⟩, rfl, rfl⟩

/-- The word of a type and, for arrays, the shape after it. -/
theorem typing_eq_ok {type : VarType} {shape : Option Shape} {word : Token} :
    word.lexeme = .text type.name ∧ shapeOf type ts = .ok (shape, rest) ↔
      ∃ phrase, TypePhrase type shape (word :: phrase) ∧ ts = phrase ++ rest := by
  constructor
  · rintro ⟨hw, h⟩
    cases type with
    | array =>
      simp only [shapeOf, bind_eq_ok, arrayShape_eq_ok, pure_eq_ok] at h
      obtain ⟨⟨s, n⟩, _, ⟨opening, element, separator, length, closing, rfl, ho, he, hs, hl, hc⟩,
        rfl, rfl⟩ := h
      exact ⟨[opening, element, separator, length, closing], .array hw ho he hs hl hc, rfl⟩
    | int | float | string =>
      obtain ⟨rfl, rfl⟩ := pure_eq_ok.1 h
      exact ⟨[], .scalar (by simp) hw, rfl⟩
  · rintro ⟨phrase, h, rfl⟩
    cases h with
    | scalar hne hw =>
      refine ⟨hw, ?_⟩
      cases type with
      | array => exact absurd rfl hne
      | int | float | string => rfl
    | array hw ho he hs hl hc =>
      refine ⟨hw, ?_⟩
      simp only [shapeOf, bind_eq_ok, arrayShape_eq_ok, pure_eq_ok]
      exact ⟨_, _, ⟨_, _, _, _, _, rfl, ho, he, hs, hl, hc⟩, rfl, rfl⟩

theorem exists_declaration {first : Token} {node : Node} (hk : first.kind = .declare)
    (h : declaration ts = .ok (node, rest)) :
    ∃ phrase, Phrase node (first :: phrase) ∧ ts = phrase ++ rest := by
  simp only [declaration, bind_eq_ok, fill_eq_ok, expect_eq_ok, pure_eq_ok, name?_eq_some,
    ofName?_typeText_eq_some] at h
  obtain ⟨type, _, ⟨word, rfl, hw⟩, shape, _, hshape, s, _, ⟨name, rfl, hn⟩, _, _,
    ⟨equals, rfl, he⟩, e, _, hv, rfl, rfl⟩ := h
  obtain ⟨typing, htyping, rfl⟩ := typing_eq_ok.1 ⟨hw, hshape⟩
  obtain ⟨value, hvalue, hs, rfl⟩ := exists_initializer hv
  exact ⟨word :: typing ++ name :: equals :: value, .declare hk htyping hn he hvalue hs, by simp⟩

theorem exists_statementAfter {first : Token} {node : Node}
    (h : statementAfter first ts = .ok (node, rest)) :
    ∃ phrase, Phrase node (first :: phrase) ∧ ts = phrase ++ rest := by
  revert h
  fun_cases statementAfter first with
  | case1 hk => exact exists_declaration hk
  | case2 hk =>
    intro h
    simp only [loop, bind_eq_ok, fill_eq_ok, expect_eq_ok, pure_eq_ok, name?_eq_some,
      Option.ite_none_right_eq_some] at h
    obtain ⟨x, _, ⟨element, rfl, hx⟩, _, _, ⟨keyword, rfl, hin, _⟩, xs, _, ⟨collection, rfl, hxs⟩,
      _, _, ⟨opening, rfl, ho⟩, rfl, rfl⟩ := h
    exact ⟨[element, keyword, collection, opening], .loop hk hx hin hxs ho, rfl⟩
  | case3 hk =>
    intro h
    obtain ⟨rfl, rfl⟩ := pure_eq_ok.1 h
    exact ⟨[], .endLoop hk, rfl⟩
  | case4 hk =>
    intro h
    simp only [function, bind_eq_ok, fill_eq_ok, expect_eq_ok, pure_eq_ok, name?_eq_some] at h
    obtain ⟨f, _, ⟨name, rfl, hf⟩, _, _, ⟨opening, rfl, ho⟩, x, _, ⟨argument, rfl, hx⟩, _, _,
      ⟨colon, rfl, hcolon⟩, a, _, ⟨input, rfl, ha⟩, _, _, ⟨closing, rfl, hc⟩, _, _,
      ⟨arrow, rfl, harrow⟩, b, _, ⟨output, rfl, hb⟩, _, _, ⟨body, rfl, hbody⟩, rfl, rfl⟩ := h
    exact ⟨[name, opening, argument, colon, input, closing, arrow, output, body],
      .function hk hf ho hx hcolon ha hc harrow hb hbody, rfl⟩
  | case5 hk =>
    intro h
    simp only [result, bind_eq_ok, fill_eq_ok, accept_eq_ok, expect_eq_ok, pure_eq_ok,
      atom?_eq_some] at h
    obtain ⟨e, _, ⟨value, rfl, he⟩, _, _, ⟨_, terminator, rfl, ht⟩ | ⟨_, rfl, _⟩, _, _,
      ⟨closing, rfl, hc⟩, rfl, rfl⟩ := h
    · exact ⟨[value, terminator, closing], .resultTerminated hk he ht hc, rfl⟩
    · exact ⟨[value, closing], .result hk he hc, rfl⟩
  | case6 hk =>
    intro h
    simp only [print, bind_eq_ok, fill_eq_ok, expect_eq_ok, pure_eq_ok, atom?_eq_some] at h
    obtain ⟨_, _, ⟨opening, rfl, ho⟩, e, _, ⟨value, rfl, he⟩, _, _, ⟨closing, rfl, hc⟩, rfl,
      rfl⟩ := h
    exact ⟨[opening, value, closing], .print hk ho he hc, rfl⟩
  | case7 => exact fun h => (fail_eq_ok.1 h).elim

/-- A phrase is read whole unless what follows makes a call or an operation of its last value. -/
theorem statementAfter_append {first : Token} {node : Node} {phrase : List Token}
    (h : Phrase node (first :: phrase)) (hr : Avoids [.leftParen, .operator] rest) :
    statementAfter first (phrase ++ rest) = .ok (node, rest) := by
  unfold statementAfter
  cases h with
  | @declare _ name equals type shape s e typing value hk ht hn he hv hs =>
    obtain ⟨word, typing', rfl⟩ : ∃ word typing', typing = word :: typing' := by
      cases ht <;> exact ⟨_, _, rfl⟩
    obtain ⟨hw, hshape⟩ := typing_eq_ok.2 ⟨typing', ht, rfl⟩
    simp only [hk, declaration, bind_eq_ok, fill_eq_ok, expect_eq_ok, pure_eq_ok, name?_eq_some,
      ofName?_typeText_eq_some]
    exact ⟨type, typing' ++ name :: equals :: (value ++ rest), ⟨word, by simp, hw⟩, shape, _,
      hshape, s, _, ⟨name, rfl, hn⟩, (), _, ⟨equals, rfl, he⟩, e, rest,
      initializer_append hv hs hr, rfl, rfl⟩
  | loop hk hx hin hxs ho =>
    simp only [hk, loop, bind_eq_ok, fill_eq_ok, expect_eq_ok, pure_eq_ok, name?_eq_some,
      Option.ite_none_right_eq_some]
    exact ⟨_, _, ⟨_, rfl, hx⟩, (), _, ⟨_, rfl, hin, trivial⟩, _, _, ⟨_, rfl, hxs⟩, (), _,
      ⟨_, rfl, ho⟩, rfl, rfl⟩
  | endLoop hk =>
    simp only [hk]
    rfl
  | function hk hf ho hx hcolon ha hc harrow hb hbody =>
    simp only [hk, function, bind_eq_ok, fill_eq_ok, expect_eq_ok, pure_eq_ok, name?_eq_some]
    exact ⟨_, _, ⟨_, rfl, hf⟩, (), _, ⟨_, rfl, ho⟩, _, _, ⟨_, rfl, hx⟩, (), _, ⟨_, rfl, hcolon⟩, _,
      _, ⟨_, rfl, ha⟩, (), _, ⟨_, rfl, hc⟩, (), _, ⟨_, rfl, harrow⟩, _, _, ⟨_, rfl, hb⟩, (), _,
      ⟨_, rfl, hbody⟩, rfl, rfl⟩
  | result hk he hc =>
    simp only [hk, result, bind_eq_ok, fill_eq_ok, accept_eq_ok, expect_eq_ok, pure_eq_ok,
      atom?_eq_some]
    exact ⟨_, _, ⟨_, rfl, he⟩, false, _, .inr ⟨rfl, rfl, avoids_cons.2 (by simp [hc])⟩, (), _,
      ⟨_, rfl, hc⟩, rfl, rfl⟩
  | resultTerminated hk he ht hc =>
    simp only [hk, result, bind_eq_ok, fill_eq_ok, accept_eq_ok, expect_eq_ok, pure_eq_ok,
      atom?_eq_some]
    exact ⟨_, _, ⟨_, rfl, he⟩, true, _, .inl ⟨rfl, _, rfl, ht⟩, (), _, ⟨_, rfl, hc⟩, rfl, rfl⟩
  | print hk ho he hc =>
    simp only [hk, print, bind_eq_ok, fill_eq_ok, expect_eq_ok, pure_eq_ok, atom?_eq_some]
    exact ⟨(), _, ⟨_, rfl, ho⟩, _, _, ⟨_, rfl, he⟩, (), _, ⟨_, rfl, hc⟩, rfl, rfl⟩

theorem exists_terminated {first : Token} {node : Node}
    (h : terminated first ts = .ok (node, rest)) :
    ∃ segment, Segment node (first :: segment) ∧ ts = segment ++ rest := by
  simp only [terminated, bind_eq_ok, accept_eq_ok, pure_eq_ok] at h
  obtain ⟨_, mid, hs, _, _, ⟨_, t, rfl, ht⟩ | ⟨_, rfl, _⟩, rfl, rfl⟩ := h
  · obtain ⟨phrase, hp, rfl⟩ := exists_statementAfter hs
    exact ⟨phrase ++ [t], .terminated hp ht, by simp⟩
  · obtain ⟨phrase, hp, rfl⟩ := exists_statementAfter hs
    exact ⟨phrase, .bare hp, rfl⟩

theorem terminated_append {first : Token} {node : Node} {segment : List Token}
    (h : Segment node (first :: segment)) (hr : Avoids [.leftParen, .operator, .semicolon] rest) :
    terminated first (segment ++ rest) = .ok (node, rest) := by
  simp only [terminated, bind_eq_ok, accept_eq_ok, pure_eq_ok]
  obtain ⟨ts, hts⟩ : ∃ ts, ts = first :: segment := ⟨_, rfl⟩
  rw [← hts] at h
  cases h with
  | bare hp =>
    rw [hts] at hp
    exact ⟨node, rest, statementAfter_append hp (hr.mono (by simp)), false, rest,
      .inr ⟨rfl, rfl, hr.mono (by simp)⟩, rfl, rfl⟩
  | @terminated phrase t hp ht =>
    obtain ⟨first', phrase', rfl, _⟩ := hp.exists_cons
    obtain ⟨rfl, rfl⟩ : first' = first ∧ phrase' ++ [t] = segment := by simpa using hts
    have hnext : Avoids [.leftParen, .operator] (t :: rest) := avoids_cons.2 (by simp [ht])
    exact ⟨node, t :: rest, by simpa using statementAfter_append hp hnext, true, rest,
      .inl ⟨rfl, t, rfl, ht⟩, rfl, rfl⟩

/-! ## Programs -/

/-- Statements with the ranges of their segments, the first of which begins at `position`. -/
def placed (position : Nat) : List Node → List (List Token) → List Entry
  | node :: nodes, segment :: segments =>
    let stop := position + segment.length
    ⟨node, ⟨position, stop⟩, (segment.head?.map (·.location)).getD {}⟩ ::
      placed stop nodes segments
  | _, _ => []

theorem map_node_placed {nodes : List Node} {segments : List (List Token)}
    (h : List.Forall₂ Segment nodes segments) (position : Nat) :
    (placed position nodes segments).map (·.node) = nodes := by
  induction h generalizing position with
  | nil => rfl
  | cons _ _ ih => simp [placed, ih]

/-- What follows a segment begins another one, so it cannot extend the segment. -/
theorem avoids_flatten {nodes : List Node} {segments : List (List Token)}
    (h : List.Forall₂ Segment nodes segments) :
    Avoids [.leftParen, .operator, .semicolon] segments.flatten := by
  cases h with
  | nil => simp [Avoids]
  | cons hs _ =>
    obtain ⟨first, later, rfl, hk⟩ := hs.exists_cons
    rw [List.flatten_cons, List.cons_append, avoids_cons]
    intro hbad
    simp only [List.mem_cons, List.not_mem_nil, or_false] at hbad
    rcases hbad with hb | hb | hb <;> rw [hb] at hk <;> exact absurd hk (by decide)

theorem read_cons {position : Nat} {first : Token} {later : List Token} {node : Node}
    (h : terminated first ts = .ok (node, later)) :
    read position (first :: ts) =
      let stop := position + ((first :: ts).length - later.length)
      ⟨⟨node, ⟨position, stop⟩, first.location⟩ :: (read stop later).entries,
        (read stop later).fault?⟩ := by
  rw [read]
  split
  · rename_i hf
    rw [h] at hf
    cases hf
  · rename_i hf
    rw [h] at hf
    cases hf
    rfl

/-- The segments of a program are read as its statements, each with the range of its segment. -/
theorem read_flatten {nodes : List Node} {segments : List (List Token)}
    (h : List.Forall₂ Segment nodes segments) (position : Nat) :
    read position segments.flatten = ⟨placed position nodes segments, none⟩ := by
  induction h generalizing position with
  | nil => rw [List.flatten_nil, read]; rfl
  | @cons node segment nodes segments hs hrest ih =>
    obtain ⟨first, later, rfl, _⟩ := hs.exists_cons
    have ht := terminated_append hs (avoids_flatten hrest)
    rw [List.flatten_cons, List.cons_append, read_cons ht]
    have hlen : (first :: (later ++ segments.flatten)).length - segments.flatten.length =
        (first :: later).length := by
      simp only [List.length_cons, List.length_append]
      omega
    simp only [hlen, ih, placed, List.head?_cons, Option.map_some, Option.getD_some]

/-- Tokens that are read without a fault are the tokens of a program. -/
theorem program_of_read {position : Nat} (h : (read position ts).fault? = none) :
    ∃ nodes, Program nodes ts := by
  fun_induction read position ts with
  | case1 => exact ⟨[], [], .nil, rfl⟩
  | case2 => cases h
  | case3 position first ts node later ht stop following ih =>
    obtain ⟨nodes, segments, hs, rfl⟩ := ih h
    obtain ⟨segment, hsegment, rfl⟩ := exists_terminated ht
    exact ⟨node :: nodes, (first :: segment) :: segments, .cons hsegment hs, by simp⟩

theorem parse_eq_ok {entries : List Entry} :
    parse ts = .ok entries ↔ read 0 ts = ⟨entries, none⟩ := by
  rcases hr : read 0 ts with ⟨entries', fault?⟩
  cases fault? <;> simp [parse, hr]

theorem parse_flatten {nodes : List Node} {segments : List (List Token)}
    (h : List.Forall₂ Segment nodes segments) :
    parse segments.flatten = .ok (placed 0 nodes segments) :=
  parse_eq_ok.2 (read_flatten h 0)

theorem program_of_parse {entries : List Entry} (h : parse ts = .ok entries) :
    Program (entries.map (·.node)) ts := by
  have hf : (read 0 ts).fault? = none := by rw [parse_eq_ok.1 h]
  obtain ⟨nodes, segments, hs, rfl⟩ := program_of_read hf
  rw [parse_flatten hs] at h
  cases h
  rw [map_node_placed hs]
  exact ⟨segments, hs, rfl⟩

/-- **Exactness.** Tokens are read as a list of statements just if they are the segments of these
statements in order. -/
theorem exists_parse_iff_program (ts : List Token) (nodes : List Node) :
    (∃ entries, parse ts = .ok entries ∧ entries.map (·.node) = nodes) ↔ Program nodes ts := by
  constructor
  · rintro ⟨entries, hp, rfl⟩
    exact program_of_parse hp
  · rintro ⟨segments, hs, rfl⟩
    exact ⟨_, parse_flatten hs, map_node_placed hs 0⟩

end FuzzLang.Grammar
