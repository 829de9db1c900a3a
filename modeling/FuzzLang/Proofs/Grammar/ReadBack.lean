import FuzzLang.Proofs.Grammar.Relocate
import FuzzLang.Proofs.Grammar.Tiling
import FuzzLang.Proofs.Target.Readable
import FuzzLang.Proofs.Token.Written

/-!
# Declared values read back

The text that is emitted for a value is also a text of the source language. Put behind a declaration
of the same type it is read as the same value (`parse_declared`).

This is so for values that were read from a source. There the operands of an operator are no
operators themselves, and the tokens of an operand stand alone, so blanks, brackets and commas are
all that is needed between them. Each rule of the grammar is gone through once: what it reads can be
spelled with the tokens of the source and marks, in such a way that `Expr.text` is what is written.
-/

namespace FuzzLang

open Token

namespace Expr

/-- The numbers in an expression. -/
def numbers : Expr → List Number
  | .variable _ | .string _ => []
  | .number n => [n]
  | .call _ argument => argument.numbers
  | .binary left _ right => left.numbers ++ right.numbers
  | .array literal => literal.values

/-- The element type and the length that the declared type must give. -/
def shape? : Expr → Option Grammar.Shape
  | .array literal => some ⟨literal.elementType, literal.length⟩
  | _ => none

end Expr

/-- A declared type as a source spells it. -/
def VarType.spelling (type : VarType) : Option Grammar.Shape → String
  | none => type.name
  | some shape => type.name ++ "[" ++ shape.elementType ++ ";" ++ toString shape.length ++ "]"

namespace Grammar

/-! ## Array literals -/

theorem head?_laterValues (ns : List Number) :
    ∀ c ∈ (Expr.laterValues ns).head?, isBreak c = true := by
  cases ns with
  | nil => simp [Expr.laterValues]
  | cons n ns => simp [Expr.laterValues_cons, isBreak, isMark]

section

variable {ns : List Number} (h : ∀ n ∈ ns, Standalone ⟨.number, .number n, {}⟩)

include h

theorem exists_items_laterValues : ∃ us, Items ns us ∧ Written (Expr.laterValues ns) us := by
  induction ns with
  | nil => exact ⟨[], .nil, .nil⟩
  | cons n ns ih =>
    obtain ⟨hn, hns⟩ := List.forall_mem_cons.1 h
    obtain ⟨us, hitems, hwritten⟩ := ih hns
    refine ⟨⟨.comma, .text ",", {}⟩ :: ⟨.number, .number n, {}⟩ :: us,
      .comma rfl (.number ⟨rfl, rfl⟩ hitems), ?_⟩
    rw [Expr.laterValues_cons]
    exact .spelled rfl rfl rfl (.blank rfl (.token hn (head?_laterValues ns) hwritten))

theorem exists_items_values :
    ∃ us, Items ns us ∧ Written (", ".intercalate (ns.map Number.text)).toList us := by
  cases ns with
  | nil => exact ⟨[], .nil, .nil⟩
  | cons n ns =>
    obtain ⟨hn, hns⟩ := List.forall_mem_cons.1 h
    obtain ⟨us, hitems, hwritten⟩ := exists_items_laterValues hns
    refine ⟨⟨.number, .number n, {}⟩ :: us, .number ⟨rfl, rfl⟩ hitems, ?_⟩
    rw [Expr.toList_intercalate]
    exact .token hn (head?_laterValues ns) hwritten

end

/-! ## Rules of the grammar -/

theorem Atom.shown {e : Expr} {t : Token} (h : Atom e t) : t.lexeme.shown = e.text := by
  cases h with
  | name hs =>
    rw [hs.2]
    rfl
  | number hn =>
    rw [hn.2]
    rfl

section

variable {source : String} {ts : List Token} (hsource : tokenize source = .ok ts)

include hsource

theorem Atom.standalone {e : Expr} {t : Token} (h : Atom e t) (ht : t ∈ ts)
    (hf : ∀ x, .float x ∈ e.numbers → x.ReadsBack) : t.Standalone := by
  cases h with
  | name hs => exact standalone_of_text hsource ht hs.2
  | number hn =>
    refine standalone_of_number hsource ht hn.2 fun x hx => hf x ?_
    rw [hx]
    exact List.mem_singleton_self _

/-- An operand can be spelled in the way it is written. -/
theorem Operand.exists_written {shape : Option Shape} {e : Expr} {vs : List Token}
    (h : Operand shape e vs) (hvs : vs ⊆ ts) (hf : ∀ x, .float x ∈ e.numbers → x.ReadsBack) :
    ∃ us, Operand shape e us ∧ Written e.text.toList us := by
  cases h with
  | @name _ s t hs =>
    have ht := standalone_of_text hsource (hvs List.mem_cons_self) hs.2
    exact ⟨[t], .name hs, .word ht (Atom.name hs).shown⟩
  | @number _ n t hn =>
    have hatom := Atom.number hn
    have ht := hatom.standalone hsource (hvs List.mem_cons_self) hf
    exact ⟨[t], .number hn, .word ht hatom.shown⟩
  | @string _ s t hs =>
    have ht := standalone_of_text hsource (hvs List.mem_cons_self) hs.2
    exact ⟨[t], .string hs, .word ht (congrArg Lexeme.shown hs.2)⟩
  | @call _ s a t opening argument closing hs _ ha _ =>
    have ht := standalone_of_text hsource (hvs List.mem_cons_self) hs.2
    have hargument := ha.standalone hsource (hvs (by simp)) hf
    refine ⟨[t, ⟨.leftParen, .text "(", {}⟩, argument, ⟨.rightParen, .text ")", {}⟩],
      .call hs rfl ha rfl, ?_⟩
    have hname : t.lexeme.shown = s := (Atom.name hs).shown
    have htext := Expr.toList_text_call s a []
    rw [List.append_nil, ← hname, ← ha.shown] at htext
    rw [← hname, htext]
    exact .token ht (by simp [isBreak, isMark])
      (.spelled rfl rfl rfl (.token hargument (by simp [isBreak, isMark])
        (.spelled rfl rfl rfl .nil)))
  | @array s ns opening closing vs _ hitems _ =>
    have hnumbers : ∀ n ∈ ns, Standalone ⟨.number, .number n, {}⟩ := by
      intro n hn
      obtain ⟨t, ht, hk, hl⟩ := hitems.exists_counted n hn
      obtain ⟨hlongest, hlexeme⟩ := standalone_of_number hsource
        (hvs (List.mem_cons_of_mem _ (List.mem_append_left _ ht))) hl
        fun x hx => hf x (hx ▸ hn)
      rw [hk, hl] at hlongest hlexeme
      exact ⟨hlongest, hlexeme⟩
    obtain ⟨us, husItems, hwritten⟩ := exists_items_values hnumbers
    refine ⟨⟨.leftBracket, .text "[", {}⟩ :: (us ++ [⟨.rightBracket, .text "]", {}⟩]),
      .array rfl husItems rfl, ?_⟩
    rw [Expr.text, String.toList_append, String.toList_append, List.append_assoc]
    exact .spelled rfl rfl rfl
      (hwritten.append (.spelled rfl rfl rfl .nil) (by simp [isBreak, isMark]))

theorem Initializer.exists_written {shape : Option Shape} {e : Expr} {vs : List Token}
    (h : Initializer shape e vs) (hvs : vs ⊆ ts)
    (hf : ∀ x, .float x ∈ e.numbers → x.ReadsBack) :
    ∃ us, Initializer shape e us ∧ Written e.text.toList us := by
  cases h with
  | operand h =>
    obtain ⟨us, hoperand, hwritten⟩ := h.exists_written hsource hvs hf
    exact ⟨us, .operand hoperand, hwritten⟩
  | @binary left right o vs sign last hleft hkind hsign hright =>
    obtain ⟨hvs, hends⟩ := List.append_subset.1 hvs
    obtain ⟨us, hoperand, hwritten⟩ := hleft.exists_written hsource hvs fun x hx =>
      hf x (List.mem_append_left _ hx)
    have hsignAlone := standalone_of_text hsource (hends List.mem_cons_self) hsign
    have hlast := hright.standalone hsource (hends (by simp)) fun x hx =>
      hf x (List.mem_append_right _ hx)
    have hshown : sign.lexeme.shown = o.symbol := congrArg Lexeme.shown hsign
    refine ⟨us ++ [sign, last], .binary hoperand hkind hsign hright, ?_⟩
    rw [Expr.toList_text_binary, ← hshown, ← hright.shown]
    exact hwritten.append
      (.blank rfl (.token hsignAlone (by simp [isBreak, isBlank]) (.blank rfl (.single hlast))))
      (by simp [isBreak, isBlank])

theorem TypePhrase.exists_written {type : VarType} {shape : Option Shape} {vs : List Token}
    (h : TypePhrase type shape vs) (hvs : vs ⊆ ts) :
    ∃ us, TypePhrase type shape us ∧ Written (type.spelling shape).toList us := by
  cases h with
  | @scalar type t hne hname =>
    have ht := standalone_of_text hsource (hvs List.mem_cons_self) hname
    exact ⟨[t], .scalar hne hname, .word ht (congrArg Lexeme.shown hname)⟩
  | @array word opening element separator length closing s n hword _ helement _ hlength _ =>
    have hw := standalone_of_text hsource (hvs List.mem_cons_self) hword
    have he := standalone_of_text hsource (hvs (by simp)) helement.2
    have hl := standalone_of_number hsource (hvs (by simp)) hlength fun x hx => by cases hx
    refine ⟨[word, ⟨.leftBracket, .text "[", {}⟩, element, ⟨.semicolon, .text ";", {}⟩, length,
      ⟨.rightBracket, .text "]", {}⟩], .array hword rfl helement rfl hlength rfl, ?_⟩
    have htext : (VarType.array.spelling (some ⟨s, n⟩)).toList = word.lexeme.shown.toList ++
        '[' :: (element.lexeme.shown.toList ++ ';' :: (length.lexeme.shown.toList ++ [']'])) := by
      have hcount : Lexeme.shown (.number (.int n)) = toString n := rfl
      rw [hword, helement.2, hlength, hcount]
      simp [VarType.spelling, Lexeme.shown]
    rw [htext]
    exact .token hw (by simp [isBreak, isMark])
      (.spelled rfl rfl rfl (.token he (by simp [isBreak, isMark])
        (.spelled rfl rfl rfl (.token hl (by simp [isBreak, isMark])
          (.spelled rfl rfl rfl .nil)))))

end

/-! ## Declarations -/

/-- The declared shape is that of the value. -/
theorem Initializer.shape?_eq {type : VarType} {shape : Option Shape} {e : Expr}
    {typing value : List Token} (hv : Initializer shape e value)
    (ht : TypePhrase type shape typing) (hs : Suits type e) : e.shape? = shape := by
  cases ht with
  | scalar =>
    cases hv with
    | operand ho => cases ho <;> rfl
    | binary => rfl
  | array =>
    cases e with
    | array a =>
      cases hv with
      | operand ho =>
        cases ho with
        | array => rfl
    | _ => exact hs.elim

theorem standalone_v : Standalone ⟨.identifier, .text "v", {}⟩ :=
  standalone_text (by simp) (Pattern.longest_eq_some_iff.1 (by decide)) {}

theorem written_declaration {typing value : String} {ts us : List Token}
    (ht : Written typing.toList ts) (hv : Written value.toList us) :
    Written ("fuzzy " ++ typing ++ " v = " ++ value).toList
      (⟨.declare, .text "fuzzy", {}⟩ :: (ts ++ ⟨.identifier, .text "v", {}⟩ ::
        ⟨.equals, .text "=", {}⟩ :: us)) := by
  have htext : ("fuzzy " ++ typing ++ " v = " ++ value).toList = "fuzzy".toList ++
      ' ' :: (typing.toList ++ ' ' :: ("v".toList ++ ' ' :: '=' :: ' ' :: value.toList)) := by
    simp
  have hfirst : Standalone ⟨.declare, .text "fuzzy", {}⟩ := standalone_spelling rfl {}
  have hequals : Written (' ' :: '=' :: ' ' :: value.toList) (⟨.equals, .text "=", {}⟩ :: us) :=
    .blank rfl (.spelled rfl rfl rfl (.blank rfl hv))
  have hname := Written.token standalone_v (by simp [isBreak, isBlank]) hequals
  rw [htext]
  exact .token hfirst (by simp [isBreak, isBlank])
    (.blank rfl (ht.append (.blank rfl hname) (by simp [isBreak, isBlank])))

/-- **Emitted values read back.** For each declaration of a source, the text that is emitted for its
value is read, in a declaration of the same type, as the same value, if each double in it is read
back from its own text. -/
theorem parse_declared {source : String} {ts : List Token} {entries : List Entry} {e : Entry}
    {name : String} {type : VarType} {value : Expr} (ht : tokenize source = .ok ts)
    (hp : parse ts = .ok entries) (he : e ∈ entries) (hn : e.node = .declare name type value)
    (hf : ∀ x, .float x ∈ value.numbers → x.ReadsBack) :
    ∃ us e', tokenize ("fuzzy " ++ type.spelling value.shape? ++ " v = " ++ value.text) = .ok us ∧
      parse us = .ok [e'] ∧ e'.node = .declare "v" type value := by
  obtain ⟨phrase, hphrase, hsub⟩ := exists_phrase_of_parse hp he
  rw [hn] at hphrase
  cases hphrase with
  | declare _ htyping _ _ hvalue hsuits =>
    obtain ⟨typing', htyping', hwrittenType⟩ := htyping.exists_written ht fun t h =>
      hsub (by simp [h])
    obtain ⟨values', hvalue', hwrittenValue⟩ := hvalue.exists_written ht
      (fun t h => hsub (by simp [h])) hf
    have hwritten := written_declaration hwrittenType hwrittenValue
    have hspelled : Phrase (.declare "v" type value) (⟨.declare, .text "fuzzy", {}⟩ ::
        (typing' ++ ⟨.identifier, .text "v", {}⟩ :: ⟨.equals, .text "=", {}⟩ :: values')) :=
      .declare rfl htyping' ⟨rfl, rfl⟩ rfl hvalue' hsuits
    have hread := parse_flatten (.cons (.bare hspelled) .nil)
    rw [List.flatten_singleton] at hread
    -- what is read from the text are these tokens but for their places
    obtain ⟨us, hus, hplaces⟩ := hwritten.exists_tokenize
    obtain ⟨more, hmore, hunplaced⟩ := exists_parse_of_relocate hplaces hread
    obtain ⟨e', rfl, he'⟩ := List.map_eq_singleton_iff.1 hunplaced
    rw [hvalue.shape?_eq htyping hsuits]
    exact ⟨us, e', hus, hmore, (Entry.mk.inj he').1⟩

/-- A call and a signed number with an operator between them and no blanks that can be left out. -/
def signedOperand : String := "fuzzy float y=f(.50)- -005"

def signedOperandTokens : List Token :=
  [⟨.declare, .text "fuzzy", ⟨1, 1⟩⟩, ⟨.identifier, .text "float", ⟨1, 7⟩⟩,
    ⟨.identifier, .text "y", ⟨1, 13⟩⟩, ⟨.equals, .text "=", ⟨1, 14⟩⟩,
    ⟨.identifier, .text "f", ⟨1, 15⟩⟩, ⟨.leftParen, .text "(", ⟨1, 16⟩⟩,
    ⟨.number, .number (.float half), ⟨1, 17⟩⟩, ⟨.rightParen, .text ")", ⟨1, 20⟩⟩,
    ⟨.operator, .text "-", ⟨1, 21⟩⟩, ⟨.number, .number (.int (-5)), ⟨1, 23⟩⟩]

def signedOperandValue : Expr :=
  .binary (.call "f" (.number (.float half))) .sub (.number (.int (-5)))

/-- The value is read from what is emitted for it. -/
theorem parse_declared_signedOperand :
    tokenize signedOperand = .ok signedOperandTokens ∧
      parse signedOperandTokens =
        .ok [⟨.declare "y" .float signedOperandValue, ⟨0, 10⟩, ⟨1, 1⟩⟩] ∧
      (∀ x, .float x ∈ signedOperandValue.numbers → x.ReadsBack) ∧
      "fuzzy " ++ VarType.float.spelling signedOperandValue.shape? ++ " v = " ++
        signedOperandValue.text = "fuzzy float v = f(0.5) - -5" ∧
      ∃ us e', tokenize ("fuzzy " ++ VarType.float.spelling signedOperandValue.shape? ++ " v = " ++
          signedOperandValue.text) = .ok us ∧
        parse us = .ok [e'] ∧ e'.node = .declare "v" .float signedOperandValue := by
  have htokens : tokenize signedOperand = .ok signedOperandTokens := by decide +kernel
  have hparse : parse signedOperandTokens =
      .ok [⟨.declare "y" .float signedOperandValue, ⟨0, 10⟩, ⟨1, 1⟩⟩] := by
    decide +kernel
  have hfloats : ∀ x, .float x ∈ signedOperandValue.numbers → x.ReadsBack := by
    intro x hx
    have hnumbers : signedOperandValue.numbers = [.float half, .int (-5)] := rfl
    rw [hnumbers] at hx
    obtain rfl : x = half := by simpa using hx
    exact half_readsBack
  exact ⟨htokens, hparse, hfloats, by decide +kernel,
    parse_declared htokens hparse List.mem_cons_self rfl hfloats⟩

end Grammar

end FuzzLang
