import FuzzLang.Proofs.Double.RoundTrip
import FuzzLang.Proofs.Token.Reading

/-!
# What tokens carry

The text of an identifier is a name and the text of a string literal is quoted, for every token read
from a source (`lexed_of_tokenize`). Numbers are told apart by their texts as long as their doubles
are finite (`Number.text_inj`).
-/

namespace FuzzLang

namespace Token

/-- A letter or underscore, then letters, underscores and digits. -/
def IsName (s : String) : Prop :=
  ∃ c cs, s.toList = c :: cs ∧ isNameStart c = true ∧ ∀ d ∈ cs, isNameRest d = true

/-- A text in quotes, on one line and without quotes of its own. -/
def IsQuoted (s : String) : Prop :=
  ∃ body, s.toList = '"' :: (body ++ ['"']) ∧ ∀ c ∈ body, c ≠ '"' ∧ c ≠ '\n'

/-- Whether the text of a token is of its kind. -/
def Lexed (t : Token) : Prop :=
  match t.kind, t.lexeme with
  | .identifier, .text s => IsName s
  | .string, .text s => IsQuoted s
  | _, _ => True

theorem Matches.isName {cs : List Char} (h : Matches (.token .identifier) cs) :
    IsName (String.ofList cs) := by
  cases h with
  | word hs => cases hs
  | name hc hcs => exact ⟨_, _, String.toList_ofList, hc, hcs⟩

theorem Matches.isQuoted {cs : List Char} (h : Matches (.token .string) cs) :
    IsQuoted (String.ofList cs) := by
  cases h with
  | word hs => cases hs
  | string hcs => exact ⟨_, String.toList_ofList, hcs⟩

theorem Matches.spelled {kind : Kind} {cs : List Char} (h : Matches (.token kind) cs) {s : String}
    (hs : kind.spelling? = some s) : String.ofList cs = s := by
  cases h with
  | word hword =>
    cases hword.symm.trans hs
    exact String.ofList_toList
  | integer | decimal | string | name | operator => cases hs

theorem lexed_of_tokenize {source : String} {ts : List Token} (h : tokenize source = .ok ts)
    {t : Token} (ht : t ∈ ts) : t.Lexed := by
  obtain ⟨piece, hp, hspelled⟩ := (yields_of_tokenize h).exists_spelled ht
  have hm := (munch_cut source.toList).matches_of_mem piece hp
  cases hspelled with
  | @text kind cs location _ =>
    cases kind with
    | identifier => exact hm.isName
    | string => exact hm.isQuoted
    | _ => trivial
  | integer => trivial
  | decimal => trivial

/-- A token whose kind has just one spelling is spelled in that way. -/
theorem lexeme_of_tokenize {source : String} {ts : List Token} (h : tokenize source = .ok ts)
    {t : Token} (ht : t ∈ ts) {s : String} (hs : t.kind.spelling? = some s) :
    t.lexeme = .text s := by
  obtain ⟨piece, hp, hspelled⟩ := (yields_of_tokenize h).exists_spelled ht
  have hm := (munch_cut source.toList).matches_of_mem piece hp
  cases hspelled with
  | text => exact congrArg Lexeme.text (hm.spelled hs)
  | integer => cases hs
  | decimal => cases hs

end Token

/-! ## Numbers -/

def Double.IsFinite (x : Double) : Prop := ∃ negative rank, x = .finite negative rank

instance (x : Double) : Decidable x.IsFinite :=
  match x with
  | .finite negative rank => isTrue ⟨negative, rank, rfl⟩
  | .nan | .infinite _ => isFalse nofun

namespace Number

/-- An integer, or a double that is neither infinite nor no number. -/
def IsFinite : Number → Prop
  | .int _ => True
  | .float x => x.IsFinite

instance (n : Number) : Decidable n.IsFinite :=
  match n with
  | .int _ => isTrue trivial
  | .float x => inferInstanceAs (Decidable x.IsFinite)

theorem isFinite_or_named (n : Number) :
    n.IsFinite ∨ n.text = "NaN" ∨ n.text = "inf" ∨ n.text = "-inf" := by
  cases n with
  | int k => exact .inl trivial
  | float x =>
    cases x with
    | nan => exact .inr (.inl rfl)
    | infinite negative =>
      cases negative with
      | false => exact .inr (.inr (.inl rfl))
      | true => exact .inr (.inr (.inr rfl))
    | finite negative rank => exact .inl ⟨negative, rank, rfl⟩

theorem toList_text_float (negative : Bool) (rank : Fin Double.infiniteRank) :
    (text (.float (.finite negative rank))).toList =
      Double.sign negative ++ Double.magnitude rank := by
  rw [text, Double.text, String.toList_ofList, Double.toText_finite]

theorem text_int_ne_float (k : Int) (negative : Bool) (rank : Fin Double.infiniteRank) :
    text (.int k) ≠ text (.float (.finite negative rank)) := by
  intro h
  obtain ⟨c, hc, hmark⟩ := (Double.pointed_magnitude rank).exists_mark
  have hmem : c ∈ (toString k).toList := by
    rw [show toString k = text (.int k) from rfl, h, toList_text_float]
    exact List.mem_append_right _ hc
  rcases Double.isDigit_or_of_mem_toString hmem with hd | rfl
  · rcases hmark with rfl | rfl <;> cases hd
  · rcases hmark with hm | hm <;> cases hm

/-- Numbers with the same text are the same. -/
theorem text_inj {m n : Number} (hm : m.IsFinite) (hn : n.IsFinite) (h : m.text = n.text) :
    m = n := by
  cases m with
  | int j =>
    cases n with
    | int k =>
      have hj := Double.exponentOf?_toString j
      rw [show toString j = toString k from h, Double.exponentOf?_toString] at hj
      cases hj
      rfl
    | float y =>
      obtain ⟨negative, rank, rfl⟩ := hn
      exact absurd h (text_int_ne_float j negative rank)
  | float x =>
    obtain ⟨negative, rank, rfl⟩ := hm
    cases n with
    | int k => exact absurd h.symm (text_int_ne_float k negative rank)
    | float y =>
      obtain ⟨negative', rank', rfl⟩ := hn
      obtain ⟨rfl, rfl⟩ := Double.toText_finite_inj (String.ofList_injective h)
      rfl

theorem isNumeral_of_mem_text {n : Number} (hn : n.IsFinite) {c : Char} (hc : c ∈ n.text.toList) :
    Double.isNumeral c = true := by
  cases n with
  | int k => exact Double.isNumeral_toString hc
  | float x =>
    obtain ⟨negative, rank, rfl⟩ := hn
    rw [toList_text_float, List.mem_append] at hc
    rcases hc with hc | hc
    · cases negative with
      | false => cases hc
      | true =>
        rw [List.mem_singleton.1 hc]
        rfl
    · exact (Double.pointed_magnitude rank).isNumeral hc

/-- The text of a number begins with a digit or a minus. -/
theorem exists_cons_text {n : Number} (hn : n.IsFinite) :
    ∃ c cs, n.text.toList = c :: cs ∧ (c.isDigit = true ∨ c = '-') := by
  cases n with
  | int k =>
    have hne : (toString k).toList ≠ [] := by
      intro h
      have hk := Double.exponentOf?_toString k
      rw [h] at hk
      cases hk
    obtain ⟨c, cs, hcs⟩ := List.exists_cons_of_ne_nil hne
    exact ⟨c, cs, hcs, Double.isDigit_or_of_mem_toString (hcs ▸ List.mem_cons_self)⟩
  | float x =>
    obtain ⟨negative, rank, rfl⟩ := hn
    obtain ⟨c, cs, hcs, hc⟩ := (Double.pointed_magnitude rank).exists_cons
    rw [toList_text_float, hcs]
    cases negative with
    | false => exact ⟨c, cs, rfl, .inl hc⟩
    | true => exact ⟨'-', c :: cs, rfl, .inr rfl⟩

end Number

/-- A lexeme that is a finite number or no number at all. -/
def Token.Lexeme.IsFinite : Lexeme → Prop
  | .text _ => True
  | .number n => n.IsFinite

instance (l : Token.Lexeme) : Decidable l.IsFinite :=
  match l with
  | .text _ => isTrue trivial
  | .number n => inferInstanceAs (Decidable n.IsFinite)

end FuzzLang
