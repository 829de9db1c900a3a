import FuzzLang.Proofs.Grammar.Braces
import FuzzLang.Proofs.Grammar.Relocate
import FuzzLang.Proofs.Run

/-!
# Terminators and commas

A semicolon may stand after a statement and before the brace that ends a returned value, and commas
stand anywhere between the brackets of an array literal. No statement keeps them. `Repunctuated`
relates the tokens of a statement to tokens that differ in these alone; they are read as the same
statement, wherever the statement stands (`parse_repunctuated`).

The semicolon inside the type of an array is none of these: without it the tokens are no program.
-/

namespace FuzzLang.Grammar

open Rule

/-! ## Tokens that carry no meaning -/

/-- One semicolon or none. -/
inductive Terminator : List Token → Prop
  | missing : Terminator []
  | present {t : Token} : t.kind = .semicolon → Terminator [t]

/-- The last token is no semicolon. -/
def Unterminated (ts : List Token) : Prop := ∀ t ∈ ts.getLast?, t.kind ≠ .semicolon

theorem unterminated_concat {front : List Token} {last : Token} :
    Unterminated (front ++ [last]) ↔ last.kind ≠ .semicolon := by
  simp [Unterminated]

/-- The same tokens, commas aside. -/
def SameButCommas (ts us : List Token) : Prop :=
  ts.filter (·.kind ≠ .comma) = us.filter (·.kind ≠ .comma)

/-- Tokens of a statement, and the same with other terminators and other commas in its array
literal. -/
inductive Repunctuated : Node → List Token → List Token → Prop
  /-- A semicolon after a statement. -/
  | statement {node : Node} {body t t' : List Token} :
    Unterminated body → Terminator t → Terminator t' → Repunctuated node (body ++ t) (body ++ t')
  /-- A semicolon before the brace after a returned value, and one after the brace. -/
  | result {e : Expr} {first value closing : Token} {inner inner' t t' : List Token} :
    closing.kind = .rightBrace → Terminator inner → Terminator inner' → Terminator t →
    Terminator t' →
    Repunctuated (.result e) (first :: value :: (inner ++ closing :: t))
      (first :: value :: (inner' ++ closing :: t'))
  /-- Commas between the brackets of an array literal, which are the last of its statement. -/
  | array {name : String} {type : VarType} {literal : ArrayLiteral} {opening closing : Token}
      {front items items' t t' : List Token} :
    opening.kind = .leftBracket → (∀ x ∈ items, x.kind ≠ .leftBracket) →
    closing.kind = .rightBracket → SameButCommas items items' → Terminator t → Terminator t' →
    Repunctuated (.declare name type (.array literal)) (front ++ opening :: (items ++ closing :: t))
      (front ++ opening :: (items' ++ closing :: t'))

/-! ## Phrases and their terminators -/

variable {node : Node} {ts : List Token}

theorem Atom.kind_ne {e : Expr} {t : Token} (h : Atom e t) : t.kind ≠ .semicolon := by
  cases h with
  | name h => rw [h.1]; decide
  | number h => rw [h.1]; decide

theorem Operand.exists_concat {shape : Option Shape} {e : Expr} (h : Operand shape e ts) :
    ∃ front last, ts = front ++ [last] ∧ last.kind ≠ .semicolon := by
  cases h with
  | name h => exact ⟨[], _, rfl, by rw [h.1]; decide⟩
  | call _ _ _ hc => exact ⟨[_, _, _], _, rfl, by rw [hc]; decide⟩
  | number h => exact ⟨[], _, rfl, by rw [h.1]; decide⟩
  | string h => exact ⟨[], _, rfl, by rw [h.1]; decide⟩
  | array _ _ hc => exact ⟨_ :: _, _, rfl, by rw [hc]; decide⟩

theorem Initializer.exists_concat {shape : Option Shape} {e : Expr} (h : Initializer shape e ts) :
    ∃ front last, ts = front ++ [last] ∧ last.kind ≠ .semicolon := by
  cases h with
  | operand h => exact h.exists_concat
  | @binary _ _ _ left sign last _ _ _ ha =>
    exact ⟨left ++ [sign], last, by simp, ha.kind_ne⟩

/-- No phrase ends in a semicolon. -/
theorem Phrase.exists_concat (h : Phrase node ts) :
    ∃ front last, ts = front ++ [last] ∧ last.kind ≠ .semicolon := by
  cases h with
  | @declare first name equals _ _ _ _ typing value _ _ _ _ hv _ =>
    obtain ⟨front, last, rfl, hlast⟩ := hv.exists_concat
    exact ⟨first :: (typing ++ name :: equals :: front), last, by simp, hlast⟩
  | loop _ _ _ _ ho => exact ⟨[_, _, _, _], _, rfl, by rw [ho]; decide⟩
  | endLoop h => exact ⟨[], _, rfl, by rw [h]; decide⟩
  | function _ _ _ _ _ _ _ _ _ hb => exact ⟨[_, _, _, _, _, _, _, _, _], _, rfl, by rw [hb]; decide⟩
  | result _ _ hc => exact ⟨[_, _], _, rfl, by rw [hc]; decide⟩
  | resultTerminated _ _ _ hc => exact ⟨[_, _, _], _, rfl, by rw [hc]; decide⟩
  | print _ _ _ hc => exact ⟨[_, _, _], _, rfl, by rw [hc]; decide⟩

/-- A segment without its terminator is a phrase. -/
theorem Segment.phrase_of_append {body t : List Token} (h : Segment node (body ++ t))
    (hb : Unterminated body) (ht : Terminator t) : Phrase node body := by
  generalize hts : body ++ t = ts at h
  cases h with
  | bare hp =>
    cases ht with
    | missing => rwa [← hts, List.append_nil] at hp
    | present hs =>
      obtain ⟨front, last, hconcat, hlast⟩ := hp.exists_concat
      obtain ⟨_, heq⟩ := List.append_inj' (hts.trans hconcat) rfl
      cases heq
      exact absurd hs hlast
  | @terminated phrase s hp hs =>
    cases ht with
    | missing =>
      rw [List.append_nil] at hts
      rw [hts, unterminated_concat] at hb
      exact absurd hs hb
    | present _ =>
      obtain ⟨rfl, _⟩ := List.append_inj' hts rfl
      exact hp

theorem Phrase.segment_append {body t : List Token} (h : Phrase node body) (ht : Terminator t) :
    Segment node (body ++ t) := by
  cases ht with
  | missing =>
    rw [List.append_nil]
    exact .bare h
  | present hs => exact .terminated h hs

/-! ## Returned values -/

theorem Phrase.result_of_append {e : Expr} {first value closing : Token} {inner inner' : List Token}
    (h : Phrase (.result e) (first :: value :: (inner ++ [closing]))) (hi : Terminator inner)
    (hi' : Terminator inner') : Phrase (.result e) (first :: value :: (inner' ++ [closing])) := by
  obtain ⟨hk, he, hc⟩ : first.kind = .result ∧ Atom e value ∧ closing.kind = .rightBrace := by
    cases hi with
    | missing => cases h with | result hk he hc => exact ⟨hk, he, hc⟩
    | present => cases h with | resultTerminated hk he _ hc => exact ⟨hk, he, hc⟩
  cases hi' with
  | missing => exact .result hk he hc
  | present ht => exact .resultTerminated hk he ht hc

/-! ## Array literals -/

/-- The items of an array literal are its numbers in order, commas aside. -/
theorem items_iff {ns : List Number} :
    Items ns ts ↔ List.Forall₂ Counted ns (ts.filter (·.kind ≠ .comma)) := by
  constructor
  · intro h
    induction h with
    | nil => exact .nil
    | number hn _ ih =>
      rw [List.filter_cons_of_pos (by simp [hn.1])]
      exact .cons hn ih
    | comma hk _ ih =>
      rw [List.filter_cons_of_neg (by simp [hk])]
      exact ih
  · intro h
    induction ts generalizing ns with
    | nil =>
      cases h
      exact .nil
    | cons t ts ih =>
      by_cases hk : t.kind = .comma
      · rw [List.filter_cons_of_neg (by simp [hk])] at h
        exact .comma hk (ih h)
      · rw [List.filter_cons_of_pos (by simp [hk])] at h
        cases h with
        | cons hn hrest => exact .number hn (ih hrest)

theorem Items.kind_ne {ns : List Number} (h : Items ns ts) : ∀ t ∈ ts, t.kind ≠ .leftBracket := by
  induction h with
  | nil => exact fun _ ht => by cases ht
  | number hn _ ih => exact List.forall_mem_cons.2 ⟨by rw [hn.1]; decide, ih⟩
  | comma hk _ ih => exact List.forall_mem_cons.2 ⟨by rw [hk]; decide, ih⟩

/-- The brackets at the end of a statement and what they enclose can be told from its tokens. -/
theorem brackets_inj {front front' items items' : List Token}
    {opening opening' closing closing' : Token} (ho : opening.kind = .leftBracket)
    (ho' : opening'.kind = .leftBracket) (hi : ∀ t ∈ items, t.kind ≠ .leftBracket)
    (hi' : ∀ t ∈ items', t.kind ≠ .leftBracket) (hc : closing.kind = .rightBracket)
    (hc' : closing'.kind = .rightBracket)
    (h : front ++ opening :: (items ++ [closing]) = front' ++ opening' :: (items' ++ [closing'])) :
    front = front' ∧ opening = opening' ∧ items = items' := by
  have hreverse : (closing :: items.reverse) ++ opening :: front.reverse =
      (closing' :: items'.reverse) ++ opening' :: front'.reverse := by
    simpa using congrArg List.reverse h
  -- from the end of the statement, its last opening bracket is the first
  have hinside : ∀ {c : Token} {xs : List Token}, c.kind = .rightBracket →
      (∀ t ∈ xs, t.kind ≠ .leftBracket) → ∀ t ∈ c :: xs.reverse, t.kind ≠ .leftBracket := by
    intro c xs hc hxs
    refine List.forall_mem_cons.2 ⟨?_, fun t ht => hxs t (List.mem_reverse.1 ht)⟩
    rw [hc]
    decide
  obtain ⟨hitems, hopening, hfront⟩ := run_cons_inj (hinside hc hi) (hinside hc' hi')
    (not_not.2 ho) (not_not.2 ho') hreverse
  obtain ⟨_, hitems⟩ := List.cons.inj hitems
  exact ⟨List.reverse_injective hfront, hopening, List.reverse_injective hitems⟩

/-- The literal of a declared array may be given other commas. -/
theorem Phrase.array_of_append {name : String} {type : VarType} {literal : ArrayLiteral}
    {opening closing : Token} {front items items' : List Token}
    (h : Phrase (.declare name type (.array literal)) (front ++ opening :: (items ++ [closing])))
    (ho : opening.kind = .leftBracket) (hi : ∀ x ∈ items, x.kind ≠ .leftBracket)
    (hc : closing.kind = .rightBracket) (hs : SameButCommas items items') :
    Phrase (.declare name type (.array literal)) (front ++ opening :: (items' ++ [closing])) := by
  generalize hts : front ++ opening :: (items ++ [closing]) = ts at h
  cases h with
  | @declare first nm equals _ shape _ _ typing value hk ht hn he hv hsuits =>
    cases hv with
    | operand hv =>
      cases hv with
      | @array s ns opening' closing' inside ho' hitems hc' =>
        have hcut : front ++ opening :: (items ++ [closing]) =
            (first :: (typing ++ [nm, equals])) ++ opening' :: (inside ++ [closing']) := by
          rw [hts]
          simp
        obtain ⟨rfl, rfl, rfl⟩ := brackets_inj ho ho' hi hitems.kind_ne hc hc' hcut
        have hitems' : Items ns items' := items_iff.2 (hs ▸ items_iff.1 hitems)
        have hphrase := Phrase.declare hk ht hn he (.operand (.array ho hitems' hc)) hsuits
        simpa using hphrase

/-! ## Statements -/

/-- Other terminators and commas leave the tokens of a statement those of the same statement. -/
theorem Repunctuated.segment {us : List Token} (h : Repunctuated node ts us)
    (hs : Segment node ts) : Segment node us := by
  cases h with
  | statement hb ht ht' => exact (hs.phrase_of_append hb ht).segment_append ht'
  | @result e first value closing inner inner' t t' hc hi hi' ht ht' =>
    have hsplit : ∀ inner t : List Token, first :: value :: (inner ++ closing :: t) =
        (first :: value :: (inner ++ [closing])) ++ t := fun _ _ => by simp
    rw [hsplit] at hs ⊢
    have hb : Unterminated (first :: value :: (inner ++ [closing])) := by
      rw [← List.cons_append, ← List.cons_append]
      exact unterminated_concat.2 (by rw [hc]; decide)
    exact ((hs.phrase_of_append hb ht).result_of_append hi hi').segment_append ht'
  | @array name type literal opening closing front items items' t t' ho hi hc hsame ht ht' =>
    have hsplit : ∀ items t : List Token, front ++ opening :: (items ++ closing :: t) =
        (front ++ opening :: (items ++ [closing])) ++ t := fun _ _ => by simp
    rw [hsplit] at hs ⊢
    have hb : Unterminated (front ++ opening :: (items ++ [closing])) := by
      rw [← List.cons_append, ← List.append_assoc]
      exact unterminated_concat.2 (by rw [hc]; decide)
    exact ((hs.phrase_of_append hb ht).array_of_append ho hi hc hsame).segment_append ht'

/-- The first token of a statement is none of these. -/
theorem Repunctuated.head?_eq {us : List Token} (h : Repunctuated node ts us)
    (hs : Segment node ts) : us.head? = ts.head? := by
  cases h with
  | statement hb ht _ =>
    obtain ⟨first, later, rfl, _⟩ := (hs.phrase_of_append hb ht).exists_cons
    rfl
  | result => rfl
  | @array _ _ _ _ _ front => cases front <;> rfl

/-- The tokens `own` are those of a statement, which is placed at the first of them. -/
structure WrittenAs (e : Entry) (own : List Token) : Prop where
  segment : Segment e.node own
  location : e.location = (own.head?.map (·.location)).getD {}

theorem writtenAs_of_parse {entries : List Entry} (h : parse ts = .ok entries) {e : Entry}
    (he : e ∈ entries) : WrittenAs e (ts.extract e.span.start e.span.stop) := by
  obtain ⟨nodes, segments, hs, rfl, rfl⟩ := exists_placed_of_parse h
  obtain ⟨before, own, after, hflat, hown, heq⟩ := exists_segment_of_mem_placed hs he
  rw [Nat.zero_add] at heq
  have hextract : segments.flatten.extract e.span.start e.span.stop = own := by
    rw [hflat, heq]
    exact extract_append before own after
  rw [hextract]
  exact ⟨hown, congrArg Entry.location heq⟩

theorem Repunctuated.writtenAs {e : Entry} {us : List Token} (h : Repunctuated e.node ts us)
    (he : WrittenAs e ts) : WrittenAs e us where
  segment := h.segment he.segment
  location := by
    rw [h.head?_eq he.segment]
    exact he.location

/-- Statements are read from any tokens they are written as, at the same places. -/
theorem exists_parse_of_writtenAs {entries : List Entry} {segments : List (List Token)}
    (h : List.Forall₂ WrittenAs entries segments) :
    ∃ others, parse segments.flatten = .ok others ∧
      others.map (fun e => (e.node, e.location)) = entries.map fun e => (e.node, e.location) := by
  have hsegments : List.Forall₂ Segment (entries.map (·.node)) segments :=
    List.forall₂_map_left_iff.2 (h.imp fun _ _ he => he.segment)
  refine ⟨_, parse_flatten hsegments, ?_⟩
  clear hsegments
  generalize 0 = position
  induction h generalizing position with
  | nil => rfl
  | cons he _ ih => simp only [List.map_cons, placed, ih, he.location]

/-! ## The separator in the type of an array -/

/-- The semicolon of an array's type is the fifth token of its declaration. -/
theorem Phrase.exists_separator {name : String} {value : Expr}
    (h : Phrase (.declare name .array value) ts) :
    ∃ first word opening element separator length closing own rest,
      ts = first :: word :: opening :: element :: separator :: length :: closing :: own :: rest ∧
      first.kind = .declare ∧ word.lexeme = .text VarType.array.name ∧
      separator.kind = .semicolon ∧ own.kind = .identifier := by
  cases h with
  | declare hk ht hn _ _ _ =>
    cases ht with
    | scalar hne _ => exact absurd rfl hne
    | array hw _ _ hs _ _ => exact ⟨_, _, _, _, _, _, _, _, _, rfl, hk, hw, hs, hn.1⟩

/-- The sixth token of an array's type is its closing bracket. -/
theorem TypePhrase.kind_of_append {type : VarType} {shape : Option Shape}
    {typing later rest : List Token} {word a b c d x : Token} (h : TypePhrase type shape typing)
    (hw : word.lexeme = .text VarType.array.name)
    (hts : typing ++ later = word :: a :: b :: c :: d :: x :: rest) : x.kind = .rightBracket := by
  cases h with
  | scalar hne hname =>
    obtain ⟨rfl, _⟩ := List.cons.inj hts
    rw [hname, Token.Lexeme.text.injEq] at hw
    exact absurd (by simpa using congrArg VarType.ofName? hw) hne
  | array _ _ _ _ _ hc =>
    simp only [List.cons_append, List.cons.injEq] at hts
    obtain ⟨_, _, _, _, _, rfl, _⟩ := hts
    exact hc

/-- A declared array is not read if no bracket closes its type in its place. -/
theorem exists_error_of_array {first word a b c d x : Token} {rest : List Token}
    (hk : first.kind = .declare) (hw : word.lexeme = .text VarType.array.name)
    (hx : x.kind ≠ .rightBracket) :
    ∃ fault, terminated first (word :: a :: b :: c :: d :: x :: rest) = .error fault := by
  cases hread : terminated first (word :: a :: b :: c :: d :: x :: rest) with
  | error fault => exact ⟨fault, rfl⟩
  | ok read =>
    rw [terminated, bind_eq_ok] at hread
    obtain ⟨node, later, hstatement, _⟩ := hread
    obtain ⟨phrase, hp, hts⟩ := exists_statementAfter hstatement
    cases hp with
    | declare _ ht _ _ _ _ =>
      rw [List.append_assoc] at hts
      exact absurd (ht.kind_of_append hw hts.symm) hx
    | loop h | endLoop h | function h | result h | resultTerminated h | print h =>
      exact absurd (hk.symm.trans h) (by decide)

theorem Covers.program {position : Nat} {es : List Entry} (h : Covers position es ts) :
    Program (es.map (·.node)) ts := by
  induction h with
  | nil => exact ⟨[], .nil, rfl⟩
  | @cons _ _ _ segment _ hs _ _ ih =>
    obtain ⟨segments, hsegments, rfl⟩ := ih
    exact ⟨segment :: segments, .cons hs hsegments, rfl⟩

theorem exists_error_of_program {nodes : List Node} {before later : List Token} {first : Token}
    (h : Program nodes before) (hk : first.kind = .declare)
    (hf : ∃ fault, terminated first later = .error fault) :
    ∃ error, parse (before ++ first :: later) = .error error := by
  obtain ⟨segments, hs, rfl⟩ := h
  obtain ⟨fault, hfault⟩ := hf
  have hread := read_append (by rw [read_flatten hs 0])
    (avoids_cons.2 (by rw [hk]; decide) : Avoids _ (first :: later))
  rw [read_of_error hfault] at hread
  cases hp : parse (segments.flatten ++ first :: later) with
  | error error => exact ⟨error, rfl⟩
  | ok entries =>
    rw [parse_eq_ok, hread] at hp
    cases hp

/-- Without the semicolon in the type of an array the tokens are no program. -/
theorem exists_error_of_eraseIdx {entries : List Entry} (h : parse ts = .ok entries) {e : Entry}
    (he : e ∈ entries) {name : String} {value : Expr}
    (hnode : e.node = .declare name .array value) :
    ts[e.span.start + 4]?.map (·.kind) = some .semicolon ∧
      ∃ error, parse (ts.eraseIdx (e.span.start + 4)) = .error error := by
  obtain ⟨earlier, later, rfl⟩ := List.append_of_mem he
  obtain ⟨before, rest, rfl, hbefore, hrest⟩ := (covers_of_parse h).exists_append
  cases hrest with
  | @cons _ _ _ segment after hsegment hspan _ =>
    rw [hnode] at hsegment
    obtain ⟨phrase, terminator, hp, rfl⟩ := hsegment.exists_phrase
    obtain ⟨first, word, opening, element, separator, length, closing, own, value, rfl, hk, hw, hs,
      hown⟩ := hp.exists_separator
    rw [hspan, Nat.zero_add]
    refine ⟨by simp [hs], ?_⟩
    rw [List.eraseIdx_append_of_length_le (by simp), Nat.add_sub_cancel_left]
    exact exists_error_of_program hbefore.program hk
      (exists_error_of_array hk hw (by rw [hown]; decide))

/-! ## Programs -/

/-- **Punctuation.** With other terminators and other commas in array literals, all at once, the
tokens of a program are read as the same statements at the same places. The semicolon in the type of
an array is no terminator: without it they are not read. -/
theorem parse_repunctuated {entries : List Entry} {segments : List (List Token)}
    (h : parse ts = .ok entries)
    (hs : List.Forall₂ (fun e segment =>
      Repunctuated e.node (ts.extract e.span.start e.span.stop) segment) entries segments) :
    (∃ others, parse segments.flatten = .ok others ∧
      others.map (fun e => (e.node, e.location)) = entries.map fun e => (e.node, e.location)) ∧
    ∀ e ∈ entries, ∀ name value, e.node = .declare name .array value →
      ts[e.span.start + 4]?.map (·.kind) = some .semicolon ∧
        ∃ error, parse (ts.eraseIdx (e.span.start + 4)) = .error error := by
  have hwritten : List.Forall₂ WrittenAs entries segments := by
    rw [List.forall₂_iff_get] at hs ⊢
    refine ⟨hs.1, fun i hi hj => ?_⟩
    exact (hs.2 i hi hj).writtenAs (writtenAs_of_parse h (List.get_mem entries ⟨i, hi⟩))
  exact ⟨exists_parse_of_writtenAs hwritten,
    fun e he name value hnode => exists_error_of_eraseIdx h he hnode⟩

/-- A token of a kind that has one spelling. -/
def markToken (kind : Token.Kind) : Token := ⟨kind, .text (kind.spelling?.getD ""), {}⟩

def nameToken (s : String) : Token := ⟨.identifier, .text s, {}⟩

def intToken (n : Int) : Token := ⟨.number, .number (.int n), {}⟩

/-- The declaration of an array of two, up to its literal. -/
def arrayFront : List Token :=
  [markToken .declare, nameToken "array", markToken .leftBracket, nameToken "int",
    markToken .semicolon, intToken 2, markToken .rightBracket, nameToken "a", markToken .equals]

/-- A returned value with a semicolon before its brace, and an array with a comma between its
values. -/
def returnThenArray : List Token :=
  [markToken .result, nameToken "n", markToken .semicolon, markToken .rightBrace] ++
    (arrayFront ++ [markToken .leftBracket, intToken 1, markToken .comma, intToken 2,
      markToken .rightBracket])

/-- The semicolon after the brace, commas around the values, and a semicolon at the end. -/
def returnThenArrayOtherwise : List (List Token) :=
  [[markToken .result, nameToken "n", markToken .rightBrace, markToken .semicolon],
    arrayFront ++ [markToken .leftBracket, markToken .comma, intToken 1, intToken 2,
      markToken .comma, markToken .rightBracket, markToken .semicolon]]

def returnThenArrayEntries : List Entry :=
  [⟨.result (.variable "n"), ⟨0, 4⟩, {}⟩,
    ⟨.declare "a" .array (.array ⟨"int", 2, [.int 1, .int 2]⟩), ⟨4, 18⟩, {}⟩]

theorem parse_repunctuated_returnThenArray :
    parse returnThenArray = .ok returnThenArrayEntries ∧
      List.Forall₂ (fun e segment => Repunctuated e.node
        (returnThenArray.extract e.span.start e.span.stop) segment)
        returnThenArrayEntries returnThenArrayOtherwise ∧
      (∃ others, parse returnThenArrayOtherwise.flatten = .ok others ∧
        others.map (fun e => (e.node, e.location)) =
          returnThenArrayEntries.map fun e => (e.node, e.location)) ∧
      ∃ error, parse (returnThenArray.eraseIdx 8) = .error error := by
  have h : parse returnThenArray = .ok returnThenArrayEntries := by decide +kernel
  have hresult := @Repunctuated.result (.variable "n") (markToken .result) (nameToken "n")
    (markToken .rightBrace) [markToken .semicolon] [] [] [markToken .semicolon] rfl (.present rfl)
    .missing .missing (.present rfl)
  have harray := @Repunctuated.array "a" .array ⟨"int", 2, [.int 1, .int 2]⟩
    (markToken .leftBracket) (markToken .rightBracket) arrayFront
    [intToken 1, markToken .comma, intToken 2]
    [markToken .comma, intToken 1, intToken 2, markToken .comma] [] [markToken .semicolon] rfl
    (by simp [intToken, markToken]) rfl rfl .missing (.present rfl)
  have hs : List.Forall₂ (fun e segment => Repunctuated e.node
      (returnThenArray.extract e.span.start e.span.stop) segment)
      returnThenArrayEntries returnThenArrayOtherwise :=
    .cons hresult (.cons harray .nil)
  obtain ⟨hsame, hseparator⟩ := parse_repunctuated h hs
  exact ⟨h, hs, hsame, (hseparator _ (List.mem_cons_of_mem _ List.mem_cons_self) _ _ rfl).2⟩

end FuzzLang.Grammar
