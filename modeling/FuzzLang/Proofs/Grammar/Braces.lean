import FuzzLang.Proofs.Grammar.Tiling
import FuzzLang.Proofs.Outline.Blocks
import FuzzLang.Proofs.Token.Lexeme
import Mathlib.Data.List.ReduceOption

/-!
# Braces

The braces of a token list walk up and down as those of its statements do: a statement that is no
declaration has one brace or none among its tokens (`Segment.filterMap_step?`). The ends of a block
of statements are therefore matched as tokens too (`Covers.paired`).

The type and the length in a declaration are read whatever the kind of their tokens, so in a stream
put together by hand a brace can stand there (`strayBrace`). Such a brace opens or closes nothing
and is passed over (`steps`). In the tokens of a source there is none (`steps_of_tokenize`).
-/

namespace FuzzLang

/-- Up for an opening brace, down for a closing one. -/
def Token.Kind.step? : Kind → Option DyckStep
  | .leftBrace => some .U
  | .rightBrace => some .D
  | _ => none

/-- The step that a token makes. -/
def Token.step? (t : Token) : Option DyckStep := t.kind.step?

namespace Grammar

open Outline (Built Encloses Piece)

/-! ## Braces and their partners -/

/-- Whether the token at `i` belongs to a declaration. -/
def Declared (entries : List Entry) (i : Nat) : Prop :=
  ∃ e ∈ entries, e.binding?.isSome ∧ e.span.start ≤ i ∧ i < e.span.stop

instance (entries : List Entry) (i : Nat) : Decidable (Declared entries i) :=
  inferInstanceAs
    (Decidable (∃ e ∈ entries, e.binding?.isSome ∧ e.span.start ≤ i ∧ i < e.span.stop))

/-- The steps of tokens, the first of which is at `position`. Declarations make no steps. -/
def steps (entries : List Entry) (position : Nat) (ts : List Token) : List (Option DyckStep) :=
  ts.mapIdx fun i t => if Declared entries (position + i) then none else t.step?

/-- The brace opened at `i` is closed at `j`: what is between the two is well nested. There is one
such `j` at most (`Matched.unique`). -/
def Matched (w : List (Option DyckStep)) (i j : Nat) : Prop :=
  ∃ before inside after, w = before ++ some .U :: (inside ++ some .D :: after) ∧
    WellNested inside.reduceOption ∧ i = before.length ∧ j = before.length + 1 + inside.length

/-- Of the tokens of a statement, the one at `i` makes the step `s` and the others make none. -/
def SoleBrace (ts : List Token) (e : Entry) (s : DyckStep) (i : Nat) : Prop :=
  ∃ before t after, ts.extract e.span.start e.span.stop = before ++ t :: after ∧
    t.step? = some s ∧ (∀ u ∈ before ++ after, u.step? = none) ∧ i = e.span.start + before.length

/-- The one brace of `a` is opened and the one brace of `b` closes it. -/
def Paired (ts : List Token) (entries : List Entry) (a b : Entry) : Prop :=
  ∃ i j, SoleBrace ts a .U i ∧ SoleBrace ts b .D j ∧ Matched (steps entries 0 ts) i j

/-- A brace is closed at one place only. -/
theorem Matched.unique {w : List (Option DyckStep)} {i j j' : Nat} (h : Matched w i j)
    (h' : Matched w i j') : j = j' := by
  obtain ⟨before, inside, after, rfl, hinside, rfl, rfl⟩ := h
  obtain ⟨before', inside', after', hw, hinside', hlength, rfl⟩ := h'
  obtain ⟨rfl, hrest⟩ := List.append_inj hw hlength
  rcases List.append_eq_append_iff.1 (List.cons.inj hrest).2 with ⟨a, rfl, ha⟩ | ⟨a, rfl, ha⟩
  · cases a with
    | nil => rw [List.append_nil]
    | cons x a =>
      obtain ⟨rfl, -⟩ := List.cons.inj ha
      rw [List.reduceOption_append] at hinside'
      exact absurd hinside' hinside.not_append_down
  · cases a with
    | nil => rw [List.append_nil]
    | cons x a =>
      obtain ⟨rfl, -⟩ := List.cons.inj ha
      rw [List.reduceOption_append] at hinside
      exact absurd hinside hinside'.not_append_down

/-! ## The braces of a statement -/

theorem step?_of_kind {t : Token} {kind : Token.Kind} (h : t.kind = kind) :
    t.step? = kind.step? := by
  rw [Token.step?, h]

theorem Named.step? {s : String} {t : Token} (h : Named s t) : t.step? = none := step?_of_kind h.1

theorem Counted.step? {n : Number} {t : Token} (h : Counted n t) : t.step? = none :=
  step?_of_kind h.1

theorem Quoted.step? {s : String} {t : Token} (h : Quoted s t) : t.step? = none :=
  step?_of_kind h.1

theorem Atom.step? {e : Expr} {t : Token} (h : Atom e t) : t.step? = none := by
  cases h with
  | name hn => exact hn.step?
  | number hn => exact hn.step?

/-- A statement that is no declaration has the brace that its step tells of, and no other. -/
theorem Phrase.filterMap_step? {node : Node} {ts : List Token} (h : Phrase node ts)
    (hnode : ∀ name type value, node ≠ .declare name type value) :
    ts.filterMap Token.step? = node.step?.toList := by
  cases h with
  | declare => exact absurd rfl (hnode _ _ _)
  | loop hf hx hk hxs ho =>
    simp [step?_of_kind hf, hx.step?, hk.step?, hxs.step?, step?_of_kind ho, Token.Kind.step?,
      Node.step?]
  | endLoop hc => simp [step?_of_kind hc, Token.Kind.step?, Node.step?]
  | function hf hn ho hx hc ha hcl har hb hbo =>
    simp [step?_of_kind hf, hn.step?, step?_of_kind ho, hx.step?, step?_of_kind hc, ha.step?,
      step?_of_kind hcl, step?_of_kind har, hb.step?, step?_of_kind hbo, Token.Kind.step?,
      Node.step?]
  | result hf hv hc =>
    simp [step?_of_kind hf, hv.step?, step?_of_kind hc, Token.Kind.step?, Node.step?]
  | resultTerminated hf hv ht hc =>
    simp [step?_of_kind hf, hv.step?, step?_of_kind ht, step?_of_kind hc, Token.Kind.step?,
      Node.step?]
  | print hf ho hv hc =>
    simp [step?_of_kind hf, step?_of_kind ho, hv.step?, step?_of_kind hc, Token.Kind.step?,
      Node.step?]

theorem Segment.filterMap_step? {node : Node} {ts : List Token} (h : Segment node ts)
    (hnode : ∀ name type value, node ≠ .declare name type value) :
    ts.filterMap Token.step? = node.step?.toList := by
  cases h with
  | bare hp => exact hp.filterMap_step? hnode
  | terminated hp ht =>
    rw [List.filterMap_append, hp.filterMap_step? hnode]
    simp [step?_of_kind ht, Token.Kind.step?]

/-! ## Statements and the tokens they cover -/

/-- The statements are those of the tokens, the first of which is at a position. -/
inductive Covers : Nat → List Entry → List Token → Prop
  | nil {position : Nat} : Covers position [] []
  | cons {position : Nat} {e : Entry} {es : List Entry} {segment ts : List Token} :
    Segment e.node segment → e.span = ⟨position, position + segment.length⟩ →
    Covers (position + segment.length) es ts → Covers position (e :: es) (segment ++ ts)

theorem covers_placed {nodes : List Node} {segments : List (List Token)}
    (h : List.Forall₂ Segment nodes segments) (position : Nat) :
    Covers position (placed position nodes segments) segments.flatten := by
  induction h generalizing position with
  | nil => exact .nil
  | cons hs _ ih => exact .cons hs rfl (ih _)

theorem covers_of_parse {ts : List Token} {entries : List Entry} (h : parse ts = .ok entries) :
    Covers 0 entries ts := by
  obtain ⟨nodes, segments, hs, rfl, rfl⟩ := exists_placed_of_parse h
  exact covers_placed hs 0

namespace Covers

variable {position : Nat} {es : List Entry} {ts : List Token}

/-- Statements that come in two parts cover the tokens in two parts. -/
theorem exists_append {before after : List Entry} (h : Covers position (before ++ after) ts) :
    ∃ us vs, ts = us ++ vs ∧ Covers position before us ∧
      Covers (position + us.length) after vs := by
  induction before generalizing position ts with
  | nil => exact ⟨[], ts, rfl, .nil, h⟩
  | cons e before ih =>
    cases h with
    | @cons _ _ _ segment ts hs hspan hrest =>
      obtain ⟨us, vs, rfl, hus, hvs⟩ := ih hrest
      refine ⟨segment ++ us, vs, by rw [List.append_assoc], .cons hs hspan hus, ?_⟩
      rw [List.length_append, ← Nat.add_assoc]
      exact hvs

theorem le_start (h : Covers position es ts) {e : Entry} (he : e ∈ es) :
    position ≤ e.span.start := by
  induction h with
  | nil => cases he
  | cons hs hspan _ ih =>
    rcases List.mem_cons.1 he with rfl | he
    · rw [hspan]
    · exact Nat.le_of_add_right_le (ih he)

/-- A token belongs to one statement only. -/
theorem eq_of_mem (h : Covers position es ts) {e f : Entry} (he : e ∈ es) (hf : f ∈ es) {i : Nat}
    (hestart : e.span.start ≤ i) (hestop : i < e.span.stop) (hfstart : f.span.start ≤ i)
    (hfstop : i < f.span.stop) : e = f := by
  induction h with
  | nil => cases he
  | @cons position head es segment ts hs hspan hrest ih =>
    have hstop : head.span.stop = position + segment.length := by rw [hspan]
    rcases List.mem_cons.1 he with rfl | helater
    · rcases List.mem_cons.1 hf with rfl | hflater
      · rfl
      · have hlater := hrest.le_start hflater
        omega
    · rcases List.mem_cons.1 hf with rfl | hflater
      · have hlater := hrest.le_start helater
        omega
      · exact ih helater hflater

theorem declared_iff (h : Covers position es ts) {e : Entry} (he : e ∈ es) {i : Nat}
    (hstart : e.span.start ≤ i) (hstop : i < e.span.stop) :
    Declared es i ↔ e.binding?.isSome := by
  constructor
  · rintro ⟨f, hf, hb, hfstart, hfstop⟩
    rwa [h.eq_of_mem he hf hstart hstop hfstart hfstop]
  · exact fun hb => ⟨e, he, hb, hstart, hstop⟩

theorem exists_segment (h : Covers position es ts) {e : Entry} (he : e ∈ es) {i : Nat} {t : Token}
    (ht : ts[i]? = some t) (hstart : e.span.start ≤ position + i)
    (hstop : position + i < e.span.stop) :
    ∃ segment, Segment e.node segment ∧ segment ⊆ ts ∧ t ∈ segment := by
  obtain ⟨before, after, rfl⟩ := List.append_of_mem he
  obtain ⟨us, rest, rfl, -, hrest⟩ := h.exists_append
  cases hrest with
  | @cons _ _ _ segment rest hs hspan =>
    simp only [hspan] at hstart hstop
    rw [List.getElem?_append_right (by omega), List.getElem?_append_left (by omega)] at ht
    refine ⟨segment, hs, fun u hu => ?_, List.mem_of_getElem? ht⟩
    exact List.mem_append_right _ (List.mem_append_left _ hu)

end Covers

/-! ## The steps of tokens and of statements -/

section Steps

variable {entries : List Entry}

theorem steps_append (position : Nat) (us vs : List Token) :
    steps entries position (us ++ vs) =
      steps entries position us ++ steps entries (position + us.length) vs := by
  simp only [steps, List.mapIdx_append, Nat.add_assoc, Nat.add_comm us.length]

theorem steps_cons (position : Nat) (t : Token) (ts : List Token) :
    steps entries position (t :: ts) =
      (if Declared entries position then none else t.step?) :: steps entries (position + 1) ts := by
  simp only [steps, List.mapIdx_cons, Nat.add_zero, Nat.add_assoc, Nat.add_comm 1]

theorem length_steps (position : Nat) (ts : List Token) :
    (steps entries position ts).length = ts.length := List.length_mapIdx

theorem steps_eq_map {ts : List Token} {position : Nat} {f : Token → Option DyckStep}
    (h : ∀ i t, ts[i]? = some t →
      (if Declared entries (position + i) then none else t.step?) = f t) :
    steps entries position ts = ts.map f := by
  refine List.ext_getElem? fun i => ?_
  rw [steps, List.getElem?_mapIdx, List.getElem?_map]
  cases ht : ts[i]? with
  | none => rfl
  | some t => exact congrArg some (h i t ht)

/-- Where no brace stands in a declaration, all braces make steps. -/
theorem steps_of_plain {ts : List Token}
    (h : ∀ i t, ts[i]? = some t → Declared entries i → t.step? = none) :
    steps entries 0 ts = ts.map Token.step? := by
  refine steps_eq_map fun i t hi => ?_
  rw [Nat.zero_add]
  split
  · exact (h i t hi ‹_›).symm
  · rfl

theorem reduceOption_map (f : Token → Option DyckStep) (ts : List Token) :
    (ts.map f).reduceOption = ts.filterMap f := by
  rw [List.reduceOption, List.filterMap_map]
  rfl

/-- Tokens that are no braces make no steps. -/
theorem reduceOption_steps_of_none {ts : List Token} (h : ∀ t ∈ ts, t.step? = none)
    (position : Nat) : (steps entries position ts).reduceOption = [] := by
  have hmap : steps entries position ts = ts.map fun _ => none := by
    refine steps_eq_map fun i t ht => ?_
    rw [h t (List.mem_of_getElem? ht), ite_self]
  rw [hmap, reduceOption_map, List.filterMap_none]

/-- The tokens of a statement make its step. -/
theorem Covers.reduceOption_steps_segment {ts : List Token} (h : Covers 0 entries ts) {e : Entry}
    (he : e ∈ entries) {segment : List Token} (hs : Segment e.node segment) {position : Nat}
    (hspan : e.span = ⟨position, position + segment.length⟩) :
    (steps entries position segment).reduceOption = e.node.step?.toList := by
  have hdeclared : ∀ i t, segment[i]? = some t →
      (Declared entries (position + i) ↔ e.binding?.isSome) := by
    intro i t ht
    have hi := (List.getElem?_eq_some_iff.1 ht).1
    exact h.declared_iff he (by rw [hspan]; simp) (by rw [hspan]; simpa using hi)
  by_cases hb : e.binding?.isSome
  · have hmap : steps entries position segment = segment.map fun _ => none := by
      refine steps_eq_map fun i t ht => ?_
      rw [if_pos ((hdeclared i t ht).2 hb)]
    rw [hmap, reduceOption_map, List.filterMap_none, Entry.step?_of_binding? hb, Option.toList_none]
  · have hmap : steps entries position segment = segment.map Token.step? := by
      refine steps_eq_map fun i t ht => ?_
      rw [if_neg (mt (hdeclared i t ht).1 hb)]
    rw [hmap, reduceOption_map]
    refine hs.filterMap_step? fun name type value hnode => hb ?_
    rw [Entry.binding?, hnode]
    rfl

/-- The tokens of statements make the steps of the statements. -/
theorem Covers.reduceOption_steps {all : List Token} (h : Covers 0 entries all) {position : Nat}
    {es : List Entry} {ts : List Token} (hes : Covers position es ts) (hsub : es ⊆ entries) :
    (steps entries position ts).reduceOption = braces es := by
  induction hes with
  | nil => rfl
  | cons hs hspan _ ih =>
    obtain ⟨he, hrest⟩ := List.cons_subset.1 hsub
    rw [steps_append, List.reduceOption_append, h.reduceOption_steps_segment he hs hspan, ih hrest,
      braces_cons]

/-- Two braces are matched when the tokens between them are well nested. -/
theorem matched_of_steps {before inside after : List Token} {t t' : Token}
    (ht : (if Declared entries before.length then none else t.step?) = some .U)
    (ht' : (if Declared entries (before.length + 1 + inside.length) then none else t'.step?) =
      some .D)
    (hinside : WellNested (steps entries (before.length + 1) inside).reduceOption) :
    Matched (steps entries 0 (before ++ t :: (inside ++ t' :: after))) before.length
      (before.length + 1 + inside.length) := by
  refine ⟨steps entries 0 before, steps entries (before.length + 1) inside,
    steps entries (before.length + 1 + inside.length + 1) after, ?_, hinside, ?_, ?_⟩
  · rw [steps_append, steps_cons, steps_append, steps_cons, Nat.zero_add, ht, ht']
  · rw [length_steps]
  · rw [length_steps, length_steps]

end Steps

/-! ## Blocks of statements and of tokens -/

/-- A statement with a brace has one such token. -/
theorem Segment.exists_brace {node : Node} {segment : List Token} (h : Segment node segment)
    {s : DyckStep} (hs : node.step? = some s) :
    ∃ before t after, segment = before ++ t :: after ∧ t.step? = some s ∧
      (∀ u ∈ before, u.step? = none) ∧ ∀ u ∈ after, u.step? = none := by
  have hword := h.filterMap_step? (fun name type value hnode => by simp [hnode, Node.step?] at hs)
  rw [hs, Option.toList_some] at hword
  obtain ⟨before, t, after, rfl, hbefore, ht, hafter⟩ := List.filterMap_eq_cons_iff.1 hword
  exact ⟨before, t, after, rfl, ht, hbefore, List.filterMap_eq_nil_iff.1 hafter⟩

/-- The next statement, if it has a brace, and where that brace is. -/
theorem Covers.exists_brace {entries es : List Entry} {us ts : List Token} {e : Entry}
    (hall : Covers 0 entries (us ++ ts)) (h : Covers us.length (e :: es) ts) (he : e ∈ entries)
    {s : DyckStep} (hs : e.node.step? = some s) :
    ∃ before t after rest, ts = before ++ t :: after ++ rest ∧
      Covers (us ++ (before ++ t :: after)).length es rest ∧
      (∀ u ∈ before, u.step? = none) ∧ (∀ u ∈ after, u.step? = none) ∧
      (if Declared entries (us ++ before).length then none else t.step?) = some s ∧
      SoleBrace (us ++ ts) e s (us ++ before).length := by
  cases h with
  | @cons _ _ _ segment rest hsegment hspan hrest =>
    obtain ⟨before, t, after, rfl, ht, hbefore, hafter⟩ := hsegment.exists_brace hs
    rw [← List.length_append] at hrest
    have hdeclared : ¬ Declared entries (us ++ before).length := by
      rw [hall.declared_iff he (by rw [hspan]; simp) (by rw [hspan]; simp)]
      intro hb
      rw [Entry.step?_of_binding? hb] at hs
      cases hs
    refine ⟨before, t, after, rest, rfl, hrest, hbefore, hafter, ?_, before, t, after, ?_, ht, ?_,
      ?_⟩
    · rw [if_neg hdeclared, ht]
    · rw [hspan]
      exact extract_append _ _ _
    · intro u hu
      rcases List.mem_append.1 hu with hu | hu
      · exact hbefore u hu
      · exact hafter u hu
    · rw [hspan, List.length_append]

/-- The ends of a block have one brace each, and these are matched. -/
theorem Covers.paired {entries : List Entry} {ts : List Token} (h : Covers 0 entries ts)
    {a b : Entry} (hab : Encloses entries a b) : Paired ts entries a b := by
  obtain ⟨before, inside, after, hentries, ha, hb, hinside⟩ := hab
  have hsub : inside ⊆ entries := by
    intro e he
    simp [hentries, he]
  have hsplit := h
  rw [hentries] at hsplit
  obtain ⟨us, rest, rfl, -, hrest⟩ := hsplit.exists_append
  rw [Nat.zero_add] at hrest
  obtain ⟨x, t, y, rest, rfl, hrest, -, hy, ht, hopening⟩ :=
    h.exists_brace hrest (by simp [hentries]) ha
  obtain ⟨vs, rest, rfl, hvs, hrest⟩ := hrest.exists_append
  rw [← List.length_append] at hrest
  rw [← List.append_assoc us, ← List.append_assoc _ vs] at h hopening ⊢
  obtain ⟨x', t', y', rest, rfl, -, hx', -, ht', hclosing⟩ :=
    h.exists_brace hrest (by simp [hentries]) hb
  have hplace : (us ++ (x ++ t :: y) ++ vs ++ x').length =
      (us ++ x).length + 1 + (y ++ (vs ++ x')).length := by
    simp only [List.length_append, List.length_cons]
    omega
  have hblock : us ++ (x ++ t :: y) ++ vs ++ (x' ++ t' :: y' ++ rest) =
      us ++ x ++ t :: (y ++ (vs ++ x') ++ t' :: (y' ++ rest)) := by
    simp
  have hposition : (us ++ x).length + 1 + y.length = (us ++ (x ++ t :: y)).length := by
    simp only [List.length_append, List.length_cons]
    omega
  have hword : (steps entries ((us ++ x).length + 1) (y ++ (vs ++ x'))).reduceOption =
      braces inside := by
    rw [steps_append, steps_append, List.reduceOption_append, List.reduceOption_append,
      reduceOption_steps_of_none hy, reduceOption_steps_of_none hx', hposition,
      h.reduceOption_steps hvs hsub, List.nil_append, List.append_nil]
  rw [hplace] at ht' hclosing
  refine ⟨_, _, hopening, hclosing, ?_⟩
  rw [hblock]
  refine matched_of_steps ht ht' ?_
  rw [hword]
  exact hinside

/-! ## Declarations in a source -/

theorem Items.step? {ns : List Number} {ts : List Token} (h : Items ns ts) :
    ∀ t ∈ ts, t.step? = none := by
  induction h with
  | nil => nofun
  | number hn _ ih => exact List.forall_mem_cons.2 ⟨hn.step?, ih⟩
  | comma hc _ ih => exact List.forall_mem_cons.2 ⟨step?_of_kind hc, ih⟩

theorem Operand.step? {shape : Option Shape} {e : Expr} {ts : List Token} (h : Operand shape e ts) :
    ∀ t ∈ ts, t.step? = none := by
  cases h with
  | name hn => simp [hn.step?]
  | call hn ho ha hc =>
    simp [hn.step?, step?_of_kind ho, ha.step?, step?_of_kind hc, Token.Kind.step?]
  | number hn => simp [hn.step?]
  | string hq => simp [hq.step?]
  | array ho hi hc =>
    refine List.forall_mem_cons.2 ⟨step?_of_kind ho, List.forall_mem_append.2 ⟨hi.step?, ?_⟩⟩
    simp [step?_of_kind hc, Token.Kind.step?]

theorem Initializer.step? {shape : Option Shape} {e : Expr} {ts : List Token}
    (h : Initializer shape e ts) : ∀ t ∈ ts, t.step? = none := by
  cases h with
  | operand ho => exact ho.step?
  | binary ho hk _ ha =>
    refine List.forall_mem_append.2 ⟨ho.step?, ?_⟩
    simp [step?_of_kind hk, ha.step?, Token.Kind.step?]

/-- A token that is spelled as its kind says, and not as a brace, is no brace. -/
theorem step?_of_lexeme {t : Token} (h : ∀ s, t.kind.spelling? = some s → t.lexeme = .text s)
    (hopen : t.lexeme ≠ .text "\x7b") (hclose : t.lexeme ≠ .text "\x7d") : t.step? = none := by
  cases hk : t.kind with
  | leftBrace => exact absurd (h _ (by rw [hk]; rfl)) hopen
  | rightBrace => exact absurd (h _ (by rw [hk]; rfl)) hclose
  | _ => exact step?_of_kind hk

theorem TypePhrase.step? {type : VarType} {shape : Option Shape} {ts : List Token}
    (h : TypePhrase type shape ts)
    (hspelled : ∀ t ∈ ts, ∀ s, t.kind.spelling? = some s → t.lexeme = .text s) :
    ∀ t ∈ ts, t.step? = none := by
  cases h with
  | @scalar type t _ ht =>
    have hword : t.step? = none := by
      refine step?_of_lexeme (hspelled t List.mem_cons_self) ?_ ?_ <;>
        rw [ht] <;> cases type <;> decide
    simp [hword]
  | @array word opening element separator length closing s n hw ho he hs hl hc =>
    have hword : word.step? = none := by
      refine step?_of_lexeme (hspelled word (by simp)) ?_ ?_ <;> rw [hw] <;> decide
    have hlength : length.step? = none := by
      refine step?_of_lexeme (hspelled length (by simp)) ?_ ?_ <;> rw [hl] <;> nofun
    simp [hword, step?_of_kind ho, he.step?, step?_of_kind hs, hlength, step?_of_kind hc,
      Token.Kind.step?]

theorem Phrase.step?_of_declare {name : String} {type : VarType} {value : Expr} {ts : List Token}
    (h : Phrase (.declare name type value) ts)
    (hspelled : ∀ t ∈ ts, ∀ s, t.kind.spelling? = some s → t.lexeme = .text s) :
    ∀ t ∈ ts, t.step? = none := by
  cases h with
  | declare hf ht hn he hv _ =>
    refine List.forall_mem_cons.2 ⟨step?_of_kind hf, List.forall_mem_append.2 ⟨?_, ?_⟩⟩
    · exact ht.step? fun t hmem => hspelled t (by simp [hmem])
    · exact List.forall_mem_cons.2 ⟨hn.step?, List.forall_mem_cons.2 ⟨step?_of_kind he, hv.step?⟩⟩

theorem Segment.step?_of_declare {name : String} {type : VarType} {value : Expr} {ts : List Token}
    (h : Segment (.declare name type value) ts)
    (hspelled : ∀ t ∈ ts, ∀ s, t.kind.spelling? = some s → t.lexeme = .text s) :
    ∀ t ∈ ts, t.step? = none := by
  cases h with
  | bare hp => exact hp.step?_of_declare hspelled
  | terminated hp ht =>
    refine List.forall_mem_append.2 ⟨?_, List.forall_mem_singleton.2 (step?_of_kind ht)⟩
    exact hp.step?_of_declare fun t hmem => hspelled t (List.mem_append_left _ hmem)

/-- In the tokens of a source no brace stands in a declaration. -/
theorem steps_of_tokenize {source : String} {ts : List Token} {entries : List Entry}
    (ht : Token.tokenize source = .ok ts) (h : Covers 0 entries ts) :
    steps entries 0 ts = ts.map Token.step? := by
  refine steps_of_plain fun i t hi ⟨e, he, hb, hstart, hstop⟩ => ?_
  rw [← Nat.zero_add i] at hstart hstop
  obtain ⟨segment, hsegment, hsub, hmem⟩ := h.exists_segment he hi hstart hstop
  obtain ⟨b, hb⟩ := Option.isSome_iff_exists.1 hb
  rw [Entry.binding?_eq_some hb] at hsegment
  have hspelled : ∀ u ∈ segment, ∀ s, u.kind.spelling? = some s → u.lexeme = .text s :=
    fun u hu s => Token.lexeme_of_tokenize ht (hsub hu)
  exact hsegment.step?_of_declare hspelled t hmem

/-! ## Programs with an outline -/

/-- **Braces agree with the outline.** The braces of a program with an outline, but for those in
declarations, are well nested. The brace of a function is closed by the brace of its own returned
value, and the brace of a loop by that of the statement which closes the loop in the outline. In the
tokens of a source these are all the braces there are. -/
theorem braces_matched {ts : List Token} {entries : List Entry} {o : Outline}
    (hparse : parse ts = .ok entries) (houtline : Outline.ofEntries entries = .ok o) :
    WellNested (steps entries 0 ts).reduceOption ∧
      (∃ pieces : List Piece, pieces.flatMap Piece.entries = entries ∧
        o.functions = Piece.definitions pieces ∧
        (∀ s, .function s ∈ pieces → Paired ts entries s.header s.last) ∧
        Built (Paired ts entries) o.main (pieces.filterMap Piece.single?)) ∧
      ((∀ i t, ts[i]? = some t → Declared entries i → t.step? = none) →
        steps entries 0 ts = ts.map Token.step?) ∧
      ∀ source, Token.tokenize source = .ok ts → steps entries 0 ts = ts.map Token.step? := by
  have hcovers := covers_of_parse hparse
  obtain ⟨pieces, hentries, hfunctions, hnested, hsegments, hbuilt⟩ := Outline.exists_built houtline
  refine ⟨?_, ⟨pieces, hentries, hfunctions, ?_, ?_⟩, steps_of_plain, ?_⟩
  · rw [hcovers.reduceOption_steps hcovers (List.Subset.refl _)]
    exact hnested
  · exact fun s hs => hcovers.paired (hsegments s hs)
  · exact hbuilt.mono fun a b => hcovers.paired
  · exact fun source hsource => steps_of_tokenize hsource hcovers

/-- A function alone in a loop. -/
def loopSource : String := "every x in xs \x7b suzy f(a: int) -> int \x7b flabs a \x7d \x7d"

def loopTokens : List Token :=
  [⟨.loop, .text "every", ⟨1, 1⟩⟩, ⟨.identifier, .text "x", ⟨1, 7⟩⟩,
    ⟨.identifier, .text "in", ⟨1, 9⟩⟩, ⟨.identifier, .text "xs", ⟨1, 12⟩⟩,
    ⟨.leftBrace, .text "\x7b", ⟨1, 15⟩⟩, ⟨.function, .text "suzy", ⟨1, 17⟩⟩,
    ⟨.identifier, .text "f", ⟨1, 22⟩⟩, ⟨.leftParen, .text "(", ⟨1, 23⟩⟩,
    ⟨.identifier, .text "a", ⟨1, 24⟩⟩, ⟨.colon, .text ":", ⟨1, 25⟩⟩,
    ⟨.identifier, .text "int", ⟨1, 27⟩⟩, ⟨.rightParen, .text ")", ⟨1, 30⟩⟩,
    ⟨.arrow, .text "->", ⟨1, 32⟩⟩, ⟨.identifier, .text "int", ⟨1, 35⟩⟩,
    ⟨.leftBrace, .text "\x7b", ⟨1, 39⟩⟩, ⟨.result, .text "flabs", ⟨1, 41⟩⟩,
    ⟨.identifier, .text "a", ⟨1, 47⟩⟩, ⟨.rightBrace, .text "\x7d", ⟨1, 49⟩⟩,
    ⟨.rightBrace, .text "\x7d", ⟨1, 51⟩⟩]

def loopHeader : Entry := ⟨.loop "x" "xs", ⟨0, 5⟩, ⟨1, 1⟩⟩

def functionHeader : Entry := ⟨.function ⟨"f", "a", "int", "int"⟩, ⟨5, 15⟩, ⟨1, 17⟩⟩

def functionEnd : Entry := ⟨.result (.variable "a"), ⟨15, 18⟩, ⟨1, 41⟩⟩

def loopEnd : Entry := ⟨.endLoop, ⟨18, 19⟩, ⟨1, 51⟩⟩

def loopEntries : List Entry := [loopHeader, functionHeader, functionEnd, loopEnd]

/-- Of two closing braces in a row, the first closes the function and the second the loop. -/
theorem braces_matched_loop :
    Token.tokenize loopSource = .ok loopTokens ∧ parse loopTokens = .ok loopEntries ∧
      WellNested (loopTokens.map Token.step?).reduceOption ∧
      Paired loopTokens loopEntries functionHeader functionEnd ∧
      Paired loopTokens loopEntries loopHeader loopEnd := by
  have htokenize : Token.tokenize loopSource = .ok loopTokens := by decide +kernel
  have hparse : parse loopTokens = .ok loopEntries := by decide +kernel
  have houtline : Outline.ofEntries loopEntries = .ok
      ⟨[⟨⟨"f", "a", "int", "int"⟩, [], .variable "a", ⟨1, 17⟩⟩], [.loop "x" "xs" [] ⟨1, 1⟩]⟩ := rfl
  obtain ⟨hnested, ⟨pieces, hentries, -, hfunctions, hbuilt⟩, -, hsource⟩ :=
    braces_matched hparse houtline
  rw [hsource loopSource htokenize] at hnested
  let function : Outline.Segment :=
    ⟨functionHeader, [], functionEnd, ⟨"f", "a", "int", "int"⟩, .variable "a", rfl, nofun, rfl⟩
  obtain rfl : pieces = [.single loopHeader rfl, .function function, .single loopEnd rfl] :=
    Piece.entries_injective hentries
  refine ⟨htokenize, hparse, hnested, hfunctions function (by simp), ?_⟩
  replace hbuilt : Built _ _ [loopHeader, loopEnd] := hbuilt
  generalize hsingles : [loopHeader, loopEnd] = singles at hbuilt
  cases hbuilt with
  | loop _ _ _ hpaired hbody hrest =>
    cases hbody
    cases hrest
    cases hsingles
    exact hpaired

/-- A declaration whose type is spelled by a token of the wrong kind. -/
def strayBrace : List Token :=
  [⟨.declare, .text "fuzzy", ⟨1, 1⟩⟩, ⟨.leftBrace, .text "int", ⟨1, 7⟩⟩,
    ⟨.identifier, .text "x", ⟨1, 11⟩⟩, ⟨.equals, .text "=", ⟨1, 13⟩⟩,
    ⟨.number, .number (.int 5), ⟨1, 15⟩⟩]

/-- A brace in a declaration is not closed, and the program has an outline all the same. -/
theorem strayBrace_unclosed :
    ∃ entries o, parse strayBrace = .ok entries ∧ Outline.ofEntries entries = .ok o ∧
      ¬ WellNested (strayBrace.filterMap Token.step?) := by
  have hparse : parse strayBrace =
      .ok [⟨.declare "x" .int (.number (.int 5)), ⟨0, 5⟩, ⟨1, 1⟩⟩] := by decide +kernel
  refine ⟨_, _, hparse, rfl, fun h => ?_⟩
  exact absurd h.total (by decide)

end Grammar

end FuzzLang
