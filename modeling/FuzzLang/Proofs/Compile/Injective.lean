import FuzzLang.Compile
import FuzzLang.Proofs.Grammar.Exact
import FuzzLang.Proofs.Target.Layout

/-!
# Compiling is injective

The statements of a source are plain: their names, string literals and numbers are those of its
tokens (`plain_of_phrase`). An outline holds statements of the source only (`mem_rows`), so the text
of a compiled program determines its outline (`compile_injective`).
-/

namespace FuzzLang

open Token Target

/-- A token as a source has it, with a double only if it is finite. -/
def Token.Sound (t : Token) : Prop := t.Lexed ∧ t.lexeme.IsFinite

namespace Grammar

/-! ## Statements of a source -/

theorem Named.isName {s : String} {t : Token} (h : Named s t) (ht : t.Lexed) : IsName s := by
  rwa [Lexed, h.1, h.2] at ht

theorem Quoted.isQuoted {s : String} {t : Token} (h : Quoted s t) (ht : t.Lexed) : IsQuoted s := by
  rwa [Lexed, h.1, h.2] at ht

theorem Counted.isFinite {n : Number} {t : Token} (h : Counted n t) (ht : t.Sound) :
    n.IsFinite := by
  have hl := ht.2
  rwa [h.2] at hl

theorem Atom.atomic {e : Expr} {t : Token} (h : Atom e t) (ht : t.Sound) : e.Atomic := by
  cases h with
  | name hs => exact .name (hs.isName ht.1)
  | number hn => exact .number (hn.isFinite ht)

theorem Items.isFinite {ns : List Number} {ts : List Token} (h : Items ns ts)
    (hts : ∀ t ∈ ts, t.Sound) : ∀ n ∈ ns, n.IsFinite := by
  intro n hn
  obtain ⟨t, ht, hcounted⟩ := h.exists_counted n hn
  exact hcounted.isFinite (hts t ht)

/-- Without a declared shape an operand is no array. -/
theorem Operand.operand {e : Expr} {ts : List Token} (h : Operand none e ts)
    (hts : ∀ t ∈ ts, t.Sound) : e.Operand := by
  cases h with
  | name hs => exact .atom (.name (hs.isName (hts _ (by simp)).1))
  | call hs _ ha _ => exact .call (hs.isName (hts _ (by simp)).1) (ha.atomic (hts _ (by simp)))
  | number hn => exact .atom (.number (hn.isFinite (hts _ (by simp))))
  | string hs => exact .string (hs.isQuoted (hts _ (by simp)).1)

theorem Initializer.scalar {e : Expr} {ts : List Token} (h : Initializer none e ts)
    (hts : ∀ t ∈ ts, t.Sound) : e.Scalar := by
  cases h with
  | operand ho => exact .operand (ho.operand hts)
  | binary ho _ _ ha =>
    exact .binary (ho.operand fun t ht => hts t (by simp [ht])) (ha.atomic (hts _ (by simp)))

theorem Initializer.isFinite {shape : Option Shape} {a : ArrayLiteral} {ts : List Token}
    (h : Initializer shape (.array a) ts) (hts : ∀ t ∈ ts, t.Sound) :
    ∀ n ∈ a.values, n.IsFinite := by
  cases h with
  | operand ho =>
    cases ho with
    | array _ hi _ => exact hi.isFinite fun t ht => hts t (by simp [ht])

theorem initial_of_initializer {type : VarType} {shape : Option Shape} {e : Expr}
    {typing value : List Token} (ht : TypePhrase type shape typing)
    (hv : Initializer shape e value) (hs : Suits type e) (hvalue : ∀ t ∈ value, t.Sound) :
    Initial type e := by
  cases ht with
  | scalar hne _ => exact .scalar hne (hv.scalar hvalue)
  | array =>
    cases e with
    | array a => exact .array (hv.isFinite hvalue)
    | _ => exact hs.elim

theorem plain_of_phrase {node : Node} {ts : List Token} (h : Phrase node ts)
    (hts : ∀ t ∈ ts, t.Sound) : node.Plain := by
  cases h with
  | declare _ ht hn _ hv hs =>
    exact ⟨hn.isName (hts _ (by simp)).1,
      initial_of_initializer ht hv hs fun t ht => hts t (by simp [ht])⟩
  | loop _ hx _ hxs _ => exact ⟨hx.isName (hts _ (by simp)).1, hxs.isName (hts _ (by simp)).1⟩
  | endLoop => trivial
  | function _ hf _ hx => exact ⟨hf.isName (hts _ (by simp)).1, hx.isName (hts _ (by simp)).1⟩
  | result _ ha => exact ha.atomic (hts _ (by simp))
  | resultTerminated _ ha => exact ha.atomic (hts _ (by simp))
  | print _ _ ha => exact ha.atomic (hts _ (by simp))

theorem plain_of_segment {node : Node} {ts : List Token} (h : Segment node ts)
    (hts : ∀ t ∈ ts, t.Sound) : node.Plain := by
  cases h with
  | bare hp => exact plain_of_phrase hp hts
  | terminated hp => exact plain_of_phrase hp fun t ht => hts t (by simp [ht])

theorem plain_of_segments {nodes : List Node} {segments : List (List Token)}
    (h : List.Forall₂ Segment nodes segments) (hts : ∀ t ∈ segments.flatten, t.Sound) :
    ∀ node ∈ nodes, node.Plain := by
  induction h with
  | nil => simp
  | cons hs _ ih =>
    rw [List.flatten_cons] at hts
    rw [List.forall_mem_cons]
    exact ⟨plain_of_segment hs fun t ht => hts t (List.mem_append_left _ ht),
      ih fun t ht => hts t (List.mem_append_right _ ht)⟩

theorem plain_of_parse {ts : List Token} {entries : List Entry} (h : parse ts = .ok entries)
    (hts : ∀ t ∈ ts, t.Sound) : ∀ e ∈ entries, e.node.Plain := by
  obtain ⟨segments, hs, rfl⟩ := program_of_parse h
  intro e he
  exact plain_of_segments hs hts e.node (List.mem_map_of_mem he)

end Grammar

/-! ## Statements of an outline -/

namespace Outline

theorem Segment.mem_rows {s : Segment} {node : Node} (h : .statement node ∈ s.definition.rows) :
    node = .endLoop ∨ ∃ e ∈ s.entries, e.node = node := by
  rw [FunctionDef.rows, List.mem_cons, List.mem_append, List.mem_cons, List.mem_singleton] at h
  rcases h with h | h | h | h
  · cases h
    exact .inr ⟨s.header, by simp [Segment.entries], s.header_node⟩
  · obtain ⟨b, hb, hrow⟩ := List.mem_map.1 h
    obtain ⟨e, he, hbinding⟩ := List.mem_filterMap.1 hb
    cases hrow
    exact .inr ⟨e, by simp [Segment.entries, he], Entry.binding?_eq_some hbinding⟩
  · cases h
    exact .inr ⟨s.last, by simp [Segment.entries], s.last_node⟩
  · cases h
    exact .inl rfl

/-- What an outline holds are statements it was made from. -/
theorem mem_rows {entries : List Entry} {o : Outline} (h : ofEntries entries = .ok o) {node : Node}
    (hn : .statement node ∈ o.rows) : node = .endLoop ∨ ∃ e ∈ entries, e.node = node := by
  obtain ⟨pieces, rfl, hf, hm⟩ := exists_pieces h
  rw [rows, hf, Item.bodyRows, hm, List.mem_append, List.mem_cons, List.mem_append,
    List.mem_singleton] at hn
  rcases hn with hn | hn | hn | hn
  · obtain ⟨f, hdefinition, hrow⟩ := List.mem_flatMap.1 hn
    obtain ⟨s, hs, rfl⟩ := List.mem_map.1 hdefinition
    obtain ⟨p, hp, hsegment⟩ := List.mem_filterMap.1 hs
    obtain rfl := Piece.eq_of_segment? hsegment
    rcases Segment.mem_rows hrow with hend | ⟨e, he, hnode⟩
    · exact .inl hend
    · exact .inr ⟨e, List.mem_flatMap.2 ⟨_, hp, he⟩, hnode⟩
  · cases hn
  · obtain ⟨m, hmark, hrow⟩ := List.mem_map.1 hn
    obtain ⟨e, he, rfl⟩ := List.mem_map.1 hmark
    obtain ⟨p, hp, hsingle⟩ := List.mem_filterMap.1 he
    cases hrow
    have hentries := Piece.entries_of_single? hsingle
    exact .inr ⟨e, List.mem_flatMap.2 ⟨p, hp, by simp [hentries]⟩, e.node_mark.symm⟩
  · cases hn
    exact .inl rfl

theorem plain_rows {entries : List Entry} {o : Outline} (h : ofEntries entries = .ok o)
    (hp : ∀ e ∈ entries, e.node.Plain) : ∀ row ∈ o.rows, row.Plain := by
  intro row hrow
  cases row with
  | main => trivial
  | statement node =>
    rcases mem_rows h hrow with rfl | ⟨e, he, rfl⟩
    · trivial
    · exact hp e he

end Outline

theorem compile_eq_ok {indent source : String} {c : Compilation}
    (h : compile indent source = .ok c) :
    tokenize source = .ok c.tokens ∧ Grammar.parse c.tokens = .ok c.entries ∧
      ∃ o, Outline.ofEntries c.entries = .ok o ∧ write indent o = .ok c.output := by
  unfold compile Compilation.read at h
  cases ht : tokenize source with
  | error e => simp [ht] at h
  | ok tokens =>
    cases hp : Grammar.parse tokens with
    | error e => simp [ht, hp] at h
    | ok entries =>
      simp only [ht, hp, Compilation.generate] at h
      cases ho : Outline.ofEntries entries with
      | error fault => simp [ho] at h
      | ok o =>
        cases hw : write indent o with
        | error fault => simp [ho, hw] at h
        | ok output =>
          simp only [ho, hw, Except.ok.injEq] at h
          subst h
          exact ⟨rfl, hp, o, ho, hw⟩

/-- **Injectivity.** Programs whose doubles are finite and that are written the same have the same
outline but for places, whatever the number of spaces per level. -/
theorem compile_injective {n : Nat} {s t : String} {c d : Compilation}
    (hc : compile (spaces n) s = .ok c) (hd : compile (spaces n) t = .ok d)
    (fc : ∀ token ∈ c.tokens, token.lexeme.IsFinite)
    (fd : ∀ token ∈ d.tokens, token.lexeme.IsFinite) (h : c.output = d.output) :
    ∃ o p, Outline.ofEntries c.entries = .ok o ∧ Outline.ofEntries d.entries = .ok p ∧
      o.unplaced = p.unplaced := by
  obtain ⟨htc, hpc, o, ho, hwo⟩ := compile_eq_ok hc
  obtain ⟨htd, hpd, p, hp, hwp⟩ := compile_eq_ok hd
  have po := Outline.plain_rows ho
    (Grammar.plain_of_parse hpc fun t ht => ⟨lexed_of_tokenize htc ht, fc t ht⟩)
  have pp := Outline.plain_rows hp
    (Grammar.plain_of_parse hpd fun t ht => ⟨lexed_of_tokenize htd ht, fd t ht⟩)
  rw [h] at hwo
  exact ⟨o, p, ho, hp, unplaced_eq_of_write_eq hwo hwp po pp⟩

/-- A function and a loop. -/
def sideBySide : String :=
  "suzy f(a: int) -> float \x7b flabs 0.5 \x7d every e in xs \x7b labs(e) \x7d"

/-- The same function, spelled in another way, inside the loop. -/
def nestedInLoop : String :=
  "every e in xs \x7b labs(e); suzy f(a: int) -> float \x7b flabs .50; \x7d \x7d"

/-- Without indentation both are the same text, and their outlines are the same but for places. -/
theorem compile_injective_nestedInLoop :
    ∃ c d o p, compile (spaces 0) sideBySide = .ok c ∧ compile (spaces 0) nestedInLoop = .ok d ∧
      c.output = d.output ∧ Outline.ofEntries c.entries = .ok o ∧
      Outline.ofEntries d.entries = .ok p ∧ o.unplaced = p.unplaced := by
  have hcompiles : (match compile (spaces 0) sideBySide, compile (spaces 0) nestedInLoop with
      | .ok c, .ok d => decide (c.output = d.output ∧ (∀ t ∈ c.tokens, t.lexeme.IsFinite) ∧
          ∀ t ∈ d.tokens, t.lexeme.IsFinite)
      | _, _ => false) = true := by
    decide +kernel
  split at hcompiles
  · rename_i c d hc hd
    obtain ⟨houtput, fc, fd⟩ := of_decide_eq_true hcompiles
    obtain ⟨o, p, ho, hp, h⟩ := compile_injective hc hd fc fd houtput
    exact ⟨c, d, o, p, hc, hd, houtput, ho, hp, h⟩
  · cases hcompiles

end FuzzLang
