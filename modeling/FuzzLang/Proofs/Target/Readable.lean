import FuzzLang.Target.Basic
import FuzzLang.Proofs.Run
import FuzzLang.Proofs.Token.Lexeme

/-!
# Written expressions can be read

Names, numbers and string literals show where they end, unless the character after them would go on
with them (`Ends`). So a written expression is read in one way only (`Expr.Scalar.text_inj`). Only
an array literal says less than there is: it shows its values, and its element type and length stand
in the type of its variable.
-/

namespace FuzzLang

open Token

/-! ## Where words end -/

/-- A text whose first character neither goes on with a name or a number nor opens a call. -/
def Ends (cs : List Char) : Prop :=
  ∀ c ∈ cs.head?, isNameRest c = false ∧ Double.isNumeral c = false ∧ c ≠ '('

theorem ends_nil : Ends [] := by
  intro c hc
  cases hc

theorem ends_cons {c : Char} {cs : List Char} (h : c ∈ [' ', ',', ')', ';', ']']) :
    Ends (c :: cs) := by
  rintro d ⟨⟩
  simp only [List.mem_cons, List.not_mem_nil, or_false] at h
  rcases h with rfl | rfl | rfl | rfl | rfl <;> decide

namespace Token

theorem isDigit_eq_false_of_isNameStart {c : Char} (h : isNameStart c = true) :
    c.isDigit = false := by
  rw [Bool.eq_false_iff]
  intro hd
  have hnine : c.toNat ≤ 57 := (Char.isDigit_iff_toNat.1 hd).2
  have hstart : (c.isUpper || c.isLower || c == '_') = true := h
  rw [Bool.or_eq_true, Bool.or_eq_true, beq_iff_eq] at hstart
  rcases hstart with (hc | hc) | rfl
  · have hupper : 65 ≤ c.toNat := (of_decide_eq_true hc).1
    omega
  · have hlower : 97 ≤ c.toNat := of_decide_eq_true (Bool.and_eq_true_iff.1 hc).1
    omega
  · exact absurd hd (by decide)

theorem IsName.rest_of_mem {s : String} (h : IsName s) {c : Char} (hc : c ∈ s.toList) :
    isNameRest c = true := by
  obtain ⟨d, ds, hs, hd, hds⟩ := h
  rw [hs] at hc
  rcases List.mem_cons.1 hc with rfl | hc
  · rw [isNameRest, hd]
    rfl
  · exact hds c hc

theorem isNameRest_head? {c : Char} (h : isNameRest c = false) (cs : List Char) :
    ∀ d ∈ (c :: cs).head?, isNameRest d = false := by
  rintro d ⟨⟩
  exact h

/-- A name ends where no character goes on with it. -/
theorem IsName.append_inj {a b : String} {r s : List Char} (ha : IsName a) (hb : IsName b)
    (hr : ∀ c ∈ r.head?, isNameRest c = false) (hs : ∀ c ∈ s.head?, isNameRest c = false)
    (h : a.toList ++ r = b.toList ++ s) : a = b ∧ r = s := by
  have hstop {t : List Char} (ht : ∀ c ∈ t.head?, isNameRest c = false) :
      ∀ c ∈ t.head?, ¬ isNameRest c = true := fun c hc => by rw [ht c hc]; exact Bool.false_ne_true
  obtain ⟨hl, ht⟩ :=
    run_inj (fun _ => ha.rest_of_mem) (fun _ => hb.rest_of_mem) (hstop hr) (hstop hs) h
  exact ⟨String.toList_inj.1 hl, ht⟩

/-- A string literal ends at its second quote. -/
theorem IsQuoted.append_inj {a b : String} {r s : List Char} (ha : IsQuoted a) (hb : IsQuoted b)
    (h : a.toList ++ r = b.toList ++ s) : a = b ∧ r = s := by
  obtain ⟨x, hx, hxs⟩ := ha
  obtain ⟨y, hy, hys⟩ := hb
  rw [hx, hy] at h
  simp only [List.cons_append, List.append_assoc, List.nil_append, List.cons.injEq, true_and] at h
  obtain ⟨rfl, _, rfl⟩ := run_cons_inj (p := (· ≠ '"')) (fun c hc => (hxs c hc).1)
    (fun c hc => (hys c hc).1) (by simp) (by simp) h
  exact ⟨String.toList_inj.1 (hx.trans hy.symm), rfl⟩

end Token

namespace Number

/-- A number ends where no character goes on with it. -/
theorem append_inj {m n : Number} {r s : List Char} (hm : m.IsFinite) (hn : n.IsFinite)
    (hr : Ends r) (hs : Ends s) (h : m.text.toList ++ r = n.text.toList ++ s) : m = n ∧ r = s := by
  have hstop {t : List Char} (ht : Ends t) :
      ∀ c ∈ t.head?, ¬ Double.isNumeral c = true := fun c hc => by
    rw [(ht c hc).2.1]
    exact Bool.false_ne_true
  obtain ⟨hl, ht⟩ := run_inj (fun _ => isNumeral_of_mem_text hm) (fun _ => isNumeral_of_mem_text hn)
    (hstop hr) (hstop hs) h
  exact ⟨text_inj hm hn (String.toList_inj.1 hl), ht⟩

end Number

/-! ## Expressions of a program -/

namespace Expr

/-- A name or a number. -/
inductive Atomic : Expr → Prop
  | name {s : String} : IsName s → Atomic (.variable s)
  | number {n : Number} : n.IsFinite → Atomic (.number n)

/-- A name, a number, a string literal or a call. -/
inductive Operand : Expr → Prop
  | atom {e : Expr} : Atomic e → Operand e
  | call {s : String} {e : Expr} : IsName s → Atomic e → Operand (.call s e)
  | string {s : String} : IsQuoted s → Operand (.string s)

/-- An operand, or an operation on an operand and a name or number. -/
inductive Scalar : Expr → Prop
  | operand {e : Expr} : Operand e → Scalar e
  | binary {left right : Expr} {o : Operator} :
    Operand left → Atomic right → Scalar (.binary left o right)

/-! The first character tells names, numbers and string literals apart. -/

theorem name_ne_number {s : String} {n : Number} {r t : List Char} (hs : IsName s)
    (hn : n.IsFinite) : s.toList ++ r ≠ n.text.toList ++ t := by
  intro h
  obtain ⟨c, cs, hc, hstart, _⟩ := hs
  obtain ⟨d, ds, hd, hdigit⟩ := Number.exists_cons_text hn
  rw [hc, hd, List.cons_append, List.cons_append, List.cons.injEq] at h
  obtain ⟨rfl, _⟩ := h
  rcases hdigit with hdigit | rfl
  · rw [isDigit_eq_false_of_isNameStart hstart] at hdigit
    cases hdigit
  · cases hstart

theorem name_ne_quoted {s q : String} {r t : List Char} (hs : IsName s) (hq : IsQuoted q) :
    s.toList ++ r ≠ q.toList ++ t := by
  intro h
  obtain ⟨c, cs, hc, hstart, _⟩ := hs
  obtain ⟨body, hq, _⟩ := hq
  rw [hc, hq, List.cons_append, List.cons_append, List.cons.injEq] at h
  obtain ⟨rfl, _⟩ := h
  cases hstart

theorem number_ne_quoted {n : Number} {q : String} {r t : List Char} (hn : n.IsFinite)
    (hq : IsQuoted q) : n.text.toList ++ r ≠ q.toList ++ t := by
  intro h
  obtain ⟨c, cs, hc, hdigit⟩ := Number.exists_cons_text hn
  obtain ⟨body, hq, _⟩ := hq
  rw [hc, hq, List.cons_append, List.cons_append, List.cons.injEq] at h
  obtain ⟨rfl, _⟩ := h
  rcases hdigit with hdigit | hdigit <;> cases hdigit

theorem Atomic.append_inj {a b : Expr} {r s : List Char} (ha : Atomic a) (hb : Atomic b)
    (hr : Ends r) (hs : Ends s) (h : a.text.toList ++ r = b.text.toList ++ s) : a = b ∧ r = s := by
  cases ha with
  | name hx =>
    cases hb with
    | name hy =>
      obtain ⟨rfl, rfl⟩ := hx.append_inj hy (fun c hc => (hr c hc).1) (fun c hc => (hs c hc).1) h
      exact ⟨rfl, rfl⟩
    | number hn => exact absurd h (name_ne_number hx hn)
  | number hm =>
    cases hb with
    | name hy => exact absurd h.symm (name_ne_number hy hm)
    | number hn =>
      obtain ⟨rfl, rfl⟩ := Number.append_inj hm hn hr hs h
      exact ⟨rfl, rfl⟩

theorem Atomic.text_inj {a b : Expr} (ha : Atomic a) (hb : Atomic b) (h : a.text = b.text) :
    a = b := by
  refine (ha.append_inj hb ends_nil ends_nil ?_).1
  rw [h]

theorem Atomic.ne_quoted {a : Expr} {q : String} {r t : List Char} (ha : Atomic a)
    (hq : IsQuoted q) : a.text.toList ++ r ≠ q.toList ++ t := by
  cases ha with
  | name hs => exact name_ne_quoted hs hq
  | number hn => exact number_ne_quoted hn hq

theorem toList_text_call (s : String) (e : Expr) (r : List Char) :
    (text (.call s e)).toList ++ r = s.toList ++ '(' :: (e.text.toList ++ ')' :: r) := by
  simp [text]

/-- A name that ends is not the name of a call. -/
theorem Atomic.ne_call {a e : Expr} {s : String} {r t : List Char} (ha : Atomic a) (hs : IsName s)
    (hr : Ends r) : a.text.toList ++ r ≠ (text (.call s e)).toList ++ t := by
  intro h
  rw [toList_text_call] at h
  cases ha with
  | name hx =>
    obtain ⟨_, rfl⟩ := hx.append_inj hs (fun c hc => (hr c hc).1) (isNameRest_head? rfl _) h
    exact (hr '(' rfl).2.2 rfl
  | number hn => exact name_ne_number hs hn h.symm

theorem Operand.append_inj {a b : Expr} {r s : List Char} (ha : Operand a) (hb : Operand b)
    (hr : Ends r) (hs : Ends s) (h : a.text.toList ++ r = b.text.toList ++ s) : a = b ∧ r = s := by
  cases ha with
  | atom ha =>
    cases hb with
    | atom hb => exact ha.append_inj hb hr hs h
    | call hg hb => exact absurd h (ha.ne_call hg hr)
    | string hq => exact absurd h (ha.ne_quoted hq)
  | call hf ha =>
    cases hb with
    | atom hb => exact absurd h.symm (hb.ne_call hf hs)
    | call hg hb =>
      rw [toList_text_call, toList_text_call] at h
      obtain ⟨rfl, ht⟩ := hf.append_inj hg (isNameRest_head? rfl _) (isNameRest_head? rfl _) h
      obtain ⟨rfl, hrest⟩ := ha.append_inj hb (ends_cons (by simp)) (ends_cons (by simp))
        (List.cons.inj ht).2
      exact ⟨rfl, (List.cons.inj hrest).2⟩
    | string hq =>
      rw [toList_text_call] at h
      exact absurd h (name_ne_quoted hf hq)
  | string hp =>
    cases hb with
    | atom hb => exact absurd h.symm (hb.ne_quoted hp)
    | call hg hb =>
      rw [toList_text_call] at h
      exact absurd h.symm (name_ne_quoted hg hp)
    | string hq =>
      obtain ⟨rfl, rfl⟩ := hp.append_inj hq h
      exact ⟨rfl, rfl⟩

theorem toList_text_binary (left right : Expr) (o : Operator) :
    (text (.binary left o right)).toList =
      left.text.toList ++ ' ' :: (o.symbol.toList ++ ' ' :: right.text.toList) := by
  simp [text]

theorem symbol_append_inj {o p : Operator} {r s : List Char}
    (h : o.symbol.toList ++ r = p.symbol.toList ++ s) : o = p ∧ r = s := by
  cases o <;> cases p <;> simp [Operator.symbol] at h <;> exact ⟨rfl, h⟩

/-- Expressions that are no arrays are the same if they are written the same. -/
theorem Scalar.text_inj {a b : Expr} (ha : Scalar a) (hb : Scalar b) (h : a.text = b.text) :
    a = b := by
  replace h := congrArg String.toList h
  have hspace {cs : List Char} : Ends (' ' :: cs) := ends_cons (by simp)
  cases ha with
  | operand ha =>
    rw [← List.append_nil a.text.toList] at h
    cases hb with
    | operand hb =>
      rw [← List.append_nil b.text.toList] at h
      exact (ha.append_inj hb ends_nil ends_nil h).1
    | binary hb _ =>
      rw [toList_text_binary] at h
      cases (ha.append_inj hb ends_nil hspace h).2
  | binary ha hx =>
    rw [toList_text_binary] at h
    cases hb with
    | operand hb =>
      rw [← List.append_nil b.text.toList] at h
      cases (ha.append_inj hb hspace ends_nil h).2
    | binary hb hy =>
      rw [toList_text_binary] at h
      obtain ⟨rfl, hsymbol⟩ := ha.append_inj hb hspace hspace h
      obtain ⟨rfl, hright⟩ := symbol_append_inj (List.cons.inj hsymbol).2
      rw [hx.text_inj hy (String.toList_inj.1 (List.cons.inj hright).2)]

/-! ## Arrays -/

/-- The values after the first, each with the comma before it. -/
def laterValues (ns : List Number) : List Char :=
  ns.flatMap fun n => ',' :: ' ' :: n.text.toList

theorem laterValues_cons (n : Number) (ns : List Number) :
    laterValues (n :: ns) = ',' :: ' ' :: (n.text.toList ++ laterValues ns) := rfl

theorem toList_intercalate (n : Number) (ns : List Number) :
    (", ".intercalate ((n :: ns).map Number.text)).toList = n.text.toList ++ laterValues ns := by
  induction ns generalizing n with
  | nil => simp [laterValues]
  | cons m ns ih =>
    rw [laterValues_cons, ← ih, List.map_cons, List.map_cons, String.intercalate_cons_cons,
      String.toList_append, String.toList_append, List.append_assoc]
    rfl

theorem ends_laterValues (ns : List Number) : Ends (laterValues ns) := by
  cases ns with
  | nil => exact ends_nil
  | cons n ns => exact ends_cons (by simp)

theorem laterValues_inj {ms ns : List Number} (hm : ∀ n ∈ ms, n.IsFinite)
    (hn : ∀ n ∈ ns, n.IsFinite) (h : laterValues ms = laterValues ns) : ms = ns := by
  induction ms generalizing ns with
  | nil =>
    cases ns with
    | nil => rfl
    | cons n ns => cases h
  | cons m ms ih =>
    cases ns with
    | nil => cases h
    | cons n ns =>
      rw [List.forall_mem_cons] at hm hn
      rw [laterValues_cons, laterValues_cons] at h
      obtain ⟨rfl, ht⟩ := Number.append_inj hm.1 hn.1 (ends_laterValues ms) (ends_laterValues ns)
        (List.cons.inj (List.cons.inj h).2).2
      rw [ih hm.2 hn.2 ht]

/-- Array literals that are written the same have the same values. -/
theorem values_eq_of_text_eq {a b : ArrayLiteral} (ha : ∀ n ∈ a.values, n.IsFinite)
    (hb : ∀ n ∈ b.values, n.IsFinite) (h : text (.array a) = text (.array b)) :
    a.values = b.values := by
  obtain ⟨_, _, ms⟩ := a
  obtain ⟨_, _, ns⟩ := b
  simp only at ha hb ⊢
  replace h : ", ".intercalate (ms.map Number.text) = ", ".intercalate (ns.map Number.text) := by
    rwa [text, text, String.append_left_inj, String.append_right_inj] at h
  have hne {n : Number} {ns : List Number} (hn : n.IsFinite) :
      ", ".intercalate ((n :: ns).map Number.text) ≠ "" := by
    intro he
    obtain ⟨c, cs, hc, _⟩ := Number.exists_cons_text hn
    replace he := congrArg String.toList he
    rw [toList_intercalate, hc] at he
    cases he
  cases ms with
  | nil =>
    cases ns with
    | nil => rfl
    | cons n ns => exact absurd h.symm (hne (hb n List.mem_cons_self))
  | cons m ms =>
    cases ns with
    | nil => exact absurd h (hne (ha m List.mem_cons_self))
    | cons n ns =>
      rw [List.forall_mem_cons] at ha hb
      replace h := congrArg String.toList h
      rw [toList_intercalate, toList_intercalate] at h
      obtain ⟨rfl, ht⟩ := Number.append_inj ha.1 hb.1 (ends_laterValues ms) (ends_laterValues ns) h
      rw [laterValues_inj ha.2 hb.2 ht]

end Expr

/-! ## Texts on one line -/

def OneLine (s : String) : Prop := '\n' ∉ s.toList

@[simp] theorem oneLine_append {s t : String} : OneLine (s ++ t) ↔ OneLine s ∧ OneLine t := by
  simp [OneLine]

theorem Token.IsName.oneLine {s : String} (h : IsName s) : OneLine s := fun hc => by
  cases h.rest_of_mem hc

theorem Token.IsQuoted.oneLine {s : String} (h : IsQuoted s) : OneLine s := by
  obtain ⟨body, hs, hbody⟩ := h
  intro hc
  rw [hs] at hc
  have hc : '\n' ∈ body := by simpa using hc
  exact (hbody _ hc).2 rfl

theorem Number.oneLine {n : Number} (h : n.IsFinite) : OneLine n.text := fun hc => by
  cases isNumeral_of_mem_text h hc

theorem oneLine_intercalate {ss : List String} (h : ∀ s ∈ ss, OneLine s) :
    OneLine (", ".intercalate ss) := by
  induction ss with
  | nil => simp [OneLine]
  | cons s ss ih =>
    rw [List.forall_mem_cons] at h
    cases ss with
    | nil => simpa using h.1
    | cons t ss =>
      rw [String.intercalate_cons_cons, oneLine_append, oneLine_append]
      exact ⟨⟨h.1, by simp [OneLine]⟩, ih h.2⟩

namespace Expr

theorem Atomic.oneLine {e : Expr} (h : Atomic e) : OneLine e.text := by
  cases h with
  | name hs => exact hs.oneLine
  | number hn => exact Number.oneLine hn

theorem Operand.oneLine {e : Expr} (h : Operand e) : OneLine e.text := by
  cases h with
  | atom ha => exact ha.oneLine
  | call hs ha =>
    rw [text, oneLine_append, oneLine_append, oneLine_append]
    exact ⟨⟨⟨hs.oneLine, by simp [OneLine]⟩, ha.oneLine⟩, by simp [OneLine]⟩
  | string hs => exact hs.oneLine

theorem Scalar.oneLine {e : Expr} (h : Scalar e) : OneLine e.text := by
  cases h with
  | operand ho => exact ho.oneLine
  | @binary _ _ o hl hr =>
    have hsymbol : OneLine o.symbol := by cases o <;> simp [OneLine, Operator.symbol]
    rw [text, oneLine_append, oneLine_append, oneLine_append, oneLine_append]
    exact ⟨⟨⟨⟨hl.oneLine, by simp [OneLine]⟩, hsymbol⟩, by simp [OneLine]⟩, hr.oneLine⟩

theorem oneLine_array {a : ArrayLiteral} (h : ∀ n ∈ a.values, n.IsFinite) :
    OneLine (text (.array a)) := by
  have hvalues : ∀ s ∈ a.values.map Number.text, OneLine s := by
    intro s hs
    obtain ⟨n, hn, rfl⟩ := List.mem_map.1 hs
    exact Number.oneLine (h n hn)
  rw [text, oneLine_append, oneLine_append]
  exact ⟨⟨by simp [OneLine], oneLine_intercalate hvalues⟩, by simp [OneLine]⟩

end Expr

end FuzzLang
