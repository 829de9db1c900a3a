import FuzzLang.Proofs.Grammar.Relocate

/-!
# Rules and the tokens that follow

A rule looks at most one token past those it takes, and only to see whether its value goes on. So
what it answers before the end of the tokens it answers also when more of them follow: most rules do
not look past at all (`Rule.Prompt`), and the others can change their value only where the tokens
ended (`Rule.Steady`, `steady_terminated`).

A fault is then of one of three sorts (`Fault.Leaves`). Some are settled by the tokens read so far
and stay, some can be mended by more tokens, and an array that is given no literal stays a fault but
may become another one.
-/

namespace FuzzLang.Grammar

/-! ## What a fault leaves open -/

namespace Fault

/-- Faults that are settled by the tokens read so far. -/
def settled : Fault → Bool
  | .stray _ | .wrong _ _ | .bracketsOutsideArray _ | .lengthMismatch _ _ _ => true
  | .ended _ | .literalRequired _ | .typeMismatch _ _ _ => false

/-- Faults that more tokens can mend: the input is too short, or its last value may go on. -/
def mendable : Fault → Bool
  | .ended _ | .typeMismatch _ _ _ => true
  | .stray _ | .wrong _ _ | .bracketsOutsideArray _ | .literalRequired _
  | .lengthMismatch _ _ _ => false

theorem settled_of_mendable {fault : Fault} (h : fault.mendable = true) :
    fault.settled = false := by
  cases fault with
  | ended | typeMismatch => rfl
  | _ => cases h

/-- Tokens that met a fault may be answered by `y` when more follow. -/
structure Leaves {α : Type} (fault : Fault) (y : Except Fault α) : Prop where
  stays : fault.settled = true → y = .error fault
  mended : ∀ a, y = .ok a → fault.mendable = true

theorem leaves_self {α : Type} (fault : Fault) : fault.Leaves (.error fault : Except Fault α) where
  stays _ := rfl
  mended _ h := by cases h

theorem leaves_of_mendable {α : Type} {fault : Fault} (h : fault.mendable = true)
    (y : Except Fault α) : fault.Leaves y where
  stays hs := by rw [settled_of_mendable h] at hs; cases hs
  mended _ _ := h

end Fault

/-! ## Rules -/

namespace Rule

variable {α β : Type} {ts us : List Token}

/-- With the tokens `us` put after those that were answered by `x`, the answer is `y`: the same
value with `us` left over, or one that the fault leaves open. -/
def Kept (us : List Token) : Except Fault (α × List Token) → Except Fault (α × List Token) → Prop
  | .ok (a, rest), y => y = .ok (a, rest ++ us)
  | .error fault, y => fault.Leaves y

/-- A rule that does not look past the tokens it takes. -/
def Prompt (r : Rule α) : Prop := ∀ ts us, Kept us (r ts) (r (ts ++ us))

/-- A rule keeps its answer when `us` follow, or it has come to the end of the tokens. It can then
read on only by taking some of `us`, for a value that is `grown`. -/
def SteadyAt (grown : α → Prop) (r : Rule α) (ts us : List Token) : Prop :=
  Kept us (r ts) (r (ts ++ us)) ∨
    ∃ a, r ts = .ok (a, []) ∧
      ∀ b later, r (ts ++ us) = .ok (b, later) → grown b ∧ later.length < us.length

/-- A rule whose value can only change where it has come to the end of the tokens. -/
def Steady (grown : α → Prop) (r : Rule α) : Prop := ∀ ts us, SteadyAt grown r ts us

theorem Prompt.steady {r : Rule α} (h : Prompt r) (grown : α → Prop) : Steady grown r :=
  fun ts us => .inl (h ts us)

theorem bind_of_error {r : Rule α} (next : α → Rule β) {fault : Fault} (h : r ts = .error fault) :
    (r >>= next) ts = .error fault := by
  rw [bind_apply, h]

theorem bind_of_ok {r : Rule α} (next : α → Rule β) {a : α} {rest : List Token}
    (h : r ts = .ok (a, rest)) : (r >>= next) ts = next a rest := by
  rw [bind_apply, h]

/-- A fault of the first rule leaves open the same for the sequence. -/
theorem leaves_bind {r : Rule α} (next : α → Rule β) {fault : Fault} (h : fault.Leaves (r ts)) :
    fault.Leaves ((r >>= next) ts) where
  stays hs := bind_of_error next (h.stays hs)
  mended p hok := by
    obtain ⟨a, mid, ha, _⟩ := bind_eq_ok.1 hok
    exact h.mended _ ha

/-- Where the first rule keeps its answer, the sequence does what the second rule does. -/
theorem bind_of_kept {r : Rule α} (next : α → Rule β) (hr : Kept us (r ts) (r (ts ++ us))) :
    Kept us ((r >>= next) ts) ((r >>= next) (ts ++ us)) ∨
      ∃ a rest, (r >>= next) ts = next a rest ∧ (r >>= next) (ts ++ us) = next a (rest ++ us) := by
  cases hx : r ts with
  | error fault =>
    rw [hx] at hr
    rw [bind_of_error next hx]
    exact .inl (leaves_bind next hr)
  | ok read =>
    rw [hx] at hr
    exact .inr ⟨read.1, read.2, bind_of_ok next hx, bind_of_ok next hr⟩

theorem Kept.bind {r : Rule α} {next : α → Rule β} (hr : Kept us (r ts) (r (ts ++ us)))
    (hn : ∀ a, Prompt (next a)) : Kept us ((r >>= next) ts) ((r >>= next) (ts ++ us)) := by
  obtain hkept | ⟨a, rest, hx, hy⟩ := bind_of_kept next hr
  · exact hkept
  · rw [hx, hy]
    exact hn a rest us

theorem Prompt.bind {r : Rule α} {next : α → Rule β} (hr : Prompt r) (hn : ∀ a, Prompt (next a)) :
    Prompt (r >>= next) :=
  fun ts us => (hr ts us).bind hn

theorem Kept.bind_steady {r : Rule α} {next : α → Rule β} {grown : β → Prop}
    (hr : Kept us (r ts) (r (ts ++ us))) (hn : ∀ a, Steady grown (next a)) :
    SteadyAt grown (r >>= next) ts us := by
  unfold SteadyAt
  obtain hkept | ⟨a, rest, hx, hy⟩ := bind_of_kept next hr
  · exact .inl hkept
  · rw [hx, hy]
    exact hn a rest us

theorem Prompt.bind_steady {r : Rule α} {next : α → Rule β} {grown : β → Prop} (hr : Prompt r)
    (hn : ∀ a, Steady grown (next a)) : Steady grown (r >>= next) :=
  fun ts us => (hr ts us).bind_steady hn

/-- Steady rules in sequence. Where the first has come to the end of the tokens, the second must not
find a fault there that the grown value of the first would not have. -/
theorem Steady.bind {r : Rule α} {next : α → Rule β} {grown : α → Prop} {grown' : β → Prop}
    (hr : Steady grown r) (hn : ∀ a, Steady grown' (next a)) (ht : ∀ a, Trims (next a))
    (hgrown : ∀ b ts c later, grown b → next b ts = .ok (c, later) → grown' c)
    (hend : ∀ a fault, next a [] = .error fault → fault.settled = false ∧
      ∀ b ts p, grown b → next b ts = .ok p → fault.mendable = true) :
    Steady grown' (r >>= next) := by
  intro ts us
  obtain hkept | ⟨a, ha, hmore⟩ := hr ts us
  · exact hkept.bind_steady hn
  · -- the second rule is left without tokens; with `us` it reads on from a grown value
    have hx := bind_of_ok next ha
    cases hnext : next a [] with
    | error fault =>
      obtain ⟨hsettled, hmended⟩ := hend a fault hnext
      left
      rw [hx, hnext]
      refine ⟨fun hs => ?_, fun p hok => ?_⟩
      · rw [hsettled] at hs
        cases hs
      · obtain ⟨b, mid, hb, hp⟩ := bind_eq_ok.1 hok
        exact hmended b mid p (hmore b mid hb).1 hp
    | ok read =>
      obtain ⟨c, rest⟩ := read
      obtain rfl : rest = [] := List.eq_nil_of_suffix_nil (ht a _ _ _ hnext)
      refine .inr ⟨c, hx.trans hnext, fun c' later hok => ?_⟩
      obtain ⟨b, mid, hb, hc⟩ := bind_eq_ok.1 hok
      obtain ⟨hgb, hlt⟩ := hmore b mid hb
      have hle := (ht b mid c' later hc).length_le
      exact ⟨hgrown b mid c' later hgb hc, by omega⟩

/-- Where the second rule finds no fault at the end of the tokens but one that more can mend,
nothing need be known of the grown value. -/
theorem Steady.bind_mendable {r : Rule α} {next : α → Rule β} {grown : α → Prop}
    (hr : Steady grown r) (hn : ∀ a, Steady (fun _ => True) (next a)) (ht : ∀ a, Trims (next a))
    (hend : ∀ a fault, next a [] = .error fault → fault.mendable = true) :
    Steady (fun _ => True) (r >>= next) :=
  hr.bind hn ht (fun _ _ _ _ _ _ => trivial) fun a fault h =>
    ⟨Fault.settled_of_mendable (hend a fault h), fun _ _ _ _ _ => hend a fault h⟩

/-! ### The parts of rules -/

theorem prompt_pure (a : α) : Prompt (pure a : Rule α) := fun _ _ => rfl

theorem prompt_fail (fault : Fault) : Prompt (fail fault : Rule α) :=
  fun _ _ => fault.leaves_self

theorem prompt_fill (slot : Slot) (read : Token → Option α) : Prompt (fill slot read) := by
  intro ts us
  cases ts with
  | nil => exact Fault.leaves_of_mendable rfl _
  | cons t ts =>
    rw [List.cons_append, fill, fill]
    cases read t with
    | some a => rfl
    | none => exact Fault.leaves_self _

theorem prompt_expect (slot : Slot) (kind : Token.Kind) : Prompt (expect slot kind) :=
  prompt_fill slot _

theorem steady_accept (kind : Token.Kind) : Steady (· = true) (accept kind) := by
  intro ts us
  cases ts with
  | cons t ts =>
    left
    rw [List.cons_append, accept, accept]
    by_cases hk : t.kind = kind
    · rw [if_pos hk, if_pos hk]
      rfl
    · rw [if_neg hk, if_neg hk]
      rfl
  | nil =>
    cases us with
    | nil => exact .inl rfl
    | cons u us =>
      by_cases hk : u.kind = kind
      · refine .inr ⟨false, rfl, fun b later h => ?_⟩
        rw [List.nil_append, accept, if_pos hk] at h
        cases h
        exact ⟨rfl, Nat.lt_succ_self _⟩
      · left
        rw [List.nil_append, accept, accept, if_neg hk]
        rfl

end Rule

open Rule

/-! ## Values of declarations -/

theorem arrayItems_number (n : Number) (location : Location) (ts : List Token) :
    arrayItems (⟨.number, .number n, location⟩ :: ts) =
      (arrayItems >>= fun ns => (pure (n :: ns) : Rule (List Number))) ts := by
  rw [arrayItems, bind_apply]
  cases arrayItems ts <;> rfl

theorem prompt_arrayItems : Prompt arrayItems := by
  intro ts us
  induction ts with
  | nil => exact Fault.leaves_of_mendable rfl _
  | cons t ts ih =>
    obtain ⟨kind, lexeme, location⟩ := t
    cases kind with
    | number =>
      cases lexeme with
      | number n =>
        rw [List.cons_append, arrayItems_number, arrayItems_number]
        exact ih.bind fun ns => prompt_pure (n :: ns)
      | text s => exact Fault.leaves_self _
    | comma => exact ih
    | rightBracket => rfl
    | _ => exact Fault.leaves_self _

theorem prompt_arrayLiteral (start : Location) (shape : Option Shape) :
    Prompt (arrayLiteral start shape) := by
  cases shape with
  | none => exact prompt_fail _
  | some shape =>
    refine prompt_arrayItems.bind fun values => ?_
    split
    · exact prompt_pure _
    · exact prompt_fail _

/-- A name becomes a call. -/
theorem steady_nameOrCall (name : String) :
    Steady (fun e => isArray e = false) (nameOrCall name) := by
  refine (steady_accept _).bind (fun b => ?_) (fun b => ?_) ?_ ?_
  · split
    · exact ((prompt_fill _ _).bind fun _ => (prompt_expect _ _).bind fun _ =>
        prompt_pure _).steady _
    · exact (prompt_pure _).steady _
  · split
    · exact (trims_fill _ _).bind fun _ => (trims_expect _ _).bind fun _ => trims_pure _
    · exact trims_pure _
  · rintro b ts e later rfl h
    simp only [if_true, bind_eq_ok, pure_eq_ok] at h
    obtain ⟨a, _, _, _, _, _, rfl, _⟩ := h
    rfl
  · rintro (_ | _) fault h
    · cases h
    · cases h
      exact ⟨rfl, fun _ _ _ _ _ => rfl⟩

theorem steady_operand (start : Location) (shape : Option Shape) :
    Steady (fun e => isArray e = false) (operand start shape) := by
  refine (prompt_fill _ _).bind_steady fun head => ?_
  cases head with
  | name s => exact steady_nameOrCall s
  | number n => exact (prompt_pure _).steady _
  | string s => exact (prompt_pure _).steady _
  | bracket => exact (prompt_arrayLiteral start shape).steady _

/-- An operand becomes an operation. -/
theorem steady_operatorTail (left : Expr) :
    Steady (fun e => isArray e = false) (operatorTail left) := by
  intro ts us
  cases ts with
  | cons t ts =>
    left
    rw [List.cons_append, operatorTail, operatorTail]
    by_cases hk : t.kind = .operator
    · simp only [if_pos hk]
      exact ((prompt_fill _ _).bind fun _ => (prompt_fill _ _).bind fun _ => prompt_pure _)
        (t :: ts) us
    · simp only [if_neg hk]
      rfl
  | nil =>
    by_cases hu : Avoids [.operator] us
    · left
      exact operatorTail_eq_ok.2 (.inl ⟨rfl, rfl, hu⟩)
    · refine .inr ⟨left, rfl, fun e later h => ?_⟩
      obtain ⟨_, rfl, hlater⟩ | ⟨o, right, sign, last, rfl, hus, _⟩ := operatorTail_eq_ok.1 h
      · exact absurd hlater hu
      · rw [List.nil_append] at hus
        rw [hus]
        exact ⟨rfl, by simp only [List.length_cons]; omega⟩

theorem prompt_checked (type : VarType) (start : Location) (value : Expr) :
    Prompt (checked type start value) := by
  unfold checked
  split
  · exact prompt_fail _
  · split
    · exact prompt_fail _
    · exact prompt_pure _

/-- A value that does not suit its type may suit it when it goes on, unless an array is declared: no
value that goes on is an array. -/
theorem mendable_of_checked {type : VarType} {start : Location} {value : Expr} {ts : List Token}
    {fault : Fault} (h : checked type start value ts = .error fault) :
    fault.settled = false ∧ ∀ e later p, isArray e = false →
      checked type start e later = .ok p → fault.mendable = true := by
  unfold checked at h
  split at h
  · rename_i hneeds
    cases h
    refine ⟨rfl, fun e later ⟨e', rest⟩ he hok => ?_⟩
    obtain ⟨hsuits, _⟩ := checked_eq_ok.1 hok
    exact absurd ⟨hneeds.1, he⟩ (suits_iff.1 hsuits).1
  · split at h
    · cases h
      exact ⟨rfl, fun _ _ _ _ _ => rfl⟩
    · cases h

theorem steady_initializer (type : VarType) (shape : Option Shape) :
    Steady (fun _ => True) (initializer type shape) := by
  intro ts us
  -- the place of the value is that of the next token, so there has to be one
  cases ts with
  | nil => exact .inl (Fault.leaves_of_mendable rfl _)
  | cons t ts =>
    have htail : ∀ left, Steady (fun _ => True)
        (operatorTail left >>= checked type t.location) := fun left =>
      (steady_operatorTail left).bind (fun e => (prompt_checked type t.location e).steady _)
        (fun e => trims_checked type t.location e) (fun _ _ _ _ _ _ => trivial)
        (fun e fault h => mendable_of_checked h)
    have hvalue : Steady (fun _ => True) (operand t.location shape >>= fun left =>
        operatorTail left >>= checked type t.location) := by
      refine (steady_operand t.location shape).bind htail
        (fun left => (trims_operatorTail left).bind fun e => trims_checked type t.location e)
        (fun _ _ _ _ _ _ => trivial) fun left fault h => ?_
      obtain ⟨hsettled, hmended⟩ := mendable_of_checked (h : checked type t.location left [] = _)
      refine ⟨hsettled, fun e later p he hok => ?_⟩
      obtain ⟨e', mid, htail, hp⟩ := bind_eq_ok.1 hok
      refine hmended e' mid p ?_ hp
      obtain ⟨rfl, _⟩ | ⟨_, _, _, _, rfl, _⟩ := operatorTail_eq_ok.1 htail
      · exact he
      · rfl
    exact hvalue (t :: ts) us

/-! ## Statements -/

theorem prompt_arrayShape : Prompt arrayShape :=
  (prompt_expect _ _).bind fun _ => (prompt_fill _ _).bind fun _ =>
    (prompt_expect _ _).bind fun _ => (prompt_fill _ _).bind fun _ =>
      (prompt_expect _ _).bind fun _ => prompt_pure _

theorem prompt_shapeOf (type : VarType) : Prompt (shapeOf type) := by
  cases type with
  | array => exact prompt_arrayShape.bind fun _ => prompt_pure _
  | int | float | string => exact prompt_pure _

theorem steady_declaration : Steady (fun _ => True) declaration := by
  refine (prompt_fill _ _).bind_steady fun type => (prompt_shapeOf type).bind_steady fun shape =>
    (prompt_fill _ _).bind_steady fun name => (prompt_expect _ _).bind_steady fun _ => ?_
  refine (steady_initializer type shape).bind_mendable (fun _ => (prompt_pure _).steady _)
    (fun _ => trims_pure _) fun _ _ h => ?_
  cases h

theorem prompt_loop : Prompt loop :=
  (prompt_fill _ _).bind fun _ => (prompt_fill _ _).bind fun _ => (prompt_fill _ _).bind fun _ =>
    (prompt_expect _ _).bind fun _ => prompt_pure _

theorem prompt_function : Prompt function :=
  (prompt_fill _ _).bind fun _ => (prompt_expect _ _).bind fun _ =>
    (prompt_fill _ _).bind fun _ => (prompt_expect _ _).bind fun _ =>
      (prompt_fill _ _).bind fun _ => (prompt_expect _ _).bind fun _ =>
        (prompt_expect _ _).bind fun _ => (prompt_fill _ _).bind fun _ =>
          (prompt_expect _ _).bind fun _ => prompt_pure _

/-- Whether a semicolon comes or not, a brace is awaited after it. -/
theorem steady_result : Steady (fun _ => True) result := by
  refine (prompt_fill _ _).bind_steady fun value => ?_
  refine (steady_accept _).bind_mendable
    (fun _ => ((prompt_expect _ _).bind fun _ => prompt_pure _).steady _)
    (fun _ => (trims_expect _ _).bind fun _ => trims_pure _) fun _ fault h => ?_
  cases h
  rfl

theorem prompt_print : Prompt print :=
  (prompt_expect _ _).bind fun _ => (prompt_fill _ _).bind fun _ =>
    (prompt_expect _ _).bind fun _ => prompt_pure _

theorem steady_statementAfter (first : Token) : Steady (fun _ => True) (statementAfter first) := by
  unfold statementAfter
  split
  · exact steady_declaration
  · exact prompt_loop.steady _
  · exact (prompt_pure _).steady _
  · exact prompt_function.steady _
  · exact steady_result
  · exact prompt_print.steady _
  · exact (prompt_fail _).steady _

theorem steady_terminated (first : Token) : Steady (fun _ => True) (terminated first) := by
  have haccept : ∀ node : Node,
      Steady (fun _ => True) (accept .semicolon >>= fun _ => (pure node : Rule Node)) := by
    intro node
    refine (steady_accept _).bind_mendable (fun _ => (prompt_pure _).steady _)
      (fun _ => trims_pure _) fun _ _ h => ?_
    cases h
  refine (steady_statementAfter first).bind_mendable haccept
    (fun _ => (trims_accept _).bind fun _ => trims_pure _) fun _ _ h => ?_
  cases h

end FuzzLang.Grammar
