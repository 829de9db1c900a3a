import FuzzLang.Grammar.Fault

/-!
# Rules

A rule reads a value from the front of a token list and leaves the rest. Rules are sequenced; the
first fault ends the reading. Every rule leaves a suffix of what it was given.
-/

namespace FuzzLang.Grammar

/-- A way to read an `α` from the front of a token list. -/
def Rule (α : Type) := List Token → Except Fault (α × List Token)

namespace Rule

variable {α β : Type}

/-- Read nothing. -/
def value (a : α) : Rule α := fun ts => .ok (a, ts)

/-- Read with one rule, then with the rule chosen from its value. -/
def andThen (r : Rule α) (next : α → Rule β) : Rule β := fun ts =>
  match r ts with
  | .error fault => .error fault
  | .ok (a, rest) => next a rest

instance : Monad Rule where
  pure := value
  bind := andThen

theorem pure_apply (a : α) (ts : List Token) : (pure a : Rule α) ts = .ok (a, ts) := rfl

theorem bind_apply (r : Rule α) (next : α → Rule β) (ts : List Token) :
    (r >>= next) ts = match r ts with
      | .error fault => .error fault
      | .ok (a, rest) => next a rest := rfl

/-- Give up. -/
def fail (fault : Fault) : Rule α := fun _ => .error fault

/-- Fill a slot with the next token, from which `read` takes a value. -/
def fill (slot : Slot) (read : Token → Option α) : Rule α
  | [] => .error (.ended slot)
  | t :: ts =>
    match read t with
    | some a => .ok (a, ts)
    | none => .error (.wrong slot t)

/-- Fill a slot with a token of one kind. -/
def expect (slot : Slot) (kind : Token.Kind) : Rule Unit :=
  fill slot fun t => if t.kind = kind then some () else none

/-- Read a token of one kind if it is next, and tell whether it was. -/
def accept (kind : Token.Kind) : Rule Bool
  | [] => .ok (false, [])
  | t :: ts => if t.kind = kind then .ok (true, ts) else .ok (false, t :: ts)

/-- The place of the next token. -/
def place : Rule Location := fun ts => .ok ((ts.head?.map (·.location)).getD {}, ts)

/-- A rule leaves a suffix of what it was given. -/
def Trims (r : Rule α) : Prop := ∀ ts a rest, r ts = .ok (a, rest) → rest <:+ ts

theorem trims_pure (a : α) : Trims (pure a : Rule α) := by
  intro ts b rest h
  cases h
  exact List.suffix_refl _

theorem Trims.bind {r : Rule α} {next : α → Rule β} (hr : Trims r) (hn : ∀ a, Trims (next a)) :
    Trims (r >>= next) := by
  intro ts b rest h
  rw [bind_apply] at h
  split at h
  · cases h
  · rename_i a mid hm
    exact (hn a mid b rest h).trans (hr ts a mid hm)

theorem trims_fail (fault : Fault) : Trims (fail fault : Rule α) := by
  intro ts a rest h
  cases h

theorem trims_fill (slot : Slot) (read : Token → Option α) : Trims (fill slot read) := by
  intro ts a rest h
  cases ts with
  | nil => cases h
  | cons t ts =>
    simp only [fill] at h
    split at h
    · cases h; exact List.suffix_cons _ _
    · cases h

theorem trims_expect (slot : Slot) (kind : Token.Kind) : Trims (expect slot kind) :=
  trims_fill _ _

theorem trims_accept (kind : Token.Kind) : Trims (accept kind) := by
  intro ts a rest h
  cases ts with
  | nil => cases h; exact List.suffix_refl _
  | cons t ts =>
    simp only [accept] at h
    split at h <;> cases h
    · exact List.suffix_cons _ _
    · exact List.suffix_refl _

theorem trims_place : Trims place := by
  intro ts a rest h
  cases h
  exact List.suffix_refl _

end Rule

end FuzzLang.Grammar
