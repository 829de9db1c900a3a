import FuzzLang.Proofs.Grammar.Exact
import FuzzLang.Proofs.Token.Seam

/-!
# Reading tokens at other places

No rule looks at the place of a token: it is only kept, in statements and in faults. So tokens at
other places are read as the same statements and with the same fault, at these places
(`parse_relocate`). Each rule is shown to follow itself (`Rule.Follows`), and so does what is put
together from rules.

Tokens that follow a whole program are read as they are read alone, further on (`read_append`).
-/

namespace FuzzLang

/-- A statement `n` tokens further on, at the place that `g` gives for its own. -/
def Entry.moved (g : Location → Location) (n : Nat) (e : Entry) : Entry :=
  ⟨e.node, ⟨e.span.start + n, e.span.stop + n⟩, g e.location⟩

/-- A statement alone. -/
def Entry.unplaced (e : Entry) : Entry := ⟨e.node, {}, {}⟩

theorem Entry.map_unplaced_moved (g : Location → Location) (n : Nat) (entries : List Entry) :
    (entries.map (moved g n)).map unplaced = entries.map unplaced :=
  List.map_map.trans rfl

namespace Grammar

variable {g : Location → Location}

/-! ## Faults -/

namespace Fault

/-- A fault at the place that `g` gives for its own. -/
def relocate (g : Location → Location) : Fault → Fault
  | .stray found => .stray (found.relocate g)
  | .wrong slot found => .wrong slot (found.relocate g)
  | .ended slot => .ended slot
  | .bracketsOutsideArray l => .bracketsOutsideArray (g l)
  | .literalRequired l => .literalRequired (g l)
  | .lengthMismatch declared supplied l => .lengthMismatch declared supplied (g l)
  | .typeMismatch type value l => .typeMismatch type value (g l)

theorem kind_relocate (fault : Fault) : (fault.relocate g).kind = fault.kind := by
  cases fault <;> rfl

theorem message_relocate (fault : Fault) : (fault.relocate g).message = fault.message := by
  cases fault with
  | wrong slot found => cases slot <;> rfl
  | _ => rfl

theorem location?_relocate (fault : Fault) :
    (fault.relocate g).location? = fault.location?.map g := by
  cases fault <;> rfl

end Fault

def Error.relocate (g : Location → Location) (e : Error) : Error :=
  ⟨e.fault.relocate g, g e.location⟩

/-! ## Rules -/

namespace Rule

variable {α β : Type}

/-- What `r'` reads from tokens at the places that `g` gives is what `r` reads from them where they
are. -/
def Follows (g : Location → Location) (r' r : Rule α) : Prop :=
  ∀ ts, r' (ts.map (Token.relocate g)) =
    mapBoth (Fault.relocate g) (fun (a, rest) => (a, rest.map (Token.relocate g))) (r ts)

theorem follows_pure (a : α) : Follows g (pure a : Rule α) (pure a) := fun _ => rfl

theorem Follows.bind {r' r : Rule α} {next' next : α → Rule β} (hr : Follows g r' r)
    (hn : ∀ a, Follows g (next' a) (next a)) : Follows g (r' >>= next') (r >>= next) := by
  intro ts
  rw [bind_apply, bind_apply, hr ts]
  cases r ts with
  | error fault => rfl
  | ok read => exact hn read.1 read.2

theorem follows_fail {fault' fault : Fault} (h : fault' = fault.relocate g) :
    Follows g (fail fault' : Rule α) (fail fault) := by
  rw [h]
  exact fun _ => rfl

theorem follows_fill (slot : Slot) {read : Token → Option α}
    (hread : ∀ t, read (t.relocate g) = read t) : Follows g (fill slot read) (fill slot read) := by
  intro ts
  cases ts with
  | nil => rfl
  | cons t ts =>
    rw [List.map_cons, fill, fill, hread]
    cases read t <;> rfl

theorem follows_expect (slot : Slot) (kind : Token.Kind) :
    Follows g (expect slot kind) (expect slot kind) :=
  follows_fill slot fun _ => rfl

theorem follows_accept (kind : Token.Kind) : Follows g (accept kind) (accept kind) := by
  intro ts
  cases ts with
  | nil => rfl
  | cons t ts =>
    have hkind : (t.relocate g).kind = t.kind := rfl
    rw [List.map_cons, accept, accept, hkind]
    split <;> rfl

end Rule

open Rule

theorem follows_arrayItems : Follows g arrayItems arrayItems := by
  intro ts
  induction ts with
  | nil => rfl
  | cons t ts ih =>
    obtain ⟨kind, lexeme, location⟩ := t
    cases kind with
    | number =>
      cases lexeme with
      | number n =>
        simp only [List.map_cons, Token.relocate, arrayItems, ih]
        cases arrayItems ts <;> rfl
      | text s => rfl
    | comma => exact ih
    | _ => rfl

theorem follows_arrayLiteral (start : Location) (shape : Option Shape) :
    Follows g (arrayLiteral (g start) shape) (arrayLiteral start shape) := by
  cases shape with
  | none => exact follows_fail rfl
  | some shape =>
    refine follows_arrayItems.bind fun values => ?_
    split
    · exact follows_pure _
    · exact follows_fail rfl

theorem follows_nameOrCall (name : String) : Follows g (nameOrCall name) (nameOrCall name) := by
  refine (follows_accept _).bind fun b => ?_
  split
  · exact (follows_fill _ fun _ => rfl).bind fun _ => (follows_expect _ _).bind fun _ =>
      follows_pure _
  · exact follows_pure _

theorem follows_operand (start : Location) (shape : Option Shape) :
    Follows g (operand (g start) shape) (operand start shape) := by
  refine (follows_fill _ fun _ => rfl).bind fun head => ?_
  cases head with
  | name s => exact follows_nameOrCall s
  | number n => exact follows_pure _
  | string s => exact follows_pure _
  | bracket => exact follows_arrayLiteral start shape

theorem follows_operatorTail (left : Expr) :
    Follows g (operatorTail left) (operatorTail left) := by
  intro ts
  cases ts with
  | nil => rfl
  | cons t ts =>
    have hkind : (t.relocate g).kind = t.kind := rfl
    rw [List.map_cons, operatorTail, operatorTail]
    simp only [hkind]
    split
    · exact ((follows_fill .operator fun _ => rfl).bind fun _ =>
        (follows_fill .rightOperand fun _ => rfl).bind fun _ => follows_pure _) (t :: ts)
    · rfl

theorem follows_checked (type : VarType) (start : Location) (value : Expr) :
    Follows g (checked type (g start) value) (checked type start value) := by
  unfold checked
  split
  · exact follows_fail rfl
  · split
    · exact follows_fail rfl
    · exact follows_pure _

/-- The place of the value is that of the next token; without one there is no value. -/
theorem follows_initializer (type : VarType) (shape : Option Shape) :
    Follows g (initializer type shape) (initializer type shape) := by
  intro ts
  cases ts with
  | nil => rfl
  | cons t ts =>
    exact ((follows_operand t.location shape).bind fun left =>
      (follows_operatorTail left).bind fun value =>
        follows_checked type t.location value) (t :: ts)

theorem follows_arrayShape : Follows g arrayShape arrayShape :=
  (follows_expect _ _).bind fun _ => (follows_fill _ fun _ => rfl).bind fun _ =>
    (follows_expect _ _).bind fun _ => (follows_fill _ fun _ => rfl).bind fun _ =>
      (follows_expect _ _).bind fun _ => follows_pure _

theorem follows_shapeOf (type : VarType) : Follows g (shapeOf type) (shapeOf type) := by
  cases type with
  | array => exact follows_arrayShape.bind fun _ => follows_pure _
  | int => exact follows_pure _
  | float => exact follows_pure _
  | string => exact follows_pure _

theorem follows_declaration : Follows g declaration declaration :=
  (follows_fill _ fun _ => rfl).bind fun type => (follows_shapeOf type).bind fun shape =>
    (follows_fill _ fun _ => rfl).bind fun _ => (follows_expect _ _).bind fun _ =>
      (follows_initializer type shape).bind fun _ => follows_pure _

theorem follows_loop : Follows g loop loop :=
  (follows_fill _ fun _ => rfl).bind fun _ => (follows_fill _ fun _ => rfl).bind fun _ =>
    (follows_fill _ fun _ => rfl).bind fun _ => (follows_expect _ _).bind fun _ => follows_pure _

theorem follows_function : Follows g function function :=
  (follows_fill _ fun _ => rfl).bind fun _ => (follows_expect _ _).bind fun _ =>
    (follows_fill _ fun _ => rfl).bind fun _ => (follows_expect _ _).bind fun _ =>
      (follows_fill _ fun _ => rfl).bind fun _ => (follows_expect _ _).bind fun _ =>
        (follows_expect _ _).bind fun _ => (follows_fill _ fun _ => rfl).bind fun _ =>
          (follows_expect _ _).bind fun _ => follows_pure _

theorem follows_result : Follows g result result :=
  (follows_fill _ fun _ => rfl).bind fun _ => (follows_accept _).bind fun _ =>
    (follows_expect _ _).bind fun _ => follows_pure _

theorem follows_print : Follows g print print :=
  (follows_expect _ _).bind fun _ => (follows_fill _ fun _ => rfl).bind fun _ =>
    (follows_expect _ _).bind fun _ => follows_pure _

theorem follows_statementAfter (first : Token) :
    Follows g (statementAfter (first.relocate g)) (statementAfter first) := by
  obtain ⟨kind, lexeme, location⟩ := first
  cases kind with
  | declare => exact follows_declaration
  | loop => exact follows_loop
  | rightBrace => exact follows_pure _
  | function => exact follows_function
  | result => exact follows_result
  | print => exact follows_print
  | _ => exact follows_fail rfl

theorem follows_terminated (first : Token) :
    Follows g (terminated (first.relocate g)) (terminated first) :=
  (follows_statementAfter first).bind fun _ => (follows_accept _).bind fun _ => follows_pure _

/-! ## Programs -/

variable {ts : List Token}

theorem read_of_error {position : Nat} {first : Token} {fault : Fault}
    (h : terminated first ts = .error fault) : read position (first :: ts) = ⟨[], some fault⟩ := by
  rw [read]
  split
  · rename_i hf
    rw [h] at hf
    cases hf
    rfl
  · rename_i hf
    rw [h] at hf
    cases hf

/-- Tokens at other places and further on are read alike. -/
theorem read_relocate (g : Location → Location) (n position : Nat) (ts : List Token) :
    read (position + n) (ts.map (Token.relocate g)) =
      ⟨(read position ts).entries.map (Entry.moved g n),
        (read position ts).fault?.map (Fault.relocate g)⟩ := by
  fun_induction read position ts with
  | case1 => rw [List.map_nil, read]; rfl
  | case2 position first ts fault hf =>
    have hmoved := follows_terminated first (g := g) ts
    rw [hf] at hmoved
    rw [List.map_cons, read_of_error hmoved]
    rfl
  | case3 position first ts node later hf stop following ih =>
    have hmoved := follows_terminated first (g := g) ts
    rw [hf] at hmoved
    have hstop : position + n + ((first.relocate g :: ts.map (Token.relocate g)).length -
        (later.map (Token.relocate g)).length) = stop + n := by
      simp only [stop, List.length_cons, List.length_map]
      omega
    rw [List.map_cons, read_cons hmoved]
    simp only [hstop, ih]
    rfl

theorem endLocation_relocate {t : Token} :
    endLocation ((t :: ts).map (Token.relocate g)) = g (endLocation (t :: ts)) := by
  unfold endLocation
  rw [List.getLast?_map, List.getLast?_cons]
  rfl

/-- Tokens at other places are read as the same statements, or with the same fault, at these. -/
theorem parse_relocate (g : Location → Location) (ts : List Token) :
    parse (ts.map (Token.relocate g)) =
      mapBoth (Error.relocate g) (List.map (Entry.moved g 0)) (parse ts) := by
  have hread := read_relocate g 0 0 ts
  rcases hr : read 0 ts with ⟨entries, _ | fault⟩
  · rw [hr] at hread
    rw [parse_eq_ok.2 hr]
    exact parse_eq_ok.2 hread
  · cases ts with
    | nil => rw [read] at hr; cases hr
    | cons t ts =>
      rw [hr] at hread
      have hplace : (fault.relocate g).location?.getD
          (endLocation ((t :: ts).map (Token.relocate g))) =
          g (fault.location?.getD (endLocation (t :: ts))) := by
        rw [fault.location?_relocate, endLocation_relocate]
        cases fault.location? <;> rfl
      simp only [parse, hr, hread, Option.map_some, hplace, mapBoth_error, Error.relocate]

/-- Tokens that differ in places only are read as the same statements. -/
theorem exists_parse_of_relocate {g : Location → Location} {ts us : List Token}
    {entries : List Entry} (h : us.map (Token.relocate g) = ts.map (Token.relocate g))
    (hp : parse ts = .ok entries) :
    ∃ more, parse us = .ok more ∧ more.map Entry.unplaced = entries.map Entry.unplaced := by
  have hparse := parse_relocate g us
  rw [h, parse_relocate, hp] at hparse
  obtain ⟨more, hmore, hmoved⟩ := mapBoth_eq_ok hparse.symm
  refine ⟨more, hmore, ?_⟩
  rw [← Entry.map_unplaced_moved g 0, hmoved, Entry.map_unplaced_moved]

theorem Rule.Avoids.append {kinds : List Token.Kind} {us : List Token} (ht : Avoids kinds ts)
    (hu : Avoids kinds us) : Avoids kinds (ts ++ us) := by
  cases ts with
  | nil => exact hu
  | cons => exact ht

theorem Rule.Avoids.relocate {kinds : List Token.Kind} (h : Avoids kinds ts)
    (g : Location → Location) : Avoids kinds (ts.map (Token.relocate g)) := by
  cases ts with
  | nil => exact h
  | cons => rwa [List.map_cons, avoids_cons] at *

/-- Tokens after a whole program are read as they are read alone, further on. -/
theorem read_append {position : Nat} {us : List Token} (h : (read position ts).fault? = none)
    (hu : Avoids [.leftParen, .operator, .semicolon] us) :
    read position (ts ++ us) =
      ⟨(read position ts).entries ++ (read (position + ts.length) us).entries,
        (read (position + ts.length) us).fault?⟩ := by
  fun_induction read position ts with
  | case1 => rfl
  | case2 => cases h
  | case3 position first ts node later ht stop following ih =>
    obtain ⟨segment, hsegment, rfl⟩ := exists_terminated ht
    obtain ⟨nodes, segments, hsegments, rfl⟩ := program_of_read h
    have hnext := terminated_append hsegment ((avoids_flatten hsegments).append hu)
    rw [← List.append_assoc] at hnext
    have hstop : position + ((first :: (segment ++ segments.flatten ++ us)).length -
        (segments.flatten ++ us).length) = stop := by
      simp only [stop, List.length_cons, List.length_append]
      omega
    have hend : position + (first :: (segment ++ segments.flatten)).length =
        stop + segments.flatten.length := by
      simp only [stop, List.length_cons, List.length_append]
      omega
    rw [List.cons_append, read_cons hnext, hend]
    simp only [hstop, ih h, List.cons_append, following]

/-- The statements of a program are followed by those of another that is put after it. -/
theorem parse_append (g : Location → Location) {us : List Token} {entries more : List Entry}
    (ht : parse ts = .ok entries) (hu : parse us = .ok more) :
    parse (ts ++ us.map (Token.relocate g)) =
      .ok (entries ++ more.map (Entry.moved g ts.length)) := by
  obtain ⟨segments, hsegments, rfl⟩ := program_of_parse hu
  have havoids := (avoids_flatten hsegments).relocate g
  have hread := parse_eq_ok.1 ht
  have hmoved := read_relocate g ts.length 0 segments.flatten
  rw [parse_eq_ok.1 hu] at hmoved
  rw [parse_eq_ok, read_append (by rw [hread]) havoids, hread, hmoved]
  rfl

end Grammar

end FuzzLang
