import FuzzLang.Proofs.Grammar.Steady

/-!
# Tokens put at the end, and tokens cut off

Tokens after a program that do not carry on its last statement are read as they are read alone
(`parse_append_avoiding`). Tokens after a settled fault are not looked at (`parse_error_stays`).

Read the other way round, this says what is left of a program when its end is cut off: the
statements that lie within what is left, and at most one that was cut short (`parse_truncated`). No
settled fault can appear, since it would be a fault of the whole program.
-/

namespace FuzzLang.Grammar

open Rule

variable {ts us : List Token}

/-! ## Programs put end to end -/

theorem parse_eq_error {e : Error} :
    parse ts = .error e ↔
      (read 0 ts).fault? = some e.fault ∧ e.location = e.fault.location?.getD (endLocation ts) := by
  obtain ⟨fault, location⟩ := e
  rcases hr : read 0 ts with ⟨entries, _ | fault'⟩
  · simp [parse, hr]
  · simp only [parse, hr, Except.error.injEq, Error.mk.injEq, Option.some.injEq]
    constructor
    · rintro ⟨rfl, rfl⟩
      exact ⟨rfl, rfl⟩
    · rintro ⟨rfl, rfl⟩
      exact ⟨rfl, rfl⟩

theorem ne_nil_of_parse_error {e : Error} (h : parse ts = .error e) : ts ≠ [] := by
  rintro rfl
  have hfault := (parse_eq_error.1 h).1
  rw [read] at hfault
  cases hfault

theorem endLocation_append (hu : us ≠ []) : endLocation (ts ++ us) = endLocation us := by
  unfold endLocation
  rw [List.getLast?_append_of_ne_nil _ hu]

theorem Fault.relocate_id (fault : Fault) : fault.relocate id = fault := by
  cases fault <;> rfl

/-- Tokens further on are read alike. -/
theorem read_shift (n : Nat) (ts : List Token) :
    read n ts = ⟨(read 0 ts).entries.map (Entry.moved id n), (read 0 ts).fault?⟩ := by
  have h := read_relocate id n 0 ts
  have htokens : Token.relocate id = id := rfl
  have hfaults : Fault.relocate id = id := funext Fault.relocate_id
  rwa [Nat.zero_add, htokens, hfaults, List.map_id, Option.map_id_fun, id_eq] at h

/-- **Statement boundaries.** Tokens after a program that do not carry on its last statement are
read as they are read alone: as their own statements, further on, or with their own fault at its
place. -/
theorem parse_append_avoiding {entries : List Entry} (ht : parse ts = .ok entries)
    (hu : Avoids [.leftParen, .operator, .semicolon] us) :
    (∀ more, parse us = .ok more →
      parse (ts ++ us) = .ok (entries ++ more.map (Entry.moved id ts.length))) ∧
    ∀ e, parse us = .error e → parse (ts ++ us) = .error e := by
  have hread := parse_eq_ok.1 ht
  have happend : read 0 (ts ++ us) = ⟨entries ++ (read 0 us).entries.map (Entry.moved id ts.length),
      (read 0 us).fault?⟩ := by
    rw [read_append (by rw [hread]) hu, hread, Nat.zero_add, read_shift]
  refine ⟨fun more hmore => ?_, fun e he => ?_⟩
  · rw [parse_eq_ok, happend, parse_eq_ok.1 hmore]
  · obtain ⟨hfault, hplace⟩ := parse_eq_error.1 he
    rw [parse_eq_error, happend, endLocation_append (ne_nil_of_parse_error he)]
    exact ⟨hfault, hplace⟩

/-- A declaration that a parenthesis or an operator would carry on. -/
def nameAtEnd : List Token :=
  [⟨.declare, .text "fuzzy", ⟨1, 1⟩⟩, ⟨.identifier, .text "int", ⟨1, 7⟩⟩,
    ⟨.identifier, .text "x", ⟨1, 11⟩⟩, ⟨.equals, .text "=", ⟨1, 13⟩⟩,
    ⟨.identifier, .text "y", ⟨1, 15⟩⟩]

def unclosedPrint : List Token :=
  [⟨.print, .text "labs", ⟨2, 1⟩⟩, ⟨.leftParen, .text "(", ⟨2, 5⟩⟩,
    ⟨.identifier, .text "x", ⟨2, 6⟩⟩]

/-- The fault is that of the second line alone, at its last token. -/
theorem parse_append_avoiding_unclosedPrint :
    parse nameAtEnd = .ok [⟨.declare "x" .int (.variable "y"), ⟨0, 5⟩, ⟨1, 1⟩⟩] ∧
      Avoids [.leftParen, .operator, .semicolon] unclosedPrint ∧
      parse unclosedPrint = .error ⟨.ended .printClose, ⟨2, 6⟩⟩ ∧
      parse (nameAtEnd ++ unclosedPrint) = .error ⟨.ended .printClose, ⟨2, 6⟩⟩ := by
  have hfirst : parse nameAtEnd = .ok [⟨.declare "x" .int (.variable "y"), ⟨0, 5⟩, ⟨1, 1⟩⟩] := by
    decide +kernel
  have hnext : Avoids [.leftParen, .operator, .semicolon] unclosedPrint := avoids_cons.2 (by decide)
  have hsecond : parse unclosedPrint = .error ⟨.ended .printClose, ⟨2, 6⟩⟩ := by decide +kernel
  exact ⟨hfirst, hnext, hsecond, (parse_append_avoiding hfirst hnext).2 _ hsecond⟩

/-! ## Faults that stay -/

/-- A statement with tokens left after it is read the same when more follow. Where none are left it
may take some of them. -/
theorem terminated_append_cases {first : Token} {node : Node} {later : List Token}
    (h : terminated first ts = .ok (node, later)) (us : List Token) :
    terminated first (ts ++ us) = .ok (node, later ++ us) ∨
      later = [] ∧ ∀ node' later', terminated first (ts ++ us) = .ok (node', later') →
        later'.length < us.length := by
  obtain hkept | ⟨node', hsame, hmore⟩ := steady_terminated first ts us
  · rw [h] at hkept
    exact .inl hkept
  · rw [h] at hsame
    cases hsame
    exact .inr ⟨rfl, fun node' later' hok => (hmore node' later' hok).2⟩

theorem leaves_terminated {first : Token} {fault : Fault} (h : terminated first ts = .error fault)
    (us : List Token) : fault.Leaves (terminated first (ts ++ us)) := by
  obtain hkept | ⟨node, hok, _⟩ := steady_terminated first ts us
  · rwa [h] at hkept
  · rw [h] at hok
    cases hok

/-- Before a fault every statement has tokens left after it. -/
theorem terminated_append_of_fault {first : Token} {node : Node} {later : List Token}
    {position : Nat} {fault : Fault} (h : terminated first ts = .ok (node, later))
    (hf : (read position later).fault? = some fault) (us : List Token) :
    terminated first (ts ++ us) = .ok (node, later ++ us) := by
  obtain hkept | ⟨rfl, _⟩ := terminated_append_cases h us
  · exact hkept
  · rw [read] at hf
    cases hf

theorem read_cons_append {position : Nat} {first : Token} {node : Node} {later : List Token}
    (h : terminated first (ts ++ us) = .ok (node, later ++ us)) :
    read position (first :: ts ++ us) =
      let stop := position + ((first :: ts).length - later.length)
      ⟨⟨node, ⟨position, stop⟩, first.location⟩ :: (read stop (later ++ us)).entries,
        (read stop (later ++ us)).fault?⟩ := by
  have hstop : position + ((first :: (ts ++ us)).length - (later ++ us).length) =
      position + ((first :: ts).length - later.length) := by
    simp only [List.length_cons, List.length_append]
    omega
  rw [List.cons_append, read_cons h]
  simp only [hstop]

theorem read_append_of_settled {position : Nat} {fault : Fault}
    (h : (read position ts).fault? = some fault) (hs : fault.settled = true) (us : List Token) :
    read position (ts ++ us) = read position ts := by
  fun_induction read position ts with
  | case1 => cases h
  | case2 position first ts fault' hf =>
    cases h
    exact read_of_error ((leaves_terminated hf us).stays hs)
  | case3 position first ts node later ht stop following ih =>
    rw [read_cons_append (terminated_append_of_fault ht h us)]
    simp only [stop, following] at ih ⊢
    rw [ih h]

/-- A settled fault is placed where it is found, not at the end. -/
theorem Fault.exists_location_of_settled {fault : Fault} (h : fault.settled = true) :
    ∃ l, fault.location? = some l := by
  cases fault with
  | ended | literalRequired | typeMismatch => cases h
  | _ => exact ⟨_, rfl⟩

theorem parse_append_of_settled {e : Error} (h : parse ts = .error e)
    (hs : e.fault.settled = true) (us : List Token) : parse (ts ++ us) = .error e := by
  obtain ⟨hfault, hplace⟩ := parse_eq_error.1 h
  obtain ⟨l, hl⟩ := Fault.exists_location_of_settled hs
  rw [parse_eq_error, read_append_of_settled hfault hs us]
  rw [hl] at hplace ⊢
  exact ⟨hfault, hplace⟩

theorem Fault.settled_of_kind {fault : Fault}
    (h : fault.kind ∈ [.unexpectedToken, .missingToken, .invalidType, .arrayLengthMismatch]) :
    fault.settled = true := by
  cases fault with
  | ended | literalRequired | typeMismatch => simp [Fault.kind] at h
  | _ => rfl

/-- **Settled faults.** A wrong or missing token, a type that does not exist and an array of the
wrong length are found whatever follows: the same fault, at the same place. -/
theorem parse_error_stays {e : Error} (h : parse ts = .error e)
    (hk : e.fault.kind ∈ [.unexpectedToken, .missingToken, .invalidType, .arrayLengthMismatch])
    (us : List Token) : parse (ts ++ us) = .error e :=
  parse_append_of_settled h (Fault.settled_of_kind hk) us

/-- An array that is one value short, its bracket closed. -/
def oneShort : List Token :=
  [⟨.declare, .text "fuzzy", ⟨1, 1⟩⟩, ⟨.identifier, .text "array", ⟨1, 7⟩⟩,
    ⟨.leftBracket, .text "[", ⟨1, 12⟩⟩, ⟨.identifier, .text "int", ⟨1, 13⟩⟩,
    ⟨.semicolon, .text ";", ⟨1, 16⟩⟩, ⟨.number, .number (.int 2), ⟨1, 17⟩⟩,
    ⟨.rightBracket, .text "]", ⟨1, 18⟩⟩, ⟨.identifier, .text "a", ⟨1, 20⟩⟩,
    ⟨.equals, .text "=", ⟨1, 22⟩⟩, ⟨.leftBracket, .text "[", ⟨1, 24⟩⟩,
    ⟨.number, .number (.int 1), ⟨1, 25⟩⟩, ⟨.rightBracket, .text "]", ⟨1, 26⟩⟩]

/-- What follows the bracket does not count as a value. -/
theorem parse_error_stays_oneShort :
    parse oneShort = .error ⟨.lengthMismatch 2 1 ⟨1, 24⟩, ⟨1, 24⟩⟩ ∧
      parse (oneShort ++ [⟨.number, .number (.int 2), ⟨1, 28⟩⟩,
          ⟨.rightBracket, .text "]", ⟨1, 29⟩⟩]) =
        .error ⟨.lengthMismatch 2 1 ⟨1, 24⟩, ⟨1, 24⟩⟩ := by
  have h : parse oneShort = .error ⟨.lengthMismatch 2 1 ⟨1, 24⟩, ⟨1, 24⟩⟩ := by decide +kernel
  exact ⟨h, parse_error_stays h (by decide) _⟩

/-! ## Programs cut short -/

/-- A fault of the first tokens of a program is one that the others mend. -/
theorem mendable_of_read {position : Nat} {fault : Fault}
    (hall : (read position (ts ++ us)).fault? = none)
    (h : (read position ts).fault? = some fault) : fault.mendable = true := by
  fun_induction read position ts with
  | case1 => cases h
  | case2 position first ts fault' hf =>
    cases h
    cases hmore : terminated first (ts ++ us) with
    | ok read => exact (leaves_terminated hf us).mended read hmore
    | error other =>
      rw [List.cons_append, read_of_error hmore] at hall
      cases hall
  | case3 position first ts node later ht stop following ih =>
    rw [read_cons_append (terminated_append_of_fault ht h us)] at hall
    exact ih hall h

theorem lt_stop_of_mem_read {position : Nat} {e : Entry} (he : e ∈ (read position ts).entries) :
    position < e.span.stop := by
  fun_induction read position ts with
  | case1 => cases he
  | case2 => cases he
  | case3 position first ts node later ht stop following ih =>
    have hle := (trims_terminated first ts node later ht).length_le
    have hstop : position < stop := by
      simp only [stop, List.length_cons]
      omega
    rcases List.mem_cons.1 he with rfl | he
    · exact hstop
    · exact Nat.lt_trans hstop (ih he)

/-- A statement that goes on past `ts` when `us` follow: neither it nor a later one ends within
`ts`. -/
theorem filter_read_eq_nil {position : Nat} {first : Token}
    (h : ∀ node later, terminated first (ts ++ us) = .ok (node, later) → later.length < us.length) :
    (read position (first :: ts ++ us)).entries.filter
      (·.span.stop ≤ position + (first :: ts).length) = [] := by
  rw [List.filter_eq_nil_iff]
  intro e he
  rw [decide_eq_true_eq, Nat.not_le]
  cases hmore : terminated first (ts ++ us) with
  | error fault =>
    rw [List.cons_append, read_of_error hmore] at he
    cases he
  | ok read =>
    obtain ⟨node, later⟩ := read
    have hlt := h node later hmore
    rw [List.cons_append, read_cons hmore] at he
    rcases List.mem_cons.1 he with rfl | he
    · simp only [List.length_cons, List.length_append]
      omega
    · have hstop := lt_stop_of_mem_read he
      simp only [List.length_cons, List.length_append] at hstop ⊢
      omega

/-- The statements of the first tokens are those of all tokens that end within the first, and at
most one more, which reaches to the end of the first. -/
theorem exists_further_of_read {position : Nat} (h : (read position ts).fault? = none)
    (us : List Token) :
    ∃ further : List Entry, further.length ≤ 1 ∧
      (∀ e ∈ further, e.span.stop = position + ts.length) ∧
      (read position ts).entries =
        (read position (ts ++ us)).entries.filter (·.span.stop ≤ position + ts.length) ++
          further := by
  fun_induction read position ts with
  | case1 position =>
    refine ⟨[], Nat.zero_le _, by simp, ?_⟩
    rw [List.append_nil, eq_comm, List.filter_eq_nil_iff]
    intro e he
    rw [decide_eq_true_eq, Nat.not_le]
    exact lt_stop_of_mem_read he
  | case2 => cases h
  | case3 position first ts node later ht stop following ih =>
    have hle := (trims_terminated first ts node later ht).length_le
    have hend : stop + later.length = position + (first :: ts).length := by
      simp only [stop, List.length_cons]
      omega
    obtain hkept | ⟨rfl, hmore⟩ := terminated_append_cases ht us
    · -- the statement is also one of all tokens
      obtain ⟨further, hone, hstop, hentries⟩ := ih h
      refine ⟨further, hone, fun e he => (hstop e he).trans hend, ?_⟩
      have hwithin : stop ≤ position + (first :: ts).length := by omega
      have hfilter : (read position (first :: ts ++ us)).entries.filter
          (·.span.stop ≤ position + (first :: ts).length) =
          ⟨node, ⟨position, stop⟩, first.location⟩ ::
            (read stop (later ++ us)).entries.filter (·.span.stop ≤ stop + later.length) := by
        rw [read_cons_append hkept, hend]
        exact List.filter_cons_of_pos (decide_eq_true hwithin)
      rw [hfilter, List.cons_append]
      exact congrArg _ hentries
    · -- the statement is the last of the first tokens, and the others carry it on
      refine ⟨[⟨node, ⟨position, stop⟩, first.location⟩], Nat.le_refl _, ?_, ?_⟩
      · intro e he
        rw [List.mem_singleton.1 he]
        exact hend
      · rw [filter_read_eq_nil hmore]
        simp only [following, read, List.nil_append]

/-- **Truncation.** The first tokens of a program are read as its statements that end within them,
followed by at most one more that reaches to their end. Or else they end too soon, which is reported
at the last of them, or leave a literal alone that does not suit its type. -/
theorem parse_truncated {entries : List Entry} {cut : List Token} (h : parse ts = .ok entries)
    (hcut : cut <+: ts) :
    (∃ further : List Entry, further.length ≤ 1 ∧ (∀ e ∈ further, e.span.stop = cut.length) ∧
      parse cut = .ok (entries.filter (·.span.stop ≤ cut.length) ++ further)) ∨
    ∃ e, parse cut = .error e ∧
      (e.fault.kind = .unexpectedEnd ∧ cut.getLast?.map (·.location) = some e.location ∨
        e.fault.kind = .typeMismatch) := by
  obtain ⟨us, rfl⟩ := hcut
  have hread := parse_eq_ok.1 h
  cases hcut : parse cut with
  | ok kept =>
    have hkept := parse_eq_ok.1 hcut
    obtain ⟨further, hone, hstop, hentries⟩ := exists_further_of_read (by rw [hkept]) us
    simp only [hread, hkept, Nat.zero_add] at hstop hentries
    exact .inl ⟨further, hone, hstop, congrArg _ hentries⟩
  | error e =>
    obtain ⟨hfault, hplace⟩ := parse_eq_error.1 hcut
    have hmend : e.fault.mendable = true := mendable_of_read (by rw [hread]) hfault
    refine .inr ⟨e, rfl, ?_⟩
    obtain ⟨fault, location⟩ := e
    cases fault with
    | ended slot =>
      have hne := ne_nil_of_parse_error hcut
      refine .inl ⟨rfl, ?_⟩
      rw [hplace, endLocation, List.getLast?_eq_some_getLast hne]
      rfl
    | typeMismatch => exact .inr rfl
    | _ => cases hmend

/-- A statement, and a call that is a shorter value when its parentheses are cut off. -/
def printThenCall : List Token :=
  [⟨.print, .text "labs", ⟨1, 1⟩⟩, ⟨.leftParen, .text "(", ⟨1, 5⟩⟩,
    ⟨.identifier, .text "y", ⟨1, 6⟩⟩, ⟨.rightParen, .text ")", ⟨1, 7⟩⟩,
    ⟨.semicolon, .text ";", ⟨1, 8⟩⟩, ⟨.declare, .text "fuzzy", ⟨2, 1⟩⟩,
    ⟨.identifier, .text "int", ⟨2, 7⟩⟩, ⟨.identifier, .text "x", ⟨2, 11⟩⟩,
    ⟨.equals, .text "=", ⟨2, 13⟩⟩, ⟨.identifier, .text "f", ⟨2, 15⟩⟩,
    ⟨.leftParen, .text "(", ⟨2, 16⟩⟩, ⟨.number, .number (.int 3), ⟨2, 17⟩⟩,
    ⟨.rightParen, .text ")", ⟨2, 18⟩⟩]

/-- The first statement is kept, and the declaration is read with a name for its value. -/
theorem parse_truncated_printThenCall :
    parse printThenCall =
        .ok [⟨.print (.variable "y"), ⟨0, 5⟩, ⟨1, 1⟩⟩,
          ⟨.declare "x" .int (.call "f" (.number (.int 3))), ⟨5, 13⟩, ⟨2, 1⟩⟩] ∧
      printThenCall.take 10 <+: printThenCall ∧
      ∃ further : List Entry, further.length ≤ 1 ∧ (∀ e ∈ further, e.span.stop = 10) ∧
        parse (printThenCall.take 10) =
          .ok (⟨.print (.variable "y"), ⟨0, 5⟩, ⟨1, 1⟩⟩ :: further) := by
  have h : parse printThenCall =
      .ok [⟨.print (.variable "y"), ⟨0, 5⟩, ⟨1, 1⟩⟩,
        ⟨.declare "x" .int (.call "f" (.number (.int 3))), ⟨5, 13⟩, ⟨2, 1⟩⟩] := by
    decide +kernel
  have hcut : parse (printThenCall.take 10) =
      .ok [⟨.print (.variable "y"), ⟨0, 5⟩, ⟨1, 1⟩⟩,
        ⟨.declare "x" .int (.variable "f"), ⟨5, 10⟩, ⟨2, 1⟩⟩] := by
    decide +kernel
  have hfirst := List.take_prefix 10 printThenCall
  obtain hread | ⟨e, herror, _⟩ := parse_truncated h hfirst
  · exact ⟨h, hfirst, hread⟩
  · rw [hcut] at herror
    cases herror

end FuzzLang.Grammar
