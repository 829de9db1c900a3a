import FuzzLang.Proofs.Grammar.Exact

/-!
# The ranges of statements

The statements of a token list take its segments in order, so their ranges lie end to end from the
first token to the last (`tiles_placed`). A segment is read without looking at its neighbours: cut
out of the list, it is read as the same statement (`parse_tiles`).
-/

namespace FuzzLang.Grammar

/-- Ranges that lie end to end from `start` to `stop`, none of them empty. -/
def Tiles (start stop : Nat) : List Span → Prop
  | [] => start = stop
  | span :: spans => span.start = start ∧ span.start < span.stop ∧ Tiles span.stop stop spans

theorem Segment.length_pos {node : Node} {segment : List Token} (h : Segment node segment) :
    0 < segment.length := by
  obtain ⟨first, later, rfl, _⟩ := h.exists_cons
  exact Nat.succ_pos _

/-- Statements without a fault are those of segments, each with the range of its segment. -/
theorem exists_placed_of_parse {ts : List Token} {entries : List Entry}
    (h : parse ts = .ok entries) :
    ∃ nodes segments, List.Forall₂ Segment nodes segments ∧ segments.flatten = ts ∧
      entries = placed 0 nodes segments := by
  obtain ⟨segments, hs, rfl⟩ := program_of_parse h
  rw [parse_flatten hs] at h
  exact ⟨_, segments, hs, rfl, (Except.ok.inj h).symm⟩

theorem tiles_placed {nodes : List Node} {segments : List (List Token)}
    (h : List.Forall₂ Segment nodes segments) (position : Nat) :
    Tiles position (position + segments.flatten.length)
      ((placed position nodes segments).map (·.span)) := by
  induction h generalizing position with
  | nil => rfl
  | @cons node segment nodes segments hs _ ih =>
    have hpos := hs.length_pos
    refine ⟨rfl, by simp only; omega, ?_⟩
    rw [List.flatten_cons, List.length_append, ← Nat.add_assoc]
    exact ih _

/-- A statement has a segment of its own: as many tokens before it as its range begins at. -/
theorem exists_segment_of_mem_placed {nodes : List Node} {segments : List (List Token)}
    (h : List.Forall₂ Segment nodes segments) {position : Nat} {e : Entry}
    (he : e ∈ placed position nodes segments) :
    ∃ before segment after, segments.flatten = before ++ (segment ++ after) ∧
      Segment e.node segment ∧
      e = ⟨e.node, ⟨position + before.length, position + before.length + segment.length⟩,
        (segment.head?.map (·.location)).getD {}⟩ := by
  induction h generalizing position with
  | nil => cases he
  | @cons node segment nodes segments hs _ ih =>
    rcases List.mem_cons.1 he with rfl | he
    · exact ⟨[], segment, segments.flatten, rfl, hs, rfl⟩
    · obtain ⟨before, own, after, hflat, hown, heq⟩ := ih he
      refine ⟨segment ++ before, own, after, ?_, hown, ?_⟩
      · rw [List.flatten_cons, hflat, List.append_assoc]
      · rw [List.length_append, ← Nat.add_assoc]
        exact heq

/-- The tokens of a statement are a phrase for it. -/
theorem exists_phrase_of_parse {ts : List Token} {entries : List Entry} {e : Entry}
    (h : parse ts = .ok entries) (he : e ∈ entries) :
    ∃ phrase, Phrase e.node phrase ∧ phrase ⊆ ts := by
  obtain ⟨nodes, segments, hsegments, rfl, rfl⟩ := exists_placed_of_parse h
  obtain ⟨before, segment, after, hflatten, hsegment, -⟩ :=
    exists_segment_of_mem_placed hsegments he
  obtain ⟨phrase, later, hphrase, rfl⟩ := hsegment.exists_phrase
  refine ⟨phrase, hphrase, ?_⟩
  rw [hflatten]
  exact fun t ht => List.mem_append_right _ (List.mem_append_left _ (List.mem_append_left _ ht))

theorem extract_append {α : Type} (before segment after : List α) :
    (before ++ (segment ++ after)).extract before.length (before.length + segment.length) =
      segment := by
  rw [List.extract_eq_take_drop, List.drop_left, Nat.add_sub_cancel_left, List.take_left]

/-- **Tiling.** The ranges of the statements lie end to end from the first token to the last and
none is empty. Each statement is placed at the first token of its range, and the tokens of its range
alone are read as that statement. -/
theorem parse_tiles {ts : List Token} {entries : List Entry} (h : parse ts = .ok entries) :
    (entries = [] ↔ ts = []) ∧ Tiles 0 ts.length (entries.map (·.span)) ∧
      ∀ e ∈ entries, ts[e.span.start]?.map (·.location) = some e.location ∧
        parse (ts.extract e.span.start e.span.stop) =
          .ok [{ e with span := ⟨0, e.span.stop - e.span.start⟩ }] := by
  obtain ⟨nodes, segments, hs, rfl, rfl⟩ := exists_placed_of_parse h
  have htiles := tiles_placed hs 0
  rw [Nat.zero_add] at htiles
  refine ⟨?_, htiles, fun e he => ?_⟩
  · cases hs with
    | nil => exact ⟨fun _ => rfl, fun _ => rfl⟩
    | cons hsegment _ =>
      obtain ⟨first, later, rfl, _⟩ := hsegment.exists_cons
      exact ⟨nofun, nofun⟩
  · obtain ⟨before, segment, after, hflat, hsegment, heq⟩ := exists_segment_of_mem_placed hs he
    rw [Nat.zero_add] at heq
    obtain ⟨first, later, hfirst, _⟩ := hsegment.exists_cons
    have hslice : parse segment = .ok [⟨e.node, ⟨0, segment.length⟩, first.location⟩] := by
      have hp := parse_flatten (.cons hsegment .nil)
      rw [List.flatten_singleton] at hp
      simpa [placed, hfirst] using hp
    rw [hflat, heq]
    refine ⟨?_, ?_⟩
    · subst hfirst
      simp
    · rw [extract_append, hslice, Nat.add_sub_cancel_left]
      subst hfirst
      rfl

/-- A returned value with both semicolons that may stand there, then a brace. -/
def returnThenBrace : List Token :=
  [⟨.result, .text "flabs", ⟨1, 1⟩⟩, ⟨.identifier, .text "x", ⟨1, 7⟩⟩,
    ⟨.semicolon, .text ";", ⟨1, 8⟩⟩, ⟨.rightBrace, .text "\x7d", ⟨1, 9⟩⟩,
    ⟨.semicolon, .text ";", ⟨1, 10⟩⟩, ⟨.rightBrace, .text "\x7d", ⟨2, 1⟩⟩]

/-- The two ranges meet after the second semicolon, and each is read alone. -/
theorem parse_tiles_returnThenBrace :
    parse returnThenBrace =
        .ok [⟨.result (.variable "x"), ⟨0, 5⟩, ⟨1, 1⟩⟩, ⟨.endLoop, ⟨5, 6⟩, ⟨2, 1⟩⟩] ∧
      Tiles 0 6 [⟨0, 5⟩, ⟨5, 6⟩] ∧
      parse (returnThenBrace.extract 0 5) = .ok [⟨.result (.variable "x"), ⟨0, 5⟩, ⟨1, 1⟩⟩] ∧
      parse (returnThenBrace.extract 5 6) = .ok [⟨.endLoop, ⟨0, 1⟩, ⟨2, 1⟩⟩] := by
  have h : parse returnThenBrace =
      .ok [⟨.result (.variable "x"), ⟨0, 5⟩, ⟨1, 1⟩⟩, ⟨.endLoop, ⟨5, 6⟩, ⟨2, 1⟩⟩] := by
    decide +kernel
  obtain ⟨_, htiles, halone⟩ := parse_tiles h
  obtain ⟨⟨_, hreturn⟩, hlater⟩ := List.forall_mem_cons.1 halone
  obtain ⟨_, hbrace⟩ := hlater _ List.mem_cons_self
  exact ⟨h, htiles, hreturn, hbrace⟩

end FuzzLang.Grammar
