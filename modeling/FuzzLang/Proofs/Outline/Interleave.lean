import FuzzLang.Compile
import FuzzLang.Proofs.Outline.WellFormed

/-!
# Where a function is written does not matter

Functions are gathered apart from the other statements (`Scans.exists_run`), so an outline can be
told from the functions in their order and the other statements in theirs, however the two are mixed
(`ofEntries_interleave`). All functions can stand in front, for example (`Piece.front`). What is
written depends on the outline alone, so it is the same too (`generate_interleave`).
-/

namespace FuzzLang

namespace Outline

namespace Piece

/-- The pieces with all functions in front. -/
def front (ps : List Piece) : List Piece :=
  (ps.filterMap segment?).map .function ++ ps.filter (·.single?.isSome)

theorem segments_front (ps : List Piece) :
    (front ps).filterMap segment? = ps.filterMap segment? := by
  have hfunctions : segment? ∘ function = some := rfl
  have hsingles : (fun p : Piece => if p.single?.isSome then p.segment? else none) =
      fun _ => none := by
    funext p
    cases p <;> rfl
  rw [front, List.filterMap_append, List.filterMap_map, hfunctions, List.filterMap_some,
    List.filterMap_filter, hsingles, List.filterMap_none, List.append_nil]

theorem singles_front (ps : List Piece) :
    (front ps).filterMap single? = ps.filterMap single? := by
  have hfunctions : single? ∘ function = fun _ => none := rfl
  have hsingles : (fun p : Piece => if p.single?.isSome then p.single? else none) = single? := by
    funext p
    cases p <;> rfl
  rw [front, List.filterMap_append, List.filterMap_map, hfunctions, List.filterMap_none,
    List.nil_append, List.filterMap_filter, hsingles]

theorem entries_singles (ps : List Piece) :
    (ps.filter (·.single?.isSome)).flatMap entries = ps.filterMap single? := by
  induction ps with
  | nil => rfl
  | cons p ps ih =>
    cases p with
    | function s => exact ih
    | single e he => exact congrArg (e :: ·) ih

theorem entries_front (ps : List Piece) :
    (front ps).flatMap entries =
      (ps.filterMap segment?).flatMap Segment.entries ++ ps.filterMap single? := by
  rw [front, List.flatMap_append, entries_singles, List.flatMap_map]
  rfl

end Piece

variable {ps qs : List Piece}

/-- Whether pieces have a fault can be told from their functions and their single statements. -/
theorem Scans.of_parts (h : Scans ps)
    (hsegments : qs.filterMap Piece.segment? = ps.filterMap Piece.segment?)
    (hsingles : qs.filterMap Piece.single? = ps.filterMap Piece.single?) : Scans qs := by
  have hnames : Piece.names qs = Piece.names ps := by
    rw [Piece.names, hsegments, Piece.names]
  refine ⟨?_, ?_, ?_⟩
  · rw [hnames]
    exact h.nodup
  · rw [hnames]
    exact h.not_main
  · rw [hsingles]
    exact h.initial

/-- The outline of pieces without a fault can be told from their functions and their single
statements. -/
theorem ofEntries_interleave (h : Scans ps)
    (hsegments : qs.filterMap Piece.segment? = ps.filterMap Piece.segment?)
    (hsingles : qs.filterMap Piece.single? = ps.filterMap Piece.single?) :
    ofEntries (qs.flatMap Piece.entries) = ofEntries (ps.flatMap Piece.entries) := by
  have hdefinitions : Piece.definitions qs = Piece.definitions ps := by
    rw [Piece.definitions, hsegments, Piece.definitions]
  obtain ⟨b, -, -, hb, hrun⟩ := h.exists_run
  obtain ⟨b', -, -, hb', hrun'⟩ := (h.of_parts hsegments hsingles).exists_run
  -- Both drafts are made of the same single statements.
  rw [hsingles, hb] at hb'
  obtain rfl : b = b' := congrArg Prod.fst hb'
  rw [ofEntries_of_run hrun', ofEntries_of_run hrun, hdefinitions]

end Outline

namespace Compilation

open Outline

theorem generate_of_ofEntries {entries entries' : List Entry}
    (h : ofEntries entries' = ofEntries entries) (indent : String) :
    generate indent entries' = generate indent entries := by
  rw [generate, h, generate]

/-- **Functions can be moved.** The statements of an outline are cut into functions and single
statements in one way. Their text, or the reason why there is none, is the same with all functions
in front, and with the functions in any other places, as long as the functions among themselves and
the single statements among themselves keep their order. -/
theorem generate_interleave {entries : List Entry} {o : Outline} (h : ofEntries entries = .ok o)
    (indent : String) :
    ∃ ps : List Piece, ps.flatMap Piece.entries = entries ∧
      (∀ other : List Piece, other.flatMap Piece.entries = entries → other = ps) ∧
      generate indent ((ps.filterMap Piece.segment?).flatMap Segment.entries ++
        ps.filterMap Piece.single?) = generate indent entries ∧
      ∀ qs : List Piece, qs.filterMap Piece.segment? = ps.filterMap Piece.segment? →
        qs.filterMap Piece.single? = ps.filterMap Piece.single? →
        ofEntries (qs.flatMap Piece.entries) = .ok o ∧
          generate indent (qs.flatMap Piece.entries) = generate indent entries := by
  obtain ⟨ps, rfl, hscans, -⟩ := wellFormed_of_ofEntries h
  refine ⟨ps, rfl, fun other hother => Piece.entries_injective hother, ?_, ?_⟩
  · rw [← Piece.entries_front]
    exact generate_of_ofEntries
      (ofEntries_interleave hscans (Piece.segments_front ps) (Piece.singles_front ps)) indent
  · intro qs hsegments hsingles
    have houtline := ofEntries_interleave hscans hsegments hsingles
    exact ⟨houtline.trans h, generate_of_ofEntries houtline indent⟩

/-- A function that copies its parameter, from line `line` on. -/
def copying (name : String) (line : Nat) : Segment where
  header := ⟨.function ⟨name, "a", "int", "int"⟩, {}, ⟨line, 1⟩⟩
  bindings := [⟨.declare "b" .int (.variable "a"), {}, ⟨line + 1, 1⟩⟩]
  last := ⟨.result (.variable "b"), {}, ⟨line + 2, 1⟩⟩
  signature := ⟨name, "a", "int", "int"⟩
  returns := .variable "b"
  header_node := rfl
  bindings_isSome := by simp [Entry.binding?]
  last_node := rfl

/-- A function right after the header of a loop, and one right after a variable of that loop. -/
def scattered : List Piece :=
  [.single ⟨.loop "x" "xs", {}, ⟨1, 1⟩⟩ rfl, .function (copying "f" 2),
    .single ⟨.declare "y" .int (.variable "x"), {}, ⟨5, 1⟩⟩ rfl, .function (copying "g" 6),
    .single ⟨.endLoop, {}, ⟨9, 1⟩⟩ rfl]

/-- Functions written in a loop have the same text in front of it and behind it. -/
theorem generate_interleave_scattered :
    (∃ o, ofEntries (scattered.flatMap Piece.entries) = .ok o) ∧
      generate " " ((copying "f" 2).entries ++ (copying "g" 6).entries ++
        [⟨.loop "x" "xs", {}, ⟨1, 1⟩⟩, ⟨.declare "y" .int (.variable "x"), {}, ⟨5, 1⟩⟩,
          ⟨.endLoop, {}, ⟨9, 1⟩⟩]) = generate " " (scattered.flatMap Piece.entries) ∧
      generate " " ([⟨.loop "x" "xs", {}, ⟨1, 1⟩⟩, ⟨.declare "y" .int (.variable "x"), {}, ⟨5, 1⟩⟩,
          ⟨.endLoop, {}, ⟨9, 1⟩⟩] ++ (copying "f" 2).entries ++ (copying "g" 6).entries) =
        generate " " (scattered.flatMap Piece.entries) ∧
      (generate " " (scattered.flatMap Piece.entries)).isOk := by
  have h : ∃ o, ofEntries (scattered.flatMap Piece.entries) = .ok o := ⟨_, rfl⟩
  obtain ⟨o, ho⟩ := h
  obtain ⟨ps, -, hunique, hfront, hall⟩ := generate_interleave ho " "
  obtain rfl := hunique scattered rfl
  refine ⟨⟨o, ho⟩, hfront, (hall [.single ⟨.loop "x" "xs", {}, ⟨1, 1⟩⟩ rfl,
    .single ⟨.declare "y" .int (.variable "x"), {}, ⟨5, 1⟩⟩ rfl, .single ⟨.endLoop, {}, ⟨9, 1⟩⟩ rfl,
    .function (copying "f" 2), .function (copying "g" 6)] rfl rfl).2, ?_⟩
  decide +kernel

end Compilation

end FuzzLang
