import FuzzLang.Proofs.Host.Trace

/-!
# What a session does to the world

After the source is read and compiled, a session performs the effects of its action in order
(`performs_dispatch`), and it ends with `0` just when all of them succeeded (`Concluded`,
`runs_session`). What follows for files and programs is in `Orderly`: nothing is written, printed or
started before there is a text, the compiler is started only on the text that was written, and the
built program only after the compiler ended well (`session_orderly`).
-/

namespace FuzzLang

open Host

/-- Where the compiler is started: on the generated text, to build the program. -/
def Settings.compilation (s : Settings) : Effect :=
  .launch s.compiler [s.textPath, "-o", s.binaryPath]

/-- The effects that an action needs for a generated text, in order. -/
def Settings.plan (s : Settings) (text : String) : List Effect :=
  match s.action with
  | .print => [.print text]
  | .write => [.createDirs s.outDir, .write s.textPath text]
  | .build => [.createDirs s.outDir, .write s.textPath text, s.compilation]
  | .run =>
    [.createDirs s.outDir, .write s.textPath text, s.compilation, .launch s.binaryPath []]
  | .view => []

theorem Settings.nodup_plan (s : Settings) (text : String) : (s.plan text).Nodup := by
  unfold plan
  cases s.action <;> simp [compilation]

namespace Host

section Steps

variable {σ : Type} (h : Host (StateM σ)) (s : Settings)

theorem performs_writeOutput (text : String) :
    Performs (h.writeOutput s text) (h.recorded.writeOutput s text)
      [.createDirs s.outDir, .write s.textPath text] s.textPath := by
  refine .answered (.createDirs s.outDir) (fun _ => rfl) (fun _ => rfl) (fun _ => rfl)
    (fun _ => rfl) fun _ => ?_
  refine .answered (.write s.textPath text) (fun _ => rfl) (fun _ => rfl) (fun _ => rfl)
    (fun _ => rfl) fun _ => ?_
  exact .log (.pure _)

theorem performs_build :
    Performs (h.build s s.textPath) (h.recorded.build s s.textPath) [s.compilation]
      s.binaryPath := by
  refine .log (.launch (fun _ => rfl) (fun _ => rfl) (fun status hs => ?_) fun status hs => ?_)
  · simp only [hs]
    exact ⟨rfl, rfl⟩
  · simp only [hs]
    exact .log (.pure _)

theorem performs_runProgram (path : String) :
    Performs (h.runProgram path) (h.recorded.runProgram path) [.launch path []] () := by
  refine .log (.launch (fun _ => rfl) (fun _ => rfl) (fun status hs => ?_) fun status hs => ?_)
  · simp only [hs]
    exact ⟨rfl, rfl⟩
  · simp only [hs]
    exact .pure _

/-- After a text is generated, the effects of the action are performed in order. -/
theorem performs_dispatch (text : String) :
    Performs (h.dispatch s text) (h.recorded.dispatch s text) (s.plan text) () := by
  unfold dispatch Settings.plan
  cases s.action with
  | print => exact .effect (fun _ => .print text) (fun _ => rfl) nofun fun _ _ => .pure _
  | write => exact (h.performs_writeOutput s text).bind (fun _ => rfl) (fun _ => rfl) (.pure _)
  | build =>
    refine (h.performs_writeOutput s text).bind (fun _ => rfl) (fun _ => rfl) ?_
    exact (h.performs_build s).bind (fun _ => rfl) (fun _ => rfl) (.pure _)
  | run =>
    refine (h.performs_writeOutput s text).bind (fun _ => rfl) (fun _ => rfl) ?_
    exact (h.performs_build s).bind (fun _ => rfl) (fun _ => rfl) (h.performs_runProgram _)
  | view => exact .pure _

/-! ## Sessions -/

theorem runs_failed (message : String) (w : σ) :
    ∃ w', Runs (h.failed message) (h.recorded.failed message) w 1 [] w' :=
  ⟨_, (Runs.of_unnoted (h.log (.error message)) w).bind (.pure 1 _)⟩

theorem runs_logs (lines : List Log.Line) (w : σ) :
    ∃ w', Runs (lines.forM h.log) (lines.forM h.recorded.log) w ⟨⟩ [] w' := by
  induction lines generalizing w with
  | nil => exact ⟨w, .pure _ w⟩
  | cons line lines ih =>
    obtain ⟨w', hlater⟩ := ih ((h.log line).run w).2
    exact ⟨w', (Runs.of_unnoted (h.log line) w).bind hlater⟩

/-- How a session can go on after the answer to reading: what it asks for then, and its status. -/
inductive Concluded (s : Settings) : Except Fault String → List Event → Nat → Prop
  | unread {fault : Fault} : Concluded s (.error fault) [] 1
  | uncompiled {source : String} {error : Compilation.Error} :
    compile s.indent source = .error error → Concluded s (.ok source) [] 1
  | performed {source : String} {c : Compilation} {es : List Event} :
    compile s.indent source = .ok c → Carried (s.plan c.output) es true →
    Concluded s (.ok source) es 0
  | interrupted {source : String} {c : Compilation} {es : List Event} :
    compile s.indent source = .ok c → Carried (s.plan c.output) es false →
    Concluded s (.ok source) es 1

theorem runs_conclude (hv : s.action ≠ .view) (source : String) (w : σ) :
    ∃ es status w', Runs (h.conclude s source (compile s.indent source))
      (h.recorded.conclude s source (compile s.indent source)) w status es w' ∧
      Concluded s (.ok source) es status := by
  unfold conclude
  rw [if_neg hv, if_neg hv]
  cases hcompile : compile s.indent source with
  | error e =>
    obtain ⟨w', hfailed⟩ := h.runs_failed (Failure.compile e).message w
    exact ⟨[], 1, w', hfailed, .uncompiled hcompile⟩
  | ok c =>
    obtain ⟨_, es, w', hruns, ⟨rfl, hcarried⟩ | ⟨⟨failure, rfl⟩, hcarried⟩⟩ :=
      h.performs_dispatch s c.output w
    · exact ⟨es ++ [], 0, w', hruns.bind (.pure _ _),
        .performed hcompile (by rwa [List.append_nil])⟩
    · obtain ⟨w'', hfailed⟩ := h.runs_failed failure.message w'
      exact ⟨es ++ [], 1, w'', hruns.bind hfailed,
        .interrupted hcompile (by rwa [List.append_nil])⟩

theorem runs_readInput (w : σ) :
    ∃ w', (∃ source, Runs (h.readInput s) (h.recorded.readInput s) w (.ok source)
        [.read s.input (.ok source)] w') ∨
      ∃ fault, Runs (h.readInput s) (h.recorded.readInput s) w (.error (.io s.input fault))
        [.read s.input (.error fault)] w' := by
  have hread := Runs.of_noted (h.read s.input) (.read s.input) w
  refine ⟨((h.read s.input).run w).2, ?_⟩
  cases hanswer : ((h.read s.input).run w).1 with
  | error fault =>
    rw [hanswer] at hread
    exact .inr ⟨fault, hread.bind (.pure _ _)⟩
  | ok source =>
    rw [hanswer] at hread
    exact .inl ⟨source, hread.bind (.pure _ _)⟩

/-- A session reads the source and goes on as the answer and the outcome of compiling it say. -/
theorem runs_session (hv : s.action ≠ .view) (w : σ) :
    ∃ answer es status w', Runs (h.session s) (h.recorded.session s) w status
      (.read s.input answer :: es) w' ∧ Concluded s answer es status := by
  obtain ⟨w₁, ⟨source, hread⟩ | ⟨fault, hread⟩⟩ := h.runs_readInput s w
  · have hlog := Runs.of_unnoted (h.log (.info ("Compiling " ++ s.input))) w₁
    obtain ⟨w₂, hlogs⟩ := h.runs_logs (Log.compilationLines source) ((h.log _).run w₁).2
    obtain ⟨es, status, w₃, hconclude, hconcluded⟩ := h.runs_conclude s hv source w₂
    exact ⟨.ok source, es, status, w₃, hread.bind (hlog.bind (hlogs.bind hconclude)), hconcluded⟩
  · obtain ⟨w₂, hfailed⟩ := h.runs_failed (Failure.io s.input fault).message w₁
    exact ⟨.error fault, [], 1, w₂, hread.bind hfailed, .unread⟩

end Steps

/-! ## Order -/

/-- The source was read and compiled to `text`. -/
def Ready (s : Settings) (before : List Event) (text : String) : Prop :=
  ∃ source c, Event.read s.input (.ok source) ∈ before ∧ compile s.indent source = .ok c ∧
    c.output = text

/-- What is asked for in a session, and the status it ends with. -/
structure Orderly (s : Settings) (trace : List Event) (status : Nat) : Prop where
  /-- First the source is read. What is asked for next is what the action needs, in order, and only
  after the source was read and compiled. -/
  gated : ∀ before e after, trace = before ++ e :: after →
    (before = [] ∧ e.effect = .read s.input) ∨
      ∃ text later, Ready s before text ∧
        .read s.input :: s.plan text = before.map Event.effect ++ e.effect :: later
  /-- Nothing is asked for after a failure. -/
  unfailing : ∀ before e after, trace = before ++ e :: after → ∀ b ∈ before, b.succeeded = true
  /-- What is written is the generated text, to its own place. -/
  written : ∀ path text answer, .write path text answer ∈ trace →
    path = s.textPath ∧ Ready s trace text
  /-- What is printed is the generated text, when that is asked for. -/
  printed : ∀ text, .print text ∈ trace → s.action = .print ∧ Ready s trace text
  /-- What is started is the compiler after the text was written, or the built program after the
  compiler ended well. -/
  launched : ∀ before program arguments answer after,
    trace = before ++ .launch program arguments answer :: after →
    (Effect.launch program arguments = s.compilation ∧ (s.action = .build ∨ s.action = .run) ∧
        ∃ text, Ready s before text ∧ .write s.textPath text (.ok ()) ∈ before) ∨
      (program = s.binaryPath ∧ arguments = [] ∧ s.action = .run ∧
        ∃ e ∈ before, e.effect = s.compilation ∧ e.succeeded = true)
  /-- Nothing is asked for twice. -/
  once : (trace.map Event.effect).Nodup
  /-- The status is `0` just when the source was read and compiled and all that the action needs was
  done. -/
  status_eq_zero : status = 0 ↔
    ∃ text, Ready s trace text ∧ ∀ r ∈ s.plan text, ∃ e ∈ trace, e.effect = r ∧ e.succeeded = true
  status_eq : status = 0 ∨ status = 1

/-! ## The effects of an action -/

section Plan

variable {s : Settings} {text : String}

theorem read_not_mem_plan (path : String) : .read path ∉ s.plan text := by
  unfold Settings.plan
  cases s.action <;> simp [Settings.compilation]

theorem write_mem_plan {path written : String} (h : .write path written ∈ s.plan text) :
    path = s.textPath ∧ written = text := by
  unfold Settings.plan at h
  cases haction : s.action with
  | print | view => simp [haction] at h
  | write | build | run => simpa [haction, Settings.compilation] using h

theorem print_mem_plan {printed : String} (h : .print printed ∈ s.plan text) :
    s.action = .print ∧ printed = text := by
  unfold Settings.plan at h
  cases haction : s.action with
  | print => simpa [haction] using h
  | write | build | run | view => simp [haction, Settings.compilation] at h

/-- A program is started for one of two reasons. -/
theorem launch_of_plan {program : String} {arguments : List String} {earlier later : List Effect}
    (h : s.plan text = earlier ++ .launch program arguments :: later) :
    (Effect.launch program arguments = s.compilation ∧ (s.action = .build ∨ s.action = .run) ∧
        .write s.textPath text ∈ earlier) ∨
      (program = s.binaryPath ∧ arguments = [] ∧ s.action = .run ∧ s.compilation ∈ earlier) := by
  unfold Settings.plan at h
  cases haction : s.action with
  | print | write | view => simp [haction, List.cons_eq_append_iff] at h
  | build =>
    simp only [haction, List.cons_eq_append_iff, List.nil_eq_append_iff, List.cons.injEq,
      reduceCtorEq, and_false, false_and, false_or, exists_false, or_false] at h
    obtain ⟨_, rfl, _, rfl, rfl, hlaunch, -⟩ := h
    exact .inl ⟨hlaunch, .inl rfl, by simp⟩
  | run =>
    simp only [haction, List.cons_eq_append_iff, List.nil_eq_append_iff, List.cons.injEq,
      reduceCtorEq, and_false, false_and, false_or, exists_false, or_false] at h
    obtain ⟨_, rfl, _, rfl, ⟨rfl, hlaunch, -⟩ | ⟨_, rfl, rfl, ⟨rfl, rfl⟩, -⟩⟩ := h
    · exact .inl ⟨hlaunch, .inr rfl, by simp⟩
    · exact .inr ⟨rfl, rfl, rfl, by simp⟩

end Plan

theorem Event.eq_write {e : Event} {path text : String} (h : e.effect = .write path text)
    (hs : e.succeeded = true) : e = .write path text (.ok ()) := by
  cases e with
  | write path' text' answer =>
    cases h
    cases answer with
    | error => cases hs
    | ok => rfl
  | _ => cases h

/-! ## Sessions are orderly -/

section Conclude

variable {s : Settings} {answer : Except Fault String} {source : String} {c : Compilation}
  {es : List Event} {ok : Bool} {status : Nat}

/-- When there is no text, nothing is asked for after reading. -/
theorem orderly_of_not_ready (h : ∀ text, ¬ Ready s [.read s.input answer] text) :
    Orderly s [.read s.input answer] 1 where
  gated before e after htrace := by
    cases before with
    | nil =>
      obtain ⟨rfl, -⟩ := List.cons.inj htrace
      exact .inl ⟨rfl, rfl⟩
    | cons b before => simp at htrace
  unfailing before e after htrace := by
    cases before with
    | nil => nofun
    | cons b before => simp at htrace
  written path text answer hmem := by simp at hmem
  printed text hmem := by simp at hmem
  launched before program arguments answer after htrace := by
    cases before <;> simp at htrace
  once := by simp
  status_eq_zero := iff_of_false nofun fun ⟨text, hready, _⟩ => h text hready
  status_eq := .inr rfl

theorem Carried.effect_mem {rs : List Effect} (h : Carried rs es ok) {e : Event} (he : e ∈ es) :
    e.effect ∈ rs :=
  h.map_effect_sublist.subset (List.mem_map_of_mem he)

/-- The text that a session is ready with is the one it compiled, for nothing is read later. -/
theorem Ready.eq_output (hcompile : compile s.indent source = .ok c)
    (hcarried : Carried (s.plan c.output) es ok) {text : String}
    (h : Ready s (.read s.input (.ok source) :: es) text) : text = c.output := by
  obtain ⟨source', c', hread, hcompile', rfl⟩ := h
  rcases List.mem_cons.1 hread with hread | hread
  · cases hread
    rw [Except.ok.inj (hcompile'.symm.trans hcompile)]
  · exact absurd (hcarried.effect_mem hread) (read_not_mem_plan _)

theorem ready_of_compile (hcompile : compile s.indent source = .ok c) (before : List Event) :
    Ready s (.read s.input (.ok source) :: before) c.output :=
  ⟨source, c, List.mem_cons_self, hcompile, rfl⟩

/-- When there is a text, the effects of the action are performed in order. -/
theorem orderly_of_carried (hcompile : compile s.indent source = .ok c)
    (hcarried : Carried (s.plan c.output) es ok) (hstatus : status = 0 ↔ ok = true)
    (hrange : status = 0 ∨ status = 1) :
    Orderly s (.read s.input (.ok source) :: es) status where
  gated before e after htrace := by
    cases before with
    | nil =>
      obtain ⟨rfl, -⟩ := List.cons.inj htrace
      exact .inl ⟨rfl, rfl⟩
    | cons b before =>
      obtain ⟨rfl, hes⟩ := List.cons.inj htrace
      obtain ⟨later, hplan, -⟩ := hcarried.exists_before hes
      exact .inr ⟨c.output, later, ready_of_compile hcompile before,
        congrArg (Effect.read s.input :: ·) hplan⟩
  unfailing before e after htrace := by
    cases before with
    | nil => nofun
    | cons b before =>
      obtain ⟨rfl, hes⟩ := List.cons.inj htrace
      obtain ⟨later, -, hmet⟩ := hcarried.exists_before hes
      exact List.forall_mem_cons.2 ⟨rfl, hmet⟩
  written path text answer hmem := by
    rcases List.mem_cons.1 hmem with hmem | hmem
    · cases hmem
    · obtain ⟨rfl, rfl⟩ := write_mem_plan (hcarried.effect_mem hmem)
      exact ⟨rfl, ready_of_compile hcompile es⟩
  printed text hmem := by
    rcases List.mem_cons.1 hmem with hmem | hmem
    · cases hmem
    · obtain ⟨haction, rfl⟩ := print_mem_plan (hcarried.effect_mem hmem)
      exact ⟨haction, ready_of_compile hcompile es⟩
  launched before program arguments answer after htrace := by
    cases before with
    | nil => cases (List.cons.inj htrace).1
    | cons b before =>
      obtain ⟨rfl, hes⟩ := List.cons.inj htrace
      obtain ⟨later, hplan, hmet⟩ := hcarried.exists_before hes
      rcases launch_of_plan hplan with ⟨hlaunch, haction, hwrite⟩ | ⟨hp, ha, haction, hbuilt⟩
      · obtain ⟨e, he, heffect⟩ := List.mem_map.1 hwrite
        rw [Event.eq_write heffect (hmet e he)] at he
        exact .inl ⟨hlaunch, haction, c.output, ready_of_compile hcompile before,
          List.mem_cons_of_mem _ he⟩
      · obtain ⟨e, he, heffect⟩ := List.mem_map.1 hbuilt
        exact .inr ⟨hp, ha, haction, e, List.mem_cons_of_mem _ he, heffect, hmet e he⟩
  once := by
    refine List.nodup_cons.2 ⟨fun hmem => ?_, hcarried.map_effect_sublist.nodup (s.nodup_plan _)⟩
    exact read_not_mem_plan _ (hcarried.map_effect_sublist.subset hmem)
  status_eq_zero := by
    rw [hstatus, hcarried.eq_true_iff (s.nodup_plan _)]
    constructor
    · intro hall
      refine ⟨c.output, ready_of_compile hcompile es, fun r hr => ?_⟩
      obtain ⟨e, he, h⟩ := hall r hr
      exact ⟨e, List.mem_cons_of_mem _ he, h⟩
    · rintro ⟨text, htext, hall⟩ r hr
      obtain rfl := htext.eq_output hcompile hcarried
      obtain ⟨e, he, rfl, hs⟩ := hall r hr
      rcases List.mem_cons.1 he with rfl | he
      · exact absurd hr (read_not_mem_plan _)
      · exact ⟨e, he, rfl, hs⟩
  status_eq := hrange

theorem Concluded.orderly (h : Concluded s answer es status) :
    Orderly s (.read s.input answer :: es) status := by
  cases h with
  | unread =>
    refine orderly_of_not_ready fun text ⟨source, _, hread, _⟩ => ?_
    cases List.mem_singleton.1 hread
  | uncompiled hcompile =>
    refine orderly_of_not_ready fun text ⟨source, c, hread, hcompile', _⟩ => ?_
    cases List.mem_singleton.1 hread
    cases hcompile.symm.trans hcompile'
  | performed hcompile hcarried =>
    exact orderly_of_carried hcompile hcarried (by simp) (.inl rfl)
  | interrupted hcompile hcarried =>
    exact orderly_of_carried hcompile hcarried (by simp) (.inr rfl)

end Conclude

/-- **Effects in order.** In every world, and from each of its states, a session that does not show
the viewer first reads the source. If the source was read and compiled, it asks for all that the
action needs, in order, up to the first that fails; otherwise it asks for nothing more. It ends with
`0` if nothing failed and with `1` otherwise. -/
theorem session_orderly {σ : Type} (h : Host (StateM σ)) (s : Settings) (hv : s.action ≠ .view)
    (w : σ) :
    ∃ answer es status w', (h.session s).run w = (status, w') ∧
      ((h.recorded.session s).run []).run w = ((status, .read s.input answer :: es), w') ∧
      Concluded s answer es status ∧ Orderly s (.read s.input answer :: es) status := by
  obtain ⟨answer, es, status, w', hruns, hconcluded⟩ := h.runs_session s hv w
  exact ⟨answer, es, status, w', hruns.plain, hruns.recording [], hconcluded,
    hconcluded.orderly⟩

/-- A world in which the compiler ends well and every other program with a given code. -/
def endingWith (code : Nat) : Host (StateM Unit) where
  read _ := pure (.ok "labs(1)")
  createDirs _ := pure (.ok ())
  write _ _ := pure (.ok ())
  launch program _ := pure (.ok (.exited (if program = "rustc" then 0 else code)))
  print _ := pure ()
  log _ := pure ()
  view _ _ := pure (.ok ())

/-- The settings that run the program of `a.fz`. -/
def runA : Settings := { Settings.ofInput "a.fz" with action := .run }

/-- What is asked for after the source of `runA` was read in that world. -/
def eventsEnding (code : Nat) : List Event :=
  [.createDirs "__transpiled__" (.ok ()),
    .write "__transpiled__/a.rs" "fn main() \x7b\n    println!(\"\x7b\x7d\", 1);\n\x7d\n" (.ok ()),
    .launch "rustc" ["__transpiled__/a.rs", "-o", "__transpiled__/a"] (.ok (.exited 0)),
    .launch "__transpiled__/a" [] (.ok (.exited code))]

/-- A program that is built and ends well lets the session succeed, one that ends badly makes it
fail. -/
theorem session_orderly_ending :
    (((endingWith 0).session runA).run () = (0, ()) ∧
      Concluded runA (.ok "labs(1)") (eventsEnding 0) 0 ∧
      Orderly runA (.read "a.fz" (.ok "labs(1)") :: eventsEnding 0) 0) ∧
    ((endingWith 3).session runA).run () = (1, ()) ∧
      Concluded runA (.ok "labs(1)") (eventsEnding 3) 1 ∧
      Orderly runA (.read "a.fz" (.ok "labs(1)") :: eventsEnding 3) 1 := by
  have hending {code status : Nat}
      (hrecording : Id.run ((((endingWith code).recorded.session runA).run []).run ()) =
        ((status, .read "a.fz" (.ok "labs(1)") :: eventsEnding code), ())) :
      ((endingWith code).session runA).run () = (status, ()) ∧
        Concluded runA (.ok "labs(1)") (eventsEnding code) status ∧
        Orderly runA (.read "a.fz" (.ok "labs(1)") :: eventsEnding code) status := by
    obtain ⟨answer, es, status', _, hplain, htrace, hconcluded, horderly⟩ :=
      session_orderly (endingWith code) runA (by decide) ()
    have hpair := congrArg Prod.fst (hrecording.symm.trans htrace)
    obtain rfl : status = status' := congrArg Prod.fst hpair
    obtain ⟨hread, rfl⟩ := List.cons.inj (congrArg Prod.snd hpair)
    cases hread
    exact ⟨hplain, hconcluded, horderly⟩
  exact ⟨hending (by decide +kernel), hending (by decide +kernel)⟩

end Host

end FuzzLang
