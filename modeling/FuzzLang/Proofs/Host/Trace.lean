import FuzzLang.Host.Session
import Mathlib.Control.Monad.Basic

/-!
# Traces

A host that is `recorded` does the same as before and keeps a list of the effects it was asked for
and of their answers. `Runs` relates the two.

A step that can fail performs effects in order when it stops at the first one that fails, and fails
itself just then (`Performs`). Steps that are done one after the other, up to the first that fails,
perform their effects one after the other (`Performs.bind`).
-/

namespace FuzzLang.Host

/-- What the world outside is asked for. -/
inductive Effect where
  | read (path : String)
  | createDirs (path : String)
  | write (path text : String)
  | launch (program : String) (arguments : List String)
  | print (text : String)
  | view (source : String)
  deriving DecidableEq

/-- An effect that was asked for, with the answer. -/
inductive Event where
  | read (path : String) (answer : Except Fault String)
  | createDirs (path : String) (answer : Except Fault Unit)
  | write (path text : String) (answer : Except Fault Unit)
  | launch (program : String) (arguments : List String) (answer : Except Fault Status)
  | print (text : String)
  | view (source : String) (answer : Except Fault Unit)
  deriving DecidableEq

namespace Event

def effect : Event → Effect
  | .read path _ => .read path
  | .createDirs path _ => .createDirs path
  | .write path text _ => .write path text
  | .launch program arguments _ => .launch program arguments
  | .print text => .print text
  | .view source _ => .view source

/-- Whether the answer is a good one. A program that was started must also have ended well. -/
def succeeded : Event → Bool
  | .read _ answer => answer.isOk
  | .createDirs _ answer | .write _ _ answer | .view _ answer => answer.isOk
  | .launch _ _ (.ok status) => status.isSuccess
  | .launch _ _ (.error _) => false
  | .print _ => true

end Event

section Recorded

variable {m : Type → Type} [Monad m] {α : Type}

/-- Do `x`, and note an event. -/
def noted (x : m α) (event : α → Event) : StateT (List Event) m α := fun before => do
  let a ← x
  return (a, before ++ [event a])

/-- Do `x` without noting anything. -/
def unnoted (x : m α) : StateT (List Event) m α := fun before => do
  let a ← x
  return (a, before)

/-- The host that notes what it is asked for, log lines apart. -/
def recorded (h : Host m) : Host (StateT (List Event) m) where
  read path := noted (h.read path) (.read path)
  createDirs path := noted (h.createDirs path) (.createDirs path)
  write path text := noted (h.write path text) (.write path text)
  launch program arguments := noted (h.launch program arguments) (.launch program arguments)
  print text := noted (h.print text) fun _ => .print text
  log line := unnoted (h.log line)
  view source outcome := noted (h.view source outcome) (.view source)

end Recorded

/-! ## Runs with their events -/

section Runs

variable {σ α β : Type} {w w' w'' : σ} {a : α} {b : β} {es es' : List Event}

/-- From the world `w`, both computations yield `a` and lead to the world `w'`, and the second one
notes the events `es`. -/
structure Runs (plain : StateM σ α) (recording : StateT (List Event) (StateM σ) α) (w : σ) (a : α)
    (es : List Event) (w' : σ) : Prop where
  plain : plain.run w = (a, w')
  recording : ∀ before, (recording.run before).run w = ((a, before ++ es), w')

namespace Runs

theorem pure (a : α) (w : σ) : Runs (pure a) (pure a) w a [] w :=
  ⟨rfl, fun before => by rw [List.append_nil]; rfl⟩

theorem bind {p : StateM σ α} {r : StateT (List Event) (StateM σ) α} {k : α → StateM σ β}
    {k' : α → StateT (List Event) (StateM σ) β} (h : Runs p r w a es w')
    (hk : Runs (k a) (k' a) w' b es' w'') : Runs (p >>= k) (r >>= k') w b (es ++ es') w'' where
  plain := by
    rw [StateT.run_bind, h.plain]
    exact hk.plain
  recording before := by
    rw [StateT.run_bind, StateT.run_bind, h.recording, ← List.append_assoc]
    exact hk.recording _

theorem of_noted (x : StateM σ α) (event : α → Event) (w : σ) :
    Runs x (noted x event) w (x.run w).1 [event (x.run w).1] (x.run w).2 :=
  ⟨rfl, fun _ => rfl⟩

theorem of_unnoted (x : StateM σ α) (w : σ) : Runs x (unnoted x) w (x.run w).1 [] (x.run w).2 :=
  ⟨rfl, fun before => by rw [List.append_nil]; rfl⟩

end Runs

end Runs

/-! ## Effects in order -/

/-- Effects are asked for in order, up to the first that fails; the last argument says whether all
of them succeeded. -/
inductive Carried : List Effect → List Event → Bool → Prop
  | done : Carried [] [] true
  | stop {e : Event} {rs : List Effect} : e.succeeded = false → Carried (e.effect :: rs) [e] false
  | next {e : Event} {rs : List Effect} {es : List Event} {ok : Bool} :
    e.succeeded = true → Carried rs es ok → Carried (e.effect :: rs) (e :: es) ok

namespace Carried

variable {rs rs' : List Effect} {es es' : List Event} {ok : Bool}

theorem append (h : Carried rs es true) (h' : Carried rs' es' ok) :
    Carried (rs ++ rs') (es ++ es') ok := by
  generalize htrue : true = done at h
  induction h with
  | done => exact h'
  | stop => cases htrue
  | next he _ ih => exact .next he (ih htrue)

theorem append_of_false (h : Carried rs es false) (rs' : List Effect) :
    Carried (rs ++ rs') es false := by
  generalize hfalse : false = done at h
  induction h with
  | done => cases hfalse
  | stop he => exact .stop he
  | next he _ ih => exact .next he (ih hfalse)

/-- What was asked for before an effect is what comes before it in the list, and all of it
succeeded. -/
theorem exists_before (h : Carried rs es ok) {before after : List Event} {e : Event}
    (hes : es = before ++ e :: after) :
    ∃ later, rs = before.map Event.effect ++ e.effect :: later ∧ ∀ b ∈ before, b.succeeded := by
  induction h generalizing before with
  | done => cases before <;> cases hes
  | stop =>
    cases before with
    | nil =>
      obtain ⟨rfl, -⟩ := List.cons.inj hes
      exact ⟨_, rfl, nofun⟩
    | cons b before => cases before <;> cases (List.cons.inj hes).2
  | next hb _ ih =>
    cases before with
    | nil =>
      obtain ⟨rfl, -⟩ := List.cons.inj hes
      exact ⟨_, rfl, nofun⟩
    | cons b before =>
      obtain ⟨rfl, hrest⟩ := List.cons.inj hes
      obtain ⟨later, rfl, hall⟩ := ih hrest
      exact ⟨later, rfl, List.forall_mem_cons.2 ⟨hb, hall⟩⟩

/-- Nothing is asked for that is not in the list, and nothing more often. -/
theorem map_effect_sublist (h : Carried rs es ok) : (es.map Event.effect).Sublist rs := by
  induction h with
  | done => exact .slnil
  | stop => exact (List.nil_sublist _).cons_cons _
  | next _ _ ih => exact ih.cons_cons _

/-- All effects succeeded just when each of them, asked for once, succeeded. -/
theorem eq_true_iff (h : Carried rs es ok) (hnodup : rs.Nodup) :
    ok = true ↔ ∀ r ∈ rs, ∃ e ∈ es, e.effect = r ∧ e.succeeded = true := by
  induction h with
  | done => simp
  | @stop e rs he =>
    refine iff_of_false nofun fun hall => ?_
    obtain ⟨e', he', -, hs⟩ := hall _ List.mem_cons_self
    rw [List.mem_singleton.1 he', he] at hs
    cases hs
  | @next e rs es ok he hrest ih =>
    rw [ih hnodup.of_cons, List.forall_mem_cons]
    constructor
    · intro hall
      refine ⟨⟨e, List.mem_cons_self, rfl, he⟩, fun r hr => ?_⟩
      obtain ⟨e', he', h'⟩ := hall r hr
      exact ⟨e', List.mem_cons_of_mem _ he', h'⟩
    · rintro ⟨-, hall⟩ r hr
      obtain ⟨e', he', hr', hs⟩ := hall r hr
      rcases List.mem_cons.1 he' with rfl | he'
      · subst hr'
        exact absurd hr (List.nodup_cons.1 hnodup).1
      · exact ⟨e', he', hr', hs⟩

end Carried

/-- A step that performs effects in order. It yields `a` if all of them succeed, and a failure
otherwise. -/
def Performs {σ α : Type} (p : StateM σ (Except Failure α))
    (r : StateT (List Event) (StateM σ) (Except Failure α)) (rs : List Effect) (a : α) : Prop :=
  ∀ w, ∃ result es w', Runs p r w result es w' ∧
    ((result = .ok a ∧ Carried rs es true) ∨
      ((∃ failure, result = .error failure) ∧ Carried rs es false))

namespace Performs

variable {σ α β γ : Type} {rs rs' : List Effect} {a : α} {b : β}

theorem pure (a : α) :
    Performs (pure (.ok a) : StateM σ (Except Failure α)) (pure (.ok a)) [] a :=
  fun w => ⟨_, _, _, .pure _ w, .inl ⟨rfl, .done⟩⟩

/-- One step after the other, unless the first one fails. -/
theorem bind {p : StateM σ (Except Failure α)}
    {r : StateT (List Event) (StateM σ) (Except Failure α)}
    {k : Except Failure α → StateM σ (Except Failure β)}
    {k' : Except Failure α → StateT (List Event) (StateM σ) (Except Failure β)}
    (h : Performs p r rs a) (hfail : ∀ failure, k (.error failure) = Pure.pure (.error failure))
    (hfail' : ∀ failure, k' (.error failure) = Pure.pure (.error failure))
    (hk : Performs (k (.ok a)) (k' (.ok a)) rs' b) :
    Performs (p >>= k) (r >>= k') (rs ++ rs') b := by
  intro w
  obtain ⟨result, es, w', hruns, ⟨rfl, hcarried⟩ | ⟨⟨failure, rfl⟩, hcarried⟩⟩ := h w
  · obtain ⟨result, es', w'', hruns', hresult⟩ := hk w'
    refine ⟨result, es ++ es', w'', hruns.bind hruns', ?_⟩
    rcases hresult with ⟨rfl, hcarried'⟩ | ⟨hfailed, hcarried'⟩
    · exact .inl ⟨rfl, hcarried.append hcarried'⟩
    · exact .inr ⟨hfailed, hcarried.append hcarried'⟩
  · refine ⟨.error failure, es ++ [], w', hruns.bind ?_, .inr ⟨⟨failure, rfl⟩, ?_⟩⟩
    · rw [hfail, hfail']
      exact .pure _ _
    · rw [List.append_nil]
      exact hcarried.append_of_false rs'

/-- An effect, and what is done if it succeeds. -/
theorem effect {x : StateM σ γ} (event : γ → Event) {effect : Effect}
    {k : γ → StateM σ (Except Failure α)}
    {k' : γ → StateT (List Event) (StateM σ) (Except Failure α)}
    (heffect : ∀ c, (event c).effect = effect)
    (hfail : ∀ c, (event c).succeeded = false → ∃ failure,
      k c = Pure.pure (.error failure) ∧ k' c = Pure.pure (.error failure))
    (hk : ∀ c, (event c).succeeded = true → Performs (k c) (k' c) rs a) :
    Performs (x >>= k) (noted x event >>= k') (effect :: rs) a := by
  intro w
  have hruns := Runs.of_noted x event w
  generalize (x.run w).1 = c at hruns
  rw [← heffect c]
  cases hs : (event c).succeeded with
  | false =>
    obtain ⟨failure, hk, hk'⟩ := hfail c hs
    refine ⟨.error failure, [event c] ++ [], (x.run w).2, hruns.bind ?_,
      .inr ⟨⟨failure, rfl⟩, .stop hs⟩⟩
    rw [hk, hk']
    exact .pure _ _
  | true =>
    obtain ⟨result, es, w', hruns', hresult⟩ := hk c hs _
    refine ⟨result, [event c] ++ es, w', hruns.bind hruns', ?_⟩
    rcases hresult with ⟨rfl, hcarried⟩ | ⟨hfailed, hcarried⟩
    · exact .inl ⟨rfl, .next hs hcarried⟩
    · exact .inr ⟨hfailed, .next hs hcarried⟩

/-- An effect that succeeds when there is no fault. -/
theorem answered {x : StateM σ (Except Fault γ)} (event : Except Fault γ → Event)
    {effect : Effect} {k : Except Fault γ → StateM σ (Except Failure α)}
    {k' : Except Fault γ → StateT (List Event) (StateM σ) (Except Failure α)}
    (heffect : ∀ answer, (event answer).effect = effect)
    (hsucceeded : ∀ answer, (event answer).succeeded = answer.isOk) {failure : Fault → Failure}
    (hfail : ∀ fault, k (.error fault) = Pure.pure (.error (failure fault)))
    (hfail' : ∀ fault, k' (.error fault) = Pure.pure (.error (failure fault)))
    (hk : ∀ c, Performs (k (.ok c)) (k' (.ok c)) rs a) :
    Performs (x >>= k) (noted x event >>= k') (effect :: rs) a := by
  refine .effect event heffect (fun answer hs => ?_) fun answer hs => ?_
  · cases answer with
    | error fault => exact ⟨_, hfail fault, hfail' fault⟩
    | ok c => cases (hsucceeded _).symm.trans hs
  · cases answer with
    | error fault => cases (hsucceeded _).symm.trans hs
    | ok c => exact hk c

/-- A program is started, and it ends well or not. -/
theorem launch {h : Host (StateM σ)} {program : String} {arguments : List String}
    {k : Except Fault Status → StateM σ (Except Failure α)}
    {k' : Except Fault Status → StateT (List Event) (StateM σ) (Except Failure α)}
    (hfail : ∀ fault, k (.error fault) = Pure.pure (.error (.io program fault)))
    (hfail' : ∀ fault, k' (.error fault) = Pure.pure (.error (.io program fault)))
    (hbad : ∀ status, status.isSuccess = false →
      k (.ok status) = Pure.pure (.error (.tool program status)) ∧
        k' (.ok status) = Pure.pure (.error (.tool program status)))
    (hk : ∀ status, status.isSuccess = true → Performs (k (.ok status)) (k' (.ok status)) rs a) :
    Performs (h.launch program arguments >>= k) (h.recorded.launch program arguments >>= k')
      (.launch program arguments :: rs) a := by
  refine .effect (.launch program arguments) (fun _ => rfl) (fun answer hs => ?_)
    fun answer hs => ?_
  · cases answer with
    | error fault => exact ⟨_, hfail fault, hfail' fault⟩
    | ok status => exact ⟨_, hbad status hs⟩
  · cases answer with
    | error => cases hs
    | ok status => exact hk status hs

/-- Log lines are no effects. -/
theorem log {x : StateM σ γ} {p : StateM σ (Except Failure α)}
    {r : StateT (List Event) (StateM σ) (Except Failure α)} (h : Performs p r rs a) :
    Performs (x >>= fun _ => p) (unnoted x >>= fun _ => r) rs a := by
  intro w
  obtain ⟨result, es, w', hruns, hresult⟩ := h (x.run w).2
  exact ⟨result, es, w', (Runs.of_unnoted x w).bind hruns, hresult⟩

end Performs

end FuzzLang.Host
