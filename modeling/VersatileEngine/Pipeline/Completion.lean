import VersatileEngine.Pipeline.Machine

/-!
# VersatileEngine.Pipeline.Completion

One completion per run.

* `OneCompletion` — a log with at most one signal and one call of the handler between two starts, and
  no signal after a stop.
* `Settled`       — the state and the last result are those of the completion, if there was one.
* `ReturnsInTime` — the condition: an inline step does not come back with a result, other than an
  accepted one, to a pipeline whose run is over.

`runNext` uses the return value of a step it has called without a look at what the step did to the
pipeline meanwhile: `two_completions` is a step that finishes its own pipeline and then fails.
`one_completion` is the run theorem.
-/

namespace VersatileEngine

/-- The state that goes with a signal. -/
def PipelineSignal.state : PipelineSignal → PipelineState
  | .cmdDone => .done
  | .cmdError => .errored

/-- Between two starts: one signal, none after a stop, and one call of the handler. -/
def OneCompletion : List Event → Prop
  | [] => True
  | e :: log =>
    (e.isSignal = true → ∀ e' ∈ thisRun log, e'.isSignal = false ∧ e'.isStop = false) ∧
      (e.isHandled = true → ∀ e' ∈ thisRun log, e'.isHandled = false) ∧ OneCompletion log

/-- The completion since the last start or stop. -/
def completion : List Event → Option (PipelineState × Result)
  | [] => none
  | .signal s r :: _ => some (s.state, r)
  | .start _ :: _ => none
  | .stop :: _ => none
  | _ :: log => completion log

/-- Without a signal in the run there is no completion. -/
theorem completion_none {log : List Event} (h : ∀ e ∈ thisRun log, e.isSignal = false) :
    completion log = none := by
  induction log with
  | nil => rfl
  | cons e log ih =>
    cases e with
    | start n => rfl
    | stop => rfl
    | signal s r =>
      have := h (.signal s r) (by simp)
      cases this
    | finish | took | invoked | delivered | handled | callback | touched =>
      exact ih fun e' he => h e' (by simp [he])

theorem completion_state {log : List Event} {c : PipelineState × Result}
    (h : completion log = some c) : c.1 ≠ .idle := by
  induction log with
  | nil => cases h
  | cons e log ih =>
    cases e with
    | start | stop => cases h
    | signal s r => cases h; cases s <;> (intro hs; cases hs)
    | finish | took | invoked | delivered | handled | callback | touched => exact ih h

namespace Machine

/-- The state and the last result have not changed since the completion. -/
def Settled (m : Machine) : Prop :=
  ∀ c, completion m.log = some c → m.pipe.state = c.1 ∧ m.pipe.lastResult = c.2

/-- An inline step that returns to a live pipeline finds its run going on, or returns `ACCEPT`, or at
least leaves the last result as it is (`IDLE` promises nothing about it). -/
def ReturnsInTime (m : Machine) : Action → Prop
  | .ret k v => ∀ fr, m.frames[k]? = some fr → fr.posted = false → m.deleted = false →
      m.pipe.active = true ∨ (resultFromStepReturn v).isAccepted = true ∨
        (resultFromStepReturn v).isError = false ∧
          (m.pipe.state = .idle ∨ resultFromStepReturn v = m.pipe.lastResult)
  | _ => True

/-- Neither a start, a stop, a signal nor a call of the handler. -/
def quiet (e : Event) : Bool := !e.isStart && !e.isStop && !e.isSignal && !e.isHandled

/-- What holds of every state reached: the property, and nothing of the kind has happened yet in a
run that goes on. -/
structure Single (m : Machine) : Prop where
  one : OneCompletion m.log
  settled : m.Settled
  ongoing : m.pipe.active = true →
    ∀ e ∈ thisRun m.log, e.isSignal = false ∧ e.isStop = false ∧ e.isHandled = false

section Single

variable {m m' : Machine}

theorem single_create : Single create :=
  ⟨trivial, (fun c h => by cases h), (fun h => by cases h)⟩

/-- Only the log, the state and the last result matter. -/
theorem Single.congr (h : Single m) (hl : m'.log = m.log) (hs : m'.pipe.state = m.pipe.state)
    (hr : m'.pipe.lastResult = m.pipe.lastResult) : Single m' := by
  refine ⟨hl ▸ h.one, fun c hc => ?_, fun ha => ?_⟩
  · rw [hl] at hc
    rw [hs, hr]
    exact h.settled c hc
  · rw [hl]
    refine h.ongoing ?_
    rw [Pipeline.active, ← hs]
    exact ha

theorem completion_quiet {e : Event} (h : quiet e = true) (log : List Event) :
    completion (e :: log) = completion log := by
  cases e <;> first | rfl | cases h

theorem Single.note (h : Single m) {e : Event} (he : quiet e = true) : Single (m.note e) := by
  have hq : e.isStart = false ∧ e.isStop = false ∧ e.isSignal = false ∧ e.isHandled = false := by
    simpa [quiet, and_assoc] using he
  refine ⟨⟨?_, ?_, h.one⟩, fun c hc => ?_, fun ha e' he' => ?_⟩
  · rw [hq.2.2.1]; exact fun h => (by cases h)
  · rw [hq.2.2.2]; exact fun h => (by cases h)
  · exact h.settled c (by rwa [Machine.note, completion_quiet he] at hc)
  · rw [Machine.note, thisRun_cons _ _ hq.1] at he'
    rcases List.mem_cons.mp he' with rfl | he'
    · exact ⟨hq.2.2.1, hq.2.1, hq.2.2.2⟩
    · exact h.ongoing ha e' he'

/-- While the run goes on the last result may change. -/
theorem Single.setPipe (h : Single m) (ha : m.pipe.active = true) (p : Pipeline) :
    Single (m.setPipe p) := by
  refine ⟨h.one, fun c hc => ?_, fun _ => h.ongoing ha⟩
  rw [setPipe_log, completion_none fun e he => (h.ongoing ha e he).1] at hc
  cases hc

/-- **Completing a run that goes on.** -/
theorem Single.complete (h : Single m) (ha : m.pipe.active = true) (s : PipelineSignal) (r : Result) :
    Single (m.complete s.state s r) := by
  have hon := h.ongoing ha
  unfold Machine.complete
  extract_lets out m₁
  have hsignal : OneCompletion m₁.log :=
    ⟨fun _ e he => ⟨(hon e he).1, (hon e he).2.1⟩, fun h => (by cases h), h.one⟩
  have hinactive : m₁.pipe.active = false := by cases s <;> rfl
  split
  · refine ⟨⟨fun h => (by cases h), fun _ e he => ?_, hsignal⟩, fun c hc => ?_, fun ha' => ?_⟩
    · simp only [m₁, setPipe_log, note_log, thisRun_signal, List.mem_cons] at he
      rcases he with rfl | he
      · rfl
      · exact (hon e he).2.2
    · cases hc
      exact ⟨rfl, rfl⟩
    · rw [show ((m₁.setPipe (m₁.pipe.setHandler false)).note (.handled out)).pipe.active =
        m₁.pipe.active from rfl, hinactive] at ha'
      cases ha'
  · refine ⟨hsignal, fun c hc => ?_, fun ha' => ?_⟩
    · cases hc
      exact ⟨rfl, rfl⟩
    · rw [hinactive] at ha'
      cases ha'

theorem Single.runNext (h : Single m) : Single m.runNext := by
  unfold Machine.runNext
  split
  · exact h
  · rename_i hrun
    have ha : m.pipe.active = true := Pipeline.active_iff.mpr (.inl (not_not.mp hrun))
    split
    · exact h.complete ha .cmdDone _
    · rename_i st i queue _
      extract_lets m₁
      have h₁ : Single m₁ := (h.setPipe ha _).note rfl
      split
      · exact h₁.congr (by simp) (by simp) (by simp)
      · split
        · exact (h₁.note (e := .invoked i) rfl).congr rfl rfl rfl
        · exact h₁.complete ha .cmdError _

theorem Single.handleResult (h : Single m) (r : Result) : Single (m.handleResult r) := by
  unfold Machine.handleResult
  split
  · exact h
  · rename_i hact
    have ha : m.pipe.active = true := by simpa using hact
    split
    · exact h.complete ha .cmdError r
    · extract_lets m₁
      have h₁ : Single m₁ := h.setPipe ha _
      split
      · exact h₁.complete ha .cmdDone r
      · split
        · exact h₁
        · exact (h₁.setPipe ha _).runNext

theorem Single.deliver (h : Single m) (i run : Nat) (r : Result) : Single (m.deliver i run r) := by
  unfold Machine.deliver
  split
  · exact h.note rfl
  · exact h

theorem Single.callback (h : Single m) (i run : Nat) (r : Result) : Single (m.callback i run r) := by
  unfold Machine.callback
  split
  · exact h.note rfl
  · exact ((h.deliver i run r).handleResult r).note rfl

theorem Single.start (h : Single m) : Single m.start := by
  unfold Machine.start
  extract_lets m₁
  have h₁ : Single m₁ :=
    ⟨⟨fun h => (by cases h), fun h => (by cases h), h.one⟩, (fun c hc => by cases hc),
      fun _ e he => (by cases he)⟩
  split
  · exact h₁.complete rfl .cmdDone _
  · exact h₁.runNext

theorem Single.stop (h : Single m) : Single m.stop := by
  unfold Machine.stop
  extract_lets m₁
  have hone : OneCompletion m₁.log := ⟨fun h => (by cases h), fun h => (by cases h), h.one⟩
  split
  · rename_i hidle
    refine ⟨hone, (fun c hc => by cases hc), fun ha => ?_⟩
    rw [Pipeline.active, hidle] at ha
    cases ha
  · exact ⟨hone, (fun c hc => by cases hc), (fun ha => by cases ha)⟩

theorem Single.pause (h : Single m) : Single m.pause := by
  unfold Machine.pause
  split
  · rename_i hr
    exact h.setPipe (Pipeline.active_iff.mpr (.inl hr)) _
  · exact h

theorem Single.resume (h : Single m) : Single m.resume := by
  unfold Machine.resume
  split
  · exact h
  · rename_i hp
    exact (h.setPipe (Pipeline.active_iff.mpr (.inr (not_not.mp hp))) _).runNext

theorem Single.finish (h : Single m) (r : Result) : Single (m.finish r) := by
  refine Single.handleResult ?_ r
  unfold deliverAwaited
  split
  · exact (h.note rfl).note rfl
  · exact h.note rfl

theorem Single.loopReturn (h : Single m) {r : Result} (hr : m.pipe.active = true ∨
    r.isError = false ∧ (m.pipe.state = .idle ∨ r = m.pipe.lastResult)) :
    Single (m.loopReturn r) := by
  unfold Machine.loopReturn
  by_cases ha : m.pipe.active = true
  · split
    · exact h.complete ha .cmdError r
    · exact (h.setPipe ha _).runNext
  · -- the run is over: the loop ends, and nothing that counts has changed
    obtain ⟨herr, hlast⟩ := hr.resolve_left ha
    have hstate : m.pipe.state ≠ .running := fun hs => ha (Pipeline.active_iff.mpr (.inl hs))
    rw [herr, if_neg Bool.false_ne_true]
    have hrun : (m.setPipe (m.pipe.advance r)).runNext = m.setPipe (m.pipe.advance r) := if_pos hstate
    rw [hrun]
    refine ⟨h.one, fun c hc => ?_, fun ha' => absurd ha' ha⟩
    obtain ⟨hs, hl⟩ := h.settled c hc
    refine ⟨hs, ?_⟩
    rcases hlast with hidle | hlast
    · exact absurd (hs.symm.trans hidle) (completion_state hc)
    · exact hlast.trans hl

theorem Single.runTask (h : Single m) (t : Task) : Single (m.runTask t) := by
  unfold Machine.runTask
  split
  · exact h
  · split
    · exact h.callback _ _ _
    · exact (h.note (e := .invoked t.index) rfl).congr rfl rfl rfl

/-- **One action**, under the condition. -/
theorem Single.acts {a : Action} (h : Single m) (hc : ReturnsInTime m a) (ha : Acts m a m') :
    Single m' := by
  cases a with
  | add s | setResultHandler s =>
    obtain ⟨-, hm⟩ := Option.ite_none_left_eq_some.mp ha
    cases hm
    exact h.congr rfl rfl rfl
  | start =>
    obtain ⟨-, hm⟩ := Option.ite_none_left_eq_some.mp ha
    cases hm
    exact h.start
  | pause =>
    obtain ⟨-, hm⟩ := Option.ite_none_left_eq_some.mp ha
    cases hm
    exact h.pause
  | resume =>
    obtain ⟨-, hm⟩ := Option.ite_none_left_eq_some.mp ha
    cases hm
    exact h.resume
  | stop =>
    obtain ⟨-, hm⟩ := Option.ite_none_left_eq_some.mp ha
    cases hm
    exact h.stop
  | finish r =>
    obtain ⟨-, hm⟩ := Option.ite_none_left_eq_some.mp ha
    cases hm
    exact h.finish r
  | destroy =>
    obtain ⟨-, hm⟩ := Option.ite_none_left_eq_some.mp ha
    cases hm
    exact h.congr rfl rfl rfl
  | context | killLoop => cases ha; exact h.congr rfl rfl rfl
  | exec k =>
    obtain ⟨t, -, rfl⟩ := Option.map_eq_some_iff.mp ha
    exact (h.congr rfl rfl rfl : Single (m.dropTask k)).runTask t
  | ret k v =>
    obtain ⟨fr, hfr, rfl⟩ := Option.map_eq_some_iff.mp ha
    have h₁ : Single (m.dropFrame k) := h.congr rfl rfl rfl
    unfold returned
    extract_lets r
    split
    · exact h₁.callback _ _ _
    · split
      · exact h₁
      · split
        · exact h₁.note rfl
        · rename_i hpost hacc hdel
          refine (h₁.deliver fr.index fr.run r).loopReturn ?_
          have hpipe : ((m.dropFrame k).deliver fr.index fr.run r).pipe = m.pipe := by
            unfold Machine.deliver; split <;> rfl
          rw [hpipe]
          rcases hc fr hfr (by simpa using hpost) (by simpa using hdel) with h2 | h2 | h2
          · exact .inl h2
          · exact absurd h2 hacc
          · exact .inr h2

end Single

/-- **One completion per run**: in every run whose inline steps return in time. -/
theorem one_completion {as : List Action} {m : Machine}
    (h : Runs (Guarded ReturnsInTime Acts) create as m) : OneCompletion m.log ∧ m.Settled := by
  have hs : Single m := Runs.invariant (I := Single) (fun hi ha => hi.acts ha.1 ha.2) h single_create
  exact ⟨hs.one, hs.settled⟩

/-- An inline step answers `ACCEPT`, is finished from outside, and the handler is called. -/
theorem one_completion_sample : ∃ m, create.script [.add ⟨true, none⟩, .setResultHandler true, .start,
    .ret 0 (.result .accept), .finish (.ok .none)] = some m ∧ OneCompletion m.log ∧ m.Settled := by
  have hrun : Runs (Guarded ReturnsInTime Acts) create [.add ⟨true, none⟩, .setResultHandler true,
      .start, .ret 0 (.result .accept), .finish (.ok .none)] _ :=
    .cons ⟨trivial, rfl⟩ (.cons ⟨trivial, rfl⟩ (.cons ⟨trivial, rfl⟩
      (.cons ⟨fun _ _ _ _ => .inr (.inl rfl), rfl⟩ (.cons ⟨trivial, rfl⟩ .nil))))
  exact ⟨_, rfl, one_completion hrun⟩

/-- A step finishes its own pipeline and then returns a failure: `CMD_DONE`, then `CMD_ERROR`. -/
theorem two_completions : ¬ ∀ (as : List Action) (m : Machine), Runs Acts create as m →
    OneCompletion m.log ∧ m.Settled := by
  intro h
  have hrun : create.script [.add ⟨true, none⟩, .start, .finish (.ok .none),
      .ret 0 (.result (.fail .none))] = some _ := rfl
  obtain ⟨⟨hone, -⟩, -⟩ := h _ _ (runs_script hrun)
  have hdone := hone rfl (.signal .cmdDone (.ok .none)) (.tail _ (.head _))
  cases hdone.1

end Machine

end VersatileEngine
