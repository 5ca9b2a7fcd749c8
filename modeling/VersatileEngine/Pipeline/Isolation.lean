import VersatileEngine.Pipeline.Machine

/-!
# VersatileEngine.Pipeline.Isolation

Posted steps whose run is over.

* `Isolated`      — in the log, no stale step has changed the pipeline and no posted step has gone on
  with a deleted one.
* `StaleHarmless` — the condition on an action: a stale step that comes back finds its pipeline there
  and in `IDLE`, `DONE` or `ERRORED`.

The token `alive` is created for every post and killed by nobody, so a task is never cut off; the
pipeline's state is all that `handleResult` looks at. `isolated_iff` says that a run is isolated
exactly when all its actions meet the condition.
-/

namespace VersatileEngine

namespace Event

/-- The events that isolation is about. -/
def isCallback : Event → Bool
  | callback _ => true
  | touched _ => true
  | _ => false

/-- No trace of a stale step, and none of a deleted pipeline in a posted one. -/
def isolated : Event → Prop
  | callback c => c.stale = true → c.after = c.before
  | touched posted => posted = false
  | _ => True

end Event

def Isolated (log : List Event) : Prop := ∀ e ∈ log, e.isolated

theorem isolated_cons {e : Event} {log : List Event} :
    Isolated (e :: log) ↔ e.isolated ∧ Isolated log := List.forall_mem_cons

namespace Machine

/-- A stale step that hands in its result finds the pipeline there, and not going on. -/
def HarmlessTo (m : Machine) (run : Nat) : Prop :=
  m.stale run = true → m.deleted = false ∧ m.pipe.active = false

def StaleHarmless (m : Machine) : Action → Prop
  | .exec k => ∀ t, m.tasks[k]? = some t → t.alive = true → t.callable = false → m.HarmlessTo t.run
  | .ret k _ => ∀ fr, m.frames[k]? = some fr → fr.posted = true → m.HarmlessTo fr.run
  | _ => True

/-- `m'` is later than `m`, without a callback in between. -/
def Plain (m m' : Machine) : Prop := ∃ es, m'.log = es ++ m.log ∧ ∀ e ∈ es, e.isCallback = false

section Plain

variable {m m' m'' : Machine}

theorem Plain.refl (m : Machine) : Plain m m := ⟨[], rfl, fun e he => (by cases he)⟩

theorem Plain.of_log (h : m'.log = m.log) : Plain m m' := ⟨[], h, fun e he => (by cases he)⟩

theorem Plain.setPipe (p : Pipeline) : Plain m (m.setPipe p) := .of_log rfl

theorem Plain.trans (h : Plain m m') (h' : Plain m' m'') : Plain m m'' := by
  obtain ⟨es, hl, he⟩ := h
  obtain ⟨es', hl', he'⟩ := h'
  refine ⟨es' ++ es, by rw [hl', hl, List.append_assoc], fun e hm => ?_⟩
  rcases List.mem_append.mp hm with hm | hm
  · exact he' e hm
  · exact he e hm

theorem Plain.note (m : Machine) {e : Event} (h : e.isCallback = false) : Plain m (m.note e) :=
  ⟨[e], rfl, fun _ he => List.mem_singleton.mp he ▸ h⟩

theorem Plain.isolated (h : Plain m m') : Isolated m'.log ↔ Isolated m.log := by
  obtain ⟨es, hl, he⟩ := h
  have hes : ∀ e ∈ es, e.isolated := fun e hm => by
    have := he e hm
    cases e <;> trivial
  rw [hl]
  refine ⟨fun h e hm => h e (List.mem_append_right _ hm), fun h e hm => ?_⟩
  rcases List.mem_append.mp hm with hm | hm
  · exact hes e hm
  · exact h e hm

theorem plain_complete (m : Machine) (s : PipelineState) (sig : PipelineSignal) (r : Result) :
    Plain m (m.complete s sig r) := by
  unfold complete
  extract_lets out m₁
  have h₁ : Plain m m₁ :=
    (Plain.setPipe (m.pipe.completed s out)).trans (Plain.note _ rfl)
  split
  · exact h₁.trans ((Plain.setPipe (m₁.pipe.setHandler false)).trans
      (Plain.note _ rfl))
  · exact h₁

theorem plain_runNext (m : Machine) : Plain m m.runNext := by
  unfold runNext
  split
  · exact Plain.refl m
  · split
    · exact plain_complete ..
    · rename_i st i queue _
      extract_lets m₁
      have h₁ : Plain m m₁ :=
        (Plain.setPipe (m.pipe.setQueue queue)).trans (Plain.note _ rfl)
      split
      · exact h₁.trans (Plain.of_log (by simp))
      · split
        · exact h₁.trans ⟨[.invoked i], rfl, by simp [Event.isCallback]⟩
        · exact h₁.trans (plain_complete ..)

theorem plain_handleResult (m : Machine) (r : Result) : Plain m (m.handleResult r) := by
  unfold handleResult
  split
  · exact Plain.refl m
  · split
    · exact plain_complete ..
    · extract_lets m₁
      have h₁ : Plain m m₁ := Plain.of_log rfl
      split
      · exact h₁.trans (plain_complete ..)
      · split
        · exact h₁
        · exact h₁.trans ((Plain.of_log rfl).trans (plain_runNext _))

theorem plain_loopReturn (m : Machine) (r : Result) : Plain m (m.loopReturn r) := by
  unfold loopReturn
  split
  · exact plain_complete ..
  · exact (Plain.setPipe (m.pipe.advance r)).trans (plain_runNext _)

theorem plain_deliver (m : Machine) (i run : Nat) (r : Result) : Plain m (m.deliver i run r) := by
  unfold deliver
  split
  · exact Plain.note m rfl
  · exact Plain.refl m

theorem plain_start (m : Machine) : Plain m m.start := by
  unfold start
  extract_lets m₁
  have h₁ : Plain m m₁ := ⟨[.start m.pipe.steps.length], rfl, by simp [Event.isCallback]⟩
  split
  · exact h₁.trans (plain_complete ..)
  · exact h₁.trans (plain_runNext _)

theorem plain_finish (m : Machine) (r : Result) : Plain m (m.finish r) := by
  unfold finish
  refine (Plain.note m (e := .finish r) rfl).trans (Plain.trans ?_ (plain_handleResult _ r))
  unfold deliverAwaited
  split
  · exact Plain.note _ rfl
  · exact Plain.refl _

end Plain

/-! ## What a result does to a pipeline that goes on -/

@[simp] theorem complete_state (m : Machine) (s : PipelineState) (sig : PipelineSignal) (r : Result) :
    (m.complete s sig r).pipe.state = s := by
  unfold complete
  extract_lets out m₁
  split <;> rfl

/-- Taking a step from the queue shows. -/
theorem runNext_queue {m : Machine} (hr : m.pipe.state = .running) (hq : m.pipe.queue ≠ []) :
    m.runNext.pipe.queue ≠ m.pipe.queue := by
  unfold runNext
  rw [if_neg (not_not.mpr hr)]
  cases hqueue : m.pipe.queue with
  | nil => exact absurd hqueue hq
  | cons x queue =>
    simp only
    split
    · simp [Pipeline.setQueue]
    · split
      · simp [Pipeline.setQueue]
      · have hempty : ∀ m₁ : Machine, (m₁.complete .errored .cmdError .noCallable).pipe.queue = [] := by
          intro m₁
          unfold complete
          extract_lets out m₂
          split <;> rfl
        rw [hempty]
        exact fun h => (by cases h)

/-- A result always leaves its mark on a pipeline that goes on. -/
theorem handleResult_changes {m : Machine} (ha : m.pipe.active = true) (r : Result) :
    (m.handleResult r).pipe ≠ m.pipe := by
  have hover : ∀ s : PipelineState, s ≠ .running → s ≠ .paused → m.pipe.state ≠ s := by
    intro s h1 h2 he
    rcases Pipeline.active_iff.mp ha with h | h
    · exact h1 (he.symm.trans h)
    · exact h2 (he.symm.trans h)
  unfold handleResult
  rw [if_neg (by simp [ha])]
  split
  · intro he
    have := congrArg Pipeline.state he
    rw [complete_state] at this
    exact hover .errored (by decide) (by decide) this.symm
  · extract_lets m₁
    split
    · intro he
      have := congrArg Pipeline.state he
      rw [complete_state] at this
      exact hover .done (by decide) (by decide) this.symm
    · rename_i hq
      split
      · intro he
        have := congrArg Pipeline.stepIndex he
        simp only [m₁, setPipe_pipe, Pipeline.advance] at this
        omega
      · intro he
        have hqueue : m₁.pipe.queue ≠ [] := by simpa using hq
        refine runNext_queue (m := m₁.setPipe (m₁.pipe.setState .running)) rfl hqueue ?_
        rw [he]
        rfl

theorem callback_isolated (m : Machine) (i run : Nat) (r : Result) :
    Isolated (m.callback i run r).log ↔ Isolated m.log ∧ m.HarmlessTo run := by
  unfold callback HarmlessTo
  split
  · rename_i hdel
    have hstale : m.stale run = true := by simp [stale, hdel]
    rw [note_log, isolated_cons]
    simp [Event.isolated, hdel, hstale]
  · rename_i hdel
    have hplain : Plain m ((m.deliver i run r).handleResult r) :=
      (plain_deliver m i run r).trans (plain_handleResult _ r)
    have hpipe : (m.deliver i run r).pipe = m.pipe := by unfold deliver; split <;> rfl
    have hkeeps : ((m.deliver i run r).handleResult r).pipe = m.pipe ↔ m.pipe.active = false := by
      refine ⟨fun he => ?_, fun ha => ?_⟩
      · by_contra hact
        refine handleResult_changes (m := m.deliver i run r) ?_ r (he.trans hpipe.symm)
        rw [hpipe]
        simpa using hact
      · rw [handleResult, hpipe, ha]
        exact hpipe
    have hdel' : m.deleted = false := by simpa using hdel
    rw [note_log, isolated_cons, hplain.isolated, and_comm]
    simp only [Event.isolated, hkeeps, hdel', true_and]

/-- **One action**: it leaves the log isolated exactly when it meets the condition. -/
theorem acts_isolated {m m' : Machine} {a : Action} (ha : Acts m a m') :
    Isolated m'.log ↔ Isolated m.log ∧ StaleHarmless m a := by
  -- actions that hand in no result of a posted step
  have hplain : ∀ {n : Machine}, Plain m n → StaleHarmless m a →
      (Isolated n.log ↔ Isolated m.log ∧ StaleHarmless m a) := fun hp hc =>
    hp.isolated.trans ⟨fun h => ⟨h, hc⟩, fun h => h.1⟩
  cases a with
  | add | setResultHandler | destroy =>
    obtain ⟨-, hm⟩ := Option.ite_none_left_eq_some.mp ha
    cases hm
    exact hplain (Plain.of_log rfl) trivial
  | context | killLoop => cases ha; exact hplain (Plain.of_log rfl) trivial
  | start =>
    obtain ⟨-, hm⟩ := Option.ite_none_left_eq_some.mp ha
    cases hm
    exact hplain (plain_start m) trivial
  | pause =>
    obtain ⟨-, hm⟩ := Option.ite_none_left_eq_some.mp ha
    cases hm
    exact hplain (Plain.of_log (by unfold pause; split <;> rfl)) trivial
  | resume =>
    obtain ⟨-, hm⟩ := Option.ite_none_left_eq_some.mp ha
    cases hm
    refine hplain ?_ trivial
    unfold resume
    split
    · exact Plain.refl m
    · exact (Plain.of_log rfl).trans (plain_runNext _)
  | stop =>
    obtain ⟨-, hm⟩ := Option.ite_none_left_eq_some.mp ha
    cases hm
    exact hplain ⟨[.stop], by unfold stop; extract_lets; split <;> rfl, by simp [Event.isCallback]⟩
      trivial
  | finish r =>
    obtain ⟨-, hm⟩ := Option.ite_none_left_eq_some.mp ha
    cases hm
    exact hplain (plain_finish m r) trivial
  | exec k =>
    obtain ⟨t, ht, rfl⟩ := Option.map_eq_some_iff.mp ha
    have hcond : StaleHarmless m (.exec k) ↔ (t.alive = true → t.callable = false →
        m.HarmlessTo t.run) :=
      ⟨fun h => h t ht, fun h t' ht' => Option.some.inj (ht.symm.trans ht') ▸ h⟩
    cases halive : t.alive with
    | false =>
      have hrun : (m.dropTask k).runTask t = m.dropTask k := by simp [runTask, halive]
      exact hplain (Plain.of_log (by rw [hrun]; rfl)) (hcond.mpr fun h => (by simp [halive] at h))
    | true =>
      cases hcall : t.callable with
      | false =>
        have hrun : (m.dropTask k).runTask t = (m.dropTask k).callback t.index t.run .noCallable := by
          simp [runTask, halive, hcall]
        rw [hrun, callback_isolated, hcond]
        exact and_congr Iff.rfl ⟨fun h _ _ => h, fun h => h halive hcall⟩
      | true =>
        have hrun : (m.dropTask k).runTask t = (m.dropTask k).invoke ⟨true, t.index, t.run⟩ := by
          simp [runTask, halive, hcall]
        rw [hrun]
        exact hplain ⟨[.invoked t.index], rfl, by simp [Event.isCallback]⟩
          (hcond.mpr fun _ h => (by simp [hcall] at h))
  | ret k v =>
    obtain ⟨fr, hfr, rfl⟩ := Option.map_eq_some_iff.mp ha
    have hcond : StaleHarmless m (.ret k v) ↔ (fr.posted = true → m.HarmlessTo fr.run) :=
      ⟨fun h => h fr hfr, fun h fr' hfr' => Option.some.inj (hfr.symm.trans hfr') ▸ h⟩
    unfold returned
    extract_lets r
    split
    · rename_i hpost
      rw [callback_isolated, hcond]
      exact and_congr Iff.rfl ⟨fun h _ => h, fun h => h hpost⟩
    · rename_i hinline
      have hc : StaleHarmless m (.ret k v) := hcond.mpr fun h => absurd h hinline
      split
      · exact hplain (Plain.of_log rfl) hc
      · split
        · rw [note_log, isolated_cons]
          exact ⟨fun h => ⟨h.2, hc⟩, fun h => ⟨rfl, h.1⟩⟩
        · exact hplain ((plain_deliver (m.dropFrame k) _ _ _).trans (plain_loopReturn _ _)) hc

/-- **A run is isolated exactly when no stale step comes back to a pipeline that goes on or is
deleted.** -/
theorem isolated_iff {as : List Action} {m : Machine} (h : Runs Acts create as m) :
    Isolated m.log ↔ Runs (Guarded StaleHarmless Acts) create as m := by
  have hiff := h.guarded_iff (C := StaleHarmless) (P := fun m => Isolated m.log)
    (fun _ _ _ _ => acts_unique) fun _ _ _ => acts_isolated
  refine hiff.trans ⟨And.right, fun hr => ⟨fun e he => ?_, hr⟩⟩
  cases he

/-- A posted step is stopped with its run and comes back to an idle pipeline. -/
theorem isolated_iff_sample : ∃ m, create.script [.add ⟨true, some 0⟩, .start, .exec 0, .stop,
    .ret 0 (.result (.ok .none))] = some m ∧
      (Isolated m.log ↔ Runs (Guarded StaleHarmless Acts) create [.add ⟨true, some 0⟩, .start,
        .exec 0, .stop, .ret 0 (.result (.ok .none))] m) :=
  ⟨_, rfl, isolated_iff (runs_script rfl)⟩

/-- A call that does not wait and has no slot for its pipeline: started, stopped and deleted, before
the loop runs the step. -/
theorem touched_deleted : ¬ ∀ (as : List Action) (m : Machine), Runs Acts create as m →
    Isolated m.log := by
  intro h
  have hrun : create.script [.add ⟨true, some 0⟩, .start, .stop, .destroy, .exec 0,
      .ret 0 (.result (.ok .none))] = some _ := rfl
  have htouched := h _ _ (runs_script hrun) (.touched true) (.head _)
  cases htouched

end Machine

end VersatileEngine
