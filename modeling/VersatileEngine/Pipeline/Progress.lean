import VersatileEngine.Pipeline.Isolation
import VersatileEngine.Pipeline.Order

/-!
# VersatileEngine.Pipeline.Progress

A pipeline that is `RUNNING` waits for something.

* `Watched`     — a machine, and the inline steps that have answered `ACCEPT`. A step may also throw.
* `Outstanding` — a posted step of the run waits in its loop, or a step of the run has answered `ACCEPT` and
  has no result yet.
* `NotStuck`    — the property: `RUNNING`, with no step in progress, something is outstanding.
* `Posts`       — the condition on an action: the step it takes from the queue, if any, has no loop that is
  gone, and no step throws.

`LoopRef::post` drops a task when its loop is gone, and `runNext` returns all the same: `dropped_post` is a
pipeline that stays `RUNNING` for good. `not_stuck` is the run theorem.
-/

namespace VersatileEngine

namespace Machine

/-- The step at the head of the queue. -/
def head (m : Machine) : Option VersatileEngine.Step := m.pipe.queue.head?.map Prod.fst

/-- The step that an action takes from the queue. -/
def takes (m : Machine) : Action → Option VersatileEngine.Step
  | .start => m.pipe.steps.head?
  | .resume => if m.pipe.state = .paused then m.head else none
  | .finish r => if m.pipe.state = .running ∧ r.isError = false then m.head else none
  | .ret k v =>
    match m.frames[k]? with
    | some fr =>
      if m.deleted = false ∧ m.pipe.state = .running ∧ (resultFromStepReturn v).isError = false ∧
        (fr.posted = true ∨ (resultFromStepReturn v).isAccepted = false) then m.head else none
    | none => none
  | _ => none

/-- The run and the number of a step that answers `ACCEPT`. -/
def accepting (m : Machine) : Action → List (Nat × Nat)
  | .ret k v =>
    match m.frames[k]? with
    | some fr =>
      if fr.posted = false ∧ (resultFromStepReturn v).isAccepted = true then [(fr.run, fr.index)] else []
    | none => []
  | _ => []

end Machine

structure Watched where
  machine : Machine
  /-- Run and number of the steps that have answered `ACCEPT`. -/
  accepted : List (Nat × Nat)

namespace Watched

open Machine

def create : Watched := ⟨.create, []⟩

inductive Act where
  | act (a : Action)
  /-- The `k`-th step in progress throws. -/
  | throws (k : Nat)

def step (w : Watched) : Act → Option Watched
  | .act a => (w.machine.step a).map fun m => ⟨m, w.machine.accepting a ++ w.accepted⟩
  | .throws k => if k < w.machine.frames.length then some { w with machine := w.machine.dropFrame k } else none

def Acts (w : Watched) (a : Act) (w' : Watched) : Prop := w.step a = some w'

/-- A step of the current run has answered `ACCEPT`, and has no result yet. -/
def Parked (m : Machine) (accepted : List (Nat × Nat)) : Prop :=
  ∃ i, (m.run, i) ∈ accepted ∧ hasResult m.log i = false

def Outstanding (w : Watched) : Prop :=
  (∃ t ∈ w.machine.tasks, t.run = w.machine.run) ∨ Parked w.machine w.accepted

/-- A pipeline that is `RUNNING` while no step is in progress waits for something. -/
def NotStuck (w : Watched) : Prop :=
  w.machine.deleted = false → w.machine.pipe.state = .running → w.machine.frames = [] → w.Outstanding

/-- The step that is taken can be posted. -/
def Posts (w : Watched) : Act → Prop
  | .act a => ∀ st, w.machine.takes a = some st → ∀ l, st.loop = some l → l ∉ w.machine.deadLoops
  | .throws _ => False

end Watched

namespace Machine

/-- The steps up to `k` of the current run are taken; the others are in the queue, and have no results. -/
structure Numbered (m : Machine) (k : Nat) : Prop where
  queue : m.pipe.queue.map Prod.snd = List.range' k m.pipe.queue.length
  results : ∀ i, hasResult m.log i = true → i < k
  taken : ∀ i, lastTaken m.log = some i → i < k
  frames : ∀ fr ∈ m.frames, fr.run ≤ m.run ∧ (fr.run = m.run → fr.index < k)
  tasks : ∀ t ∈ m.tasks, t.alive = true ∧ t.run ≤ m.run ∧ (t.run = m.run → t.index < k)

/-- A step of the current run without a result waits in a loop or is in progress. -/
def Pending (m : Machine) : Prop :=
  (∃ t ∈ m.tasks, t.run = m.run ∧ hasResult m.log t.index = false) ∨
    ∃ fr ∈ m.frames, fr.run = m.run ∧ hasResult m.log fr.index = false

/-- The step at the head of the queue can be posted. -/
def HeadLives (m : Machine) : Prop := ∀ st, m.head = some st → ∀ l, st.loop = some l → l ∉ m.deadLoops

section Numbered

variable {m m' : Machine} {k : Nat}

theorem hasResult_plain {e : Event} (log : List Event) (hs : e.isStart = false)
    (hd : ∀ i, e.isDelivered i = false) (i : Nat) : hasResult (e :: log) i = hasResult log i := by
  rw [hasResult, thisRun_cons _ _ hs, List.any_cons, hd, Bool.false_or]
  rfl

theorem numbered_create : Numbered create 0 := by
  refine ⟨rfl, fun i hi => ?_, fun i hi => ?_, fun fr hf => ?_, fun t ht => ?_⟩
  · cases hi
  · cases hi
  · cases hf
  · cases ht

/-- The numbering does not depend on the state and the results. -/
theorem Numbered.congr (h : m.Numbered k) (hq : m'.pipe.queue = m.pipe.queue) (hl : m'.log = m.log)
    (hr : m'.run = m.run) (hf : ∀ fr ∈ m'.frames, fr ∈ m.frames) (ht : ∀ t ∈ m'.tasks, t ∈ m.tasks) :
    m'.Numbered k := by
  refine ⟨by rw [hq]; exact h.queue, by rw [hl]; exact h.results, by rw [hl]; exact h.taken,
    fun fr hfr => ?_, fun t ht' => ?_⟩
  · rw [hr]; exact h.frames fr (hf fr hfr)
  · rw [hr]; exact h.tasks t (ht t ht')

theorem Numbered.note (h : m.Numbered k) {e : Event} (he : e.isPlain = true)
    (hd : ∀ i, e.isDelivered i = false) : (m.note e).Numbered k := by
  refine ⟨h.queue, fun i hi => h.results i ?_, fun i hi => h.taken i ?_, h.frames, h.tasks⟩
  · rwa [note_log, hasResult_plain _ (isStart_of_isPlain he) hd] at hi
  · rwa [note_log, lastTaken_plain _ he] at hi

theorem Numbered.delivered (h : m.Numbered k) {i : Nat} (hi : i < k) : (m.note (.delivered i)).Numbered k := by
  refine ⟨h.queue, fun j hj => ?_, fun j hj => h.taken j ?_, h.frames, h.tasks⟩
  · simp only [note_log, hasResult, thisRun_delivered, List.any_cons, Bool.or_eq_true] at hj
    rcases hj with hj | hj
    · have : j = i := by simpa [Event.isDelivered] using hj
      omega
    · exact h.results j hj
  · rwa [note_log, lastTaken_plain _ rfl] at hj

theorem Numbered.deliver (h : m.Numbered k) {i run : Nat} (r : Result) (hi : run = m.run → i < k) :
    (m.deliver i run r).Numbered k := by
  unfold Machine.deliver
  split
  · rename_i hr
    exact h.delivered (hi hr.1)
  · exact h

theorem Numbered.deliverAwaited (h : m.Numbered k) : m.deliverAwaited.Numbered k := by
  unfold Machine.deliverAwaited
  split
  · rename_i i hi
    exact h.delivered (h.taken i (Option.filter_eq_some_iff.mp hi).1)
  · exact h

theorem Numbered.complete (h : m.Numbered k) (s : PipelineState) (sig : PipelineSignal) (r : Result) :
    (m.complete s sig r).Numbered k := by
  have hempty : ∀ p : Pipeline, p.queue = [] → (m.setPipe p).Numbered k := fun p hp => by
    refine ⟨by rw [setPipe_pipe, hp]; rfl, h.results, h.taken, h.frames, h.tasks⟩
  unfold Machine.complete
  extract_lets out m₁
  have h₁ : m₁.Numbered k := Numbered.note (e := .signal sig out) (hempty (m.pipe.completed s out) rfl) rfl
    fun _ => rfl
  split
  · have h₂ : (m₁.setPipe (m₁.pipe.setHandler false)).Numbered k :=
      h₁.congr rfl rfl rfl (fun _ h => h) fun _ h => h
    exact h₂.note rfl fun _ => rfl
  · exact h₁

theorem Pending.note (h : m.Pending) {e : Event} (hs : e.isStart = false)
    (hd : ∀ i, e.isDelivered i = false) : (m.note e).Pending := by
  rcases h with ⟨t, ht, hr, hn⟩ | ⟨fr, hf, hr, hn⟩
  · exact .inl ⟨t, ht, hr, (hasResult_plain _ hs hd _).trans hn⟩
  · exact .inr ⟨fr, hf, hr, (hasResult_plain _ hs hd _).trans hn⟩

/-- Taking the head of the queue. -/
theorem Numbered.take (h : m.Numbered k) {st : VersatileEngine.Step} {i : Nat}
    {queue : List (VersatileEngine.Step × Nat)} (hq : m.pipe.queue = (st, i) :: queue) :
    i = k ∧ ((m.setPipe (m.pipe.setQueue queue)).note (.took i)).Numbered (k + 1) := by
  have hqueue := h.queue
  rw [hq, List.map_cons, List.length_cons, List.range'_succ, List.cons.injEq] at hqueue
  obtain ⟨hi, hqueue⟩ := hqueue
  simp only at hi
  subst hi
  refine ⟨rfl, hqueue, fun j hj => ?_, fun j hj => ?_, fun fr hfr => ?_, fun t ht => ?_⟩
  · rw [note_log, hasResult_plain _ rfl fun _ => rfl] at hj
    exact Nat.lt_succ_of_lt (h.results j hj)
  · have hij : i = j := Option.some.inj hj
    omega
  · exact ⟨(h.frames fr hfr).1, fun hr => Nat.lt_succ_of_lt ((h.frames fr hfr).2 hr)⟩
  · obtain ⟨ha, hr, hi⟩ := h.tasks t ht
    exact ⟨ha, hr, fun hr => Nat.lt_succ_of_lt (hi hr)⟩

/-- **`runNext` leaves something to wait for**, unless the loop of the step it takes is gone. -/
theorem Numbered.runNext (h : m.Numbered k) (hlive : m.HeadLives) :
    (∃ k, m.runNext.Numbered k) ∧ (m.pipe.state = .running → m.runNext.pipe.state = .running → m.runNext.Pending) := by
  unfold Machine.runNext
  split
  · rename_i hs
    exact ⟨⟨k, h⟩, fun hr => absurd hr hs⟩
  split
  · refine ⟨⟨k, h.complete _ _ _⟩, fun _ hr => ?_⟩
    rw [complete_state] at hr
    cases hr
  · rename_i st i queue hq
    obtain ⟨rfl, h₁⟩ := h.take hq
    have hnone : hasResult (.took i :: m.log) i = false := by
      rw [hasResult_plain _ rfl fun _ => rfl]
      cases hr : hasResult m.log i with
      | false => rfl
      | true => exact absurd (h.results i hr) (Nat.lt_irrefl _)
    extract_lets m₁
    have hlog : m₁.log = .took i :: m.log := rfl
    split
    · rename_i l hl
      have hdead : l ∉ m₁.deadLoops := hlive st (by rw [head, hq]; rfl) l hl
      simp only [post, hdead, if_false]
      refine ⟨⟨i + 1, h₁.queue, h₁.results, h₁.taken, h₁.frames, fun t ht => ?_⟩, fun _ _ =>
        .inl ⟨⟨i, m₁.run, st.callable, true⟩, by simp, rfl, hnone⟩⟩
      rcases List.mem_append.mp ht with ht | ht
      · exact h₁.tasks t ht
      · rw [List.mem_singleton.mp ht]
        exact ⟨rfl, Nat.le_refl _, fun _ => Nat.lt_succ_self i⟩
    split
    · have h₂ : (m₁.note (.invoked i)).Numbered (i + 1) := h₁.note rfl fun _ => rfl
      refine ⟨⟨i + 1, h₂.queue, h₂.results, h₂.taken, fun fr hfr => ?_, h₂.tasks⟩, fun _ _ =>
        .inr ⟨⟨false, i, m₁.run⟩, by simp [invoke], rfl, ?_⟩⟩
      · rcases List.mem_append.mp hfr with hfr | hfr
        · exact h₁.frames fr hfr
        · rw [List.mem_singleton.mp hfr]
          exact ⟨Nat.le_refl _, fun _ => Nat.lt_succ_self i⟩
      · rw [invoke_log, hasResult_plain _ rfl fun _ => rfl]
        exact hnone
    · refine ⟨⟨i + 1, h₁.complete _ _ _⟩, fun _ hr => ?_⟩
      rw [complete_state] at hr
      cases hr

/-- A result moves a pipeline on that is `RUNNING`, and starts none. -/
theorem Numbered.handleResult (h : m.Numbered k) (r : Result)
    (hlive : m.pipe.state = .running → r.isError = false → m.HeadLives) :
    (∃ k, (m.handleResult r).Numbered k) ∧ ((m.handleResult r).pipe.state = .running → (m.handleResult r).Pending) := by
  unfold Machine.handleResult
  split
  · rename_i ha
    refine ⟨⟨k, h⟩, fun hr => absurd (Pipeline.active_iff.mpr (.inl hr)) ?_⟩
    simpa using ha
  rename_i hact
  split
  · refine ⟨⟨k, h.complete _ _ _⟩, fun hr => ?_⟩
    rw [complete_state] at hr
    cases hr
  rename_i herr
  extract_lets m₁
  have h₁ : m₁.Numbered k := h.congr rfl rfl rfl (fun _ hf => hf) fun _ ht => ht
  split
  · refine ⟨⟨k, h₁.complete _ _ _⟩, fun hr => ?_⟩
    rw [complete_state] at hr
    cases hr
  split
  · rename_i hp
    refine ⟨⟨k, h₁⟩, fun hr => ?_⟩
    rw [hp] at hr
    cases hr
  · rename_i hp
    have hs : m.pipe.state = .running := by
      have hactive : m.pipe.active = true := by simpa using hact
      exact (Pipeline.active_iff.mp hactive).resolve_right hp
    obtain ⟨hn, hpend⟩ := Numbered.runNext (m := m₁.setPipe (m₁.pipe.setState .running))
      (h₁.congr rfl rfl rfl (fun _ hf => hf) fun _ ht => ht) (hlive hs (by simpa using herr))
    exact ⟨hn, hpend rfl⟩

theorem Numbered.loopReturn (h : m.Numbered k) (r : Result)
    (hlive : m.pipe.state = .running → r.isError = false → m.HeadLives) :
    (∃ k, (m.loopReturn r).Numbered k) ∧ ((m.loopReturn r).pipe.state = .running → (m.loopReturn r).Pending) := by
  unfold Machine.loopReturn
  split
  · refine ⟨⟨k, h.complete _ _ _⟩, fun hr => ?_⟩
    rw [complete_state] at hr
    cases hr
  rename_i herr
  have h₁ : (m.setPipe (m.pipe.advance r)).Numbered k := h.congr rfl rfl rfl (fun _ hf => hf) fun _ ht => ht
  by_cases hs : m.pipe.state = .running
  · obtain ⟨hn, hpend⟩ := h₁.runNext (hlive hs (by simpa using herr))
    exact ⟨hn, hpend hs⟩
  · have hsame : (m.setPipe (m.pipe.advance r)).runNext = m.setPipe (m.pipe.advance r) := if_pos hs
    rw [hsame]
    exact ⟨⟨k, h₁⟩, fun hr => absurd hr hs⟩

theorem Numbered.callback (h : m.Numbered k) (i run : Nat) (r : Result) (hi : run = m.run → i < k)
    (hlive : m.deleted = false → m.pipe.state = .running → r.isError = false → m.HeadLives) :
    (∃ k, (m.callback i run r).Numbered k) ∧
      ((m.callback i run r).deleted = false → (m.callback i run r).pipe.state = .running → (m.callback i run r).Pending) := by
  unfold Machine.callback
  split
  · rename_i hd
    refine ⟨⟨k, h.note rfl fun _ => rfl⟩, fun hd' => ?_⟩
    rw [note_deleted, hd] at hd'
    cases hd'
  · rename_i hd
    have hdeliver : (m.deliver i run r).pipe = m.pipe ∧ (m.deliver i run r).deadLoops = m.deadLoops := by
      unfold Machine.deliver
      split <;> exact ⟨rfl, rfl⟩
    obtain ⟨⟨k', hn⟩, hpend⟩ := (h.deliver r hi).handleResult r fun hs herr => by
      rw [hdeliver.1] at hs
      have := hlive (by simpa using hd) hs herr
      rw [HeadLives, head, hdeliver.1, hdeliver.2]
      exact this
    refine ⟨⟨k', hn.note rfl fun _ => rfl⟩, fun _ hs => ?_⟩
    exact (hpend hs).note rfl fun _ => rfl

theorem Numbered.start (h : m.Numbered k) (hlive : ∀ st, m.pipe.steps.head? = some st →
    ∀ l, st.loop = some l → l ∉ m.deadLoops) :
    (∃ k, m.start.Numbered k) ∧ (m.start.pipe.state = .running → m.start.Pending) := by
  unfold Machine.start
  extract_lets m₁
  have hold : ∀ run, run ≤ m.run → run ≠ m.run + 1 := fun run hr => by omega
  have h₁ : m₁.Numbered 0 := by
    refine ⟨?_, fun i hi => (by cases hi), fun i hi => (by cases hi), fun fr hfr => ?_, fun t ht => ?_⟩
    · simp [m₁, Pipeline.started, List.zipIdx_map_snd]
    · have hr := (h.frames fr hfr).1
      exact ⟨Nat.le_succ_of_le hr, fun he => absurd he (hold _ hr)⟩
    · obtain ⟨ha, hr, -⟩ := h.tasks t ht
      exact ⟨ha, Nat.le_succ_of_le hr, fun he => absurd he (hold _ hr)⟩
  split
  · refine ⟨⟨0, h₁.complete _ _ _⟩, fun hr => ?_⟩
    rw [complete_state] at hr
    cases hr
  · obtain ⟨hn, hpend⟩ := h₁.runNext fun st hst => by
      refine hlive st ?_
      rw [← hst]
      simp only [head, m₁, note_pipe, Pipeline.started]
      cases m.pipe.steps <;> rfl
    exact ⟨hn, hpend rfl⟩

theorem Numbered.finish (h : m.Numbered k) (r : Result)
    (hlive : m.pipe.state = .running → r.isError = false → m.HeadLives) :
    (∃ k, (m.finish r).Numbered k) ∧ ((m.finish r).pipe.state = .running → (m.finish r).Pending) := by
  have hsame : ((m.note (.finish r)).deliverAwaited).pipe = m.pipe ∧
      ((m.note (.finish r)).deliverAwaited).deadLoops = m.deadLoops := by
    unfold Machine.deliverAwaited
    split <;> exact ⟨rfl, rfl⟩
  have h₁ : (m.note (.finish r)).Numbered k := h.note rfl fun _ => rfl
  refine h₁.deliverAwaited.handleResult r fun hs herr => ?_
  rw [hsame.1] at hs
  have := hlive hs herr
  rw [HeadLives, head, hsame.1, hsame.2]
  exact this

end Numbered

end Machine

namespace Watched

open Machine

section Going

variable {w w' : Watched} {m m' : Machine} {k : Nat}

/-- What holds of every state reached: the numbering, and while the pipeline is `RUNNING` there is something
that will move it on. -/
structure Going (w : Watched) : Prop where
  numbered : ∃ k, w.machine.Numbered k
  going : w.machine.deleted = false → w.machine.pipe.state = .running →
    w.machine.Pending ∨ Parked w.machine w.accepted

theorem going_create : Going create := ⟨⟨0, numbered_create⟩, fun _ hs => (by cases hs)⟩

/-- Without a step in progress, what will move the pipeline on is outstanding. -/
theorem Going.notStuck (h : Going w) : NotStuck w := by
  intro hd hs hf
  rcases h.going hd hs with (⟨t, ht, hr, -⟩ | ⟨fr, hfr, -⟩) | hp
  · exact .inl ⟨t, ht, hr⟩
  · rw [hf] at hfr
    cases hfr
  · exact .inr hp

/-- An action that does not touch what the pipeline waits for. -/
theorem Going.congr {ids : List (Nat × Nat)} (h : Going w) (hp : m'.pipe.queue = w.machine.pipe.queue) (hl : m'.log = w.machine.log)
    (hr : m'.run = w.machine.run) (hf : m'.frames = w.machine.frames) (ht : m'.tasks = w.machine.tasks)
    (hs : m'.pipe.state = .running → w.machine.pipe.state = .running)
    (hd : m'.deleted = false → w.machine.deleted = false) :
    Going ⟨m', ids ++ w.accepted⟩ := by
  obtain ⟨k, hn⟩ := h.numbered
  refine ⟨⟨k, hn.congr hp hl hr (by rw [hf]; exact fun _ h => h) (by rw [ht]; exact fun _ h => h)⟩,
    fun hd' hs' => ?_⟩
  rcases h.going (hd hd') (hs hs') with hpend | ⟨i, hi, hn⟩
  · refine .inl ?_
    rw [Pending, ht, hf, hr, hl]
    exact hpend
  · exact .inr ⟨i, List.mem_append_right _ (hr ▸ hi), by rw [hl]; exact hn⟩

/-- An action after which whatever the pipeline waits for is new. -/
theorem Going.renew {m' : Machine} {ids : List (Nat × Nat)} (hn : ∃ k, m'.Numbered k)
    (hp : m'.deleted = false → m'.pipe.state = .running → m'.Pending) : Going ⟨m', ids⟩ :=
  ⟨hn, fun hd hs => .inl (hp hd hs)⟩

theorem mem_eraseIdx_or {α : Type} {l : List α} {i : Nat} {a x : α} (hi : l[i]? = some a) (hx : x ∈ l) :
    x = a ∨ x ∈ l.eraseIdx i := by
  obtain ⟨j, hj⟩ := List.getElem?_of_mem hx
  by_cases hij : j = i
  · subst hij
    rw [hi] at hj
    exact .inl (Option.some.inj hj).symm
  · refine .inr (List.mem_iff_getElem?.mpr ?_)
    by_cases hlt : j < i
    · exact ⟨j, by rw [List.getElem?_eraseIdx_of_lt hlt, hj]⟩
    · refine ⟨j - 1, ?_⟩
      rw [List.getElem?_eraseIdx_of_ge (by omega), show j - 1 + 1 = j by omega, hj]

/-- The step at `j` is no longer in progress; what it did not wait for stays. -/
theorem Numbered.drop (h : m.Numbered k) (j : Nat) : (m.dropFrame j).Numbered k ∧ (m.dropTask j).Numbered k :=
  ⟨h.congr rfl rfl rfl (fun _ hf => List.mem_of_mem_eraseIdx hf) fun _ ht => ht,
    h.congr rfl rfl rfl (fun _ hf => hf) fun _ ht => List.mem_of_mem_eraseIdx ht⟩

/-- A task leaves its loop. -/
theorem Going.exec (h : Going w) {j : Nat} {t : Task} (ht : w.machine.tasks[j]? = some t) :
    Going ⟨(w.machine.dropTask j).runTask t, w.accepted⟩ := by
  obtain ⟨k, hn⟩ := h.numbered
  obtain ⟨halive, hrun, hidx⟩ := hn.tasks t (List.mem_of_getElem? ht)
  have hd := (Numbered.drop hn j).2
  unfold Machine.runTask
  rw [halive]
  simp only [Bool.not_true, Bool.false_eq_true, if_false]
  split
  · obtain ⟨hn', hp⟩ := hd.callback t.index t.run .noCallable hidx
      fun _ _ herr => absurd herr (by decide)
    exact .renew hn' hp
  · refine ⟨⟨k, ?_⟩, fun hdel hs => ?_⟩
    · have h₂ : ((w.machine.dropTask j).note (.invoked t.index)).Numbered k := hd.note rfl fun _ => rfl
      refine ⟨h₂.queue, h₂.results, h₂.taken, fun fr hfr => ?_, h₂.tasks⟩
      rcases List.mem_append.mp hfr with hfr | hfr
      · exact hd.frames fr hfr
      · rw [List.mem_singleton.mp hfr]
        exact ⟨hrun, hidx⟩
    · have hplain : ∀ i, hasResult (.invoked t.index :: w.machine.log) i = hasResult w.machine.log i :=
        hasResult_plain _ rfl fun _ => rfl
      rcases h.going hdel hs with (⟨t', ht', hr', hn'⟩ | ⟨fr, hfr, hr', hn'⟩) | ⟨i, hi, hn'⟩
      · rcases mem_eraseIdx_or ht ht' with rfl | ht'
        · exact .inl (.inr ⟨⟨true, t'.index, t'.run⟩, by simp [invoke], hr', (hplain _).trans hn'⟩)
        · exact .inl (.inl ⟨t', ht', hr', (hplain _).trans hn'⟩)
      · exact .inl (.inr ⟨fr, List.mem_append_left _ hfr, hr', (hplain _).trans hn'⟩)
      · exact .inr ⟨i, hi, (hplain _).trans hn'⟩

/-- A step in progress returns. -/
theorem Going.returned (h : Going w) {j : Nat} {fr : Frame} {v : StepReturn}
    (hfr : w.machine.frames[j]? = some fr) (hposts : Posts w (.act (.ret j v))) :
    Going ⟨(w.machine.dropFrame j).returned fr v, w.machine.accepting (.ret j v) ++ w.accepted⟩ := by
  obtain ⟨k, hn⟩ := h.numbered
  obtain ⟨hrun, hidx⟩ := hn.frames fr (List.mem_of_getElem? hfr)
  have hd := (Numbered.drop hn j).1
  have hlive : w.machine.deleted = false → w.machine.pipe.state = .running →
      (resultFromStepReturn v).isError = false →
      fr.posted = true ∨ (resultFromStepReturn v).isAccepted = false → (w.machine.dropFrame j).HeadLives := by
    intro h1 h2 h3 h4 st hst
    refine hposts st ?_
    simp only [takes, hfr]
    rw [if_pos ⟨h1, h2, h3, h4⟩]
    exact hst
  unfold Machine.returned
  extract_lets r
  split
  · rename_i hposted
    obtain ⟨hn', hp⟩ := hd.callback fr.index fr.run r hidx
      fun hdel hs herr => hlive hdel hs herr (.inl hposted)
    exact .renew hn' hp
  rename_i hposted
  split
  · -- an inline step answers `ACCEPT`
    rename_i hacc
    have hacc' : w.machine.accepting (.ret j v) = [(fr.run, fr.index)] := by
      simp only [accepting, hfr]
      exact if_pos ⟨by simpa using hposted, hacc⟩
    refine ⟨⟨k, hd⟩, fun hdel hs => ?_⟩
    rw [hacc']
    rcases h.going hdel hs with (⟨t, ht, hr, hn'⟩ | ⟨fr', hfr', hr, hn'⟩) | ⟨i, hi, hn'⟩
    · exact .inl (.inl ⟨t, ht, hr, hn'⟩)
    · rcases mem_eraseIdx_or hfr hfr' with rfl | hfr'
      · exact .inr ⟨fr'.index, List.mem_append_left _ (List.mem_singleton.mpr (congrArg (·, fr'.index) hr.symm)), hn'⟩
      · exact .inl (.inr ⟨fr', hfr', hr, hn'⟩)
    · exact .inr ⟨i, List.mem_append_right _ hi, hn'⟩
  rename_i hacc
  split
  · rename_i hdel
    refine ⟨⟨k, hd.note rfl fun _ => rfl⟩, fun hdel' => ?_⟩
    rw [note_deleted, hdel] at hdel'
    cases hdel'
  · rename_i hdel
    have hsame : ((w.machine.dropFrame j).deliver fr.index fr.run r).pipe = w.machine.pipe ∧
        ((w.machine.dropFrame j).deliver fr.index fr.run r).deadLoops = w.machine.deadLoops := by
      unfold Machine.deliver
      split <;> exact ⟨rfl, rfl⟩
    obtain ⟨hn', hp⟩ := (hd.deliver r hidx).loopReturn r fun hs herr => by
      rw [hsame.1] at hs
      have := hlive (by simpa using hdel) hs herr (.inr (by simpa using hacc))
      rw [HeadLives, head, hsame.1, hsame.2]
      exact this
    exact .renew hn' fun _ => hp

/-- **One action**, under the condition. -/
theorem Going.acts (h : Going w) {a : Act} (hposts : Posts w a) (ha : Acts w a w') : Going w' := by
  cases a with
  | throws k => exact hposts.elim
  | act a =>
    obtain ⟨m', hm, rfl⟩ := Option.map_eq_some_iff.mp ha
    obtain ⟨k, hn⟩ := h.numbered
    cases a with
    | add s | setResultHandler s =>
      obtain ⟨-, hm⟩ := Option.ite_none_left_eq_some.mp hm
      cases hm
      exact h.congr rfl rfl rfl rfl rfl (fun hs => hs) fun hd => hd
    | destroy =>
      obtain ⟨-, hm⟩ := Option.ite_none_left_eq_some.mp hm
      cases hm
      exact h.congr rfl rfl rfl rfl rfl (fun hs => hs) fun hd => (by cases hd)
    | context | killLoop =>
      cases hm
      exact h.congr rfl rfl rfl rfl rfl (fun hs => hs) fun hd => hd
    | start =>
      obtain ⟨-, hm⟩ := Option.ite_none_left_eq_some.mp hm
      cases hm
      obtain ⟨hn', hp⟩ := hn.start hposts
      exact .renew hn' fun _ => hp
    | pause =>
      obtain ⟨-, hm⟩ := Option.ite_none_left_eq_some.mp hm
      cases hm
      unfold Machine.pause
      split
      · exact h.congr rfl rfl rfl rfl rfl (fun hs => (by cases hs)) fun hd => hd
      · exact h.congr rfl rfl rfl rfl rfl (fun hs => hs) fun hd => hd
    | resume =>
      obtain ⟨-, hm⟩ := Option.ite_none_left_eq_some.mp hm
      cases hm
      unfold Machine.resume
      split
      · exact h.congr rfl rfl rfl rfl rfl (fun hs => hs) fun hd => hd
      · rename_i hp
        have hpaused : w.machine.pipe.state = .paused := not_not.mp hp
        obtain ⟨hn', hpend⟩ := Numbered.runNext
          (m := w.machine.setPipe (w.machine.pipe.setState .running))
          (hn.congr rfl rfl rfl (fun _ hf => hf) fun _ ht => ht) fun st hst => by
            refine hposts st ?_
            simp only [takes, hpaused, if_true]
            exact hst
        exact .renew hn' fun _ => hpend rfl
    | stop =>
      obtain ⟨-, hm⟩ := Option.ite_none_left_eq_some.mp hm
      cases hm
      unfold Machine.stop
      extract_lets m₁
      have h₁ : m₁.Numbered k := hn.note rfl fun _ => rfl
      split
      · rename_i hidle
        refine ⟨⟨k, h₁⟩, fun _ hs => ?_⟩
        rw [hidle] at hs
        cases hs
      · exact ⟨⟨k, rfl, h₁.results, h₁.taken, h₁.frames, h₁.tasks⟩, fun _ hs => (by cases hs)⟩
    | finish r =>
      obtain ⟨-, hm⟩ := Option.ite_none_left_eq_some.mp hm
      cases hm
      obtain ⟨hn', hp⟩ := hn.finish r fun hs herr st hst => by
        refine hposts st ?_
        simp only [takes]
        rw [if_pos ⟨hs, herr⟩]
        exact hst
      exact .renew hn' fun _ => hp
    | exec j =>
      obtain ⟨t, ht, rfl⟩ := Option.map_eq_some_iff.mp hm
      exact h.exec ht
    | ret j v =>
      obtain ⟨fr, hfr, rfl⟩ := Option.map_eq_some_iff.mp hm
      exact h.returned hfr hposts

/-- **A pipeline that is `RUNNING` waits for something**, in every run that posts to live loops and in which
no step throws. -/
theorem not_stuck {as : List Act} (h : Runs (Guarded Posts Acts) create as w) : NotStuck w := by
  have hg : Going w := Runs.invariant (I := Going) (fun hi ha => hi.acts ha.1 ha.2) h going_create
  exact hg.notStuck

/-- A posted step, then one that answers `ACCEPT`. -/
theorem not_stuck_sample : ∃ w, Runs (Guarded Posts Acts) create
    [.act (.add ⟨true, some 0⟩), .act (.add ⟨true, none⟩), .act .start, .act (.exec 0),
      .act (.ret 0 (.value .none)), .act (.ret 0 (.result .accept))] w ∧ NotStuck w := by
  have hlive : ∀ {w : Watched}, w.machine.deadLoops = [] → ∀ a, Posts w (.act a) := fun hw a st _ l _ => by
    rw [hw]
    exact List.not_mem_nil
  have hrun : Runs (Guarded Posts Acts) create
      [.act (.add ⟨true, some 0⟩), .act (.add ⟨true, none⟩), .act .start, .act (.exec 0),
        .act (.ret 0 (.value .none)), .act (.ret 0 (.result .accept))] _ :=
    .cons ⟨hlive rfl _, rfl⟩ (.cons ⟨hlive rfl _, rfl⟩ (.cons ⟨hlive rfl _, rfl⟩ (.cons ⟨hlive rfl _, rfl⟩
      (.cons ⟨hlive rfl _, rfl⟩ (.cons ⟨hlive rfl _, rfl⟩ .nil)))))
  exact ⟨_, hrun, not_stuck hrun⟩

/-- The loop of the only step is gone before `start`. -/
theorem dropped_post : ¬ ∀ (as : List Act) (w : Watched), Runs Acts create as w → NotStuck w := by
  intro hall
  have hrun : Runs Acts create [.act (.add ⟨true, some 0⟩), .act (.killLoop 0), .act .start] _ :=
    .cons rfl (.cons rfl (.cons rfl .nil))
  rcases hall _ _ hrun rfl rfl rfl with ⟨t, ht, -⟩ | ⟨i, hi, -⟩
  · cases ht
  · cases hi

end Going

end Watched

end VersatileEngine
