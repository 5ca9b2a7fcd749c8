import VersatileEngine.Pipeline.Machine

/-!
# VersatileEngine.Pipeline.Order

Steps in turn.

* `Sequenced` — in the log, a step is taken from the queue when all steps before it have their
  results, no step is taken twice in a run, and `CMD_DONE` comes after all results.
* `InTurn`    — the condition on an action: `resume` finds no step outstanding, and a step that comes
  back with a result is the one the run waits for.

`runNext` leaves no trace of the step it has handed to a loop, or that has answered `ACCEPT`, so
`resume` goes on to the next one; and `handleResult` takes every result for that of the outstanding
step. `sequenced_runs` is the run theorem, `resume_overtakes` the smallest run that goes wrong.
-/

namespace VersatileEngine

/-- The property: a step is taken when the steps before it have their results, and once in a run;
`CMD_DONE` comes when all steps have theirs. -/
def Sequenced : List Event → Prop
  | [] => True
  | e :: log =>
    (∀ i, e.taken = some i →
      (∀ j, j < i → hasResult log j = true) ∧ ∀ e' ∈ thisRun log, e'.taken ≠ some i) ∧
    (∀ r, e = .signal .cmdDone r → ∀ i, i < stepsOf log → hasResult log i = true) ∧ Sequenced log

/-- Events that neither begin a run nor take a step. -/
def Event.isPlain : Event → Bool
  | start _ => false
  | took _ => false
  | _ => true

section Log

variable {e : Event} (log : List Event)

theorem hasResult_cons (h : e.isStart = false) {i : Nat} (hr : hasResult log i = true) :
    hasResult (e :: log) i = true := by
  rw [hasResult, thisRun_cons _ _ h, List.any_cons, Bool.or_eq_true_iff]
  exact .inr hr

theorem hasResult_delivered (i : Nat) : hasResult (.delivered i :: log) i = true := by
  simp [hasResult, Event.isDelivered]

theorem stepsOf_cons (h : e.isStart = false) : stepsOf (e :: log) = stepsOf log := by
  cases e <;> first | rfl | cases h

theorem isStart_of_isPlain (h : e.isPlain = true) : e.isStart = false := by
  cases e <;> first | rfl | cases h

theorem taken_of_isPlain (h : e.isPlain = true) : e.taken = none := by
  cases e <;> first | rfl | cases h

theorem lastTaken_plain (h : e.isPlain = true) : lastTaken (e :: log) = lastTaken log := by
  rw [lastTaken, thisRun_cons _ _ (isStart_of_isPlain h), List.findSome?_cons, taken_of_isPlain h]
  rfl

end Log

namespace Machine

/-- The run waits for this step. -/
def AwaitedFrame (m : Machine) (fr : Frame) : Prop :=
  fr.run = m.run ∧ awaited m.log = some fr.index

/-- A result would move the pipeline on: it is `RUNNING`, or, for a posted step, it is `PAUSED` with
nothing left to take. -/
def MovesOn (m : Machine) (posted : Bool) : Prop :=
  m.pipe.state = .running ∨ posted = true ∧ m.pipe.state = .paused ∧ m.pipe.queue = []

/-- `resume` finds no step outstanding. A step that comes back to a pipeline that would move on fails,
or brings the result that the run waits for; only an inline step may answer `ACCEPT`. -/
def InTurn (m : Machine) : Action → Prop
  | .resume => m.pipe.state = .paused → awaited m.log = none
  | .ret k v => ∀ fr, m.frames[k]? = some fr → m.deleted = false → m.MovesOn fr.posted →
      (resultFromStepReturn v).isError = false →
      (fr.posted = false ∧ (resultFromStepReturn v).isAccepted = true) ∨
        ((resultFromStepReturn v).isAccepted = false ∧ m.AwaitedFrame fr)
  | _ => True

/-- The first `k` steps have been taken, and all of them but the last are known to have their
results. -/
structure Placed (m : Machine) (k : Nat) : Prop where
  queue : m.pipe.queue.map Prod.snd = List.range' k (stepsOf m.log - k)
  le : k ≤ stepsOf m.log
  taken : ∀ e ∈ thisRun m.log, ∀ j, e.taken = some j → j < k
  results : ∀ j, j + 1 < k → hasResult m.log j = true
  last : 0 < k → lastTaken m.log = some (k - 1)

/-- The invariant: the order so far, and the place in a run that goes on. -/
structure Turn (m : Machine) : Prop where
  sequenced : Sequenced m.log
  placed : m.pipe.active = true → ∃ k, m.Placed k

/-- No step is outstanding. -/
def Clear (m : Machine) : Prop := ∀ k, m.Placed k → ∀ j, j < k → hasResult m.log j = true

section Turn

variable {m m' : Machine} {k : Nat}

theorem turn_create : Turn create := ⟨trivial, fun h => (by cases h)⟩

theorem Placed.congr (h : m.Placed k) (hl : m'.log = m.log) (hq : m'.pipe.queue = m.pipe.queue) :
    m'.Placed k := by
  refine ⟨?_, ?_, ?_, ?_, ?_⟩ <;> rw [hl]
  · rw [hq]; exact h.queue
  · exact h.le
  · exact h.taken
  · exact h.results
  · exact h.last

theorem Placed.note (h : m.Placed k) {e : Event} (he : e.isPlain = true) : (m.note e).Placed k := by
  refine ⟨?_, ?_, fun e' he' j hj => ?_, fun j hj => ?_, fun hk => ?_⟩
  · rw [note_log, stepsOf_cons _ (isStart_of_isPlain he)]; exact h.queue
  · rw [note_log, stepsOf_cons _ (isStart_of_isPlain he)]; exact h.le
  · rw [note_log, thisRun_cons _ _ (isStart_of_isPlain he)] at he'
    rcases List.mem_cons.mp he' with rfl | he'
    · rw [taken_of_isPlain he] at hj; cases hj
    · exact h.taken e' he' j hj
  · exact hasResult_cons _ (isStart_of_isPlain he) (h.results j hj)
  · rw [note_log, lastTaken_plain _ he]; exact h.last hk

theorem Turn.congr (h : Turn m) (hl : m'.log = m.log) (hq : m'.pipe.queue = m.pipe.queue)
    (ha : m'.pipe.active = true → m.pipe.active = true) : Turn m' := by
  refine ⟨hl ▸ h.sequenced, fun h' => ?_⟩
  obtain ⟨k, hk⟩ := h.placed (ha h')
  exact ⟨k, hk.congr hl hq⟩

theorem sequenced_plain {e : Event} {log : List Event} (h : Sequenced log) (he : e.isPlain = true)
    (hd : ∀ r, e ≠ .signal .cmdDone r) : Sequenced (e :: log) := by
  refine ⟨fun i hi => ?_, fun r hr => absurd hr (hd r), h⟩
  rw [taken_of_isPlain he] at hi
  cases hi

theorem Turn.note (h : Turn m) {e : Event} (he : e.isPlain = true)
    (hd : ∀ r, e ≠ .signal .cmdDone r) : Turn (m.note e) := by
  refine ⟨sequenced_plain h.sequenced he hd, fun ha => ?_⟩
  obtain ⟨k, hk⟩ := h.placed ha
  exact ⟨k, hk.note he⟩

/-- A machine whose pipeline has come to its end keeps only the order so far. -/
theorem turn_complete (h : Sequenced m.log) (s : PipelineSignal) (st : PipelineState) (r : Result)
    (hst : st ≠ .running) (hst' : st ≠ .paused)
    (hd : s = .cmdDone → ∀ i, i < stepsOf m.log → hasResult m.log i = true) :
    Turn (m.complete st s r) := by
  unfold complete
  extract_lets out m₁
  have hseq : Sequenced m₁.log := by
    refine ⟨fun i hi => (by cases hi), fun r hr => hd ?_, h⟩
    exact (Event.signal.inj hr).1
  have hover : m₁.pipe.active = false := by
    cases st <;> first | rfl | exact absurd rfl hst | exact absurd rfl hst'
  split
  · refine ⟨sequenced_plain hseq rfl (fun r hr => (by cases hr)), fun ha => ?_⟩
    rw [show ((m₁.setPipe (m₁.pipe.setHandler false)).note (.handled out)).pipe.active =
      m₁.pipe.active from rfl, hover] at ha
    cases ha
  · refine ⟨hseq, fun ha => ?_⟩
    rw [hover] at ha
    cases ha

theorem turn_fail (h : Turn m) (r : Result) : Turn (m.complete .errored .cmdError r) :=
  turn_complete h.sequenced _ _ r (by decide) (by decide) fun h => (by cases h)

/-- An empty queue: all steps have been taken. -/
theorem Placed.all (h : m.Placed k) (hq : m.pipe.queue = []) : k = stepsOf m.log := by
  have hlen := congrArg List.length h.queue
  rw [hq] at hlen
  simp only [List.map_nil, List.length_nil, List.length_range'] at hlen
  have := h.le
  omega

/-- Taking the next step. -/
theorem Placed.take (h : m.Placed k) {st : VersatileEngine.Step} {i : Nat}
    {queue : List (VersatileEngine.Step × Nat)} (hq : m.pipe.queue = (st, i) :: queue)
    (hr : ∀ j, j < k → hasResult m.log j = true) :
    i = k ∧ ((m.setPipe (m.pipe.setQueue queue)).note (.took i)).Placed (k + 1) := by
  have hqueue := h.queue
  obtain ⟨n, hn⟩ : ∃ n, stepsOf m.log - k = n + 1 := by
    refine ⟨stepsOf m.log - k - 1, ?_⟩
    have hlen := congrArg List.length hqueue
    rw [hq] at hlen
    simp only [List.map_cons, List.length_cons, List.length_range'] at hlen
    omega
  rw [hq, hn, List.range'_succ, List.map_cons, List.cons.injEq] at hqueue
  obtain ⟨hi, hqueue⟩ := hqueue
  simp only at hi
  subst hi
  refine ⟨rfl, ?_, ?_, fun e he j hj => ?_, fun j hj => ?_, fun _ => ?_⟩
  · rw [note_log, stepsOf_cons _ rfl, setPipe_log, show stepsOf m.log - (i + 1) = n by omega]
    exact hqueue
  · rw [note_log, stepsOf_cons _ rfl, setPipe_log]
    omega
  · rw [note_log, thisRun_took, setPipe_log] at he
    rcases List.mem_cons.mp he with rfl | he
    · cases hj
      omega
    · have := h.taken e he j hj
      omega
  · exact hasResult_cons _ rfl (hr j (by omega))
  · rw [note_log, lastTaken, thisRun_took]
    rfl

/-- **`runNext` with no step outstanding.** -/
theorem turn_runNext (h : Turn m) (hclear : m.Clear) : Turn m.runNext := by
  unfold runNext
  split
  · exact h
  · rename_i hrun
    obtain ⟨k, hk⟩ := h.placed (Pipeline.active_iff.mpr (.inl (not_not.mp hrun)))
    split
    · rename_i hq
      refine turn_complete h.sequenced _ _ _ (by decide) (by decide) fun _ i hi => ?_
      exact hclear k hk i (by rw [hk.all hq]; exact hi)
    · rename_i st i queue hq
      extract_lets m₁
      obtain ⟨rfl, hplaced⟩ := hk.take hq (hclear k hk)
      have hseq : Sequenced m₁.log := by
        refine ⟨fun j hj => ?_, fun r hr => (by cases hr), h.sequenced⟩
        cases hj
        refine ⟨hclear i hk, fun e he he' => ?_⟩
        exact Nat.lt_irrefl _ (hk.taken e he i he')
      have h₁ : Turn m₁ := ⟨hseq, fun _ => ⟨_, hplaced⟩⟩
      split
      · exact h₁.congr (by simp) (by simp) (by simp)
      · split
        · exact (h₁.note (e := .invoked i) rfl (fun r hr => (by cases hr))).congr rfl rfl id
        · exact turn_fail h₁ _

/-- Nothing awaited is nothing outstanding. -/
theorem clear_of_awaited (h : awaited m.log = none) : m.Clear := by
  intro k hk j hj
  by_cases hlast : j + 1 < k
  · exact hk.results j hlast
  · rw [awaited, hk.last (by omega)] at h
    have hjk : k - 1 = j := by omega
    rw [hjk] at h
    simpa using h

/-- With its result in, the awaited step is no longer outstanding. -/
theorem clear_delivered {i : Nat} (h : awaited m.log = some i) : (m.note (.delivered i)).Clear := by
  intro k hk j hj
  by_cases hlast : j + 1 < k
  · exact hk.results j hlast
  · have htaken := hk.last (by omega)
    rw [note_log, lastTaken_plain _ rfl] at htaken
    rw [awaited, htaken] at h
    have hjk : k - 1 = j := by omega
    have hi : i = j := by
      rw [hjk] at h
      exact ((Option.filter_eq_some_iff.mp h).1 ▸ rfl : some i = some j) |> Option.some.inj
    rw [hi]
    exact hasResult_delivered m.log j

theorem Clear.congr (h : m.Clear) (hl : m'.log = m.log) (hq : m'.pipe.queue = m.pipe.queue) :
    m'.Clear := fun k hk j hj => by
  rw [hl]
  exact h k (hk.congr hl.symm hq.symm) j hj

theorem turn_handleResult (h : Turn m) (r : Result)
    (hclear : m.MovesOn true → r.isError = false → m.Clear) : Turn (m.handleResult r) := by
  unfold handleResult
  split
  · exact h
  · rename_i hact
    have ha : m.pipe.active = true := by simpa using hact
    split
    · exact turn_fail h r
    · rename_i herr
      have herr' : r.isError = false := by simpa using herr
      extract_lets m₁
      have h₁ : Turn m₁ := h.congr rfl rfl id
      split
      · rename_i hq
        have hq' : m.pipe.queue = [] := List.isEmpty_iff.mp hq
        obtain ⟨k, hk⟩ := h.placed ha
        refine turn_complete h₁.sequenced _ _ _ (by decide) (by decide) fun _ i hi => ?_
        have hmoves : m.MovesOn true := by
          rcases Pipeline.active_iff.mp ha with hr | hp
          · exact .inl hr
          · exact .inr ⟨rfl, hp, hq'⟩
        exact hclear hmoves herr' k hk i (by rw [hk.all hq']; exact hi)
      · split
        · exact h₁
        · rename_i hp
          have hr : m.pipe.state = .running := (Pipeline.active_iff.mp ha).resolve_right hp
          exact turn_runNext (h₁.congr rfl rfl fun _ => ha) ((hclear (.inl hr) herr').congr rfl rfl)

theorem Turn.deliver (h : Turn m) (i run : Nat) (r : Result) : Turn (m.deliver i run r) := by
  unfold Machine.deliver
  split
  · exact h.note rfl (fun r hr => (by cases hr))
  · exact h

/-- The awaited frame delivers. -/
theorem clear_deliver {fr : Frame} {r : Result} (hr : r.isAccepted = false) (h : m.AwaitedFrame fr) :
    (m.deliver fr.index fr.run r).Clear := by
  rw [Machine.deliver, if_pos ⟨h.1, hr⟩]
  exact clear_delivered h.2

theorem deliver_pipe (m : Machine) (i run : Nat) (r : Result) : (m.deliver i run r).pipe = m.pipe := by
  unfold Machine.deliver
  split <;> rfl

theorem turn_callback (h : Turn m) (i run : Nat) (r : Result)
    (hc : m.deleted = false → m.MovesOn true → r.isError = false → (m.deliver i run r).Clear) :
    Turn (m.callback i run r) := by
  unfold callback
  split
  · exact h.note rfl (fun r hr => (by cases hr))
  · rename_i hdel
    refine Turn.note (turn_handleResult (h.deliver i run r) r fun hm herr => ?_) rfl
      (fun r hr => (by cases hr))
    rw [MovesOn, deliver_pipe] at hm
    exact hc (by simpa using hdel) hm herr

theorem turn_start (h : Turn m) : Turn m.start := by
  unfold start
  extract_lets m₁
  have hplaced : m₁.Placed 0 := by
    refine ⟨?_, Nat.zero_le _, fun e he => (by cases he), fun j hj => (by omega), fun h => (by omega)⟩
    simp [m₁, Pipeline.started, stepsOf, List.zipIdx_map_snd]
  have h₁ : Turn m₁ := by
    refine ⟨⟨fun i hi => (by cases hi), fun r hr => (by cases hr), h.sequenced⟩, fun _ => ⟨0, hplaced⟩⟩
  split
  · rename_i hq
    refine turn_complete h₁.sequenced _ _ _ (by decide) (by decide) fun _ i hi => ?_
    rw [← hplaced.all (by simpa using hq)] at hi
    omega
  · refine turn_runNext h₁ fun k hk j hj => ?_
    by_contra
    have := hk.last (by omega)
    cases this

theorem turn_finish (h : Turn m) (r : Result) : Turn (m.finish r) := by
  unfold finish
  have h₁ : Turn (m.note (.finish r)) := h.note rfl (fun r hr => (by cases hr))
  refine turn_handleResult ?_ r fun _ _ => ?_
  · unfold deliverAwaited
    split
    · exact h₁.note rfl (fun r hr => (by cases hr))
    · exact h₁
  · unfold deliverAwaited
    split
    · rename_i i hi
      exact clear_delivered hi
    · rename_i hnone
      exact clear_of_awaited hnone

theorem turn_loopReturn (h : Turn m) (r : Result)
    (hc : m.pipe.state = .running → r.isError = false → m.Clear) : Turn (m.loopReturn r) := by
  unfold loopReturn
  split
  · exact turn_fail h r
  · rename_i herr
    have h₁ : Turn (m.setPipe (m.pipe.advance r)) := h.congr rfl rfl id
    by_cases hrun : m.pipe.state = .running
    · exact turn_runNext h₁ ((hc hrun (by simpa using herr)).congr rfl rfl)
    · rw [runNext, if_pos (show (m.setPipe (m.pipe.advance r)).pipe.state ≠ .running from hrun)]
      exact h₁

/-- **One action**, under the condition. -/
theorem Turn.acts {a : Action} (h : Turn m) (hc : InTurn m a) (ha : Acts m a m') : Turn m' := by
  cases a with
  | add | setResultHandler | destroy =>
    obtain ⟨-, hm⟩ := Option.ite_none_left_eq_some.mp ha
    cases hm
    exact h.congr rfl rfl id
  | context | killLoop => cases ha; exact h.congr rfl rfl id
  | start =>
    obtain ⟨-, hm⟩ := Option.ite_none_left_eq_some.mp ha
    cases hm
    exact turn_start h
  | pause =>
    obtain ⟨-, hm⟩ := Option.ite_none_left_eq_some.mp ha
    cases hm
    unfold pause
    split
    · rename_i hr
      exact h.congr rfl rfl fun _ => Pipeline.active_iff.mpr (.inl hr)
    · exact h
  | resume =>
    obtain ⟨-, hm⟩ := Option.ite_none_left_eq_some.mp ha
    cases hm
    unfold resume
    split
    · exact h
    · rename_i hp
      have hp' : m.pipe.state = .paused := not_not.mp hp
      refine turn_runNext (h.congr rfl rfl fun _ => Pipeline.active_iff.mpr (.inr hp')) ?_
      exact (clear_of_awaited (hc hp')).congr rfl rfl
  | stop =>
    obtain ⟨-, hm⟩ := Option.ite_none_left_eq_some.mp ha
    cases hm
    have h₁ : Turn (m.note .stop) := h.note rfl (fun r hr => (by cases hr))
    unfold stop
    extract_lets m₁
    split
    · exact h₁
    · exact ⟨h₁.sequenced, fun ha => (by cases ha)⟩
  | finish r =>
    obtain ⟨-, hm⟩ := Option.ite_none_left_eq_some.mp ha
    cases hm
    exact turn_finish h r
  | exec k =>
    obtain ⟨t, -, rfl⟩ := Option.map_eq_some_iff.mp ha
    have h₁ : Turn (m.dropTask k) := h.congr rfl rfl id
    unfold runTask
    split
    · exact h₁
    · split
      · exact turn_callback h₁ _ _ _ fun _ _ herr => (by cases herr)
      · exact (h₁.note (e := .invoked t.index) rfl (fun r hr => (by cases hr))).congr rfl rfl id
  | ret k v =>
    obtain ⟨fr, hfr, rfl⟩ := Option.map_eq_some_iff.mp ha
    have h₁ : Turn (m.dropFrame k) := h.congr rfl rfl id
    unfold returned
    extract_lets r
    split
    · rename_i hpost
      refine turn_callback h₁ _ _ _ fun hdel hmoves herr => ?_
      rcases hc fr hfr hdel (by rw [hpost]; exact hmoves) herr with ⟨hinl, -⟩ | ⟨hacc, haw⟩
      · rw [hpost] at hinl; cases hinl
      · exact clear_deliver (m := m.dropFrame k) hacc haw
    · split
      · exact h₁
      · rename_i hnacc
        split
        · exact h₁.note rfl (fun r hr => (by cases hr))
        · rename_i hdel
          refine turn_loopReturn (h₁.deliver _ _ _) r fun hrun herr => ?_
          rw [deliver_pipe] at hrun
          rcases hc fr hfr (by simpa using hdel) (.inl hrun) herr with ⟨-, hacc⟩ | ⟨hacc, haw⟩
          · exact absurd hacc hnacc
          · exact clear_deliver (m := m.dropFrame k) hacc haw

end Turn

/-- **Steps in turn**: in every run in which no step is overtaken by `resume` and every step comes
back in its turn. -/
theorem sequenced_runs {as : List Action} {m : Machine}
    (h : Runs (Guarded InTurn Acts) create as m) : Sequenced m.log :=
  (Runs.invariant (I := Turn) (fun hi ha => hi.acts ha.1 ha.2) h turn_create).sequenced

/-- A posted step, then an inline one, paused and resumed between the two. -/
theorem sequenced_runs_sample : ∃ m, create.script [.add ⟨true, some 0⟩, .add ⟨true, none⟩, .start,
    .exec 0, .pause, .ret 0 (.result (.ok .none)), .resume] = some m ∧ Sequenced m.log := by
  have hrun : Runs (Guarded InTurn Acts) create [.add ⟨true, some 0⟩, .add ⟨true, none⟩, .start,
      .exec 0, .pause, .ret 0 (.result (.ok .none)), .resume] _ :=
    .cons ⟨trivial, rfl⟩ (.cons ⟨trivial, rfl⟩ (.cons ⟨trivial, rfl⟩ (.cons ⟨trivial, rfl⟩
      (.cons ⟨trivial, rfl⟩ (.cons ⟨fun fr hfr _ _ _ => .inr ⟨rfl, Option.some.inj hfr ▸ ⟨rfl, rfl⟩⟩, rfl⟩
        (.cons ⟨fun _ => rfl, rfl⟩ .nil))))))
  exact ⟨_, rfl, sequenced_runs hrun⟩

/-- Pause and resume start the second step before the loop has run the first. -/
theorem resume_overtakes : ¬ ∀ (as : List Action) (m : Machine), Runs Acts create as m →
    Sequenced m.log := by
  intro h
  have hrun : create.script [.add ⟨true, some 0⟩, .add ⟨true, some 0⟩, .start, .pause, .resume] =
      some _ := rfl
  obtain ⟨htook, -⟩ := h _ _ (runs_script hrun)
  cases (htook 1 rfl).1 0 (by decide)

end Machine

end VersatileEngine
