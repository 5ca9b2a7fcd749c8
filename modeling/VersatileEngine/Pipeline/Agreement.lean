import VersatileEngine.Pipeline.Machine

/-!
# VersatileEngine.Pipeline.Agreement

Inline steps and posted steps, compared.

* `drive`   — a pipeline left alone: its loops run what is posted to them, steps do what `behave`
  says, and `finish` is called whenever the pipeline is suspended and there is a result to call it
  with.
* `report`  — what should come of a list of steps: the steps invoked, the calls of `finish`, the
  signal, and the final state and result. It is the purpose of a pipeline in its own terms; whether
  `ACCEPT` suspends is a parameter.
* `drive_report`      — the machine does what `report` says, with `ACCEPT` suspending inline steps only.
* `modes_agree`       — the mixed mode agrees with the inline one exactly when no posted step that the
  inline run reaches answers `ACCEPT`.
-/

namespace VersatileEngine

/-- What an observer of a run sees. -/
def Event.observed : Event → Bool
  | invoked _ => true
  | finish _ => true
  | signal _ _ => true
  | _ => false

/-- The observed events in order, the final state and the final result. -/
structure Outcome where
  seen : List Event
  state : PipelineState
  lastResult : Result

namespace Outcome

def after (es : List Event) (o : Outcome) : Outcome := { o with seen := es ++ o.seen }

theorem after_after (es es' : List Event) (o : Outcome) :
    (o.after es').after es = o.after (es ++ es') := by
  simp [after]

theorem after_inj {es : List Event} {o o' : Outcome} : o.after es = o'.after es ↔ o = o' := by
  refine ⟨fun h => ?_, fun h => h ▸ rfl⟩
  obtain ⟨seen, state, last⟩ := o
  obtain ⟨seen', state', last'⟩ := o'
  simp only [after, Outcome.mk.injEq, List.append_cancel_left_eq] at h
  rw [h.1, h.2.1, h.2.2]

def failed (r : Result) : Outcome := ⟨[.signal .cmdError r], .errored, r⟩

end Outcome

section Report

variable {γ : Type} (behave : Nat → γ → StepReturn × γ) (view : γ → Option Var)

/-- The result of a pipeline that is done: with the content of `_result`, when there is one. -/
def doneResult (c : γ) (r : Result) : Result :=
  match view c with
  | some v => r.setContent v
  | none => r

/-- What comes of the steps left, in the context `c`, with the results `fs` that `finish` will be
called with, after the last result `last`. -/
def report (suspends : Step → Bool) : List (Step × Nat) → γ → List Result → Result → Outcome
  | [], c, _, last =>
    ⟨[.signal .cmdDone (doneResult view c last)], .done, doneResult view c last⟩
  | (s, i) :: rest, c, fs, last =>
    if s.callable = false then .failed .noCallable
    else
      let c' := (behave i c).2
      let r := resultFromStepReturn (behave i c).1
      Outcome.after [.invoked i] <|
        if r.isError then .failed r
        else if r.isAccepted && suspends s then
          match fs with
          | [] => ⟨[], .running, last⟩
          | f :: fs => Outcome.after [.finish f] <|
              if f.isError then .failed f else report suspends rest c' fs f
        else report suspends rest c' fs r

/-- The steps that the inline run invokes, with what they answer. -/
def reached : List (Step × Nat) → γ → List Result → List (Step × Result)
  | [], _, _ => []
  | (s, i) :: rest, c, fs =>
    if s.callable = false then []
    else
      let c' := (behave i c).2
      let r := resultFromStepReturn (behave i c).1
      (s, r) ::
        if r.isError then []
        else if r.isAccepted then
          match fs with
          | [] => []
          | f :: fs => if f.isError then [] else reached rest c' fs
        else reached rest c' fs

/-- A report begins with an invocation or a signal. -/
theorem report_head (suspends : Step → Bool) (rest : List (Step × Nat)) (c : γ) (fs : List Result)
    (last : Result) : ∃ e es, (report behave view suspends rest c fs last).seen = e :: es ∧
      ∀ f, e ≠ .finish f := by
  cases rest with
  | nil => exact ⟨_, _, rfl, fun f h => (by cases h)⟩
  | cons x rest =>
    obtain ⟨s, i⟩ := x
    rw [report]
    split
    · exact ⟨_, _, rfl, fun f h => (by cases h)⟩
    · exact ⟨_, _, rfl, fun f h => (by cases h)⟩

/-- **Suspending posted steps or not makes no difference exactly when none answers `ACCEPT`.** -/
theorem report_agree (rest : List (Step × Nat)) : ∀ (c : γ) (fs : List Result) (last : Result),
    report behave view (fun s => s.loop.isNone) rest c fs last =
        report behave view (fun _ => true) rest c fs last ↔
      ∀ p ∈ reached behave rest c fs, p.1.loop ≠ none → p.2.isAccepted = false := by
  induction rest with
  | nil => intro c fs last; simp [report, reached]
  | cons x rest ih =>
    obtain ⟨s, i⟩ := x
    intro c fs last
    by_cases hcall : s.callable = false
    · simp [report, reached, hcall]
    rw [report, report, reached, if_neg hcall, if_neg hcall, if_neg hcall]
    extract_lets c' r
    rw [Outcome.after_inj, List.forall_mem_cons]
    by_cases herr : r.isError = true
    · simp [herr, Result.not_isAccepted_of_isError herr]
    by_cases hacc : r.isAccepted = true
    · cases hloop : s.loop with
      | none =>
        -- an inline step: both suspend
        cases fs with
        | nil => simp [herr, hacc]
        | cons f fs =>
          by_cases hf : f.isError = true
          · simp [herr, hacc, hf]
          · simpa [herr, hacc, hf, Outcome.after_inj] using ih c' fs f
      | some l =>
        -- a posted step: one goes on, the other waits for `finish`
        obtain ⟨e, es, hseen, he⟩ := report_head behave view (fun s => s.loop.isNone) rest c' fs r
        refine ⟨fun heq => ?_, fun h => ?_⟩
        · have hsame := congrArg Outcome.seen heq
          cases fs with
          | nil => simp [herr, hacc, hseen] at hsame
          | cons f fs =>
            simp only [herr, Bool.false_eq_true, if_false, hacc, Option.isNone_some, Bool.and_false,
              hseen, Bool.and_true, if_true, Outcome.after, List.singleton_append,
              List.cons.injEq] at hsame
            exact absurd hsame.1 (he f)
        · have := h.1 (by simp)
          rw [hacc] at this
          cases this
    · simpa [herr, hacc] using ih c' fs r

end Report

namespace Machine

/-- The observed events, oldest first. -/
def seen (m : Machine) : List Event := (m.log.filter Event.observed).reverse

def outcomeOf (m : Machine) : Outcome := ⟨m.seen, m.pipe.state, m.pipe.lastResult⟩

section Drive

variable {γ : Type} (behave : Nat → γ → StepReturn × γ) (view : γ → Option Var)

/-- A pipeline with the state of the context and the results that `finish` will be called with. -/
structure World (γ : Type) where
  machine : Machine
  context : γ
  finishes : List Result

/-- What happens next: a step in progress returns, or a loop begins a posted task, or a suspended
pipeline is finished. -/
def tick (w : World γ) : Option (World γ) :=
  match w.machine.frames with
  | fr :: _ =>
    let r := behave fr.index w.context
    (w.machine.script [.context (view r.2), .ret 0 r.1]).map fun m => ⟨m, r.2, w.finishes⟩
  | [] =>
    match w.machine.tasks with
    | _ :: _ => (w.machine.step (.exec 0)).map fun m => { w with machine := m }
    | [] =>
      match w.machine.pipe.state, w.finishes with
      | .running, f :: fs =>
        (w.machine.step (.finish f)).map fun m => { w with machine := m, finishes := fs }
      | _, _ => none

def drive : Nat → World γ → World γ
  | 0, w => w
  | k + 1, w =>
    match tick behave view w with
    | none => w
    | some w => drive k w

/-- A pipeline with these steps, started in the context `c`. -/
def launch (steps : List VersatileEngine.Step) (c : γ) (fs : List Result) : World γ :=
  ⟨({ create with pipe := { Pipeline.create with steps := steps }, resultNode := view c }).start, c, fs⟩

/-- The outcome of a pipeline left alone for `k` ticks. -/
def outcomeAfter (k : Nat) (steps : List VersatileEngine.Step) (c : γ) (fs : List Result) : Outcome :=
  (drive behave view k (launch view steps c fs)).machine.outcomeOf

end Drive

/-! ## The machine follows the report -/

section Seen

variable (m : Machine) {e : Event}

theorem seen_observed (h : e.observed = true) : (m.note e).seen = m.seen ++ [e] := by
  simp [seen, h]

theorem seen_hidden (h : e.observed = false) : (m.note e).seen = m.seen := by
  simp [seen, h]

theorem seen_congr {m m' : Machine} (h : m'.log = m.log) : m'.seen = m.seen := by
  rw [seen, h, seen]

end Seen

/-- Two machines that differ in what cannot be observed only. -/
structure Alike (a b : Machine) : Prop where
  pipe : a.pipe = b.pipe
  frames : a.frames = b.frames
  tasks : a.tasks = b.tasks
  deleted : a.deleted = b.deleted
  resultNode : a.resultNode = b.resultNode
  deadLoops : a.deadLoops = b.deadLoops
  seen : a.seen = b.seen

theorem Alike.refl (m : Machine) : Alike m m := ⟨rfl, rfl, rfl, rfl, rfl, rfl, rfl⟩

theorem Alike.hidden (m : Machine) {e : Event} (h : e.observed = false) : Alike (m.note e) m :=
  ⟨rfl, rfl, rfl, rfl, rfl, rfl, seen_hidden m h⟩

/-- A running pipeline between two steps: `rest` is left, and no step is in progress or posted. -/
structure Ready (m : Machine) (result : Option Var) (rest : List (VersatileEngine.Step × Nat))
    (last : Result) : Prop where
  state : m.pipe.state = .running
  queue : m.pipe.queue = rest
  last : m.pipe.lastResult = last
  frames : m.frames = []
  tasks : m.tasks = []
  deleted : m.deleted = false
  resultNode : m.resultNode = result
  deadLoops : m.deadLoops = []

section Ready

variable {m n : Machine} {v : Option Var} {rest : List (VersatileEngine.Step × Nat)} {last : Result}

theorem Ready.hidden (h : m.Ready v rest last) {e : Event} : (m.note e).Ready v rest last :=
  ⟨h.state, h.queue, h.last, h.frames, h.tasks, h.deleted, h.resultNode, h.deadLoops⟩

theorem Ready.advance (h : m.Ready v rest last) (r : Result) :
    (m.setPipe (m.pipe.advance r)).Ready v rest r :=
  ⟨h.state, h.queue, rfl, h.frames, h.tasks, h.deleted, h.resultNode, h.deadLoops⟩

theorem Ready.deliver (h : m.Ready v rest last) (i run : Nat) (r : Result) :
    (m.deliver i run r).Ready v rest last ∧ (m.deliver i run r).seen = m.seen := by
  unfold Machine.deliver
  split
  · exact ⟨h.hidden, seen_hidden m rfl⟩
  · exact ⟨h, rfl⟩

theorem Ready.deliverAwaited (h : m.Ready v rest last) :
    m.deliverAwaited.Ready v rest last ∧ m.deliverAwaited.seen = m.seen := by
  unfold Machine.deliverAwaited
  split
  · exact ⟨h.hidden, seen_hidden m rfl⟩
  · exact ⟨h, rfl⟩

/-- While the pipeline is running a result that a loop or `finish` hands in is treated like the
return of an inline step, but for `ACCEPT`. -/
theorem handleResult_running (h : m.pipe.state = .running) (r : Result) :
    m.handleResult r = m.loopReturn r := by
  have ha : (!m.pipe.active) = false := by simp [Pipeline.active, h]
  have hset : (m.pipe.advance r).setState .running = m.pipe.advance r := by
    rw [← h]
    rfl
  have hne : ¬ (m.pipe.advance r).state ≠ .running := fun hn => hn h
  simp only [handleResult, loopReturn, ha, Bool.false_eq_true, if_false, setPipe_pipe]
  by_cases herr : r.isError = true
  · simp only [herr, if_true]
  · have hp : ¬ (m.pipe.advance r).state = .paused := fun hp => by
      rw [show (m.pipe.advance r).state = m.pipe.state from rfl, h] at hp
      cases hp
    simp only [herr, Bool.false_eq_true, if_false, hp, hset]
    by_cases hq : (m.pipe.advance r).queue = []
    · rw [if_pos (List.isEmpty_iff.mpr hq), runNext, setPipe_pipe, if_neg hne, hq]
      rfl
    · rw [if_neg fun he => hq (List.isEmpty_iff.mp he)]
      rfl

theorem complete_facts (m : Machine) (s : PipelineState) (sig : PipelineSignal) (r : Result) :
    (m.complete s sig r).outcomeOf =
        ⟨m.seen ++ [.signal sig (m.outcome s sig r)], s, m.outcome s sig r⟩ ∧
      (m.complete s sig r).frames = m.frames ∧ (m.complete s sig r).tasks = m.tasks := by
  unfold complete outcomeOf
  extract_lets out m₁
  have hseen : m₁.seen = m.seen ++ [.signal sig out] := seen_observed _ rfl
  split
  · have hset : (m₁.setPipe (m₁.pipe.setHandler false)).seen = m₁.seen := seen_congr rfl
    refine ⟨?_, rfl, rfl⟩
    rw [seen_hidden _ rfl, hset, hseen]
    rfl
  · refine ⟨?_, rfl, rfl⟩
    rw [hseen]
    rfl

end Ready

section Drive

variable {γ : Type} (behave : Nat → γ → StepReturn × γ) (view : γ → Option Var)

theorem drive_halt {w : World γ} (h : tick behave view w = none) (k : Nat) :
    drive behave view k w = w := by
  cases k with
  | zero => rfl
  | succ k => simp only [drive, h]

theorem drive_tick {w w' : World γ} (h : tick behave view w = some w') (k : Nat) :
    drive behave view (k + 1) w = drive behave view k w' := by
  simp only [drive, h]

variable {m n : Machine} {c c' : γ} {fs : List Result} {rest : List (VersatileEngine.Step × Nat)}
  {last : Result}

/-- A pipeline that has come to its end stays as it is. -/
theorem drive_complete (h : m.Ready (view c) rest last) (c' : γ) (fs : List Result)
    {s : PipelineState} (hs : s ≠ .running) (sig : PipelineSignal) (r : Result)
    (hn : Alike n (m.complete s sig r)) (k : Nat) :
    (drive behave view k ⟨n, c', fs⟩).machine.outcomeOf =
      ⟨m.seen ++ [.signal sig (m.outcome s sig r)], s, m.outcome s sig r⟩ := by
  obtain ⟨hout, hframes, htasks⟩ := complete_facts m s sig r
  have hstate : n.pipe.state = s := by rw [hn.pipe]; exact congrArg Outcome.state hout
  have hsame : n.outcomeOf = (m.complete s sig r).outcomeOf := by
    rw [outcomeOf, hn.seen, hn.pipe]
    rfl
  rw [drive_halt, hsame, hout]
  rw [tick, hn.frames, hframes, h.frames, hn.tasks, htasks, h.tasks, hstate]
  cases s with
  | running => exact absurd rfl hs
  | idle | paused | done | errored => rfl

theorem drive_fail (h : m.Ready (view c) rest last) (c' : γ) (fs : List Result) (r : Result)
    (hn : Alike n (m.complete .errored .cmdError r)) (k : Nat) :
    (drive behave view k ⟨n, c', fs⟩).machine.outcomeOf = (Outcome.failed r).after m.seen := by
  rw [drive_complete behave view h c' fs (by decide) .cmdError r hn]
  rfl

/-- What is to be shown of the steps left, by induction on them. -/
def Follows (rest : List (VersatileEngine.Step × Nat)) : Prop :=
  ∀ (m n : Machine) (c : γ) (fs : List Result) (last : Result) (k : Nat),
    m.Ready (view c) rest last → Alike n m.runNext → 2 * rest.length ≤ k →
      (drive behave view k ⟨n, c, fs⟩).machine.outcomeOf =
        (report behave view (fun s => s.loop.isNone) rest c fs last).after m.seen

variable {behave view}

theorem Follows.loopReturn (ih : Follows behave view rest) (h : m.Ready (view c) rest last)
    (r : Result) (hn : Alike n (m.loopReturn r)) {k : Nat} (hk : 2 * rest.length ≤ k) :
    (drive behave view k ⟨n, c, fs⟩).machine.outcomeOf =
      (if r.isError then Outcome.failed r
        else report behave view (fun s => s.loop.isNone) rest c fs r).after m.seen := by
  rw [Machine.loopReturn] at hn
  by_cases herr : r.isError = true
  · rw [if_pos herr] at hn ⊢
    exact drive_fail behave view h c fs r hn k
  · rw [if_neg herr] at hn ⊢
    exact ih (m.setPipe (m.pipe.advance r)) n c fs r k (h.advance r) hn hk

/-- A suspended pipeline. -/
theorem Follows.suspended (ih : Follows behave view rest) (h : m.Ready (view c) rest last)
    {k : Nat} (hk : 2 * rest.length + 1 ≤ k) :
    (drive behave view k ⟨m, c, fs⟩).machine.outcomeOf =
      Outcome.after m.seen (match fs with
        | [] => ⟨[], .running, last⟩
        | f :: fs => Outcome.after [.finish f] <| if f.isError then Outcome.failed f
            else report behave view (fun s => s.loop.isNone) rest c fs f) := by
  cases fs with
  | nil =>
    rw [drive_halt]
    · simp [outcomeOf, Outcome.after, h.state, h.last]
    · rw [tick, h.frames, h.tasks, h.state]
  | cons f fs =>
    obtain ⟨k, rfl⟩ : ∃ k', k = k' + 1 := ⟨k - 1, by omega⟩
    have htick : tick behave view ⟨m, c, f :: fs⟩ = some ⟨m.finish f, c, fs⟩ := by
      rw [tick, h.frames, h.tasks, h.state]
      simp [step, h.deleted]
    obtain ⟨hready, hseen⟩ := (h.hidden (e := .finish f)).deliverAwaited
    rw [drive_tick behave view htick, finish, handleResult_running hready.state,
      ih.loopReturn hready f (Alike.refl _) (by omega), hseen, seen_observed _ rfl,
      Outcome.after_after]

/-- The step `fr` is in progress. -/
theorem Follows.returned (ih : Follows behave view rest) (h : m.Ready (view c) rest last)
    (fr : Frame) (hn : Alike n (m.invoke fr)) {k : Nat}
    (hk : 2 * rest.length + (if fr.posted then 1 else 2) ≤ k) :
    (drive behave view k ⟨n, c, fs⟩).machine.outcomeOf =
      Outcome.after (m.seen ++ [.invoked fr.index]) (
        let c' := (behave fr.index c).2
        let r := resultFromStepReturn (behave fr.index c).1
        if r.isError then Outcome.failed r
        else if r.isAccepted && !fr.posted then
          match fs with
          | [] => ⟨[], .running, last⟩
          | f :: fs => Outcome.after [.finish f] <| if f.isError then Outcome.failed f
              else report behave view (fun s => s.loop.isNone) rest c' fs f
        else report behave view (fun s => s.loop.isNone) rest c' fs r) := by
  extract_lets c' r
  obtain ⟨k, rfl⟩ : ∃ k', k = k' + 1 := ⟨k - 1, by split at hk <;> omega⟩
  have hframes : n.frames = [fr] := by
    rw [hn.frames]
    exact congrArg (· ++ [fr]) h.frames
  obtain ⟨q, hq⟩ : ∃ q, q = ({ n with resultNode := view c' } : Machine).dropFrame 0 := ⟨_, rfl⟩
  have hready : q.Ready (view c') rest last := by
    rw [hq]
    refine ⟨?_, ?_, ?_, ?_, hn.tasks.trans h.tasks, hn.deleted.trans h.deleted, rfl,
      hn.deadLoops.trans h.deadLoops⟩
    · exact (congrArg Pipeline.state hn.pipe).trans h.state
    · exact (congrArg Pipeline.queue hn.pipe).trans h.queue
    · exact (congrArg Pipeline.lastResult hn.pipe).trans h.last
    · exact congrArg (List.eraseIdx · 0) hframes
  have hseen : q.seen = m.seen ++ [.invoked fr.index] := by
    have hqn : q.seen = n.seen := seen_congr (by rw [hq]; rfl)
    rw [hqn, hn.seen]
    exact seen_observed _ rfl
  have htick : tick behave view ⟨n, c, fs⟩ =
      some ⟨q.returned fr (behave fr.index c).1, c', fs⟩ := by
    rw [tick, hframes, hq]
    simp [script, step, hframes, c']
  rw [drive_tick behave view htick, ← hseen, Machine.returned]
  have hdel : q.deleted = false := hready.deleted
  obtain ⟨hdeliver, hdseen⟩ := hready.deliver fr.index fr.run r
  cases hp : fr.posted with
  | true =>
    rw [if_pos rfl, callback, if_neg (by simp [hdel]), handleResult_running hdeliver.state,
      ih.loopReturn hdeliver r (Alike.hidden _ rfl) (by rw [hp, if_pos rfl] at hk; omega), hdseen]
    simp
  | false =>
    rw [hp, if_neg (by decide)] at hk
    rw [if_neg (by decide)]
    by_cases hacc : r.isAccepted = true
    · have herr : ¬ r.isError = true := fun he => by
        rw [Result.not_isAccepted_of_isError he] at hacc
        cases hacc
      rw [if_pos hacc, ih.suspended hready (by omega), if_neg herr, if_pos (by simp [hacc])]
    · have hand : ¬ (r.isAccepted && !false) = true := by simp [hacc]
      rw [if_neg hacc, if_neg (by simp [hdel]),
        ih.loopReturn hdeliver r (Alike.refl _) (by omega), hdseen, if_neg hand]

theorem follows_nil : Follows behave view [] := by
  intro m n c fs last k h hn hk
  have hrun : m.runNext = m.complete .done .cmdDone last := by
    rw [runNext, if_neg (by simp [h.state]), h.queue, h.last]
  have hout : m.outcome .done .cmdDone last = doneResult view c last := by
    rw [outcome, if_pos ⟨rfl, rfl⟩, h.resultNode]
    unfold doneResult
    cases view c <;> rfl
  rw [hrun] at hn
  rw [drive_complete behave view h c fs (by decide) .cmdDone last hn, hout]
  rfl

theorem Follows.cons (ih : Follows behave view rest) (x : VersatileEngine.Step × Nat) :
    Follows behave view (x :: rest) := by
  obtain ⟨s, i⟩ := x
  intro m n c fs last k h hn hk
  rw [List.length_cons] at hk
  obtain ⟨m₁, hm₁⟩ : ∃ m₁, m₁ = (m.setPipe (m.pipe.setQueue rest)).note (.took i) := ⟨_, rfl⟩
  have hready : m₁.Ready (view c) rest last := by
    rw [hm₁]
    exact ⟨h.state, rfl, h.last, h.frames, h.tasks, h.deleted, h.resultNode, h.deadLoops⟩
  have hseen : m₁.seen = m.seen := by
    rw [hm₁, seen_hidden _ rfl]
    exact seen_congr rfl
  rw [runNext, if_neg (by simp [h.state]), h.queue] at hn
  simp only [← hm₁] at hn
  rw [← hseen, report]
  cases hloop : s.loop with
  | none =>
    simp only [hloop] at hn
    by_cases hcall : s.callable = true
    · rw [if_pos hcall] at hn
      rw [if_neg (by simp [hcall]), ih.returned hready _ hn (by simp; omega), ← Outcome.after_after]
      simp
    · rw [if_neg hcall] at hn
      rw [if_pos (by simpa using hcall)]
      exact drive_fail behave view hready c fs .noCallable hn k
  | some l =>
    simp only [hloop] at hn
    obtain ⟨k, rfl⟩ : ∃ k', k = k' + 1 := ⟨k - 1, by omega⟩
    obtain ⟨t, ht⟩ : ∃ t, t = Task.mk i m₁.run s.callable true := ⟨_, rfl⟩
    have hpost : m₁.post l t = { m₁ with tasks := [t] } := by
      rw [Machine.post, hready.deadLoops, if_neg List.not_mem_nil, hready.tasks]
      rfl
    rw [← ht, hpost] at hn
    obtain ⟨q, hq⟩ : ∃ q, q = n.dropTask 0 := ⟨_, rfl⟩
    have hqready : q.Ready (view c) rest last := by
      rw [hq]
      refine ⟨?_, ?_, ?_, hn.frames.trans hready.frames, ?_, hn.deleted.trans hready.deleted,
        hn.resultNode.trans hready.resultNode, hn.deadLoops.trans hready.deadLoops⟩
      · exact (congrArg Pipeline.state hn.pipe).trans hready.state
      · exact (congrArg Pipeline.queue hn.pipe).trans hready.queue
      · exact (congrArg Pipeline.lastResult hn.pipe).trans hready.last
      · exact congrArg (List.eraseIdx · 0) hn.tasks
    have hqseen : q.seen = m₁.seen := by
      have hqn : q.seen = n.seen := seen_congr (by rw [hq]; rfl)
      rw [hqn, hn.seen]
      exact seen_congr rfl
    have htick : tick behave view ⟨n, c, fs⟩ = some ⟨q.runTask t, c, fs⟩ := by
      have hf : n.frames = [] := hn.frames.trans hready.frames
      have htasks : n.tasks = [t] := hn.tasks
      rw [tick, hf, htasks, hq]
      simp [step, htasks]
    rw [drive_tick behave view htick, runTask, ht, ← hqseen, if_neg (by simp)]
    by_cases hcall : s.callable = true
    · rw [if_neg (by simp [hcall]), if_neg (by simp [hcall]),
        ih.returned hqready _ (Alike.refl _) (by simp; omega), ← Outcome.after_after]
      simp
    · rw [if_pos (by simpa using hcall), if_pos (by simpa using hcall), callback,
        if_neg (by simp [hqready.deleted])]
      obtain ⟨hdeliver, hdseen⟩ := hqready.deliver i m₁.run .noCallable
      rw [handleResult_running hdeliver.state,
        ih.loopReturn hdeliver .noCallable (Alike.hidden _ rfl) (by omega), hdseen]
      rfl

theorem follows (rest : List (VersatileEngine.Step × Nat)) : Follows behave view rest := by
  induction rest with
  | nil => exact follows_nil
  | cons x rest ih => exact ih.cons x

/-- **A pipeline left alone does what the report says; `ACCEPT` suspends inline steps only.** -/
theorem outcomeAfter_eq (steps : List VersatileEngine.Step) (c : γ) (fs : List Result) {k : Nat}
    (hk : 2 * steps.length ≤ k) :
    outcomeAfter behave view k steps c fs =
      report behave view (fun s => s.loop.isNone) steps.zipIdx c fs (.ok .none) := by
  obtain ⟨m, hm⟩ : ∃ m : Machine, m = Machine.note { create with
      pipe := { Pipeline.create with steps := steps }.started, resultNode := view c, run := 1 }
      (.start steps.length) := ⟨_, rfl⟩
  have hready : m.Ready (view c) steps.zipIdx (.ok .none) := by
    rw [hm]
    exact ⟨rfl, rfl, rfl, rfl, rfl, rfl, rfl, rfl⟩
  have hseen : m.seen = [] := by
    rw [hm, seen_hidden _ rfl]
    rfl
  have hstart : (launch view steps c fs).machine = m.runNext := by
    rw [launch, start, hm]
    cases steps with
    | nil => rfl
    | cons s steps => rfl
  have hfollows : Follows behave view steps.zipIdx := follows _
  have hrun := hfollows m m.runNext c fs (.ok .none) k hready (Alike.refl _) (by simpa using hk)
  rw [hseen] at hrun
  rw [outcomeAfter, show launch view steps c fs = ⟨m.runNext, c, fs⟩ by rw [← hstart]; rfl, hrun]
  rfl

/-- The same steps without their loops. -/
def inlined (steps : List VersatileEngine.Step) : List VersatileEngine.Step :=
  steps.map fun s => { s with loop := none }

theorem report_inlined (steps : List VersatileEngine.Step) (j : Nat) :
    ∀ (c : γ) (fs : List Result) (last : Result),
      report behave view (fun s => s.loop.isNone) ((inlined steps).zipIdx j) c fs last =
        report behave view (fun _ => true) (steps.zipIdx j) c fs last := by
  induction steps generalizing j with
  | nil => intro c fs last; rfl
  | cons s steps ih =>
    intro c fs last
    simp only [inlined, List.map_cons, List.zipIdx_cons, report, Option.isNone_none, Bool.and_true]
    simp only [inlined] at ih
    cases fs <;> simp only [ih]

/-- **Inline and loop execution agree exactly when no posted step that the inline run reaches answers
`ACCEPT`.** A step is taken twice at most by its loop and the caller of `finish`, so `2 * steps.length`
ticks bring both runs to their end. -/
theorem modes_agree (steps : List VersatileEngine.Step) (c : γ) (fs : List Result) (k k' : Nat)
    (hk : 2 * steps.length ≤ k) (hk' : 2 * steps.length ≤ k') :
    outcomeAfter behave view k steps c fs = outcomeAfter behave view k' (inlined steps) c fs ↔
      ∀ p ∈ reached behave steps.zipIdx c fs, p.1.loop ≠ none → p.2.isAccepted = false := by
  rw [outcomeAfter_eq steps c fs hk, outcomeAfter_eq (inlined steps) c fs (by simpa [inlined] using hk'),
    report_inlined]
  exact report_agree behave view steps.zipIdx c fs (.ok .none)

/-- A posted step and an inline one, neither of which answers `ACCEPT`. -/
theorem modes_agree_sample :
    outcomeAfter (fun _ (b : Bool) => (.value (.bool b), !b)) (fun _ => none) 4
        [⟨true, some 0⟩, ⟨true, none⟩] true [] =
      outcomeAfter (fun _ (b : Bool) => (.value (.bool b), !b)) (fun _ => none) 4
        (inlined [⟨true, some 0⟩, ⟨true, none⟩]) true [] := by
  refine (modes_agree [⟨true, some 0⟩, ⟨true, none⟩] true [] 4 4 (by decide) (by decide)).mpr ?_
  intro p hp _
  simp only [reached, List.zipIdx] at hp
  rcases hp with _ | ⟨_, _ | ⟨_, hp⟩⟩
  · rfl
  · rfl
  · cases hp

/-- A single step that answers `ACCEPT`: inline it suspends the pipeline, in a loop it completes it. -/
theorem accept_disagrees :
    outcomeAfter (fun _ (_ : Unit) => (.result .accept, ())) (fun _ => none) 2 [⟨true, some 0⟩] () [] ≠
      outcomeAfter (fun _ (_ : Unit) => (.result .accept, ())) (fun _ => none) 2
        (inlined [⟨true, some 0⟩]) () [] := by
  intro h
  have hstate := congrArg Outcome.state h
  exact absurd hstate (by decide)

end Drive

end Machine

end VersatileEngine
