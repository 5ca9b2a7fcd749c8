import VersatileEngine.Core.Var
import VersatileEngine.Lib.Decimal
import VersatileEngine.Lib.Runs

/-!
# VersatileEngine.Pipeline.Machine

`Pipeline` with what surrounds it: the loops its steps are posted to, the steps in progress and the
callers of `start`, `pause`, `resume`, `stop`, `finish` and the destructor.

* `Pipeline` — the fields of `Pipeline::Private`.
* `Machine`  — a pipeline, the tasks that wait in loops, the step invocations in progress, and a log.
* `Action`   — one thing that can happen next. Between two actions no code of the pipeline runs.

A step is code of the user. While it runs, anything may happen to its pipeline, so invoking a step
ends an action and its return is an action of its own: `Machine.runNext` goes as far as the next
invocation, and `Machine.loopReturn` is the rest of that turn of the loop. Steps in progress may
return in any order, as they may run on different threads. The result handler and the observers of
the signals are taken not to call back into the pipeline.

`run` and `log` stand for nothing in the source. They record, for the statements about runs, which
call of `start` a task belongs to and what has happened.
-/

namespace VersatileEngine

/-- `Result`: a code and a content. -/
structure Result where
  code : Int
  content : Var

namespace Result

def ok (content : Var) : Result := ⟨0, content⟩
def fail (content : Var) : Result := ⟨-1, content⟩
def accept : Result := ⟨1, .none⟩

def isSuccess (r : Result) : Bool := r.code = 0
def isError (r : Result) : Bool := r.code < 0
def isAccepted (r : Result) : Bool := 0 < r.code

def setContent (r : Result) (v : Var) : Result := { r with content := v }

/-- What a step without a callable results in. -/
def noCallable : Result := .fail (.string (ascii "step has no callable"))

theorem not_isAccepted_of_isError {r : Result} (h : r.isError = true) : r.isAccepted = false := by
  simp only [isError, decide_eq_true_eq] at h
  simp only [isAccepted, decide_eq_false_iff_not]
  omega

end Result

/-- What a callable returns: a `Result` in a custom variant, or any other variant. -/
inductive StepReturn where
  | value (v : Var)
  | result (r : Result)

def resultFromStepReturn : StepReturn → Result
  | .value v => .ok v
  | .result r => r

/-- A callable and a loop. A `LoopRef` without a function is `none`; what the callable does is up to
the environment. -/
structure Step where
  callable : Bool
  loop : Option Nat
deriving DecidableEq

/-- `Pipeline::State`. -/
inductive PipelineState where
  | idle | running | paused | done | errored
deriving DecidableEq

/-- `Pipeline::Signal`. -/
inductive PipelineSignal where
  | cmdDone | cmdError
deriving DecidableEq

/-- `Pipeline::Private`. A queued step carries its number. -/
structure Pipeline where
  steps : List Step
  queue : List (Step × Nat)
  state : PipelineState
  stepIndex : Int
  lastResult : Result
  handler : Bool

namespace Pipeline

/-- `state == RUNNING || state == PAUSED`. -/
def active (p : Pipeline) : Bool := p.state = .running || p.state = .paused

theorem active_iff {p : Pipeline} : p.active = true ↔ p.state = .running ∨ p.state = .paused := by
  simp [active]

def create : Pipeline := ⟨[], [], .idle, -1, .ok .none, false⟩

/-! Assignments to a few members at once. -/

def addStep (p : Pipeline) (s : Step) : Pipeline := { p with steps := p.steps ++ [s] }
def setHandler (p : Pipeline) (set : Bool) : Pipeline := { p with handler := set }
def setState (p : Pipeline) (s : PipelineState) : Pipeline := { p with state := s }
def setQueue (p : Pipeline) (q : List (Step × Nat)) : Pipeline := { p with queue := q }

def advance (p : Pipeline) (r : Result) : Pipeline :=
  { p with lastResult := r, stepIndex := p.stepIndex + 1 }

def completed (p : Pipeline) (s : PipelineState) (r : Result) : Pipeline :=
  { p with state := s, lastResult := r, queue := [] }

def started (p : Pipeline) : Pipeline :=
  { p with state := .running, stepIndex := 0, lastResult := .ok .none, queue := p.steps.zipIdx }

def stopped (p : Pipeline) : Pipeline := { p with queue := [], state := .idle, stepIndex := -1 }

end Pipeline

/-- A posted step that waits in its loop, with the run it was posted in. `alive` is the token created
for the post. -/
structure Task where
  index : Nat
  run : Nat
  callable : Bool
  alive : Bool

/-- A step in progress: called by `runNext`, or by a loop. -/
structure Frame where
  posted : Bool
  index : Nat
  run : Nat
deriving DecidableEq

/-- A loop hands the result of a step to the pipeline. `stale` says that the run of the step was
stopped or restarted before. -/
structure Callback where
  stale : Bool
  before : Pipeline
  after : Pipeline

/-- `delivered i` records that step `i` of the current run has its result; `touched`, that a posted or
an inline step went on with a pipeline that is deleted. -/
inductive Event where
  | start (steps : Nat)
  | stop
  | finish (result : Result)
  | took (i : Nat)
  | invoked (i : Nat)
  | delivered (i : Nat)
  | signal (s : PipelineSignal) (result : Result)
  | handled (result : Result)
  | callback (c : Callback)
  | touched (posted : Bool)

namespace Event

def isStart : Event → Bool
  | start _ => true
  | _ => false

def isStop : Event → Bool
  | stop => true
  | _ => false

def isSignal : Event → Bool
  | signal _ _ => true
  | _ => false

def isHandled : Event → Bool
  | handled _ => true
  | _ => false

def taken : Event → Option Nat
  | took i => some i
  | _ => none

def isDelivered (i : Nat) : Event → Bool
  | delivered j => i = j
  | _ => false

end Event

/-! Logs are kept with the newest event first. -/

/-- The events since the last `start`. -/
def thisRun (log : List Event) : List Event := log.takeWhile fun e => !e.isStart

/-- The number of steps that the last `start` queued. -/
def stepsOf : List Event → Nat
  | [] => 0
  | .start n :: _ => n
  | _ :: log => stepsOf log

/-- Step `i` of the current run has its result. -/
def hasResult (log : List Event) (i : Nat) : Bool := (thisRun log).any (Event.isDelivered i)

/-- The step that was taken last in the current run. -/
def lastTaken (log : List Event) : Option Nat := (thisRun log).findSome? Event.taken

/-- The step that the current run waits for: the one taken last, as long as it has no result. -/
def awaited (log : List Event) : Option Nat := (lastTaken log).filter fun i => !hasResult log i

/-- `stop` was called in the current run. -/
def wasStopped (log : List Event) : Bool := (thisRun log).any Event.isStop

section ThisRun

variable (log : List Event) (n i : Nat) (r : Result) (s : PipelineSignal) (c : Callback) (b : Bool)

theorem thisRun_cons (e : Event) (h : e.isStart = false) : thisRun (e :: log) = e :: thisRun log := by
  simp [thisRun, h]

@[simp] theorem thisRun_start : thisRun (.start n :: log) = [] := rfl
@[simp] theorem thisRun_stop : thisRun (.stop :: log) = .stop :: thisRun log := rfl
@[simp] theorem thisRun_finish : thisRun (.finish r :: log) = .finish r :: thisRun log := rfl
@[simp] theorem thisRun_took : thisRun (.took i :: log) = .took i :: thisRun log := rfl
@[simp] theorem thisRun_invoked : thisRun (.invoked i :: log) = .invoked i :: thisRun log := rfl
@[simp] theorem thisRun_delivered : thisRun (.delivered i :: log) = .delivered i :: thisRun log := rfl
@[simp] theorem thisRun_signal : thisRun (.signal s r :: log) = .signal s r :: thisRun log := rfl
@[simp] theorem thisRun_handled : thisRun (.handled r :: log) = .handled r :: thisRun log := rfl
@[simp] theorem thisRun_callback : thisRun (.callback c :: log) = .callback c :: thisRun log := rfl
@[simp] theorem thisRun_touched : thisRun (.touched b :: log) = .touched b :: thisRun log := rfl

end ThisRun

structure Machine where
  pipe : Pipeline
  deleted : Bool
  /-- What the child `_result` of the context exports, when there is one. -/
  resultNode : Option Var
  deadLoops : List Nat
  tasks : List Task
  frames : List Frame
  run : Nat
  log : List Event

namespace Machine

def create : Machine := ⟨.create, false, none, [], [], [], 0, []⟩

section

variable (m : Machine)

def setPipe (p : Pipeline) : Machine := { m with pipe := p }

def note (e : Event) : Machine := { m with log := e :: m.log }

/-- The run of a posted step is over: stopped, restarted, or its pipeline deleted. -/
def stale (run : Nat) : Bool := m.deleted || run ≠ m.run || wasStopped m.log

/-- What `complete` reports: with the content of `_result`, when the pipeline is done. -/
def outcome (finalState : PipelineState) (signal : PipelineSignal) (result : Result) : Result :=
  if finalState = .done ∧ signal = .cmdDone then
    match m.resultNode with
    | some v => result.setContent v
    | none => result
  else result

def complete (finalState : PipelineState) (signal : PipelineSignal) (result : Result) : Machine :=
  let out := m.outcome finalState signal result
  let m := (m.setPipe (m.pipe.completed finalState out)).note (.signal signal out)
  if m.pipe.handler then (m.setPipe (m.pipe.setHandler false)).note (.handled out) else m

/-- `LoopRef::post`: without effect when the loop is gone. -/
def post (loop : Nat) (t : Task) : Machine :=
  if loop ∈ m.deadLoops then m else { m with tasks := m.tasks ++ [t] }

def invoke (fr : Frame) : Machine := ({ m with frames := m.frames ++ [fr] }).note (.invoked fr.index)

/-- `runNext`, as far as the next invocation. -/
def runNext : Machine :=
  if m.pipe.state ≠ .running then m
  else
    match m.pipe.queue with
    | [] => m.complete .done .cmdDone m.pipe.lastResult
    | (step, i) :: queue =>
      let m := (m.setPipe (m.pipe.setQueue queue)).note (.took i)
      match step.loop with
      | some l => m.post l ⟨i, m.run, step.callable, true⟩
      | none =>
        if step.callable then m.invoke ⟨false, i, m.run⟩
        else m.complete .errored .cmdError .noCallable

/-- The loop of `runNext` from the return of an inline step on. -/
def loopReturn (r : Result) : Machine :=
  if r.isError then m.complete .errored .cmdError r
  else (m.setPipe (m.pipe.advance r)).runNext

def handleResult (result : Result) : Machine :=
  if !m.pipe.active then m
  else if result.isError then m.complete .errored .cmdError result
  else
    let m := m.setPipe (m.pipe.advance result)
    if m.pipe.queue.isEmpty then m.complete .done .cmdDone result
    else if m.pipe.state = .paused then m
    else (m.setPipe (m.pipe.setState .running)).runNext

def start : Machine :=
  let m := ({ m with run := m.run + 1, pipe := m.pipe.started }).note (.start m.pipe.steps.length)
  if m.pipe.queue.isEmpty then m.complete .done .cmdDone (.ok .none) else m.runNext

def pause : Machine :=
  if m.pipe.state = .running then m.setPipe (m.pipe.setState .paused) else m

def resume : Machine :=
  if m.pipe.state ≠ .paused then m else (m.setPipe (m.pipe.setState .running)).runNext

def stop : Machine :=
  let m := m.note .stop
  if m.pipe.state = .idle then m else m.setPipe m.pipe.stopped

/-- Step `i` of a run gets its result, unless the result is that it will come later. -/
def deliver (i run : Nat) (r : Result) : Machine :=
  if run = m.run ∧ r.isAccepted = false then m.note (.delivered i) else m

/-- Whatever step the run waits for gets its result. -/
def deliverAwaited : Machine :=
  match awaited m.log with
  | some i => m.note (.delivered i)
  | none => m

def finish (r : Result) : Machine := ((m.note (.finish r)).deliverAwaited).handleResult r

/-- `self->handleResult(..)` in a posted task. -/
def callback (i run : Nat) (r : Result) : Machine :=
  if m.deleted then m.note (.touched true)
  else
    let m' := (m.deliver i run r).handleResult r
    m'.note (.callback ⟨m.stale run, m.pipe, m'.pipe⟩)

/-- A posted task begins. -/
def runTask (t : Task) : Machine :=
  if !t.alive then m
  else if !t.callable then m.callback t.index t.run .noCallable
  else m.invoke ⟨true, t.index, t.run⟩

/-- A step in progress returns. -/
def returned (fr : Frame) (ret : StepReturn) : Machine :=
  let r := resultFromStepReturn ret
  if fr.posted then m.callback fr.index fr.run r
  else if r.isAccepted then m
  else if m.deleted then m.note (.touched false)
  else (m.deliver fr.index fr.run r).loopReturn r

/-- The task at `k` leaves its loop. -/
def dropTask (k : Nat) : Machine := { m with tasks := m.tasks.eraseIdx k }

/-- The step at `k` is no longer in progress. -/
def dropFrame (k : Nat) : Machine := { m with frames := m.frames.eraseIdx k }

end

section Simp

variable (m : Machine) (p : Pipeline) (e : Event) (l k i : Nat) (t : Task) (fr : Frame)

@[simp] theorem setPipe_pipe : (m.setPipe p).pipe = p := rfl
@[simp] theorem setPipe_log : (m.setPipe p).log = m.log := rfl
@[simp] theorem setPipe_run : (m.setPipe p).run = m.run := rfl
@[simp] theorem setPipe_deleted : (m.setPipe p).deleted = m.deleted := rfl
@[simp] theorem setPipe_tasks : (m.setPipe p).tasks = m.tasks := rfl
@[simp] theorem setPipe_frames : (m.setPipe p).frames = m.frames := rfl
@[simp] theorem setPipe_resultNode : (m.setPipe p).resultNode = m.resultNode := rfl
@[simp] theorem setPipe_deadLoops : (m.setPipe p).deadLoops = m.deadLoops := rfl

@[simp] theorem note_pipe : (m.note e).pipe = m.pipe := rfl
@[simp] theorem note_log : (m.note e).log = e :: m.log := rfl
@[simp] theorem note_run : (m.note e).run = m.run := rfl
@[simp] theorem note_deleted : (m.note e).deleted = m.deleted := rfl
@[simp] theorem note_tasks : (m.note e).tasks = m.tasks := rfl
@[simp] theorem note_frames : (m.note e).frames = m.frames := rfl
@[simp] theorem note_resultNode : (m.note e).resultNode = m.resultNode := rfl
@[simp] theorem note_deadLoops : (m.note e).deadLoops = m.deadLoops := rfl

@[simp] theorem post_pipe : (m.post l t).pipe = m.pipe := by simp only [post]; split <;> rfl
@[simp] theorem post_log : (m.post l t).log = m.log := by simp only [post]; split <;> rfl
@[simp] theorem post_run : (m.post l t).run = m.run := by simp only [post]; split <;> rfl

@[simp] theorem invoke_pipe : (m.invoke fr).pipe = m.pipe := rfl
@[simp] theorem invoke_log : (m.invoke fr).log = .invoked fr.index :: m.log := rfl
@[simp] theorem invoke_run : (m.invoke fr).run = m.run := rfl

@[simp] theorem dropTask_pipe : (m.dropTask k).pipe = m.pipe := rfl
@[simp] theorem dropTask_log : (m.dropTask k).log = m.log := rfl
@[simp] theorem dropTask_run : (m.dropTask k).run = m.run := rfl
@[simp] theorem dropTask_deleted : (m.dropTask k).deleted = m.deleted := rfl

@[simp] theorem dropFrame_pipe : (m.dropFrame k).pipe = m.pipe := rfl
@[simp] theorem dropFrame_log : (m.dropFrame k).log = m.log := rfl
@[simp] theorem dropFrame_run : (m.dropFrame k).run = m.run := rfl
@[simp] theorem dropFrame_deleted : (m.dropFrame k).deleted = m.deleted := rfl

end Simp

/-- `exec k` begins the `k`-th waiting task, `ret k` returns from the `k`-th step in progress. -/
inductive Action where
  | add (step : Step)
  | setResultHandler (set : Bool)
  | start
  | pause
  | resume
  | stop
  | finish (result : Result)
  | destroy
  | context (resultNode : Option Var)
  | killLoop (loop : Nat)
  | exec (k : Nat)
  | ret (k : Nat) (ret : StepReturn)

/-- One action. Callers do not use a pipeline they have deleted. -/
def step (m : Machine) : Action → Option Machine
  | .add s => if m.deleted then none else some (m.setPipe (m.pipe.addStep s))
  | .setResultHandler h => if m.deleted then none else some (m.setPipe (m.pipe.setHandler h))
  | .start => if m.deleted then none else some m.start
  | .pause => if m.deleted then none else some m.pause
  | .resume => if m.deleted then none else some m.resume
  | .stop => if m.deleted then none else some m.stop
  | .finish r => if m.deleted then none else some (m.finish r)
  | .destroy => if m.deleted then none else some { m with deleted := true }
  | .context v => some { m with resultNode := v }
  | .killLoop l => some { m with deadLoops := l :: m.deadLoops }
  | .exec k => m.tasks[k]?.map fun t => (m.dropTask k).runTask t
  | .ret k v => m.frames[k]?.map fun fr => (m.dropFrame k).returned fr v

def Acts (m : Machine) (a : Action) (m' : Machine) : Prop := m.step a = some m'

theorem acts_unique {m m' m'' : Machine} {a : Action} (h : Acts m a m') (h' : Acts m a m'') :
    m' = m'' := Option.some.inj (h.symm.trans h')

/-- One action after another. -/
def script : Machine → List Action → Option Machine
  | m, [] => some m
  | m, a :: as => (m.step a).bind fun m => script m as

theorem runs_script {as : List Action} :
    ∀ {m m' : Machine}, m.script as = some m' → Runs Acts m as m' := by
  induction as with
  | nil => rintro m m' h; cases h; exact .nil
  | cons a as ih =>
    intro m m' h
    obtain ⟨m₁, h₁, h₂⟩ := Option.bind_eq_some_iff.mp h
    exact .cons h₁ (ih h₂)

end Machine

end VersatileEngine
