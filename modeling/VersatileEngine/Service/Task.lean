import VersatileEngine.Pipeline.Completion
import VersatileEngine.Core.Text

/-!
# VersatileEngine.Service.Task

`NodeTaskService::attach` on one thread, and the completion of the pipeline it attaches on another.

* `Machine.completing`, `Machine.takeHandler` — the two halves of `Pipeline::complete`, with the
  signal at the end of the first one and the call of the handler after the second (`complete_eq`).
* `Calls`   — one call of the one thread or of the other. Between two calls of a thread any calls of
  the other may run, also those that a callback makes on the same thread.
* `InStep`  — what the places of the two threads say about the pipeline and about each other.
* `Once`    — one thread at most gets past the flag, and how far it has got with its finalizer.

`attach` is called with a root and a pipeline, as `command.run` does. A call that comes after the
deletion is recorded in `dangling`, and goes on with what the object held.
-/

namespace VersatileEngine

namespace Machine

/-- `complete`, up to the look at the handler. -/
def completing (m : Machine) (signal : PipelineSignal) (result : Result) : Machine :=
  let out := m.outcome signal.state signal result
  (m.setPipe (m.pipe.completed signal.state out)).note (.signal signal out)

/-- The handler is moved out of the pipeline, to be called. -/
def takeHandler (m : Machine) : Machine :=
  (m.setPipe (m.pipe.setHandler false)).note (.handled m.pipe.lastResult)

theorem complete_eq (m : Machine) (signal : PipelineSignal) (result : Result) :
    m.complete signal.state signal result =
      if (m.completing signal result).pipe.handler then (m.completing signal result).takeHandler
      else m.completing signal result := rfl

end Machine

/-- `DONE`, `ERRORED` or `IDLE`. -/
def PipelineState.ended (s : PipelineState) : Bool := s = .done || s = .errored || s = .idle

/-- A node below `ve/server/tasks`. -/
structure TaskNode where
  status : Str
  ok : Bool
  cmd : Str
  id : Option Var
  result : Option Var
  error : Option Str
  code : Option Int

/-- The event `task.result`. -/
structure TaskEvent where
  event : Str
  id : Option Var
  taskId : Str
  ok : Bool
  data : Option Var
  code : Option Str
  error : Option Str

/-- The arguments of `attach` and the completion: what `complete` is called with. -/
structure Job where
  cmdKey : Str
  id : Var
  taskId : Str
  signal : PipelineSignal
  result : Result

/-- A value that is stored unless it is null. -/
def Var.present (v : Var) : Option Var := if v.isNull then Option.none else some v

/-- `isSuccess() || isAccepted()`. -/
def Result.taskOk (r : Result) : Bool := r.isSuccess || r.isAccepted

/-- The task node as `attach` fills it. -/
def Job.created (job : Job) : TaskNode :=
  ⟨ascii "running", false, job.cmdKey, job.id.present, none, none, none⟩

/-- What `finalize` writes to the task node. -/
def TaskNode.finish (platform : Platform) (r : Result) (t : TaskNode) : TaskNode :=
  if r.taskOk then { t with status := ascii "done", ok := true, result := some r.content }
  else
    { t with
      status := ascii "error", ok := false, error := some (r.content.toString platform),
      code := some r.code }

/-- What `finalize` calls `onDone` with. -/
def Job.event (platform : Platform) (job : Job) (r : Result) : TaskEvent :=
  if r.taskOk then
    ⟨ascii "task.result", job.id.present, job.taskId, true, some r.content, none, none⟩
  else
    ⟨ascii "task.result", job.id.present, job.taskId, false, none, some (intChars r.code),
      some (r.content.toString platform)⟩

/-- The thread of `attach` and the loop of the pipeline. -/
inductive Party where
  | attach | loop
deriving DecidableEq

/-- The calls of `finalize`. -/
inductive Part where
  | exchange | record | send | delete
deriving DecidableEq

/-- The next call of a thread. -/
inductive Place where
  | creating | installing | checking | fetching
  | completing | taking
  | finalizing (part : Part) (res : Result)
  | returned

/-- The handler is not installed yet. -/
def Place.early : Place → Bool
  | .creating | .installing => true
  | _ => false

/-- The places of a thread, when `out` is what its finalizer is called with. -/
def Place.Fits (out : Result) : Party → Place → Prop
  | .attach, .completing | .attach, .taking => False
  | .loop, .creating | .loop, .installing | .loop, .checking | .loop, .fetching => False
  | _, .finalizing _ r => r = out
  | _, _ => True

inductive Call where
  | createTask | setResultHandler | state | lastResult
  | complete | takeHandler
  | finalize (p : Party) (part : Part)
deriving DecidableEq

/-- `finished` remembers who has set the flag, `dangling` the calls on the deleted pipeline. -/
structure Detached where
  machine : Machine
  place : Party → Place
  finished : Option Party
  task : Option TaskNode
  sent : List TaskEvent
  deletes : Nat
  dangling : List Call

/-! Each thread makes its calls by increasing rank. -/

@[simp] def Part.rank : Part → Nat
  | .exchange => 4
  | .record => 5
  | .send => 6
  | .delete => 7

theorem Part.four_le_rank (part : Part) : 4 ≤ part.rank := by cases part <;> decide

theorem Part.rank_inj {part part' : Part} (h : part.rank = part'.rank) : part = part' := by
  cases part <;> cases part' <;> first | rfl | cases h

@[simp] def Place.rank : Place → Nat
  | .creating | .completing => 0
  | .installing | .taking => 1
  | .checking => 2
  | .fetching => 3
  | .finalizing part _ => part.rank
  | .returned => 8

namespace Call

@[simp] def rank : Call → Nat
  | .createTask | .complete => 0
  | .setResultHandler | .takeHandler => 1
  | .state => 2
  | .lastResult => 3
  | .finalize _ part => part.rank

@[simp] def party : Call → Party
  | .createTask | .setResultHandler | .state | .lastResult => .attach
  | .complete | .takeHandler => .loop
  | .finalize p _ => p

/-- A call that its thread makes on every way. -/
def always : Call → Bool
  | .createTask | .setResultHandler | .state | .complete | .takeHandler => true
  | .lastResult | .finalize _ _ => false

/-- The rank of the last call that the thread makes on every way. -/
@[simp] def lastRank : Party → Nat
  | .attach => 2
  | .loop => 1

theorem rank_le_lastRank {c : Call} (h : c.always = true) : c.rank ≤ lastRank c.party := by
  cases c <;> first | decide | cases h

/-- A call of a method of the pipeline, or a part of one. -/
def onPipeline : Call → Bool
  | .setResultHandler | .state | .lastResult | .complete | .takeHandler => true
  | .createTask | .finalize _ _ => false

def isDelete : Call → Bool
  | .finalize _ .delete => true
  | _ => false

theorem isDelete_iff {c : Call} : c.isDelete = true ↔ ∃ p, c = .finalize p .delete := by
  constructor
  · intro h
    cases c with
    | finalize p part => cases part <;> first | exact ⟨p, rfl⟩ | cases h
    | _ => cases h
  · rintro ⟨p, rfl⟩
    rfl

end Call

namespace Detached

variable (platform : Platform) (job : Job) (s : Detached)

/-- `attach` is called with a pipeline of which the last step has yet to hand in its result. -/
def create (m : Machine) : Detached :=
  ⟨m, fun | .attach => .creating | .loop => .completing, none, none, [], 0, []⟩

def setPlace (p : Party) (at' : Place) : Detached :=
  { s with place := Function.update s.place p at' }

/-- The pipeline is used by a call. -/
def uses (c : Call) : Detached :=
  if 0 < s.deletes then { s with dangling := c :: s.dangling } else s

def createTask : Detached := { s with task := some job.created }.setPlace .attach .installing

def setResultHandler : Detached :=
  { s.uses .setResultHandler with
    machine := s.machine.setPipe (s.machine.pipe.setHandler true) }.setPlace .attach .checking

def checkState : Detached :=
  (s.uses .state).setPlace .attach (if s.machine.pipe.state.ended then .fetching else .returned)

def fetchResult : Detached :=
  (s.uses .lastResult).setPlace .attach (.finalizing .exchange s.machine.pipe.lastResult)

def complete : Detached :=
  { s.uses .complete with
    machine := s.machine.completing job.signal job.result }.setPlace .loop .taking

def takeHandler : Detached :=
  if s.machine.pipe.handler then
    { s.uses .takeHandler with machine := s.machine.takeHandler }.setPlace .loop
      (.finalizing .exchange s.machine.pipe.lastResult)
  else (s.uses .takeHandler).setPlace .loop .returned

/-- The calls of `finalize(res)`. -/
def finalize (p : Party) (res : Result) : Part → Detached
  | .exchange =>
    match s.finished with
    | some _ => s.setPlace p .returned
    | none => { s with finished := some p }.setPlace p (.finalizing .record res)
  | .record =>
    { s with task := s.task.map (TaskNode.finish platform res) }.setPlace p (.finalizing .send res)
  | .send =>
    { s with sent := s.sent ++ [job.event platform res] }.setPlace p (.finalizing .delete res)
  | .delete => { s with deletes := s.deletes + 1 }.setPlace p .returned

/-- One call. -/
inductive Calls : Detached → Call → Detached → Prop where
  | createTask {s : Detached} : s.place .attach = .creating → Calls s .createTask (s.createTask job)
  | setResultHandler {s : Detached} :
      s.place .attach = .installing → Calls s .setResultHandler s.setResultHandler
  | state {s : Detached} : s.place .attach = .checking → Calls s .state s.checkState
  | lastResult {s : Detached} : s.place .attach = .fetching → Calls s .lastResult s.fetchResult
  | complete {s : Detached} : s.place .loop = .completing → Calls s .complete (s.complete job)
  | takeHandler {s : Detached} : s.place .loop = .taking → Calls s .takeHandler s.takeHandler
  | finalize {s : Detached} {p : Party} {part : Part} {res : Result} :
      s.place p = .finalizing part res →
        Calls s (.finalize p part) (s.finalize platform job p res part)


section Simp

variable (p q : Party) (pl : Place) (c : Call)

@[simp] theorem setPlace_self : (s.setPlace p pl).place p = pl := by simp [setPlace]

theorem setPlace_of_ne {p q : Party} (h : q ≠ p) : (s.setPlace p pl).place q = s.place q :=
  Function.update_of_ne h _ _

@[simp] theorem setPlace_attach_loop : (s.setPlace .attach pl).place .loop = s.place .loop :=
  setPlace_of_ne _ _ nofun

@[simp] theorem setPlace_loop_attach : (s.setPlace .loop pl).place .attach = s.place .attach :=
  setPlace_of_ne _ _ nofun

@[simp] theorem setPlace_machine : (s.setPlace p pl).machine = s.machine := rfl
@[simp] theorem setPlace_finished : (s.setPlace p pl).finished = s.finished := rfl
@[simp] theorem setPlace_task : (s.setPlace p pl).task = s.task := rfl
@[simp] theorem setPlace_sent : (s.setPlace p pl).sent = s.sent := rfl
@[simp] theorem setPlace_deletes : (s.setPlace p pl).deletes = s.deletes := rfl
@[simp] theorem setPlace_dangling : (s.setPlace p pl).dangling = s.dangling := rfl

@[simp] theorem uses_machine : (s.uses c).machine = s.machine := by simp only [uses]; split <;> rfl
@[simp] theorem uses_place : (s.uses c).place = s.place := by simp only [uses]; split <;> rfl
@[simp] theorem uses_finished : (s.uses c).finished = s.finished := by
  simp only [uses]; split <;> rfl
@[simp] theorem uses_task : (s.uses c).task = s.task := by simp only [uses]; split <;> rfl
@[simp] theorem uses_sent : (s.uses c).sent = s.sent := by simp only [uses]; split <;> rfl
@[simp] theorem uses_deletes : (s.uses c).deletes = s.deletes := by simp only [uses]; split <;> rfl
theorem uses_dangling :
    (s.uses c).dangling = if 0 < s.deletes then c :: s.dangling else s.dangling := by
  simp only [uses]; split <;> rfl

end Simp

/-! ### Where the two threads are -/

section Step

variable {platform : Platform} {job : Job} {out : Result} {s s' : Detached} {c : Call}
  {as : List Call}

/-- What the places of the threads say about the pipeline and about each other. `out` is the result
that `complete` delivers. -/
structure InStep (job : Job) (out : Result) (s : Detached) : Prop where
  fits : ∀ p, (s.place p).Fits out p
  active : s.place .loop = .completing → s.machine.pipe.state.ended = false ∧
    s.machine.outcome job.signal.state job.signal job.result = out
  ended : s.place .loop ≠ .completing →
    s.machine.pipe.state.ended = true ∧ s.machine.pipe.lastResult = out
  early : (s.place .attach).early = true → s.machine.pipe.handler = false ∧ s.finished = none ∧
    ∀ part r, s.place .loop ≠ .finalizing part r
  installed : (s.place .attach).early = false → s.place .loop = .completing →
    s.machine.pipe.handler = true
  fetched : s.place .loop = .completing →
    s.place .attach ≠ .fetching ∧ ∀ part r, s.place .attach ≠ .finalizing part r
  waiting : s.finished = none → s.place .attach = .returned →
    s.place .loop = .completing ∨ (s.place .loop = .taking ∧ s.machine.pipe.handler = true) ∨
      ∃ r, s.place .loop = .finalizing .exchange r

/-- How far the thread that has set the flag has got. -/
def Stage (platform : Platform) (job : Job) (out : Result) (s : Detached) : Place → Prop
  | .finalizing .record _ => s.task = some job.created ∧ s.sent = [] ∧ s.deletes = 0
  | .finalizing .send _ =>
    s.task = some (job.created.finish platform out) ∧ s.sent = [] ∧ s.deletes = 0
  | .finalizing .delete _ =>
    s.task = some (job.created.finish platform out) ∧ s.sent = [job.event platform out] ∧
      s.deletes = 0
  | .returned =>
    s.task = some (job.created.finish platform out) ∧ s.sent = [job.event platform out] ∧
      s.deletes = 1
  | _ => False

/-- One thread at most gets past the flag. -/
structure Once (platform : Platform) (job : Job) (out : Result) (s : Detached) : Prop where
  owner : ∀ p part r, s.place p = .finalizing part r → part ≠ .exchange → s.finished = some p
  unset : s.finished = none →
    (s.place .attach ≠ .creating → s.task = some job.created) ∧ s.sent = [] ∧ s.deletes = 0
  stage : ∀ p, s.finished = some p → Stage platform job out s (s.place p)

theorem fits_setPlace {p : Party} {pl : Place} (h : ∀ q, (s.place q).Fits out q)
    (hp : pl.Fits out p) : ∀ q, ((s.setPlace p pl).place q).Fits out q := by
  intro q
  rcases eq_or_ne q p with rfl | hq
  · rwa [setPlace_self]
  · rw [setPlace_of_ne _ _ hq]
    exact h q

theorem inStep_create {m : Machine} (hp : m.pipe.state.ended = false) (hh : m.pipe.handler = false) :
    InStep job (m.outcome job.signal.state job.signal job.result) (create m) := by
  constructor
  case fits => rintro (_ | _) <;> trivial
  all_goals simp [create, Place.early, hp, hh]

theorem once_create (m : Machine) : Once platform job out (create m) := by
  constructor
  case owner => rintro (_ | _) <;> nofun
  all_goals simp [create]

/-- What a call does to the pipeline is not in `Once`. -/
theorem once_congr (h : Once platform job out s) (hplace : s'.place = s.place)
    (hfinished : s'.finished = s.finished) (htask : s'.task = s.task) (hsent : s'.sent = s.sent)
    (hdeletes : s'.deletes = s.deletes) : Once platform job out s' := by
  refine ⟨?_, ?_, ?_⟩
  · rw [hplace, hfinished]
    exact h.owner
  · rw [hplace, hfinished, htask, hsent, hdeletes]
    exact h.unset
  · rw [hplace, hfinished]
    intro p hp
    have := h.stage p hp
    simp only [Stage, htask, hsent, hdeletes] at this ⊢
    exact this

/-- A thread that is not in its finalizer moves on. -/
theorem once_setPlace {p : Party} {pl : Place} (h : Once platform job out s)
    (hp : ¬ Stage platform job out s (s.place p))
    (hpl : ∀ part r, pl = .finalizing part r → part = .exchange)
    (hcreated : p = .attach → s.finished = none → s.task = some job.created) :
    Once platform job out (s.setPlace p pl) := by
  refine ⟨?_, ?_, ?_⟩
  · intro q part r hq
    rcases eq_or_ne q p with rfl | hne
    · rw [setPlace_self] at hq
      exact fun hx => absurd (hpl part r hq) hx
    · rw [setPlace_of_ne _ _ hne] at hq
      exact h.owner q part r hq
  · intro hf
    refine ⟨?_, (h.unset hf).2⟩
    intro hne
    cases p with
    | attach => exact hcreated rfl hf
    | loop => exact (h.unset hf).1 (by simpa using hne)
  · intro q hf
    rcases eq_or_ne q p with rfl | hne
    · exact absurd (h.stage q hf) hp
    · rw [setPlace_of_ne _ _ hne]
      exact h.stage q hf

/-- The pipeline is used, and the thread moves on outside of its finalizer. -/
theorem once_uses {p : Party} {pl : Place} {m : Machine} (h : Once platform job out s) (c : Call)
    (hp : ¬ Stage platform job out s (s.place p))
    (hpl : ∀ part r, pl = .finalizing part r → part = .exchange)
    (hne : s.place .attach ≠ .creating ∨ p = .loop) :
    Once platform job out ({ s.uses c with machine := m }.setPlace p pl) := by
  refine once_setPlace (once_congr h (uses_place s c) (uses_finished s c) (uses_task s c)
    (uses_sent s c) (uses_deletes s c)) ?_ hpl ?_
  · simpa only [uses_place, Stage, uses_task, uses_sent, uses_deletes] using hp
  · rintro rfl hf
    rw [uses_finished] at hf
    simpa using (h.unset hf).1 (hne.resolve_right nofun)

/-- The thread that has set the flag moves on. -/
theorem once_advance {p : Party} {pl : Place} (hf : s.finished = some p)
    (howner : ∀ q part r, q ≠ p → s.place q = .finalizing part r → part = .exchange)
    (hs : Stage platform job out s pl) : Once platform job out (s.setPlace p pl) := by
  refine ⟨?_, ?_, ?_⟩
  · intro q part r hq hx
    rcases eq_or_ne q p with rfl | hne
    · exact hf
    · rw [setPlace_of_ne _ _ hne] at hq
      exact absurd (howner q part r hne hq) hx
  · intro h
    rw [setPlace_finished, hf] at h
    cases h
  · intro q hq
    rw [setPlace_finished, hf] at hq
    cases hq
    rwa [setPlace_self]

theorem once_finalize {p : Party} {part : Part} (h : Once platform job out s)
    (hp : s.place p = .finalizing part out) (hcreated : s.place .attach ≠ .creating) :
    Once platform job out (s.finalize platform job p out part) := by
  have howner : ∀ q part r, s.finished ≠ some q → s.place q = .finalizing part r →
      part = .exchange := by
    intro q part r hf hq
    by_contra hx
    exact hf (h.owner q part r hq hx)
  by_cases hx : part = .exchange
  · subst hx
    simp only [finalize]
    split
    · refine once_setPlace h ?_ nofun fun _ hf => (h.unset hf).1 hcreated
      rw [hp]
      exact id
    · next hf =>
      obtain ⟨htask, hsent, hdel⟩ := h.unset hf
      refine once_advance rfl ?_ ⟨htask hcreated, hsent, hdel⟩
      intro q part r _ hq
      exact howner q part r (by rw [hf]; nofun) hq
  · have hf := h.owner _ _ _ hp hx
    have hother : ∀ q part r, q ≠ p → s.place q = .finalizing part r → part = .exchange := by
      intro q part r hne hq
      refine howner q part r ?_ hq
      rw [hf]
      rintro ⟨⟩
      exact hne rfl
    have hs := h.stage p hf
    rw [hp] at hs
    cases part with
    | exchange => exact absurd rfl hx
    | record => exact once_advance hf hother ⟨by simp [hs.1], hs.2⟩
    | send => exact once_advance hf hother ⟨hs.1, by simp [hs.2.1], hs.2.2⟩
    | delete => exact once_advance hf hother ⟨hs.1, hs.2.1, by simp [hs.2.2]⟩

theorem once_step (h : Once platform job out s) (hi : InStep job out s)
    (hc : Calls platform job s c s') : Once platform job out s' := by
  cases hc with
  | createTask hp =>
    have hf := (hi.early (by rw [hp]; rfl)).2.1
    refine once_setPlace ⟨h.owner, fun _ => ⟨fun _ => rfl, (h.unset hf).2⟩, ?_⟩ ?_ nofun
      fun _ _ => rfl
    · intro p hp
      rw [hf] at hp
      cases hp
    · rw [hp]
      exact id
  | setResultHandler hp =>
    exact once_uses h _ (by rw [hp]; exact id) nofun (.inl (by rw [hp]; nofun))
  | state hp =>
    refine once_uses h _ (by rw [hp]; exact id) ?_ (.inl (by rw [hp]; nofun))
    split <;> nofun
  | lastResult hp =>
    refine once_uses h _ (by rw [hp]; exact id) ?_ (.inl (by rw [hp]; nofun))
    rintro part r ⟨⟩
    rfl
  | complete hp => exact once_uses h _ (by rw [hp]; exact id) nofun (.inr rfl)
  | takeHandler hp =>
    simp only [takeHandler]
    split
    · refine once_uses h _ (by rw [hp]; exact id) ?_ (.inr rfl)
      rintro part r ⟨⟩
      rfl
    · exact once_uses h _ (by rw [hp]; exact id) nofun (.inr rfl)
  | @finalize p part res hp =>
    have := hi.fits p
    rw [hp] at this
    obtain rfl : res = out := by cases p <;> exact this
    refine once_finalize h hp ?_
    intro hcr
    cases p with
    | attach =>
      rw [hp] at hcr
      cases hcr
    | loop => exact (hi.early (by rw [hcr]; rfl)).2.2 _ _ hp

/-- A call of the finalizer leaves the pipeline alone and has the flag set after it. -/
theorem finalize_shape {p : Party} {part : Part} {res : Result} (h : Once platform job out s)
    (hp : s.place p = .finalizing part res) :
    ∃ (t : Detached) (pl : Place), s.finalize platform job p res part = t.setPlace p pl ∧
      t.machine = s.machine ∧ t.place = s.place ∧ t.finished ≠ none ∧
      (pl = .returned ∨ ∃ part', pl = .finalizing part' res) := by
  have owner := h.owner p part res hp
  cases part with
  | exchange =>
    simp only [finalize]
    split
    · next q hf => exact ⟨s, _, rfl, rfl, rfl, by rw [hf]; nofun, .inl rfl⟩
    · exact ⟨_, _, rfl, rfl, rfl, nofun, .inr ⟨_, rfl⟩⟩
  | record => exact ⟨_, _, rfl, rfl, rfl, by rw [owner nofun]; nofun, .inr ⟨_, rfl⟩⟩
  | send => exact ⟨_, _, rfl, rfl, rfl, by rw [owner nofun]; nofun, .inr ⟨_, rfl⟩⟩
  | delete => exact ⟨_, _, rfl, rfl, rfl, by rw [owner nofun]; nofun, .inl rfl⟩

theorem state_ended (signal : PipelineSignal) : signal.state.ended = true := by cases signal <;> rfl

theorem inStep_step (h : InStep job out s) (ho : Once platform job out s)
    (hc : Calls platform job s c s') : InStep job out s' := by
  have hfits : ∀ c q, ((s.uses c).place q).Fits out q := fun c => uses_place s c ▸ h.fits
  obtain ⟨fits, active, ended, early, installed, fetched, waiting⟩ := h
  cases hc with
  | createTask hp =>
    obtain ⟨hh, hf, hl⟩ := early (by rw [hp]; rfl)
    refine ⟨fits_setPlace fits trivial, active, ended, fun _ => ⟨hh, hf, hl⟩, ?_, ?_, ?_⟩
    · intro h
      rw [createTask, setPlace_self] at h
      cases h
    · intro h
      rw [createTask, setPlace_self]
      exact ⟨nofun, nofun⟩
    · intro _ h
      rw [createTask, setPlace_self] at h
      cases h
  | setResultHandler hp =>
    refine ⟨fits_setPlace (hfits _) trivial, ?_, ?_, ?_, ?_, ?_, ?_⟩
    · exact fun hl => active (by simpa [setResultHandler] using hl)
    · exact fun hl => ended (by simpa [setResultHandler] using hl)
    all_goals simp [setResultHandler, Place.early, Pipeline.setHandler]
  | state hp =>
    refine ⟨fits_setPlace (hfits _) (by split <;> trivial), ?_, ?_, ?_, ?_, ?_, ?_⟩
    all_goals simp only [checkState, setPlace_self, setPlace_attach_loop, setPlace_machine,
      setPlace_finished, uses_machine, uses_place, uses_finished]
    all_goals grind [Place.early]
  | lastResult hp =>
    have hl : s.place .loop ≠ .completing := fun hl => (fetched hl).1 hp
    refine ⟨fits_setPlace (hfits _) (ended hl).2, ?_, ?_, ?_, ?_, ?_, ?_⟩
    all_goals simp only [fetchResult, setPlace_self, setPlace_attach_loop, setPlace_machine,
      setPlace_finished, uses_machine, uses_place, uses_finished]
    all_goals grind [Place.early]
  | complete hp =>
    refine ⟨fits_setPlace (hfits _) trivial, ?_, ?_, ?_, ?_, ?_, ?_⟩
    all_goals simp only [complete, Machine.completing, Pipeline.completed, setPlace_self,
      setPlace_loop_attach, setPlace_machine, setPlace_finished, Machine.note_pipe,
      Machine.setPipe_pipe, uses_place, uses_finished]
    all_goals grind [Place.early, state_ended]
  | takeHandler hp =>
    have hl : s.place .loop ≠ .completing := by rw [hp]; nofun
    simp only [takeHandler]
    split
    · refine ⟨fits_setPlace (hfits _) (ended hl).2, ?_, ?_, ?_, ?_, ?_, ?_⟩
      all_goals simp only [Machine.takeHandler, Pipeline.setHandler, setPlace_self,
        setPlace_loop_attach, setPlace_machine, setPlace_finished, Machine.note_pipe,
        Machine.setPipe_pipe, uses_place, uses_finished]
      all_goals grind [Place.early]
    · refine ⟨fits_setPlace (hfits _) trivial, ?_, ?_, ?_, ?_, ?_, ?_⟩
      all_goals simp only [setPlace_self, setPlace_loop_attach, setPlace_machine,
        setPlace_finished, uses_machine, uses_place, uses_finished]
      all_goals grind [Place.early]
  | @finalize p part res hp =>
    obtain ⟨t, pl, he, hm, hplace, hf, hpl⟩ := finalize_shape ho hp
    rw [← hplace] at fits
    have hfit : pl.Fits out p := by
      have := fits p
      rw [hplace, hp] at this
      rcases hpl with rfl | ⟨part', rfl⟩
      · cases p <;> trivial
      · cases p <;> exact this
    rw [he]
    refine ⟨fits_setPlace fits hfit, ?_, ?_, ?_, ?_, ?_, fun h => absurd h hf⟩
    all_goals cases p
    all_goals simp only [setPlace_self, setPlace_attach_loop, setPlace_loop_attach,
      setPlace_machine, setPlace_finished, hm, hplace]
    all_goals grind [Place.early]

end Step

end Detached

end VersatileEngine
