import VersatileEngine.Service.Task

/-!
# VersatileEngine.Service.TaskOrder

The order of the calls of `attach` and of the completion.

* `History`   — what the calls so far say about the state, by their order.
* `delivered` — one event, the task node as the delivered result has it and one deletion, in whatever
  order the calls came.
* `Placed`    — the condition for the rest: `attach` reads the state before `complete` sets it, or the
  thread that deletes the pipeline does so after the last call of the other one.
* `task_completes` — the run theorem. `completion_between` is a completion between `setResultHandler`
  and `state()`.
-/

namespace VersatileEngine
namespace Detached

section History

variable {platform : Platform} {job : Job} {out : Result} {s s' : Detached} {c : Call}
  {as : List Call}

structure History (as : List Call) (s : Detached) : Prop where
  nodup : as.Nodup
  before : ∀ c ∈ as, c.rank < (s.place c.party).rank
  ordered : ∀ c ∈ as, ∀ c' ∈ as, c.party = c'.party → c.rank < c'.rank → Precedes as c c'
  made : ∀ c, c.always = true → c.rank < (s.place c.party).rank → c ∈ as
  fetched : Precedes as .complete .state ↔ s.place .attach = .fetching ∨ .lastResult ∈ as
  fetches : ∀ part r, s.place .attach = .finalizing part r → .lastResult ∈ as
  finalizes : ∀ part, .finalize .attach part ∈ as → .lastResult ∈ as
  deleted : ∀ p, .finalize p .delete ∈ as → s.finished = some p
  deletes : 0 < s.deletes ↔ ∃ p, .finalize p .delete ∈ as
  dangling : s.dangling = [] ↔
    ∀ p, ∀ c ∈ [Call.state, .lastResult, .takeHandler], ¬ Precedes as (.finalize p .delete) c

theorem history_create (m : Machine) : History [] (create m) := by
  refine ⟨.nil, nofun, nofun, ?_, ?_, nofun, nofun, nofun, ?_, ?_⟩
  · rintro (_ | _ | _ | _ | _ | _ | ⟨_ | _, _⟩) <;> simp [create, Call.always]
  · simp [create, not_precedes_nil]
  · simp [create]
  · simp [create, not_precedes_nil]

theorem call_eq {c d : Call} (hp : c.party = d.party) (hr : c.rank = d.rank) : c = d := by
  cases c <;> cases d <;> simp only [Call.party, Call.rank] at hp hr <;>
    grind [Part.four_le_rank, Part.rank_inj]

/-- A call moves its thread to a place further on, past no call that is made on every way. -/
structure Moves (c : Call) (s s' : Detached) (pl : Place) : Prop where
  place : s'.place = (s.setPlace c.party pl).place
  next : (s.place c.party).rank = c.rank
  further : c.rank < pl.rank
  skips : pl.rank = c.rank + 1 ∨ Call.lastRank c.party ≤ c.rank

theorem uses_setPlace (c : Call) (p : Party) (pl : Place) (m : Machine) :
    ({ s.uses c with machine := m }.setPlace p pl).place = (s.setPlace p pl).place := by
  simp only [setPlace, uses_place]

theorem calls_moves (hc : Calls platform job s c s') : ∃ pl, Moves c s s' pl := by
  cases hc with
  | createTask hp => exact ⟨_, rfl, by simp [hp], by simp, by simp⟩
  | setResultHandler hp => exact ⟨_, uses_setPlace _ _ _ _, by simp [hp], by simp, by simp⟩
  | state hp =>
    refine ⟨_, uses_setPlace _ _ _ _, by simp [hp], ?_, .inr (by simp)⟩
    split <;> simp
  | lastResult hp => exact ⟨_, uses_setPlace _ _ _ _, by simp [hp], by simp, by simp⟩
  | complete hp => exact ⟨_, uses_setPlace _ _ _ _, by simp [hp], by simp, by simp⟩
  | takeHandler hp =>
    simp only [takeHandler]
    split
    · exact ⟨_, uses_setPlace _ _ _ _, by simp [hp], by simp, .inr (by simp)⟩
    · exact ⟨_, uses_setPlace _ _ _ _, by simp [hp], by simp, .inr (by simp)⟩
  | @finalize p part res hp =>
    have hlast : Call.lastRank p ≤ part.rank := by cases p <;> cases part <;> simp
    have hnext : (s.place p).rank = part.rank := by rw [hp]; rfl
    cases part with
    | exchange =>
      simp only [finalize]
      split
      · exact ⟨_, rfl, hnext, by simp, .inr hlast⟩
      · exact ⟨_, rfl, hnext, by simp, .inr hlast⟩
    | record => exact ⟨_, rfl, hnext, by simp, .inr hlast⟩
    | send => exact ⟨_, rfl, hnext, by simp, .inr hlast⟩
    | delete => exact ⟨_, rfl, hnext, by simp, .inr hlast⟩

/-- What a call does to the flag, the deletions and the record of calls on the deleted pipeline. -/
structure Effect (c : Call) (s s' : Detached) : Prop where
  finished : ∀ p, s.finished = some p → s'.finished = some p
  deletes : s'.deletes = if c.isDelete then s.deletes + 1 else s.deletes
  dangling : s'.dangling =
    if c.onPipeline = true ∧ 0 < s.deletes then c :: s.dangling else s.dangling

theorem calls_effect (hc : Calls platform job s c s') : Effect c s s' := by
  cases hc with
  | createTask hp => exact ⟨fun _ => id, rfl, rfl⟩
  | setResultHandler hp =>
    exact ⟨by simp [setResultHandler], by simp [setResultHandler, Call.isDelete],
      by simp [setResultHandler, uses_dangling, Call.onPipeline]⟩
  | state hp =>
    exact ⟨by simp [checkState], by simp [checkState, Call.isDelete],
      by simp [checkState, uses_dangling, Call.onPipeline]⟩
  | lastResult hp =>
    exact ⟨by simp [fetchResult], by simp [fetchResult, Call.isDelete],
      by simp [fetchResult, uses_dangling, Call.onPipeline]⟩
  | complete hp =>
    exact ⟨by simp [complete], by simp [complete, Call.isDelete],
      by simp [complete, uses_dangling, Call.onPipeline]⟩
  | takeHandler hp =>
    simp only [takeHandler]
    split <;> exact ⟨by simp, by simp [Call.isDelete], by simp [uses_dangling, Call.onPipeline]⟩
  | @finalize p part res hp =>
    cases part with
    | exchange =>
      simp only [finalize]
      split <;> refine ⟨by simp_all, rfl, rfl⟩
    | record => exact ⟨fun _ => id, rfl, rfl⟩
    | send => exact ⟨fun _ => id, rfl, rfl⟩
    | delete => exact ⟨fun _ => id, rfl, rfl⟩

/-- The loop has made its first call exactly when it is past it. -/
theorem complete_mem_iff (h : History as s) (hi : InStep job out s) :
    .complete ∈ as ↔ s.place .loop ≠ .completing := by
  constructor
  · intro hm hp
    have := h.before _ hm
    simp [hp] at this
  · intro hp
    have hfit := hi.fits .loop
    refine h.made .complete rfl ?_
    cases hl : s.place .loop with
    | completing => exact absurd hl hp
    | creating | installing | checking | fetching =>
      rw [hl] at hfit
      exact hfit.elim
    | taking => simp [hl]
    | finalizing part => cases part <;> simp [hl]
    | returned => simp [hl]

theorem fetched_step (h : History as s) (hi : InStep job out s) (hc : Calls platform job s c s') :
    Precedes (as ++ [c]) .complete .state ↔
      s'.place .attach = .fetching ∨ .lastResult ∈ as ++ [c] := by
  rw [precedes_snoc, List.mem_append, List.mem_singleton]
  cases hc with
  | state hp =>
    have hs : .state ∉ as := fun hm => by simpa [hp] using h.before _ hm
    have hl : .lastResult ∉ as := fun hm => by simpa [hp] using h.before _ hm
    have hprec : ¬ Precedes as .complete .state := fun hx => hs hx.mem.2
    simp only [hprec, hl, complete_mem_iff h hi, checkState, setPlace_self]
    by_cases hcomp : s.place .loop = .completing
    · simp [hcomp, (hi.active hcomp).1]
    · simp [hcomp, (hi.ended hcomp).1]
  | lastResult hp => simp [h.fetched, hp]
  | createTask hp => simp [h.fetched, hp, createTask]
  | setResultHandler hp => simp [h.fetched, hp, setResultHandler]
  | complete hp => simp [h.fetched, complete]
  | takeHandler hp =>
    simp only [takeHandler]
    split <;> simp [h.fetched]
  | @finalize p part res hp =>
    cases p with
    | loop =>
      cases part with
      | exchange =>
        simp only [finalize]
        split <;> simp [h.fetched]
      | record | send | delete => simp [h.fetched, finalize]
    | attach =>
      cases part with
      | exchange =>
        simp only [finalize]
        split <;> simp [h.fetched, hp]
      | record | send | delete => simp [h.fetched, finalize, hp]

theorem fetches_step (h : History as s) (hc : Calls platform job s c s') {part : Part} {r : Result}
    (hf : s'.place .attach = .finalizing part r) : .lastResult ∈ as ++ [c] := by
  cases hc with
  | lastResult hp => simp
  | createTask hp => simp [createTask] at hf
  | setResultHandler hp => simp [setResultHandler] at hf
  | state hp =>
    simp only [checkState, setPlace_self] at hf
    split at hf <;> cases hf
  | complete hp => exact List.mem_append_left _ (h.fetches part r (by simpa [complete] using hf))
  | takeHandler hp =>
    refine List.mem_append_left _ (h.fetches part r ?_)
    simp only [takeHandler] at hf
    split at hf <;> simpa using hf
  | @finalize p part' res hp =>
    refine List.mem_append_left _ ?_
    cases p with
    | attach => exact h.fetches part' res hp
    | loop =>
      refine h.fetches part r ?_
      cases part' with
      | exchange =>
        simp only [finalize] at hf
        split at hf <;> simpa using hf
      | record | send | delete => simpa [finalize] using hf

/-- Until the handler is installed, and until the loop completes, nobody deletes. -/
theorem dangling_call (h : History as s) (ho : Once platform job out s) (hi : InStep job out s)
    (hc : Calls platform job s c s') (hon : c.onPipeline = true) (hd : 0 < s.deletes) :
    c ∈ [Call.state, .lastResult, .takeHandler] := by
  cases hc with
  | state | lastResult | takeHandler => simp
  | createTask | finalize => cases hon
  | setResultHandler hp =>
    have := (ho.unset (hi.early (by rw [hp]; rfl)).2.1).2.2
    omega
  | complete hp =>
    obtain ⟨p, hm⟩ := h.deletes.mp hd
    cases p with
    | loop =>
      have := h.before _ hm
      simp [hp] at this
    | attach =>
      have := (h.fetched.mpr (.inr (h.finalizes _ hm))).mem.1
      exact absurd hp ((complete_mem_iff h hi).mp this)

theorem history_step (h : History as s) (ho : Once platform job out s) (hi : InStep job out s)
    (hc : Calls platform job s c s') : History (as ++ [c]) s' := by
  obtain ⟨pl, hplace, hrank, hlt, hskip⟩ := calls_moves hc
  obtain ⟨hfinished, hdeletes, hdangling⟩ := calls_effect hc
  have hself : s'.place c.party = pl := by rw [hplace, setPlace_self]
  have hother : ∀ q, q ≠ c.party → s'.place q = s.place q := by
    intro q hq
    rw [hplace, setPlace_of_ne _ _ hq]
  have hnew : c ∉ as := fun hmem => absurd (h.before c hmem) (by omega)
  refine ⟨?_, ?_, ?_, ?_, ?_, ?_, ?_, ?_, ?_, ?_⟩
  · rw [List.nodup_append]
    simpa using ⟨h.nodup, fun a ha e => hnew (e ▸ ha)⟩
  · intro d hd
    rcases List.mem_append.mp hd with hd | hd
    · have := h.before d hd
      by_cases hp : d.party = c.party
      · rw [hp, hself]
        rw [hp, hrank] at this
        omega
      · rwa [hother _ hp]
    · cases List.mem_singleton.mp hd
      rwa [hself]
  · intro d hd d' hd' hp hr
    rw [precedes_snoc]
    rcases List.mem_append.mp hd with hd | hd
    · rcases List.mem_append.mp hd' with hd' | hd'
      · exact .inl (h.ordered d hd d' hd' hp hr)
      · exact .inr ⟨hd, (List.mem_singleton.mp hd').symm⟩
    · cases List.mem_singleton.mp hd
      rcases List.mem_append.mp hd' with hd' | hd'
      · have := h.before d' hd'
        rw [← hp, hrank] at this
        omega
      · cases List.mem_singleton.mp hd'
        omega
  · intro d ha hd
    rw [List.mem_append, List.mem_singleton]
    by_cases hp : d.party = c.party
    · rw [hp, hself] at hd
      have hlast := Call.rank_le_lastRank ha
      rw [hp] at hlast
      rcases (show d.rank ≤ c.rank by omega).lt_or_eq with hlt | heq
      · exact .inl (h.made d ha (by rw [hp, hrank]; exact hlt))
      · exact .inr (call_eq hp heq)
    · rw [hother _ hp] at hd
      exact .inl (h.made d ha hd)
  · exact fetched_step h hi hc
  · exact fun part r hf => fetches_step h hc hf
  · intro part hm
    rw [List.mem_append]
    rcases List.mem_append.mp hm with hm | hm
    · exact .inl (h.finalizes part hm)
    · cases List.mem_singleton.mp hm
      cases hc with
      | finalize hp => exact .inl (h.fetches _ _ hp)
  · intro p hm
    rcases List.mem_append.mp hm with hm | hm
    · exact hfinished p (h.deleted p hm)
    · cases List.mem_singleton.mp hm
      cases hc with
      | finalize hp => exact hfinished p (ho.owner _ _ _ hp nofun)
  · rw [hdeletes]
    constructor
    · intro hd
      by_cases hx : c.isDelete = true
      · obtain ⟨p, rfl⟩ := Call.isDelete_iff.mp hx
        exact ⟨p, by simp⟩
      · rw [if_neg hx] at hd
        obtain ⟨p, hm⟩ := h.deletes.mp hd
        exact ⟨p, List.mem_append_left _ hm⟩
    · rintro ⟨p, hm⟩
      rcases List.mem_append.mp hm with hm | hm
      · have := h.deletes.mpr ⟨p, hm⟩
        split <;> omega
      · rw [if_pos (Call.isDelete_iff.mpr ⟨p, (List.mem_singleton.mp hm).symm⟩)]
        omega
  · rw [hdangling]
    by_cases hx : c.onPipeline = true ∧ 0 < s.deletes
    · obtain ⟨p, hm⟩ := h.deletes.mp hx.2
      rw [if_pos hx]
      refine ⟨nofun, fun hall => ?_⟩
      have hd := dangling_call h ho hi hc hx.1 hx.2
      exact absurd (precedes_snoc.mpr (.inr ⟨hm, rfl⟩)) (hall p c hd)
    · rw [if_neg hx, h.dangling]
      refine forall_congr' fun p => forall₂_congr fun d hd => ?_
      rw [precedes_snoc, not_or, iff_self_and]
      rintro - ⟨hm, rfl⟩
      refine hx ⟨?_, h.deletes.mpr ⟨p, hm⟩⟩
      revert hd
      cases c <;> simp [Call.onPipeline]

/-- What holds after every run. -/
theorem sound_run {m : Machine} (hp : m.pipe.state.ended = false) (hh : m.pipe.handler = false)
    (hr : Runs (Calls platform job) (create m) as s) :
    History as s ∧ Once platform job (m.outcome job.signal.state job.signal job.result) s ∧
      InStep job (m.outcome job.signal.state job.signal job.result) s := by
  have := hr.along (I := fun as s => History as s ∧
      Once platform job (m.outcome job.signal.state job.signal job.result) s ∧
      InStep job (m.outcome job.signal.state job.signal job.result) s)
    (fun ⟨h, ho, hi⟩ hc => ⟨history_step h ho hi hc, once_step ho hi hc, inStep_step hi ho hc⟩)
    ⟨history_create m, once_create m, inStep_create hp hh⟩
  rwa [List.nil_append] at this

/-- As long as a thread has not returned, a call is possible. -/
theorem can_call (hi : InStep job out s)
    (h : s.place .attach = .returned → s.place .loop ≠ .returned) :
    ∃ c s', Calls platform job s c s' := by
  have ha := hi.fits .attach
  have hl := hi.fits .loop
  cases hpa : s.place .attach with
  | creating => exact ⟨_, _, .createTask hpa⟩
  | installing => exact ⟨_, _, .setResultHandler hpa⟩
  | checking => exact ⟨_, _, .state hpa⟩
  | fetching => exact ⟨_, _, .lastResult hpa⟩
  | finalizing => exact ⟨_, _, .finalize hpa⟩
  | completing | taking =>
    rw [hpa] at ha
    exact ha.elim
  | returned =>
    cases hpl : s.place .loop with
    | completing => exact ⟨_, _, .complete hpl⟩
    | taking => exact ⟨_, _, .takeHandler hpl⟩
    | finalizing => exact ⟨_, _, .finalize hpl⟩
    | returned => exact absurd hpl (h hpa)
    | creating | installing | checking | fetching =>
      rw [hpl] at hl
      exact hl.elim

/-- One event, the task node as the delivered result has it, and one deletion. -/
structure Delivered (platform : Platform) (job : Job) (out : Result) (s : Detached) : Prop where
  task : s.task = some (job.created.finish platform out)
  sent : s.sent = [job.event platform out]
  deletes : s.deletes = 1

theorem delivered (ho : Once platform job out s) (hi : InStep job out s)
    (ha : s.place .attach = .returned) (hl : s.place .loop = .returned) :
    Delivered platform job out s := by
  cases hf : s.finished with
  | none =>
    have := hi.waiting hf ha
    simp [hl] at this
  | some p =>
    have hs := ho.stage p hf
    have hp : s.place p = .returned := by cases p <;> assumption
    rw [hp] at hs
    exact ⟨hs.1, hs.2.1, hs.2.2⟩

/-- `attach` reads the state before the completion sets it. Otherwise the one of the two finalizers
that deletes the pipeline comes to it after the last call that the other thread makes. -/
def Placed (as : List Call) : Prop :=
  Precedes as .state .complete ∨ Precedes as .lastResult (.finalize .loop .delete) ∨
    Precedes as .takeHandler (.finalize .attach .delete)

/-- Both threads have returned: nobody has used the deleted pipeline exactly when the calls were placed
well. -/
theorem dangling_iff (h : History as s) (ho : Once platform job out s) (hi : InStep job out s)
    (ha : s.place .attach = .returned) (hl : s.place .loop = .returned) :
    s.dangling = [] ↔ Placed as := by
  have hn := h.nodup
  have hstate : .state ∈ as := h.made _ rfl (by simp [ha])
  have hcomp : .complete ∈ as := h.made _ rfl (by simp [hl])
  have htake : .takeHandler ∈ as := h.made _ rfl (by simp [hl])
  rw [h.dangling]
  constructor
  · intro hclean
    obtain ⟨p, hm⟩ := h.deletes.mp (by rw [(delivered ho hi ha hl).deletes]; exact Nat.one_pos)
    cases p with
    | attach =>
      exact .inr (.inr ((Precedes.total htake hm nofun).resolve_right (hclean _ _ (by simp))))
    | loop =>
      rcases Precedes.total hstate hcomp nofun with hsc | hcs
      · exact .inl hsc
      · have hlast := (h.fetched.mp hcs).resolve_left (by rw [ha]; nofun)
        exact .inr (.inl ((Precedes.total hlast hm nofun).resolve_right (hclean _ _ (by simp))))
  · intro hplaced p d hd hpd
    have hm := hpd.mem.1
    -- The other thread does not delete.
    have hone : ∀ q, .finalize q .delete ∈ as → q = p := fun q hq =>
      Option.some.inj ((h.deleted _ hq).symm.trans (h.deleted _ hm))
    cases p with
    | attach =>
      have hlast := h.finalizes _ hm
      have hcs := h.fetched.mpr (.inr hlast)
      rcases List.mem_cons.mp hd with rfl | hd
      · exact (h.ordered _ hstate _ hm rfl (by simp)).asymm hn hpd
      rcases List.mem_cons.mp hd with rfl | hd
      · exact (h.ordered _ hlast _ hm rfl (by simp)).asymm hn hpd
      cases List.mem_singleton.mp hd
      rcases hplaced with hp | hp | hp
      · exact hp.asymm hn hcs
      · cases hone _ hp.mem.2
      · exact hp.asymm hn hpd
    | loop =>
      have hcd := h.ordered _ hcomp _ hm rfl (by simp)
      rcases List.mem_cons.mp hd with rfl | hd
      · rcases hplaced with hp | hp | hp
        · exact (hp.trans hn hcd).asymm hn hpd
        · exact ((h.ordered _ hstate _ hp.mem.1 rfl (by simp)).trans hn hp).asymm hn hpd
        · cases hone _ hp.mem.2
      rcases List.mem_cons.mp hd with rfl | hd
      · rcases hplaced with hp | hp | hp
        · exact hp.asymm hn (h.fetched.mpr (.inr hpd.mem.2))
        · exact hp.asymm hn hpd
        · cases hone _ hp.mem.2
      · cases List.mem_singleton.mp hd
        exact (h.ordered _ htake _ hm rfl (by simp)).asymm hn hpd

/-- **Detached completion.** Whatever the order of the calls of `attach` and of the completion, when
both have returned there is one event, the task node says what the delivered result says and the
pipeline is deleted once; and nobody has used it after that exactly when the calls were placed well. -/
theorem task_completes {m : Machine} (hp : m.pipe.state.ended = false)
    (hh : m.pipe.handler = false) (hr : Runs (Calls platform job) (create m) as s)
    (ha : s.place .attach = .returned) (hl : s.place .loop = .returned) :
    Delivered platform job (m.outcome job.signal.state job.signal job.result) s ∧ s.dangling = [] ↔
      Placed as := by
  obtain ⟨h, ho, hi⟩ := sound_run hp hh hr
  rw [dangling_iff h ho hi ha hl]
  exact and_iff_right (delivered ho hi ha hl)

end History

/-- A job whose command succeeds. -/
def sampleJob : Job := ⟨ascii "job", .none, ascii "1", .cmdDone, .ok .none⟩

/-- The pipeline of one posted step, after `start`. -/
def sampleMachine : Machine :=
  (Machine.create.setPipe (Pipeline.create.addStep ⟨true, some 0⟩)).start

/-- The finalizer on the loop, with nothing between its calls. -/
def finalizerCalls : List Call := [.exchange, .record, .send, .delete].map (.finalize .loop)

/-- The completion comes when `attach` is through. -/
theorem late_completion (platform : Platform) :
    ∃ s, Runs (Calls platform sampleJob) (create sampleMachine)
      ([.createTask, .setResultHandler, .state, .complete, .takeHandler] ++ finalizerCalls) s ∧
      s.place .attach = .returned ∧ s.place .loop = .returned :=
  ⟨_, .cons (.createTask rfl) (.cons (.setResultHandler rfl) (.cons (.state rfl) (.cons (.complete rfl)
    (.cons (.takeHandler rfl) (.cons (.finalize rfl) (.cons (.finalize rfl) (.cons (.finalize rfl)
    (.single (.finalize rfl))))))))), rfl, rfl⟩

theorem task_completes_sample :
    ∃ (platform : Platform) (s : Detached), s.place .attach = .returned ∧
      s.place .loop = .returned ∧ Delivered platform sampleJob (.ok .none) s ∧ s.dangling = [] := by
  let platform : Platform := ⟨fun _ => [], fun _ => [], fun _ => 0, fun _ => 0⟩
  obtain ⟨s, hr, ha, hl⟩ := late_completion platform
  have h := task_completes (m := sampleMachine) rfl rfl hr ha hl
  exact ⟨platform, s, ha, hl, h.mpr (.inl (by decide))⟩

/-- The completion comes between `setResultHandler` and `state()`, and deletes the pipeline. -/
theorem completion_between : ¬ ∀ (platform : Platform) (job : Job) (m : Machine) (as : List Call)
    (s : Detached), m.pipe.state.ended = false → m.pipe.handler = false →
      Runs (Calls platform job) (create m) as s → s.place .attach = .returned →
      s.place .loop = .returned →
      Delivered platform job (m.outcome job.signal.state job.signal job.result) s ∧
        s.dangling = [] := by
  intro h
  let platform : Platform := ⟨fun _ => [], fun _ => [], fun _ => 0, fun _ => 0⟩
  have hr : ∃ s, Runs (Calls platform sampleJob) (create sampleMachine)
      ([.createTask, .setResultHandler, .complete, .takeHandler] ++ finalizerCalls ++
        [.state, .lastResult, .finalize .attach .exchange]) s ∧
      s.place .attach = .returned ∧ s.place .loop = .returned ∧ s.dangling = [.lastResult, .state] :=
    ⟨_, .cons (.createTask rfl) (.cons (.setResultHandler rfl) (.cons (.complete rfl)
      (.cons (.takeHandler rfl) (.cons (.finalize rfl) (.cons (.finalize rfl) (.cons (.finalize rfl)
      (.cons (.finalize rfl) (.cons (.state rfl) (.cons (.lastResult rfl)
      (.single (.finalize rfl))))))))))), rfl, rfl, rfl⟩
  obtain ⟨s, hr, ha, hl, hd⟩ := hr
  have := (h platform sampleJob sampleMachine _ s rfl rfl hr ha hl).2
  rw [hd] at this
  cases this

end Detached

end VersatileEngine
