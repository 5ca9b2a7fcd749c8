import VersatileEngine.Lib.Runs
import VersatileEngine.Sdk.Threads

/-!
# VersatileEngine.Sdk.Deadlock

When the receive thread and the holder of `_sub_lock` wait for each other.

* `Orderly`  — the branches that go wrong are not taken: while the holder of the lock waits for a reply the
  receive thread takes no event and starts no call that needs the lock, and the holder sends nothing while the
  receive thread waits for it.
* `WellRun`  — the invariant: request numbers grow, and outside callbacks the receive thread is in no call.

Only a returned `unsub` that drops the last callback of its path sends under the lock. `never_deadlocked_iff` is
the result; `unsub_deadlocks` is a run in which an event comes before the reply to such an `unsub`.
-/

namespace VersatileEngine

/-- In a wait of `_send`. -/
def Pc.waits : Pc → Bool
  | .waiting .. => true
  | _ => false

namespace Threads

section Orderly

variable {M : Type} (w : Wire M)

/-- A step that does not close the circle. -/
def Orderly (s : Threads) : Act M → Prop
  | .take msg => (∃ path, w.arrival msg = .changed path) → ¬ s.HolderWaits
  | .call t op => t = .receiver → op.wantsLock = true → ¬ s.HolderWaits
  | .send t .sent => s.subLock = some t → ¬ s.ReceiverWaits
  | _ => True

/-- The invariant of all runs. -/
structure WellRun (s : Threads) : Prop where
  fired : ∀ n ∈ s.fired, n ≤ s.id
  pending : ∀ n ∈ s.pending, n ≤ s.id
  receiver : s.loop = .reading ∨ (∃ path, s.loop = .locking path) ∨ (∃ path, s.loop = .copying path) ∨
    s.loop = .stopped → s.pc .receiver = .idle

end Orderly

variable {M : Type} {w : Wire M} {s s' : Threads} {t : Thread} {a : Act M}

@[simp] theorem setPc_self (s : Threads) (t : Thread) (pc : Pc) : (s.setPc t pc).pc t = pc := if_pos rfl

theorem setPc_pc (s : Threads) (t u : Thread) (pc : Pc) :
    (s.setPc t pc).pc u = if u = t then pc else s.pc u := rfl

theorem wellRun_fresh : WellRun fresh := ⟨by simp [fresh], by simp [fresh], fun _ => rfl⟩

/-! ## Steps of one thread -/

/-- A step of `t` leaves it at `pc`; it may take or give up the lock, and register a request. -/
structure Moves (s s' : Threads) (t : Thread) (pc : Pc) : Prop where
  may : s.pc t = .idle → s.mayCall t = true
  pcs : ∀ u, s'.pc u = if u = t then pc else s.pc u
  loop : s'.loop = s.loop
  fired : s'.fired = s.fired
  lock : s'.subLock = s.subLock ∨ s'.subLock = none ∨ s'.subLock = some t
  id : s.id ≤ s'.id
  pending : ∀ n ∈ s'.pending, n ∈ s.pending ∨ n ≤ s'.id

theorem Moves.holder {pc : Pc} (h : Moves s s' t pc) (hpc : pc.waits = false) (hw : s'.HolderWaits) :
    s.HolderWaits := by
  obtain ⟨u, id, key, after, hlock, hu, hf⟩ := hw
  rw [h.pcs] at hu
  rw [h.fired] at hf
  by_cases he : u = t
  · rw [if_pos he] at hu
    rw [hu] at hpc
    cases hpc
  · rw [if_neg he] at hu
    rcases h.lock with hl | hl | hl
    · exact ⟨u, id, key, after, hl ▸ hlock, hu, hf⟩
    · rw [hl] at hlock; cases hlock
    · rw [hl] at hlock
      exact absurd (Option.some.inj hlock).symm he

theorem Moves.receiver {pc : Pc} (h : Moves s s' t pc) (hpc : t = .receiver → pc.wantsLock = false)
    (hw : s'.ReceiverWaits) : s.ReceiverWaits := by
  rcases hw with ⟨path, hl⟩ | hl
  · exact .inl ⟨path, h.loop ▸ hl⟩
  · rw [h.pcs] at hl
    by_cases he : Thread.receiver = t
    · rw [if_pos he, hpc he.symm] at hl
      cases hl
    · rw [if_neg he] at hl
      exact .inr hl

/-- A thread that goes on without waiting for either closes no circle. -/
theorem Moves.safe {pc : Pc} (h : Moves s s' t pc) (hwait : pc.waits = false) (hlock : pc.wantsLock = false)
    (hd : ¬ s.Deadlocked) : ¬ s'.Deadlocked := fun hd' =>
  hd ⟨h.receiver (fun _ => hlock) hd'.1, h.holder hwait hd'.2⟩

/-- A step that registers no request and forgets none that stays. -/
theorem moves_of {pc : Pc} (hidle : s.pc t = .idle → s.mayCall t = true)
    (hpcs : ∀ u, s'.pc u = if u = t then pc else s.pc u) (hloop : s'.loop = s.loop)
    (hfired : s'.fired = s.fired)
    (hlock : s'.subLock = s.subLock ∨ s'.subLock = none ∨ s'.subLock = some t) (hid : s'.id = s.id)
    (hpending : s'.pending = s.pending) : Moves s s' t pc :=
  ⟨hidle, hpcs, hloop, hfired, hlock, Nat.le_of_eq hid.symm, fun _ hn => .inl (hpending ▸ hn)⟩

/-- The end of `_send`, from a state `g` in which only requests were registered or forgotten. -/
theorem finish_moves {g : Threads} (hidle : s.pc t = .idle → s.mayCall t = true) (hpc : g.pc = s.pc)
    (hloop : g.loop = s.loop) (hfired : g.fired = s.fired) (hlock : g.subLock = s.subLock)
    (hid : s.id ≤ g.id) (hpending : ∀ n ∈ g.pending, n ∈ s.pending ∨ n ≤ g.id) (returns : Bool)
    (after : After) : Moves s (g.finish t returns after) t .idle := by
  have hpcs : ∀ u, (g.setPc t .idle).pc u = if u = t then .idle else s.pc u := fun u => by
    rw [setPc_pc, hpc]
  cases after with
  | request => exact ⟨hidle, hpcs, hloop, hfired, .inl hlock, hid, hpending⟩
  | subscribe path callback => exact ⟨hidle, hpcs, hloop, hfired, .inl hlock, hid, hpending⟩
  | unsub => exact ⟨hidle, hpcs, hloop, hfired, .inr (.inl rfl), hid, hpending⟩

theorem mem_popPending {key : JsValue} {n : Nat} (h : n ∈ (s.popPending key).pending) : n ∈ s.pending :=
  (List.mem_filter.mp h).1

theorem acquire_moves (h : s.acquire t = some s') :
    ∃ pc, Moves s s' t pc ∧ pc.waits = false ∧ pc.wantsLock = false := by
  rw [acquire] at h
  split at h
  · cases h
  split at h
  case h_4 => cases h
  all_goals
    rename_i hpc
    cases h
    exact ⟨_, moves_of (fun hi => by rw [hpc] at hi; cases hi) (fun _ => rfl) rfl rfl (.inr (.inr rfl)) rfl rfl,
      rfl, rfl⟩

theorem enter_moves (h : s.enter t = some s') :
    ∃ pc, Moves s s' t pc ∧ pc.waits = false ∧ pc.wantsLock = false := by
  simp only [enter] at h
  split at h
  · rename_i hpc
    have hidle : s.pc t = .idle → s.mayCall t = true := fun hi => by rw [hpc] at hi; cases hi
    split at h
    · cases h
      exact ⟨_, moves_of hidle (fun _ => rfl) rfl rfl (.inr (.inl rfl)) rfl rfl, rfl, rfl⟩
    · cases h
      exact ⟨_, moves_of hidle (fun _ => rfl) rfl rfl (.inr (.inl rfl)) rfl rfl, rfl, rfl⟩
  · rename_i hpc
    have hidle : s.pc t = .idle → s.mayCall t = true := fun hi => by rw [hpc] at hi; cases hi
    split at h
    · cases h
      exact ⟨_, moves_of hidle (fun _ => rfl) rfl rfl (.inr (.inl rfl)) rfl rfl, rfl, rfl⟩
    split at h
    · cases h
      exact ⟨_, moves_of hidle (fun _ => rfl) rfl rfl (.inl rfl) rfl rfl, rfl, rfl⟩
    · cases h
      exact ⟨_, moves_of hidle (fun _ => rfl) rfl rfl (.inr (.inl rfl)) rfl rfl, rfl, rfl⟩
  · rename_i hpc
    have hidle : s.pc t = .idle → s.mayCall t = true := fun hi => by rw [hpc] at hi; cases hi
    cases h
    exact ⟨_, moves_of hidle (fun _ => rfl) rfl rfl (.inr (.inl rfl)) rfl rfl, rfl, rfl⟩
  · cases h

theorem wake_moves (h : s.wake t = some s') : Moves s s' t .idle := by
  rw [wake] at h
  split at h
  · rename_i hpc
    split at h
    · cases h
      exact finish_moves (s := s) (g := s.popPending _) (fun hi => by rw [hpc] at hi; cases hi) rfl rfl rfl rfl
        (Nat.le_refl _) (fun _ hn => .inl (mem_popPending hn)) _ _
    · cases h
  · cases h

theorem expire_moves (h : s.expire t = some s') : Moves s s' t .idle := by
  rw [expire] at h
  split at h
  · rename_i hpc
    split at h
    · cases h
    · cases h
      exact finish_moves (s := s) (g := s.popPending _) (fun hi => by rw [hpc] at hi; cases hi) rfl rfl rfl rfl
        (Nat.le_refl _) (fun _ hn => .inl (mem_popPending hn)) _ _
  · cases h

theorem begin_moves {op : Operation} (hmay : s.mayCall t = true) (h : s.begin t op = some s') :
    ∃ pc, Moves s s' t pc ∧ pc.waits = false ∧ pc.wantsLock = op.wantsLock ∧ s'.subLock = s.subLock := by
  have hset : ∀ pc, Moves s (s.setPc t pc) t pc := fun pc =>
    moves_of (fun _ => hmay) (fun _ => rfl) rfl rfl (.inl rfl) rfl rfl
  cases op with
  | subscribe path callback => cases h; exact ⟨_, hset _, rfl, rfl, rfl⟩
  | unsub path callback =>
    simp only [begin] at h
    split at h
    · cases h; exact ⟨_, hset _, rfl, rfl, rfl⟩
    · cases h
  | unsubscribe path => cases h; exact ⟨_, hset _, rfl, rfl, rfl⟩
  | request id => cases h; exact ⟨_, hset _, rfl, rfl, rfl⟩

/-- `_send` ends before the wait, or a request with a new number waits. -/
theorem send_moves {packs : Bool} {sending : MsgPackTransport.Sending} (h : s.send packs t sending = some s') :
    (sending ≠ .sent ∧ Moves s s' t .idle) ∨
      (sending = .sent ∧ s'.id = s.id + 1 ∧ s'.subLock = s.subLock ∧ (∃ id after, s.pc t = .sending id after) ∧
        ∃ key after, Moves s s' t (.waiting s'.id key after)) := by
  rw [send] at h
  split at h
  · rename_i id after hpc
    have hidle : s.pc t = .idle → s.mayCall t = true := fun hi => by rw [hpc] at hi; cases hi
    cases sending with
    | unpackable error =>
      simp only at h
      split at h
      · cases h
        exact .inl ⟨fun he => (by cases he), finish_moves (g := { s with id := s.id + 1 }) hidle rfl rfl rfl rfl
          (Nat.le_succ _) (fun _ hn => .inl hn) _ _⟩
      · cases h
    | unsent error =>
      cases h
      refine .inl ⟨fun he => (by cases he), finish_moves
        (g := popPending { s with id := s.id + 1, pending := (s.id + 1) :: s.pending } _) hidle rfl rfl rfl rfl
        (Nat.le_succ _) (fun n hn => ?_) _ _⟩
      rcases List.mem_cons.mp (mem_popPending hn) with rfl | hn
      · exact .inr (Nat.le_refl _)
      · exact .inl hn
    | sent =>
      cases h
      refine .inr ⟨rfl, rfl, rfl, ⟨id, after, hpc⟩, _, after, hidle, fun _ => rfl, rfl, rfl, .inl rfl,
        Nat.le_succ _, fun n hn => ?_⟩
      rcases List.mem_cons.mp hn with rfl | hn
      · exact .inr (Nat.le_refl _)
      · exact .inl hn
  · cases h

theorem call_moves {op : Operation} (h : Step w s (.call t op) s') :
    s.pc t = .idle ∧ ∃ pc, Moves s s' t pc ∧ pc.waits = false ∧ pc.wantsLock = op.wantsLock ∧
      s'.subLock = s.subLock := by
  simp only [Step, step] at h
  split at h
  · rename_i hidle
    split at h
    · rename_i hmay
      exact ⟨hidle, begin_moves hmay h⟩
    · cases h
  · cases h

/-! ## Steps of the loop -/

theorem take_moves {msg : M} (h : Step w s (.take msg) s') : s.loop = .reading ∧ s' = s.receive (w.arrival msg) := by
  simp only [Step, step] at h
  split at h
  · rename_i hl
    exact ⟨hl, (Option.some.inj h).symm⟩
  · cases h

theorem lock_moves (h : Step w s .lock s') :
    ∃ path, s.loop = .locking path ∧ s' = { s with loop := .copying path, subLock := some .receiver } := by
  simp only [Step, step] at h
  split at h
  · rename_i path hl
    split at h
    · cases h
    · exact ⟨path, hl, (Option.some.inj h).symm⟩
  · cases h

theorem copy_moves (h : Step w s .copy s') : ∃ path, s.loop = .copying path ∧ s' = s.copyCallbacks path := by
  simp only [Step, step] at h
  split at h
  · rename_i path hl
    exact ⟨path, hl, (Option.some.inj h).symm⟩
  · cases h

theorem next_moves (h : Step w s .next s') :
    s.pc .receiver = .idle ∧ ∃ rest, s' = { s with loop := runCallbacks rest } := by
  simp only [Step, step] at h
  split at h
  · rename_i rest hl hidle
    exact ⟨hidle, rest, (Option.some.inj h).symm⟩
  · cases h

theorem lost_moves (h : Step w s .lost s') : s.loop = .reading ∧ s' = { s with loop := .stopped } := by
  simp only [Step, step] at h
  split at h
  · rename_i hl
    exact ⟨hl, (Option.some.inj h).symm⟩
  · cases h

/-! ## The invariant -/

theorem Moves.wellRun {pc : Pc} (h : Moves s s' t pc) (hw : s.WellRun) : s'.WellRun := by
  refine ⟨fun n hn => ?_, fun n hn => ?_, fun hl => ?_⟩
  · exact Nat.le_trans (hw.fired n (h.fired ▸ hn)) h.id
  · rcases h.pending n hn with hn | hn
    · exact Nat.le_trans (hw.pending n hn) h.id
    · exact hn
  · rw [h.loop] at hl
    have hidle := hw.receiver hl
    rw [h.pcs]
    by_cases he : Thread.receiver = t
    · -- outside a callback the receive thread starts no call
      subst he
      have hmay := h.may hidle
      rw [mayCall] at hmay
      rcases hl with hl | ⟨path, hl⟩ | ⟨path, hl⟩ | hl <;> rw [hl] at hmay <;> cases hmay
    · rw [if_neg he, hidle]

theorem wellRun_receive (hw : s.WellRun) (hl : s.loop = .reading) (m : Arrival) : (s.receive m).WellRun := by
  have hidle := hw.receiver (.inl hl)
  cases m with
  | changed path => exact ⟨hw.fired, hw.pending, fun _ => hidle⟩
  | ignored => exact hw
  | raises => exact ⟨hw.fired, hw.pending, fun _ => hidle⟩
  | reply id =>
    simp only [receive, fire]
    split
    · rename_i n hn
      refine ⟨fun k hk => ?_, fun k hk => hw.pending k (List.mem_filter.mp hk).1, fun _ => hidle⟩
      rcases List.mem_cons.mp hk with rfl | hk
      · exact hw.pending _ (List.mem_of_find?_eq_some hn)
      · exact hw.fired k hk
    · exact hw

theorem runCallbacks_locking (l : List Nat) (path : JsValue) : runCallbacks l ≠ .locking path := by
  cases l <;> exact fun h => (by cases h)

theorem copyCallbacks_spec (s : Threads) (path : JsValue) :
    (s.copyCallbacks path).pc = s.pc ∧ (s.copyCallbacks path).id = s.id ∧
      (s.copyCallbacks path).pending = s.pending ∧ (s.copyCallbacks path).fired = s.fired ∧
      (s.copyCallbacks path).subLock = none ∧ ∀ p, (s.copyCallbacks path).loop ≠ .locking p := by
  have hother : ∀ p, (if hashable path then Loop.reading else .stopped) ≠ .locking p := fun p hp => by
    split at hp <;> cases hp
  cases path with
  | str p => exact ⟨rfl, rfl, rfl, rfl, rfl, runCallbacks_locking _⟩
  | _ => exact ⟨rfl, rfl, rfl, rfl, rfl, hother⟩

theorem wellRun_step (hw : s.WellRun) (h : Step w s a s') : s'.WellRun := by
  cases a with
  | call t op => obtain ⟨-, pc, hm, -⟩ := call_moves h; exact hm.wellRun hw
  | acquire t => obtain ⟨pc, hm, -⟩ := acquire_moves h; exact hm.wellRun hw
  | enter t => obtain ⟨pc, hm, -⟩ := enter_moves h; exact hm.wellRun hw
  | send t sending =>
    rcases send_moves h with ⟨-, hm⟩ | ⟨-, -, -, -, key, after, hm⟩
    · exact hm.wellRun hw
    · exact hm.wellRun hw
  | wake t => exact (wake_moves h).wellRun hw
  | expire t => exact (expire_moves h).wellRun hw
  | take msg =>
    obtain ⟨hl, rfl⟩ := take_moves h
    exact wellRun_receive hw hl _
  | lock =>
    obtain ⟨path, hl, rfl⟩ := lock_moves h
    exact ⟨hw.fired, hw.pending, fun _ => hw.receiver (.inr (.inl ⟨path, hl⟩))⟩
  | copy =>
    obtain ⟨path, hl, rfl⟩ := copy_moves h
    have hidle := hw.receiver (.inr (.inr (.inl ⟨path, hl⟩)))
    obtain ⟨hpc, hid, hpending, hfired, -, -⟩ := copyCallbacks_spec s path
    exact ⟨by rw [hfired, hid]; exact hw.fired, by rw [hpending, hid]; exact hw.pending, fun _ => hpc ▸ hidle⟩
  | next =>
    obtain ⟨hidle, rest, rfl⟩ := next_moves h
    exact ⟨hw.fired, hw.pending, fun _ => hidle⟩
  | lost =>
    obtain ⟨hl, rfl⟩ := lost_moves h
    exact ⟨hw.fired, hw.pending, fun _ => hw.receiver (.inl hl)⟩

/-! ## The circle -/

/-- A step of the loop that does not reach the lock. -/
theorem not_deadlocked_of_loop (hd : ¬ s.Deadlocked) (hpc : s'.pc = s.pc)
    (hloop : ∀ path, s'.loop ≠ .locking path)
    (hlock : s'.subLock = s.subLock ∨ s'.subLock = none) (hfired : ∀ n ∈ s.fired, n ∈ s'.fired) :
    ¬ s'.Deadlocked := by
  rintro ⟨hr, u, id, key, after, hk, hu, hf⟩
  refine hd ⟨?_, u, id, key, after, ?_, hpc ▸ hu, fun hm => hf (hfired id hm)⟩
  · rcases hr with ⟨path, hl⟩ | hr
    · exact absurd hl (hloop path)
    · exact .inr (hpc ▸ hr)
  · rcases hlock with hl | hl
    · exact hl ▸ hk
    · rw [hl] at hk; cases hk

/-- Taking a message closes the circle exactly when it is an event and the holder waits. -/
theorem deadlocked_receive (hd : ¬ s.Deadlocked) (hl : s.loop = .reading) (m : Arrival) :
    ¬ (s.receive m).Deadlocked ↔ ((∃ path, m = .changed path) → ¬ s.HolderWaits) := by
  cases m with
  | changed path =>
    constructor
    · intro hsafe _ hh
      exact hsafe ⟨.inl ⟨path, rfl⟩, hh⟩
    · rintro horderly ⟨-, hh⟩
      exact horderly ⟨path, rfl⟩ hh
  | reply id =>
    refine ⟨fun _ he => (by obtain ⟨_, he⟩ := he; cases he), fun _ => ?_⟩
    simp only [receive, fire]
    split
    · exact not_deadlocked_of_loop hd rfl (fun p hp => by rw [hl] at hp; cases hp) (.inl rfl)
        fun _ hn => List.mem_cons_of_mem _ hn
    · exact hd
  | ignored => exact ⟨fun _ he => (by obtain ⟨_, he⟩ := he; cases he), fun _ => hd⟩
  | raises =>
    exact ⟨fun _ he => (by obtain ⟨_, he⟩ := he; cases he), fun _ =>
      not_deadlocked_of_loop hd rfl (fun _ hp => (by cases hp)) (.inl rfl) fun _ hn => hn⟩

/-- **A step from a state that is not deadlocked reaches one exactly when it is not orderly.** -/
theorem deadlocked_step (hw : s.WellRun) (hd : ¬ s.Deadlocked) (h : Step w s a s') :
    ¬ s'.Deadlocked ↔ s.Orderly w a := by
  have safe : ∀ {P : Prop}, P → ¬ s'.Deadlocked → (¬ s'.Deadlocked ↔ P) := fun hp hs => ⟨fun _ => hp, fun _ => hs⟩
  cases a with
  | call t op =>
    obtain ⟨hidle, pc, hm, hwait, hlock, hk'⟩ := call_moves h
    have hholder : s.HolderWaits → s'.HolderWaits := by
      rintro ⟨u, id, key, after, hk, hu, hf⟩
      have hne : u ≠ t := fun he => by rw [he, hidle] at hu; cases hu
      exact ⟨u, id, key, after, hk' ▸ hk, by rw [hm.pcs, if_neg hne, hu], hm.fired ▸ hf⟩
    constructor
    · intro hsafe ht hop hh
      refine hsafe ⟨.inr ?_, hholder hh⟩
      rw [hm.pcs, if_pos ht.symm, hlock, hop]
    · rintro horderly ⟨hr, hh⟩
      refine hd ⟨hm.receiver (fun ht => ?_) hr, hm.holder hwait hh⟩
      cases hop : op.wantsLock with
      | false => rw [hlock, hop]
      | true => exact absurd (hm.holder hwait hh) (horderly ht hop)
  | acquire t =>
    obtain ⟨pc, hm, hwait, hlock⟩ := acquire_moves h
    exact safe trivial (hm.safe hwait hlock hd)
  | enter t =>
    obtain ⟨pc, hm, hwait, hlock⟩ := enter_moves h
    exact safe trivial (hm.safe hwait hlock hd)
  | send t sending =>
    rcases send_moves h with ⟨hne, hm⟩ | ⟨rfl, hid, hk, ⟨_, _, hpc⟩, key, after, hm⟩
    · have htrivial : s.Orderly w (.send t sending) := by
        cases sending with
        | sent => exact absurd rfl hne
        | unpackable error => trivial
        | unsent error => trivial
      exact safe htrivial (hm.safe rfl rfl hd)
    · constructor
      · intro hsafe ht hr
        refine hsafe ⟨?_, t, s'.id, key, after, hk ▸ ht, by rw [hm.pcs, if_pos rfl], fun hf => ?_⟩
        · rcases hr with ⟨path, hl⟩ | hr
          · exact .inl ⟨path, hm.loop ▸ hl⟩
          · refine .inr ?_
            have hne : Thread.receiver ≠ t := fun he => by rw [he, hpc] at hr; cases hr
            rw [hm.pcs, if_neg hne, hr]
        · have := hw.fired _ (hm.fired ▸ hf)
          omega
      · rintro horderly ⟨hr, u, id, key', after', hk', hu, hf⟩
        have hr' := hm.receiver (fun _ => rfl) hr
        rw [hk] at hk'
        by_cases he : u = t
        · exact horderly (he ▸ hk') hr'
        · rw [hm.pcs, if_neg he] at hu
          exact hd ⟨hr', u, id, key', after', hk', hu, hm.fired ▸ hf⟩
  | wake t => exact safe trivial ((wake_moves h).safe rfl rfl hd)
  | expire t => exact safe trivial ((expire_moves h).safe rfl rfl hd)
  | take msg =>
    obtain ⟨hl, rfl⟩ := take_moves h
    exact deadlocked_receive hd hl _
  | lock =>
    obtain ⟨path, hl, rfl⟩ := lock_moves h
    refine safe trivial ?_
    rintro ⟨-, u, id, key, after, hk, hu, -⟩
    cases hk
    have hidle := hw.receiver (.inr (.inl ⟨path, hl⟩))
    rw [show s.pc .receiver = _ from hu] at hidle
    cases hidle
  | copy =>
    obtain ⟨path, -, rfl⟩ := copy_moves h
    obtain ⟨hpc, -, -, hfired, hlock, hloop⟩ := copyCallbacks_spec s path
    exact safe trivial (not_deadlocked_of_loop hd hpc hloop (.inr hlock) fun _ hn => hfired ▸ hn)
  | next =>
    obtain ⟨-, rest, rfl⟩ := next_moves h
    exact safe trivial (not_deadlocked_of_loop hd rfl (runCallbacks_locking _) (.inl rfl) fun _ hn => hn)
  | lost =>
    obtain ⟨-, rfl⟩ := lost_moves h
    exact safe trivial
      (not_deadlocked_of_loop hd rfl (fun _ hp => (by cases hp)) (.inl rfl) fun _ hn => hn)

theorem not_deadlocked_fresh : ¬ Deadlocked fresh := by
  rintro ⟨-, u, id, key, after, hk, -⟩
  cases hk

/-- **No state of a run is deadlocked exactly when all its steps are orderly**, for both transports. -/
theorem never_deadlocked_iff (s : Threads) :
    (∀ as : List (Act JsValue), Runs (Step TcpJsonTransport.wire) fresh as s →
      (Runs.Always (Step TcpJsonTransport.wire) (fun s => ¬ s.Deadlocked) fresh as ↔
        Runs (Guarded (Orderly TcpJsonTransport.wire) (Step TcpJsonTransport.wire)) fresh as s)) ∧
    (∀ as : List (Act (UInt8 × Option JsValue)), Runs (Step MsgPackTransport.wire) fresh as s →
      (Runs.Always (Step MsgPackTransport.wire) (fun s => ¬ s.Deadlocked) fresh as ↔
        Runs (Guarded (Orderly MsgPackTransport.wire) (Step MsgPackTransport.wire)) fresh as s)) := by
  have hany : ∀ {M : Type} (w : Wire M) (as : List (Act M)), Runs (Step w) fresh as s →
      (Runs.Always (Step w) (fun s => ¬ s.Deadlocked) fresh as ↔
        Runs (Guarded (Orderly w) (Step w)) fresh as s) := fun w as hr =>
    hr.always_iff (fun _ _ _ _ h₁ h₂ => Option.some.inj (h₁.symm.trans h₂)) wellRun_step
      deadlocked_step wellRun_fresh not_deadlocked_fresh
  exact ⟨hany _, hany _⟩

/-- A caller subscribes and drops its subscription again; an event comes before the reply. -/
def eventFirst : List (Act JsValue) :=
  [.call (.caller 0) (.subscribe (ascii "a") 0), .acquire (.caller 0), .enter (.caller 0),
    .send (.caller 0) .sent, .take (.obj [(ascii "id", .int 1), (ascii "ok", .bool true)]), .wake (.caller 0),
    .call (.caller 0) (.unsub (ascii "a") 0), .acquire (.caller 0), .enter (.caller 0),
    .send (.caller 0) .sent,
    .take (.obj [(ascii "event", .str (ascii "node.changed")), (ascii "path", .str (ascii "a"))])]

/-- Request 2 waits under the lock, and the receive thread for the lock. -/
theorem eventFirst_deadlocked :
    ∃ s, Runs (Step TcpJsonTransport.wire) fresh eventFirst s ∧ s.Deadlocked :=
  ⟨_, .cons rfl (.cons rfl (.cons rfl (.cons rfl (.cons rfl (.cons rfl (.cons rfl (.cons rfl (.cons rfl
    (.cons rfl (.cons rfl .nil)))))))))), .inl ⟨_, rfl⟩, .caller 0, 2, .int 2, .unsub, rfl, rfl, by decide⟩

theorem never_deadlocked_sample : ∃ s, Runs (Step TcpJsonTransport.wire) fresh eventFirst s ∧
    (Runs.Always (Step TcpJsonTransport.wire) (fun s => ¬ s.Deadlocked) fresh eventFirst ↔
      Runs (Guarded (Orderly TcpJsonTransport.wire) (Step TcpJsonTransport.wire)) fresh eventFirst s) ∧
    (Runs.Always (Step MsgPackTransport.wire) (fun s => ¬ s.Deadlocked) fresh [] ↔
      Runs (Guarded (Orderly MsgPackTransport.wire) (Step MsgPackTransport.wire)) fresh [] fresh) := by
  obtain ⟨s, hr, -⟩ := eventFirst_deadlocked
  exact ⟨s, hr, (never_deadlocked_iff s).1 _ hr, (never_deadlocked_iff fresh).2 _ .nil⟩

theorem unsub_deadlocks : ¬ ∀ (as : List (Act JsValue)) (s : Threads),
    Runs (Step TcpJsonTransport.wire) fresh as s → ¬ s.Deadlocked := fun hall => by
  obtain ⟨s, hr, hd⟩ := eventFirst_deadlocked
  exact hall _ s hr hd

end Threads

end VersatileEngine
