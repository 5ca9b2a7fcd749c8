import VersatileEngine.Sdk.Ws

/-!
# VersatileEngine.Sdk.Connection

How many sockets a `VeWsClient` has at a time.

* `Settled`      — every socket the client created has had its close event.
* `CreatesAlone` — a socket is created only then.
* `Single`       — the invariant: at most one socket is still to close, and when the client has a
  current socket it is this one.
* `one_connection` — in runs in which every socket is created alone, at most one socket is connecting or
  open, and an event of an older socket does nothing to the current one.
* `unsettled_create_breaks` — a socket that is not created alone leads to a state or a step where one of
  the two fails.
-/

namespace VersatileEngine

namespace VeWsClient

/-- Socket `i` is connecting or open: it exists and is not closing. -/
def Running (c : VeWsClient) (i : Nat) : Prop :=
  c.stateOf i = some .connecting ∨ c.stateOf i = some .open

/-- Socket `i` has still to close. -/
def Live (c : VeWsClient) (i : Nat) : Prop := ∃ s, c.sockets[i]? = some s ∧ s.closeFired = false

def Settled (c : VeWsClient) : Prop := ∀ i, ¬ c.Live i

def CreatesAlone (c : VeWsClient) : Act → Prop
  | .connect created | .reconnect created => created = true → c.Settled
  | _ => True

/-- At most one socket that is not closing. -/
def OneConnection (c : VeWsClient) : Prop := ∀ i j, c.Running i → c.Running j → i = j

/-- A close or error event of a socket older than the current one rejects nothing that is pending, does
not close the current one and, while that is connecting or open, schedules no reconnect. -/
def Harmless (c : VeWsClient) (a : Act) (c' : VeWsClient) : Prop :=
  ∀ i s, c.ws = some i → s ≠ i → a = .errored s ∨ a = .closed s → c.Running i →
    c'.pending = c.pending ∧ c'.stateOf i = c.stateOf i ∧ c'.reconnectTimer = c.reconnectTimer

structure Single (c : VeWsClient) : Prop where
  fired : ∀ (i : Nat) (s : WebSocket), c.sockets[i]? = some s → s.closeFired = true → s.readyState = .closed
  alone : ∀ i j, c.Live i → c.Live j → i = j
  current : ∀ i j, c.ws = some i → c.Live j → j = i
  timer : c.reconnectTimer.isSome → c.intentionalClose = false

/-! ### What a step can do to the sockets -/

/-- Neither a socket nor the timer of the reconnect. -/
structure Calm (c c' : VeWsClient) : Prop where
  sockets : c'.sockets.map status = c.sockets.map status
  ws : c'.ws = c.ws
  timer : c'.reconnectTimer = c.reconnectTimer
  intentional : c'.intentionalClose = c.intentionalClose

/-- A socket later on: once its close event came it stays closed. -/
def Ages (s s' : WebSocket) : Prop :=
  (s'.closeFired = false → s.closeFired = false) ∧
    ((s.closeFired = true → s.readyState = .closed) → s'.closeFired = true → s'.readyState = .closed)

/-- No socket is created. -/
structure Aged (c c' : VeWsClient) : Prop where
  sockets : ∀ (j : Nat) (s' : WebSocket), c'.sockets[j]? = some s' → ∃ s, c.sockets[j]? = some s ∧ Ages s s'
  ws : c'.ws = c.ws ∨ c'.ws = none

section Sockets

variable {c c' c'' : VeWsClient} {i j : Nat}

theorem Calm.refl (c : VeWsClient) : Calm c c := ⟨rfl, rfl, rfl, rfl⟩

theorem Calm.trans (h : Calm c c') (h' : Calm c' c'') : Calm c c'' :=
  ⟨h'.sockets.trans h.sockets, h'.ws.trans h.ws, h'.timer.trans h.timer,
    h'.intentional.trans h.intentional⟩

theorem Sends.calm (h : Sends c c') : Calm c c' := by
  refine ⟨h.status, ?_, ?_, ?_⟩ <;>
    · rw [h.same]

theorem Calm.send (h : Calm c c') (payload : JsObject) : Calm c (c'.sendWithoutReply payload) :=
  h.trans (sends_sendWithoutReply c' payload).calm

theorem ages_of_status {s s' : WebSocket} (h : status s' = status s) : Ages s s' := by
  obtain ⟨hr, hf⟩ := Prod.mk.inj h
  exact ⟨fun h => hf ▸ h, fun h h' => hr.trans (h (hf ▸ h'))⟩

theorem Calm.aged (h : Calm c c') : Aged c c' := by
  refine ⟨fun j s' hs' => ?_, .inl h.ws⟩
  have hj := congrArg (·[j]?) h.sockets
  simp only [List.getElem?_map, hs', Option.map_some] at hj
  obtain ⟨s, hs, he⟩ := Option.map_eq_some_iff.mp hj.symm
  exact ⟨s, hs, ages_of_status he.symm⟩

theorem Aged.trans (h : Aged c c') (h' : Aged c' c'') : Aged c c'' := by
  refine ⟨fun j s'' hs'' => ?_, ?_⟩
  · obtain ⟨s', hs', ha'⟩ := h'.sockets j s'' hs''
    obtain ⟨s, hs, ha⟩ := h.sockets j s' hs'
    exact ⟨s, hs, fun hf => ha.1 (ha'.1 hf), fun hc => ha'.2 (ha.2 hc)⟩
  · rcases h'.ws with he | he
    · rw [he]
      exact h.ws
    · exact .inr he

/-- Only the sockets and the current one count. -/
theorem Aged.of (h : Aged c c') (hs : c''.sockets = c.sockets) (hw : c''.ws = c.ws) : Aged c'' c' :=
  ⟨by rw [hs]; exact h.sockets, by rw [hw]; exact h.ws⟩

theorem aged_setSocket {f : WebSocket → WebSocket}
    (hf : ∀ s, c.sockets[i]? = some s → Ages s (f s)) : Aged c (c.setSocket i f) := by
  refine ⟨fun j s' hs' => ?_, .inl rfl⟩
  rw [setSocket, List.getElem?_modify] at hs'
  obtain ⟨s, hs, rfl⟩ := Option.map_eq_some_iff.mp hs'
  refine ⟨s, hs, ?_⟩
  split_ifs with hij
  · exact hf s (hij ▸ hs)
  · exact ages_of_status rfl

theorem aged_closeWs : Aged c c.closeWs := by
  rw [closeWs]
  cases c.ws with
  | none => exact (Calm.refl c).aged
  | some i =>
    refine aged_setSocket fun s _ => ?_
    cases hr : s.readyState <;> simp [Ages, hr]

theorem calm_call (op : Str) (payload : JsObject) : Calm c (c.call op payload) := by
  rw [call]
  split
  · refine Calm.send ?_ _
    exact ⟨rfl, rfl, rfl, rfl⟩
  · exact ⟨rfl, rfl, rfl, rfl⟩

theorem calm_watch (path : Str) (handler : Nat) (immediate tree bubble : Bool) :
    Calm c (c.watch path handler immediate tree bubble) := by
  have hadd : Calm c ((c.addPath path tree bubble).addHandler path handler) := by
    have hpath : Calm c (c.addPath path tree bubble) := by
      simp only [addPath, ite_sendWithoutReply]
      split
      · exact .refl c
      · refine Calm.send ?_ _
        exact ⟨rfl, rfl, rfl, rfl⟩
    exact hpath.trans ⟨rfl, rfl, rfl, rfl⟩
  simp only [watch]
  split
  · exact hadd.trans (calm_call _ _)
  · exact hadd

theorem calm_unwatch (path : Str) : Calm c (c.unwatch path) := by
  simp only [unwatch, ite_sendWithoutReply]
  refine Calm.send ?_ _
  exact ⟨rfl, rfl, rfl, rfl⟩

theorem calm_cancel (path : Str) (handler : Nat) : Calm c (c.cancel path handler) := by
  simp only [cancel]
  split
  · exact .refl c
  · split
    · exact calm_unwatch path
    · exact ⟨rfl, rfl, rfl, rfl⟩

theorem calm_handleMessage (msg : JsValue) : Calm c (c.handleMessage msg) := by
  rcases c.handleMessage_cases msg with ⟨_, he⟩ | ⟨_, _, -, -, he⟩
  · rw [he]
    exact ⟨rfl, rfl, rfl, rfl⟩
  · rw [he]
    exact ⟨rfl, rfl, rfl, rfl⟩

theorem aged_scheduleReconnect : Aged c c.scheduleReconnect := by
  rw [scheduleReconnect]
  split_ifs
  · exact (Calm.refl c).aged
  · exact ⟨(Calm.refl c).aged.sockets, .inl rfl⟩

/-- The step creates a socket. -/
def Act.Creates (a : Act) : Prop := a = .connect true ∨ a = .reconnect true

theorem aged_setState (r : ReadyState)
    (hr : ∀ s : WebSocket, c.sockets[i]? = some s → s.closeFired = true → s.readyState = .closed → r = .closed) :
    Aged c (c.setState i r) :=
  aged_setSocket fun s hs => ⟨id, fun hc hf => hr s hs hf (hc hf)⟩

theorem aged_createConnection (created : Bool) (h : created = false) : Aged c (c.createConnection created) := by
  rw [createConnection, h]
  exact aged_scheduleReconnect

/-- A step that creates no socket. -/
theorem aged_step {options : VeWsClientOptions} {a : Act} (hs : Step options c a c') (ha : ¬ a.Creates)  :
    Aged c c' := by
  obtain ⟨hen, rfl⟩ := hs
  have hopen : ∀ {i : Nat} {r : ReadyState} {s : WebSocket}, c.stateOf i = some r → r ≠ .closed →
      c.sockets[i]? = some s → s.readyState ≠ .closed := by
    intro i r s hst hr hs he
    rw [stateOf, hs, Option.map_some, he] at hst
    exact hr (Option.some.inj hst).symm
  cases a with
  | connect created =>
    have hfalse : created = false := by simpa [Act.Creates] using ha
    exact (aged_createConnection created hfalse).of rfl rfl
  | reconnect created =>
    have hfalse : created = false := by simpa [Act.Creates] using ha
    exact (aged_createConnection created hfalse).of rfl rfl
  | disconnect =>
    simp only [step, disconnect]
    exact ⟨((aged_closeWs (c := rejectAll _ _)).of rfl rfl).sockets, .inr rfl⟩
  | call op payload => exact (calm_call op payload).aged
  | watch path handler immediate tree bubble => exact (calm_watch path handler immediate tree bubble).aged
  | cancel path handler => exact (calm_cancel path handler).aged
  | unwatch path => exact (calm_unwatch path).aged
  | opened i =>
    refine Aged.trans (aged_setState .open fun s hs _ he => absurd he (hopen hen (by simp) hs)) ?_
    refine ((sends_foldl resubscribeMessage _ _).calm.aged).of rfl rfl
  | dropped i =>
    refine aged_setState .closing fun s hs _ he => ?_
    rcases hen with hen | hen
    · exact absurd he (hopen hen (by simp) hs)
    · exact absurd he (hopen hen (by simp) hs)
  | errored i => exact Aged.trans (aged_setState .closed fun _ _ _ _ => rfl) aged_closeWs
  | closed i =>
    have hset : Aged c (c.setSocket i fun s => { s with readyState := .closed, closeFired := true }) :=
      aged_setSocket fun s _ => ⟨fun h => (by cases h), fun _ _ => rfl⟩
    refine hset.trans ?_
    simp only [step, onclose]
    split_ifs
    · exact (Calm.refl _).aged.of rfl rfl
    · exact aged_scheduleReconnect.of rfl rfl
  | message i msg => exact (calm_handleMessage msg).aged
  | timeout id call => exact (Calm.refl _).aged.of rfl rfl

/-- A reconnect is only scheduled for a client that is not to stay disconnected. -/
def TimerWanted (c : VeWsClient) : Prop := c.reconnectTimer.isSome → c.intentionalClose = false

theorem Calm.timerWanted (h : Calm c c') (hc : c.TimerWanted) : c'.TimerWanted := by
  rw [TimerWanted, h.timer, h.intentional]
  exact hc

theorem timerWanted_closeWs (hc : c.TimerWanted) : c.closeWs.TimerWanted := by
  rw [closeWs]
  cases c.ws <;> exact hc

theorem timerWanted_createConnection {created : Bool} (hc : c.intentionalClose = false) :
    (c.createConnection created).TimerWanted := by
  intro _
  rw [createConnection]
  split_ifs
  · exact hc
  · rw [scheduleReconnect]
    split_ifs <;> exact hc

theorem timerWanted_step {options : VeWsClientOptions} {a : Act} (hs : Step options c a c')
    (hc : c.TimerWanted) : c'.TimerWanted := by
  obtain ⟨hen, rfl⟩ := hs
  cases a with
  | connect created => exact timerWanted_createConnection rfl
  | disconnect => exact timerWanted_closeWs fun h => (by cases h)
  | call op payload => exact (calm_call op payload).timerWanted hc
  | watch path handler immediate tree bubble =>
    exact (calm_watch path handler immediate tree bubble).timerWanted hc
  | cancel path handler => exact (calm_cancel path handler).timerWanted hc
  | unwatch path => exact (calm_unwatch path).timerWanted hc
  | opened i => exact (sends_foldl resubscribeMessage _ _).calm.timerWanted hc
  | dropped i => exact hc
  | errored i => exact timerWanted_closeWs hc
  | closed i =>
    simp only [step, onclose]
    split_ifs with hi
    · exact hc
    · intro _
      rw [scheduleReconnect]
      split_ifs <;> exact Bool.eq_false_iff.mpr hi
  | message i msg => exact (calm_handleMessage msg).timerWanted hc
  | reconnect created => exact timerWanted_createConnection (hc hen)
  | timeout id call => exact hc

theorem Aged.live (h : Aged c c') (hl : c'.Live i) : c.Live i := by
  obtain ⟨s', hs', hf'⟩ := hl
  obtain ⟨s, hs, ha⟩ := h.sockets i s' hs'
  exact ⟨s, hs, ha.1 hf'⟩

/-! ### The invariant -/

theorem single_aged (hi : Single c) (h : Aged c c') (ht : c'.TimerWanted) : Single c' := by
  refine ⟨fun i s' hs' => ?_, fun i j hl hl' => hi.alone i j (h.live hl) (h.live hl'),
    fun i j hw hl => ?_, ht⟩
  · obtain ⟨s, hs, ha⟩ := h.sockets i s' hs'
    exact ha.2 (hi.fired i s hs)
  · rcases h.ws with he | he
    · exact hi.current i j (he ▸ hw) (h.live hl)
    · rw [he] at hw
      cases hw

/-- A socket that is created alone is the only one that has still to close. -/
theorem single_created (hi : Single c) (hset : c.Settled)
    (hsock : c'.sockets = c.sockets ++ [⟨.connecting, false, []⟩]) (hws : c'.ws = some c.sockets.length)
    (ht : c'.TimerWanted) : Single c' := by
  have hlive : ∀ j, c'.Live j → j = c.sockets.length := by
    rintro j ⟨s, hs, hf⟩
    rw [hsock] at hs
    rcases Nat.lt_or_ge j c.sockets.length with hj | hj
    · rw [List.getElem?_append_left hj] at hs
      exact absurd ⟨s, hs, hf⟩ (hset j)
    · have hlt := (List.getElem?_eq_some_iff.mp hs).1
      rw [List.length_append, List.length_singleton] at hlt
      omega
  refine ⟨fun i s hs hf => ?_, fun i j hl hl' => (hlive i hl).trans (hlive j hl').symm,
    fun i j hw hl => ?_, ht⟩
  · rw [hsock] at hs
    rcases Nat.lt_or_ge i c.sockets.length with hj | hj
    · rw [List.getElem?_append_left hj] at hs
      exact hi.fired i s hs hf
    · rw [List.getElem?_append_right hj] at hs
      have := List.mem_singleton.mp (List.mem_of_getElem? hs)
      subst this
      cases hf
  · rw [hlive j hl]
    exact Option.some.inj (hws.symm.trans hw)

theorem single_step {options : VeWsClientOptions} {a : Act}
    (hs : Guarded CreatesAlone (Step options) c a c') (hi : Single c) : Single c' := by
  obtain ⟨hg, hs⟩ := hs
  have ht := timerWanted_step hs hi.timer
  by_cases ha : a.Creates
  · obtain ⟨-, rfl⟩ := hs
    rcases ha with rfl | rfl
    · exact single_created hi (hg rfl) rfl rfl ht
    · exact single_created hi (hg rfl) rfl rfl ht
  · exact single_aged hi (aged_step hs ha) ht

theorem single_fresh (options : VeWsClientOptions) : Single (fresh options) := by
  have hnone : ∀ j, ¬ (fresh options).Live j := by
    rintro j ⟨s, hs, -⟩
    cases hs
  exact ⟨fun i s hs => (by cases hs), fun i j hl => absurd hl (hnone i), fun i j hw => (by cases hw),
    fun h => (by cases h)⟩

theorem Single.running (hi : Single c) (h : c.Running i) : c.Live i := by
  have hst : ∃ s, c.sockets[i]? = some s ∧ s.readyState ≠ .closed := by
    rcases h with h | h
    · obtain ⟨s, hs, he⟩ := Option.map_eq_some_iff.mp h
      exact ⟨s, hs, by rw [he]; simp⟩
    · obtain ⟨s, hs, he⟩ := Option.map_eq_some_iff.mp h
      exact ⟨s, hs, by rw [he]; simp⟩
  obtain ⟨s, hs, hne⟩ := hst
  refine ⟨s, hs, Bool.eq_false_iff.mpr fun hf => hne (hi.fired i s hs hf)⟩

end Sockets

/-- **One live connection.** -/
theorem one_connection (options : VeWsClientOptions) {as : List Act} {c : VeWsClient}
    (hr : Runs (Guarded CreatesAlone (Step options)) (fresh options) as c) :
    c.OneConnection ∧ ∀ a c', Step options c a c' → c.Harmless a c' := by
  have hi := hr.invariant (fun hi hs => single_step hs hi) (single_fresh options)
  refine ⟨fun i j hri hrj => hi.alone i j (hi.running hri) (hi.running hrj), ?_⟩
  rintro a c' ⟨hen, -⟩ i s hw hne (rfl | rfl) -
  · exact absurd (hi.current i s hw hen) hne
  · exact absurd (hi.current i s hw hen) hne

/-- The second socket of a client is created while the first one connects. -/
theorem two_connections : ¬ ∀ (options : VeWsClientOptions) (as : List Act) (c : VeWsClient),
    Runs (Step options) (fresh options) as c →
      c.OneConnection ∧ ∀ a c', Step options c a c' → c.Harmless a c' := by
  intro h
  have hone := (h ⟨5000, 1000, 30000⟩ [.connect true, .connect true] _
    (.cons ⟨trivial, rfl⟩ (.single ⟨trivial, rfl⟩))).1
  cases hone 0 1 (.inl rfl) (.inl rfl)

/-- A client that connects, loses its socket and connects again. -/
theorem one_connection_sample : ∃ c : VeWsClient, c.ws = some 1 ∧ c.OneConnection := by
  have hfresh : (fresh ⟨5000, 1000, 30000⟩).Settled := by
    rintro j ⟨s, hs, -⟩
    cases hs
  have hlost : ∀ c : VeWsClient, c.sockets = [⟨.closed, true, []⟩] → c.Settled := by
    rintro c hc j ⟨s, hs, hf⟩
    rw [hc] at hs
    cases List.mem_singleton.mp (List.mem_of_getElem? hs)
    cases hf
  have hr : ∃ c, Runs (Guarded CreatesAlone (Step ⟨5000, 1000, 30000⟩)) (fresh ⟨5000, 1000, 30000⟩)
      [.connect true, .opened 0, .closed 0, .reconnect true] c ∧ c.ws = some 1 :=
    ⟨_, .cons ⟨fun _ => hfresh, trivial, rfl⟩ (.cons ⟨trivial, rfl, rfl⟩ (.cons ⟨trivial, ⟨_, rfl, rfl⟩, rfl⟩
      (.single ⟨fun _ => hlost _ rfl, rfl, rfl⟩))), rfl⟩
  obtain ⟨c, hr, hws⟩ := hr
  exact ⟨c, hws, (one_connection _ hr).1⟩

/-- What a socket that is not created alone leads to. -/
theorem unsettled_create_breaks {options : VeWsClientOptions} {a : Act} {c c' : VeWsClient} (hi : Single c)
    (hs : Step options c a c') (ha : a.Creates) (hset : ¬ c.Settled) :
    ∃ bs d, Runs (Step options) c' bs d ∧
      (¬ d.OneConnection ∨ ∃ b d', Step options d b d' ∧ ¬ d.Harmless b d') := by
  simp only [Settled, not_forall, not_not] at hset
  obtain ⟨j, s, hj, hf⟩ := hset
  have hlt := (List.getElem?_eq_some_iff.mp hj).1
  obtain ⟨hsock, hws, hintent⟩ : c'.sockets = c.sockets ++ [⟨.connecting, false, []⟩] ∧
      c'.ws = some c.sockets.length ∧ c'.intentionalClose = false := by
    obtain ⟨hen, rfl⟩ := hs
    rcases ha with rfl | rfl
    · exact ⟨rfl, rfl, rfl⟩
    · exact ⟨rfl, rfl, hi.timer hen⟩
  have hj' : c'.sockets[j]? = some s := by rw [hsock, List.getElem?_append_left hlt, hj]
  have hnew : c'.Running c.sockets.length := by
    refine .inl ?_
    rw [stateOf, hsock]
    simp
  by_cases hrun : c'.Running j
  · exact ⟨[], c', .nil, .inl fun h => absurd (h j _ hrun hnew) (Nat.ne_of_lt hlt)⟩
  · cases ht : c'.reconnectTimer with
    | none =>
      -- the close event of the older socket schedules a reconnect beside the new one
      have hclose : Step options c' (.closed j) (c'.step options (.closed j)) := ⟨⟨s, hj', hf⟩, rfl⟩
      refine ⟨[], c', .nil, .inr ⟨_, _, hclose, fun h => ?_⟩⟩
      have := (h _ j hws (Nat.ne_of_lt hlt) (.inr rfl) hnew).2.2
      simp [step, onclose, rejectAll, setSocket, hintent, scheduleReconnect, ht] at this
    | some interval =>
      -- the timer that is still running creates a third one
      have htimer : Step options c' (.reconnect true) (c'.step options (.reconnect true)) :=
        ⟨by simp [Enabled, ht], rfl⟩
      refine ⟨[.reconnect true], _, .single htimer, .inl fun h => ?_⟩
      have hold : (c'.step options (.reconnect true)).Running c.sockets.length := by
        refine .inl ?_
        simp [step, reconnect, createConnection, stateOf, hsock]
      have hthird : (c'.step options (.reconnect true)).Running c'.sockets.length := by
        refine .inl ?_
        simp [step, reconnect, createConnection, stateOf]
      have := h _ _ hold hthird
      rw [hsock, List.length_append, List.length_singleton] at this
      omega

end VeWsClient

end VersatileEngine
