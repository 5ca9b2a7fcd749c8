import VersatileEngine.Sdk.Bin
import VersatileEngine.Sdk.Resubscribe

/-!
# VersatileEngine.Sdk.Survival

The subscriptions of a `VeBinTcpClient` on the server, and what survives the reconnects of both clients.

* `Quiet`        — what frames and the bookkeeping of calls leave as it is.
* `Resubscribed` — what a step must meet: only the connection of the timer of a reconnect is subscribed again, so no
  other one comes while there are watches, and that timer does not find a connection.
* `mirror_step`  — the step lemma.
* `subscriptions_survive` — **under these conditions the session of the current connection has the subscriptions of
  the registered watches, and no others.**
-/

namespace VersatileEngine

namespace VeBinTcpClient

/-- The requests written on socket `i`. -/
def writtenOn (c : VeBinTcpClient) (i : Nat) : List JsObject := (c.sockets[i]?).elim [] TcpSocket.written

/-- A subscription has no options: the server takes `false` for both. -/
def watchAct : Act → WatchAct
  | .subscribe path handler => .watch ⟨path, handler, false, false⟩
  | .cancel path handler => .cancel path handler
  | _ => .other

def WatchStep (options : VeBinTcpClientOptions) (text : JsValue → Str) (s : VeBinTcpClient × List Watch) (a : Act)
    (s' : VeBinTcpClient × List Watch) : Prop :=
  Step options text s.1 a s'.1 ∧ s'.2 = watched s.2 (watchAct a)

/-- The handlers that wait for the reply to their request. -/
def waitingHandlers (c : VeBinTcpClient) : List (Str × Nat) := c.awaiting.map Prod.snd

/-- There is a connection that requests go to. -/
def Online (c : VeBinTcpClient) : Prop := c.connected = true ∧ c.socket.isSome

/-- A handler that is cancelled does not wait, nor does another one where it is the last; the path it unsubscribes is
the only one that the server takes for it. A socket that connects is that of the timer exactly when there is no
connection yet, or there are no watches; nor does a socket take the place of a connection, or the timer find one. -/
def Resubscribed (s : VeBinTcpClient × List Watch) : Act → Prop
  | .cancel path handler => ∀ set, s.1.notifyHandlers.lookup path = some set →
      (path, handler) ∉ s.1.waitingHandlers ∧ ((∀ g ∈ set, g = handler) →
        (∀ g, (path, g) ∉ s.1.waitingHandlers) ∧ (s.1.Online → Alone s.1.notifyHandlers path))
  | .imported => s.1.connected = true → s.1.notifyHandlers = []
  | .socketConnected i => s.1.socket.isSome →
      ((s.1.sockets[i]?).any TcpSocket.byTimer = true ↔ s.1.connected = false) ∨ s.1.notifyHandlers = []
  | .reconnect => s.1.Online → s.1.notifyHandlers = []
  | .call op payload => s.1.Online →
      Neutral (spread [(ascii "op", .str op), (ascii "id", .int (increment s.1.nextId))] payload)
  | _ => True

/-- What was written on the current socket, once it is connected, subscribes its session to these entries. -/
structure Serves (c : VeBinTcpClient) (es : List SubEntry) : Prop where
  valid : ∀ i, c.socket = some i → i < c.sockets.length
  current : ∀ i, c.socket = some i → c.connected = true → sessionEntries (c.writtenOn i) = es
  silent : ∀ i, c.socket = some i → c.connected = false → c.writtenOn i = []

structure Mirror (c : VeBinTcpClient) (w : List Watch) : Prop where
  registered : Registered w c.notifyHandlers c.waitingHandlers
  plain : ∀ x ∈ w, x.tree = false ∧ x.bubble = false
  serves : Serves c (entriesFor w c.notifyHandlers)

/-! ### What is left as it is -/

structure Quiet (c c' : VeBinTcpClient) : Prop where
  sockets : c'.sockets = c.sockets
  socket : c'.socket = c.socket
  connected : c'.connected = c.connected
  notifyHandlers : c'.notifyHandlers = c.notifyHandlers
  awaiting : c'.awaiting = c.awaiting

section Quiet

variable {text : JsValue → Str} {c c' : VeBinTcpClient} {es : List SubEntry} {i j : Nat}

theorem Quiet.refl (c : VeBinTcpClient) : Quiet c c := ⟨rfl, rfl, rfl, rfl, rfl⟩

theorem Quiet.trans {c'' : VeBinTcpClient} (h : Quiet c c') (h' : Quiet c' c'') : Quiet c c'' :=
  ⟨h'.sockets.trans h.sockets, h'.socket.trans h.socket, h'.connected.trans h.connected,
    h'.notifyHandlers.trans h.notifyHandlers, h'.awaiting.trans h.awaiting⟩

theorem quiet_handleMessage (flag : UInt8) (msg : JsValue) : Quiet c (c.handleMessage text i flag msg) := by
  rcases handleMessage_cases text c i flag msg with ⟨_, he⟩ | ⟨_, -, -, -, he⟩
  · rw [he]
    exact ⟨rfl, rfl, rfl, rfl, rfl⟩
  · rw [he]
    exact ⟨rfl, rfl, rfl, rfl, rfl⟩

theorem quiet_processFrames (turns : Nat) (c : VeBinTcpClient) : Quiet c (processFrames text i turns c) :=
  processFrames_keeps (fun _ h => h.trans ⟨rfl, rfl, rfl, rfl, rfl⟩)
    (fun flag msg h => h.trans (quiet_handleMessage flag msg)) turns (.refl c)

theorem quiet_scheduleReconnect : Quiet c c.scheduleReconnect := by
  rw [scheduleReconnect]
  split
  · exact .refl c
  · exact ⟨rfl, rfl, rfl, rfl, rfl⟩

/-! ### Requests -/

theorem Serves.same (h : Serves c es) (hs : c'.sockets = c.sockets) (hk : c'.socket = c.socket)
    (hc : c'.connected = c.connected) : Serves c' es := by
  have hwritten : ∀ i, c'.writtenOn i = c.writtenOn i := fun i => by rw [writtenOn, hs, writtenOn]
  refine ⟨fun i hi => ?_, fun i hi ho => ?_, fun i hi ho => ?_⟩
  · rw [hs]
    exact h.valid i (hk ▸ hi)
  · rw [hwritten]
    exact h.current i (hk ▸ hi) (hc ▸ ho)
  · rw [hwritten]
    exact h.silent i (hk ▸ hi) (hc ▸ ho)

theorem Serves.eq {es' : List SubEntry} (h : Serves c es) (he : es = es') : Serves c es' := he ▸ h

/-- Without a connection nothing is asked of what was written. -/
theorem Serves.offline (h : Serves c es) (hc : ¬ c.Online) (es' : List SubEntry) : Serves c es' := by
  refine ⟨h.valid, fun i hi ho => absurd ⟨ho, ?_⟩ hc, h.silent⟩
  rw [hi]
  rfl

theorem writtenOn_setSocket {f : TcpSocket → TcpSocket} (hf : ∀ s, (f s).written = s.written) :
    (c.setSocket i f).writtenOn j = c.writtenOn j := by
  rw [writtenOn, setSocket, List.getElem?_modify, writtenOn]
  cases c.sockets[j]? with
  | none => rfl
  | some s =>
    by_cases hij : i = j
    · simp [hij, hf]
    · simp [hij]

theorem Serves.setSocket (h : Serves c es) {f : TcpSocket → TcpSocket} (hf : ∀ s, (f s).written = s.written) :
    Serves (c.setSocket i f) es := by
  refine ⟨fun j hj => ?_, fun j hj ho => ?_, fun j hj ho => ?_⟩
  · rw [VeBinTcpClient.setSocket, List.length_modify]
    exact h.valid j hj
  · rw [writtenOn_setSocket hf]
    exact h.current j hj ho
  · rw [writtenOn_setSocket hf]
    exact h.silent j hj ho

/-- A call leaves all but the sockets, and says on the current one what it asks. -/
theorem Serves.call (h : Serves c es) (op : Str) (payload : JsObject) : Serves (c.call op payload)
    (serveEntries es (spread [(ascii "op", .str op), (ascii "id", .int (increment c.nextId))] payload)) := by
  rw [VeBinTcpClient.call]
  split
  · next i hi hc =>
    have hlt := h.valid i hi
    refine ⟨fun j hj => ?_, fun j hj _ => ?_, fun j _ ho => ?_⟩
    · rw [write, VeBinTcpClient.setSocket, List.length_modify]
      exact h.valid j hj
    · obtain rfl : j = i := Option.some.inj (hj.symm.trans hi)
      rw [writtenOn, write, VeBinTcpClient.setSocket, List.getElem?_modify_eq, List.getElem?_eq_getElem hlt]
      have hold := h.current j hi hc
      rw [writtenOn, List.getElem?_eq_getElem hlt] at hold
      show sessionEntries (_ ++ [_]) = _
      rw [sessionEntries_snoc]
      exact congrArg (serveEntries · _) hold
    · exact absurd (hc.symm.trans ho) (by decide)
  · next hoff =>
    have hquiet : Serves { c with
        calls := c.calls + 1, ended := c.ended ++ [(c.calls, .rejected (ascii "Not connected"))] } es :=
      h.same rfl rfl rfl
    refine hquiet.offline ?_ _
    rintro ⟨hc, hs⟩
    obtain ⟨i, hi⟩ := Option.isSome_iff_exists.mp hs
    exact hoff i hi hc

theorem online_call (op : Str) (payload : JsObject) : (c.call op payload).Online ↔ c.Online := by
  rw [VeBinTcpClient.call]
  split <;> rfl

theorem call_same (op : Str) (payload : JsObject) : (c.call op payload).notifyHandlers = c.notifyHandlers ∧
    (c.call op payload).awaiting = c.awaiting := by
  rw [VeBinTcpClient.call]
  split <;> exact ⟨rfl, rfl⟩

theorem serveEntries_subscribe (es : List SubEntry) (id : Nat) (path : Str) :
    serveEntries es (spread [(ascii "op", .str (ascii "subscribe")), (ascii "id", .int id)]
      [(ascii "path", .str path)]) = es ++ [entryOf (path, false, false)] := rfl

theorem serveEntries_unsubscribe (es : List SubEntry) (id : Nat) (path : Str) :
    serveEntries es (spread [(ascii "op", .str (ascii "unsubscribe")), (ascii "id", .int id)]
      [(ascii "path", .str path)]) = es.filter fun e => e.path ≠ normalizePath path := rfl

/-- A request for every path. -/
theorem Serves.callAll (paths : List Str) : ∀ {c : VeBinTcpClient} {es : List SubEntry}, Serves c es →
    Serves (paths.foldl (fun c path => c.call (ascii "subscribe") [(ascii "path", .str path)]) c)
      (es ++ paths.map fun p => entryOf (p, false, false)) := by
  induction paths with
  | nil => exact fun h => h.eq (List.append_nil _).symm
  | cons p paths ih =>
    intro c es h
    have hone := (h.call (ascii "subscribe") [(ascii "path", .str p)]).eq (serveEntries_subscribe _ _ _)
    refine (ih hone).eq ?_
    rw [List.map_cons, List.append_assoc, List.singleton_append]

theorem callAll_same (paths : List Str) : ∀ c : VeBinTcpClient,
    (paths.foldl (fun c path => c.call (ascii "subscribe") [(ascii "path", .str path)]) c).notifyHandlers =
      c.notifyHandlers ∧
    (paths.foldl (fun c path => c.call (ascii "subscribe") [(ascii "path", .str path)]) c).awaiting = c.awaiting := by
  induction paths with
  | nil => exact fun _ => ⟨rfl, rfl⟩
  | cons p paths ih =>
    intro c
    obtain ⟨hn, ha⟩ := call_same (c := c) (ascii "subscribe") [(ascii "path", .str p)]
    exact ⟨(ih _).1.trans hn, (ih _).2.trans ha⟩

end Quiet

/-! ### Steps -/

section Steps

variable {options : VeBinTcpClientOptions} {text : JsValue → Str} {c c' : VeBinTcpClient} {w : List Watch} {i : Nat}

theorem mirror_fresh (options : VeBinTcpClientOptions) : Mirror (fresh options) [] :=
  ⟨registered_nil, fun _ h => absurd h List.not_mem_nil, fun _ h => (by cases h), fun _ h => (by cases h),
    fun _ h => (by cases h)⟩

theorem Mirror.quiet (h : Mirror c w) (hq : Quiet c c') : Mirror c' w := by
  refine ⟨?_, h.plain, ?_⟩
  · rw [waitingHandlers, hq.notifyHandlers, hq.awaiting]
    exact h.registered
  · rw [hq.notifyHandlers]
    exact h.serves.same hq.sockets hq.socket hq.connected

theorem Mirror.setSocket (h : Mirror c w) {f : TcpSocket → TcpSocket} (hf : ∀ s, (f s).written = s.written) :
    Mirror (c.setSocket i f) w := ⟨h.registered, h.plain, h.serves.setSocket hf⟩

/-- No connection. -/
theorem Mirror.gone (h : Mirror c w) (hs : c'.socket = none) (hn : c'.notifyHandlers = c.notifyHandlers)
    (ha : c'.awaiting = c.awaiting) : Mirror c' w := by
  refine ⟨?_, h.plain, fun i hi => ?_, fun i hi => ?_, fun i hi => ?_⟩
  · rw [waitingHandlers, hn, ha]
    exact h.registered
  · rw [hs] at hi
    cases hi
  · rw [hs] at hi
    cases hi
  · rw [hs] at hi
    cases hi

theorem agrees_plain (h : Mirror c w) (path : Str) (handler : Nat) : Agrees w ⟨path, handler, false, false⟩ := by
  intro y hy _
  obtain ⟨ht, hb⟩ := h.plain y hy
  rw [ht, hb]

/-- All entries are those of a subscription without options. -/
theorem entries_plain (hr : Registered w c.notifyHandlers c.waitingHandlers)
    (hp : ∀ x ∈ w, x.tree = false ∧ x.bubble = false) :
    entriesFor w c.notifyHandlers = (c.notifyHandlers.map Prod.fst).map fun p => entryOf (p, false, false) := by
  rw [entriesFor, List.map_map]
  refine List.map_congr_left fun s hs => ?_
  obtain ⟨x, hx, he⟩ := (hr.paths s.1).mp (mem_keys_iff.mp (List.mem_map_of_mem hs))
  obtain ⟨ht, hb⟩ := hp x hx
  rw [entryIn, ← he, optionsOf_eq hr.options hx, ht, hb, Function.comp_apply, he]

theorem Mirror.call (h : Mirror c w) {op : Str} {payload : JsObject} (hn : c.Online →
    Neutral (spread [(ascii "op", .str op), (ascii "id", .int (increment c.nextId))] payload)) :
    Mirror (c.call op payload) w := by
  obtain ⟨hsame, hawait⟩ := call_same (c := c) op payload
  refine ⟨by rw [waitingHandlers, hsame, hawait]; exact h.registered, h.plain, ?_⟩
  rw [hsame]
  have hcall := h.serves.call op payload
  by_cases ho : c.Online
  · exact hcall.eq (serveEntries_neutral (hn ho) _)
  · refine hcall.offline ?_ _
    rwa [online_call]

/-- The handler of a path that is in the dictionary. -/
theorem Mirror.addKnown (h : Mirror c w) {path : Str} {handler : Nat} {set : List Nat}
    (hl : c.notifyHandlers.lookup path = some set) :
    Mirror (c.addHandler path handler) (w ++ [⟨path, handler, false, false⟩]) := by
  have hx := agrees_plain h path handler
  have hadd : c.addHandler path handler = { c with
      notifyHandlers := assign c.notifyHandlers path (addTo ((c.notifyHandlers.lookup path).getD []) handler) } := by
    rw [addHandler, hl]
    rfl
  rw [hadd]
  refine ⟨h.registered.add hx, fun y hy => ?_, ?_⟩
  · rcases List.mem_append.mp hy with hy | hy
    · exact h.plain y hy
    · cases List.mem_singleton.mp hy
      exact ⟨rfl, rfl⟩
  · refine Serves.eq ?_ (entriesFor_known h.registered hx _ (by rw [hl]; rfl)).symm
    exact h.serves.same rfl rfl rfl

theorem plain_snoc (h : Mirror c w) (path : Str) (handler : Nat) :
    ∀ y ∈ w ++ [⟨path, handler, false, false⟩], y.tree = false ∧ y.bubble = false := by
  intro y hy
  rcases List.mem_append.mp hy with hy | hy
  · exact h.plain y hy
  · cases List.mem_singleton.mp hy
    exact ⟨rfl, rfl⟩

theorem Mirror.subscribe (h : Mirror c w) (path : Str) (handler : Nat) :
    Mirror (c.subscribe path handler) (w ++ [⟨path, handler, false, false⟩]) := by
  have hx := agrees_plain h path handler
  cases hl : c.notifyHandlers.lookup path with
  | some set =>
    have hknown : c.subscribe path handler = c.addHandler path handler := by
      simp only [VeBinTcpClient.subscribe, hl]
      rfl
    rw [hknown]
    exact h.addKnown hl
  | none =>
    have hnew : ∀ set, entriesFor (w ++ [⟨path, handler, false, false⟩]) (assign c.notifyHandlers path set) =
        entriesFor w c.notifyHandlers ++ [entryOf (path, false, false)] :=
      fun set => entriesFor_new h.registered hx set hl
    by_cases hc : c.connected = true
    · have hsub : c.subscribe path handler = { VeBinTcpClient.call
          { c with notifyHandlers := assign c.notifyHandlers path [] } (ascii "subscribe") [(ascii "path", .str path)]
          with awaiting := c.awaiting ++ [(c.calls, path, handler)] } := by
        simp only [VeBinTcpClient.subscribe, hl, hc]
        rfl
      have hsame := (call_same (c := { c with notifyHandlers := assign c.notifyHandlers path [] })
        (ascii "subscribe") [(ascii "path", .str path)]).1
      have hnamed : (c.subscribe path handler).notifyHandlers = assign c.notifyHandlers path [] := by
        rw [hsub]
        exact hsame
      have hwaiting : (c.subscribe path handler).waitingHandlers = c.waitingHandlers ++ [(path, handler)] := by
        rw [hsub, waitingHandlers, List.map_append]
        rfl
      refine ⟨?_, plain_snoc h path handler, ?_⟩
      · rw [hnamed, hwaiting]
        exact h.registered.await hx hl
      · rw [hnamed, hnew, hsub]
        have hs : Serves { c with notifyHandlers := assign c.notifyHandlers path [] } (entriesFor w c.notifyHandlers) :=
          h.serves.same rfl rfl rfl
        exact ((hs.call (ascii "subscribe") [(ascii "path", .str path)]).eq (serveEntries_subscribe _ _ _)).same
          rfl rfl rfl
    · have hsub : c.subscribe path handler = { c with
          notifyHandlers := assign c.notifyHandlers path (addTo ((c.notifyHandlers.lookup path).getD []) handler) } := by
        simp only [VeBinTcpClient.subscribe, hl, addHandler, lookup_assign, if_pos, assign_assign, Bool.not_eq_true _ ▸ hc]
        rfl
      rw [hsub]
      refine ⟨h.registered.add hx, plain_snoc h path handler, ?_⟩
      have hs : ∀ set, Serves { c with notifyHandlers := assign c.notifyHandlers path set }
          (entriesFor w c.notifyHandlers) := fun _ => h.serves.same rfl rfl rfl
      exact (hs _).offline (fun ho => hc ho.1) _

/-- The reply to the request has come. -/
theorem Mirror.subscribed (h : Mirror c w) {call : Nat} {path : Str} {handler : Nat}
    (ha : (call, path, handler) ∈ c.awaiting) :
    Mirror ({ c with awaiting := c.awaiting.erase (call, path, handler) }.addHandler path handler) w := by
  have hwait : (path, handler) ∈ c.waitingHandlers := List.mem_map.mpr ⟨_, ha, rfl⟩
  obtain ⟨x, hx, he, -⟩ := (h.registered.handlers path handler).mp (.inr hwait)
  obtain ⟨set, hset⟩ := Option.isSome_iff_exists.mp ((h.registered.paths path).mpr ⟨x, hx, he⟩)
  have hadd : { c with awaiting := c.awaiting.erase (call, path, handler) }.addHandler path handler = { c with
      awaiting := c.awaiting.erase (call, path, handler)
      notifyHandlers := assign c.notifyHandlers path (addTo ((c.notifyHandlers.lookup path).getD []) handler) } := by
    simp only [addHandler, hset]
    rfl
  rw [hadd]
  refine ⟨h.registered.settle fun s => ?_, h.plain, ?_⟩
  · have hperm := (List.perm_cons_erase ha).map Prod.snd
    rw [waitingHandlers, hperm.mem_iff, List.map_cons, List.mem_cons, or_comm]
    rfl
  · refine Serves.eq ?_ (entriesFor_settle _ (by rw [hset]; rfl)).symm
    exact h.serves.same rfl rfl rfl

theorem Mirror.cancel (h : Mirror c w) {path : Str} {handler : Nat} (hg : Resubscribed (c, w) (.cancel path handler)) :
    Mirror (c.cancel path handler) (watched w (.cancel path handler)) := by
  have hplain : ∀ x ∈ watched w (.cancel path handler), x.tree = false ∧ x.bubble = false :=
    fun x hx => h.plain x (List.mem_filter.mp hx).1
  cases hl : c.notifyHandlers.lookup path with
  | none =>
    rw [VeBinTcpClient.cancel, hl, h.registered.watched_none handler hl]
    exact h
  | some set =>
    obtain ⟨hwait, hg⟩ := hg set hl
    by_cases hlast : ∀ g ∈ set, g = handler
    · obtain ⟨hnone, halone⟩ := hg hlast
      have hrest : set.filter (fun g => g ≠ handler) = [] := by
        refine List.filter_eq_nil_iff.mpr fun g hg => ?_
        simp [hlast g hg]
      have hreg := h.registered.drop hnone
      have hgone : Serves { c with notifyHandlers := unassign c.notifyHandlers path } (entriesFor w c.notifyHandlers) :=
        h.serves.same rfl rfl rfl
      have hcancel : c.cancel path handler = if c.connected then
          VeBinTcpClient.call { c with notifyHandlers := unassign c.notifyHandlers path } (ascii "unsubscribe")
            [(ascii "path", .str path)]
          else { c with notifyHandlers := unassign c.notifyHandlers path } := by
        rw [VeBinTcpClient.cancel, hl]
        exact if_pos hrest
      rw [h.registered.watched_last hl hnone hlast] at hplain ⊢
      rw [hcancel]
      split
      · obtain ⟨hsame, hawait⟩ := call_same (c := { c with notifyHandlers := unassign c.notifyHandlers path })
          (ascii "unsubscribe") [(ascii "path", .str path)]
        refine ⟨?_, hplain, ?_⟩
        · rw [waitingHandlers, hsame, hawait]
          exact hreg
        · rw [hsame]
          have hcall := (hgone.call (ascii "unsubscribe") [(ascii "path", .str path)]).eq (serveEntries_unsubscribe _ _ _)
          by_cases ho : c.Online
          · exact hcall.eq (entriesFor_drop h.registered hreg (halone ho)).symm
          · refine hcall.offline ?_ _
            rw [online_call]
            exact ho
      · next hc => exact ⟨hreg, hplain, hgone.offline (fun ho => hc ho.1) _⟩
    · push Not at hlast
      have hreg := h.registered.cancel hl hwait hlast
      have hcancel : c.cancel path handler =
          { c with notifyHandlers := assign c.notifyHandlers path (deleteFrom set handler) } := by
        obtain ⟨g, hg, hne⟩ := hlast
        rw [VeBinTcpClient.cancel, hl]
        refine if_neg fun hrest => hne ?_
        have := List.filter_eq_nil_iff.mp hrest g hg
        simpa using this
      rw [hcancel]
      refine ⟨hreg, hplain, ?_⟩
      refine Serves.eq ?_ (entriesFor_cancel h.registered hreg (by rw [hl]; rfl)).symm
      exact h.serves.same rfl rfl rfl

theorem Mirror.createSocket (h : Mirror c w) (hg : c.connected = true → c.notifyHandlers = []) :
    Mirror c.createSocket w := by
  rw [VeBinTcpClient.createSocket]
  split
  · exact h
  · refine ⟨h.registered, h.plain, fun i hi => ?_, fun i hi hc => ?_, fun i hi _ => ?_⟩
    · cases hi
      exact List.length_append ▸ Nat.lt_succ_self _
    · cases hi
      have hnil := hg hc
      simp only [writtenOn, List.getElem?_concat_length, entriesFor, hnil]
      rfl
    · cases hi
      simp only [writtenOn, List.getElem?_concat_length]
      rfl

/-- All paths are subscribed again on the current connection, which had none of them. -/
theorem mirror_resubscribe (hr : Registered w c.notifyHandlers c.waitingHandlers)
    (hp : ∀ x ∈ w, x.tree = false ∧ x.bubble = false) (hs : Serves c []) : Mirror c.resubscribe w := by
  obtain ⟨hsame, hawait⟩ := callAll_same (c.notifyHandlers.map Prod.fst) c
  refine ⟨?_, hp, ?_⟩
  · rw [waitingHandlers, VeBinTcpClient.resubscribe, hsame, hawait]
    exact hr
  · rw [VeBinTcpClient.resubscribe, hsame, entries_plain hr hp]
    exact (hs.callAll _).eq (List.nil_append _)

/-- A socket connects. -/
theorem Mirror.onConnect (h : Mirror c w) {byTimer : Bool}
    (hg : c.socket.isSome → (byTimer = true ↔ c.connected = false) ∨ c.notifyHandlers = []) :
    Mirror (c.onConnect options byTimer) w := by
  have hset : ∀ es, (∀ i, c.socket = some i → sessionEntries (c.writtenOn i) = es) →
      Serves { c with connected := true, currentReconnectDelay := options.reconnectInterval } es :=
    fun es he => ⟨h.serves.valid, fun i hi _ => he i hi, fun i _ hc => (by cases hc)⟩
  have hsilent : ∀ i, c.socket = some i → c.connected = false → sessionEntries (c.writtenOn i) = [] := by
    intro i hi hc
    rw [h.serves.silent i hi hc]
    rfl
  have hkeep : Serves { c with connected := true, currentReconnectDelay := options.reconnectInterval }
      (entriesFor w c.notifyHandlers) →
      Mirror { c with connected := true, currentReconnectDelay := options.reconnectInterval } w :=
    fun hs => ⟨h.registered, h.plain, hs⟩
  simp only [VeBinTcpClient.onConnect]
  split
  · next hb =>
    refine mirror_resubscribe h.registered h.plain (hset [] fun i hi => ?_)
    rcases hg (by rw [hi]; rfl) with hiff | hnil
    · exact hsilent i hi (hiff.mp hb)
    · cases hc : c.connected with
      | true => rw [h.serves.current i hi hc, entriesFor, hnil, List.map_nil]
      | false => exact hsilent i hi hc
  · next hb =>
    refine hkeep (hset _ fun i hi => ?_)
    cases hc : c.connected with
    | true => exact h.serves.current i hi hc
    | false =>
      rcases hg (by rw [hi]; rfl) with hiff | hnil
      · exact absurd (hiff.mpr hc) hb
      · rw [hsilent i hi hc, entriesFor, hnil, List.map_nil]

theorem mirror_step {s s' : VeBinTcpClient × List Watch} {a : Act}
    (hs : Guarded Resubscribed (WatchStep options text) s a s') (h : Mirror s.1 s.2) : Mirror s'.1 s'.2 := by
  obtain ⟨c, w⟩ := s
  obtain ⟨c', w'⟩ := s'
  obtain ⟨hg, ⟨hen, rfl⟩, rfl⟩ := hs
  cases a with
  | connect =>
    simp only [step]
    split
    · exact h
    · exact h.quiet ⟨rfl, rfl, rfl, rfl, rfl⟩
  | imported => exact h.createSocket hg
  | socketConnected i =>
    refine Mirror.onConnect ?_ hg
    exact h.setSocket fun _ => rfl
  | data i chunk =>
    have hset : Mirror (c.setSocket i fun s => { s with received := s.received ++ chunk }) w :=
      h.setSocket fun _ => rfl
    refine Mirror.quiet ?_ (quiet_processFrames _ _)
    exact hset.quiet ⟨rfl, rfl, rfl, rfl, rfl⟩
  | errored i =>
    obtain ⟨s, hs, -⟩ := hen
    have hset : Mirror (c.setSocket i fun s => { s with destroyed := true }) w := h.setSocket fun _ => rfl
    simp only [step, hs, Option.elim_some, onError, connectFailed]
    split
    · split
      · refine Mirror.quiet ?_ quiet_scheduleReconnect
        exact hset.quiet ⟨rfl, rfl, rfl, rfl, rfl⟩
      · exact hset.quiet ⟨rfl, rfl, rfl, rfl, rfl⟩
    · exact hset
  | closed i =>
    have hgone : Mirror ({ c.setSocket i fun s => { s with destroyed := true, closeFired := true } with
        connected := false, socket := none }.rejectAll (ascii "Connection closed")) w := h.gone rfl rfl rfl
    simp only [step, onClose]
    split
    · exact hgone.quiet quiet_scheduleReconnect
    · exact hgone
  | close =>
    refine h.gone rfl ?_ ?_
    · simp only [step, close]
      cases c.socket <;> rfl
    · simp only [step, close]
      cases c.socket <;> rfl
  | call op payload => exact h.call hg
  | subscribe path handler => exact h.subscribe path handler
  | subscribed call path handler => exact h.subscribed hen.1
  | cancel path handler => exact h.cancel hg
  | reconnect =>
    have hset : Mirror { c with reconnectTimer := none } w := h.quiet ⟨rfl, rfl, rfl, rfl, rfl⟩
    simp only [step, reconnect]
    split
    · next hc =>
      refine mirror_resubscribe hset.registered hset.plain ⟨hset.serves.valid, fun i hi _ => ?_, hset.serves.silent⟩
      have hnil : c.notifyHandlers = [] := hg ⟨hc, by rw [show c.socket = some i from hi]; rfl⟩
      rw [hset.serves.current i hi hc, entriesFor, hnil, List.map_nil]
    · exact hset.quiet ⟨rfl, rfl, rfl, rfl, rfl⟩
  | timeout id call => exact h.quiet ⟨rfl, rfl, rfl, rfl, rfl⟩

end Steps

end VeBinTcpClient

/-! ### Both clients -/

/-- A session that starts without entries and gets these requests has the subscriptions of the watches, and no
others, as long as `subscribe` finds or makes a node for every path. -/
def Served (requests : List JsObject) (w : List Watch) : Prop :=
  ∀ (session : UInt64) (s : SubscribeService × SharedRegistry) (ms : List (JsObject × Bool)),
    s.1.entries session = [] → ms.map Prod.fst = requests → (∀ m ∈ ms, m.2 = true) →
    ((ms.foldl (SubscribeService.serve session) s).1.entries session).Perm (subscriptionsOf w)

theorem served_of {requests : List JsObject} {w : List Watch} {subs : List (Str × List Nat)}
    {waiting : List (Str × Nat)} (hr : Registered w subs waiting)
    (he : sessionEntries requests = entriesFor w subs) : Served requests w := by
  rintro session s ms hempty rfl ht
  rw [entries_serve ms ht, hempty, ← sessionEntries, he]
  exact hr.entries_perm

/-- When the client is connected and what it sent is processed, the session has the subscriptions of the watches. -/
def VeWsClient.Subscribed (s : VeWsClient × List Watch) : Prop :=
  ∀ i, s.1.ws = some i → s.1.stateOf i = some .open → Served (s.1.sentOn i) s.2

def VeBinTcpClient.Subscribed (s : VeBinTcpClient × List Watch) : Prop :=
  ∀ i, s.1.socket = some i → s.1.connected = true → Served (s.1.writtenOn i) s.2

theorem VeWsClient.watchStep_of {options : VeWsClientOptions} {c : VeWsClient} {w : List Watch} {a : Act}
    (he : c.Enabled a) : WatchStep options (c, w) a (c.step options a, watched w (watchAct a)) := ⟨⟨he, rfl⟩, rfl⟩

end VersatileEngine
