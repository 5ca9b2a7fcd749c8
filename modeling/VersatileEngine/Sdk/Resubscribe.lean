import VersatileEngine.Sdk.Watches
import VersatileEngine.Sdk.Ws

/-!
# VersatileEngine.Sdk.Resubscribe

The subscriptions of a `VeWsClient` on the server, over all its connections.

* `WatchStep`    — a step of the client, with the watches that the application is registered for.
* `Resubscribed` — what a step must meet: `onopen` subscribes with `tree` alone and to whatever socket is current, and
  the server has one name for the spellings of a path.
* `Serves`       — what was sent on the current socket, once it is open, subscribes its session to these entries.
* `mirror_step`  — the step lemma.
-/

namespace VersatileEngine

namespace VeWsClient

/-- The messages sent on socket `i`. -/
def sentOn (c : VeWsClient) (i : Nat) : List JsObject := (c.sockets[i]?).elim [] WebSocket.sent

def watchAct : Act → WatchAct
  | .watch path handler _ tree bubble => .watch ⟨path, handler, tree, bubble⟩
  | .cancel path handler => .cancel path handler
  | .unwatch path => .unwatch path
  | _ => .other

/-- A step, and what it makes of the watches. -/
def WatchStep (options : VeWsClientOptions) (s : VeWsClient × List Watch) (a : Act) (s' : VeWsClient × List Watch) :
    Prop :=
  Step options s.1 a s'.1 ∧ s'.2 = watched s.2 (watchAct a)

/-- A path has one set of options; a path that is unsubscribed is the only one that the server takes for it; when
the current socket opens, every watch has the options of `onopen`, and no other socket opens beside it. -/
def Resubscribed (s : VeWsClient × List Watch) : Act → Prop
  | .watch path handler _ tree bubble => Agrees s.2 ⟨path, handler, tree, bubble⟩
  | .cancel path handler => s.1.connected = true → ∀ set, s.1.subscriptions.lookup path = some set →
      (∀ g ∈ set, g = handler) → Alone s.1.subscriptions path
  | .unwatch path => s.1.connected = true → Alone s.1.subscriptions path
  | .opened i => (s.1.ws = some i → ∀ x ∈ s.2, x.tree = true ∧ x.bubble = false) ∧
      (s.1.ws ≠ some i → s.1.connected = true → s.1.subscriptions = [])
  | .call op payload => s.1.connected = true →
      Neutral (spread [(ascii "op", .str op), (ascii "id", .int (increment s.1.nextId))] payload)
  | _ => True

structure Serves (c : VeWsClient) (es : List SubEntry) : Prop where
  current : ∀ i, c.ws = some i → c.stateOf i = some .open → sessionEntries (c.sentOn i) = es
  silent : ∀ i, c.stateOf i = some .connecting → c.sentOn i = []

structure Mirror (c : VeWsClient) (w : List Watch) : Prop where
  registered : Registered w c.subscriptions []
  serves : Serves c (entriesFor w c.subscriptions)

section Sockets

variable {c c' : VeWsClient} {es : List SubEntry} {i j : Nat}

theorem connected_iff : c.connected = true ↔ ∃ i, c.ws = some i ∧ c.stateOf i = some .open := by
  rw [connected, Option.any_eq_true]
  simp only [decide_eq_true_eq]

theorem Serves.same (h : Serves c es) (hs : c'.sockets = c.sockets) (hw : c'.ws = c.ws) : Serves c' es := by
  have hsent : ∀ i, c'.sentOn i = c.sentOn i := fun i => by rw [sentOn, hs, sentOn]
  have hstate : ∀ i, c'.stateOf i = c.stateOf i := fun i => by rw [stateOf, hs, stateOf]
  refine ⟨fun i hi ho => ?_, fun i hi => ?_⟩
  · rw [hsent]
    exact h.current i (hw ▸ hi) (hstate i ▸ ho)
  · rw [hsent]
    exact h.silent i (hstate i ▸ hi)

theorem sentOn_setSocket {f : WebSocket → WebSocket} (hf : ∀ s, (f s).sent = s.sent) :
    (c.setSocket i f).sentOn j = c.sentOn j := by
  rw [sentOn, setSocket, List.getElem?_modify, sentOn]
  cases c.sockets[j]? with
  | none => rfl
  | some s =>
    by_cases hij : i = j
    · simp [hij, hf]
    · simp [hij]

theorem stateOf_setSocket {f : WebSocket → WebSocket} (hne : i ≠ j) : (c.setSocket i f).stateOf j = c.stateOf j := by
  rw [stateOf, setSocket, List.getElem?_modify_ne _ _ hne, stateOf]

theorem stateOf_setSocket_self {f : WebSocket → WebSocket} :
    (c.setSocket i f).stateOf i = (c.sockets[i]?).map fun s => (f s).readyState := by
  rw [stateOf, setSocket, List.getElem?_modify_eq, Option.map_eq_map, Option.map_map]
  rfl

/-- A socket that closes. -/
theorem Serves.closing (h : Serves c es) {f : WebSocket → WebSocket} (hf : ∀ s, (f s).sent = s.sent)
    (hr : ∀ s, (f s).readyState ≠ .open ∧ (f s).readyState ≠ .connecting) : Serves (c.setSocket i f) es := by
  have hstate : ∀ {j r}, (c.setSocket i f).stateOf j = some r → r = .open ∨ r = .connecting →
      c.stateOf j = some r := by
    intro j r hj hrun
    by_cases hij : i = j
    · subst hij
      rw [stateOf_setSocket_self, Option.map_eq_some_iff] at hj
      obtain ⟨s, -, rfl⟩ := hj
      exact (hrun.elim (hr s).1 (hr s).2).elim
    · rwa [stateOf_setSocket hij] at hj
  refine ⟨fun j hj ho => ?_, fun j hj => ?_⟩
  · rw [sentOn_setSocket hf]
    exact h.current j hj (hstate ho (.inl rfl))
  · rw [sentOn_setSocket hf]
    exact h.silent j (hstate hj (.inr rfl))

theorem Serves.send (h : Serves c es) (m : JsObject) : Serves (c.sendWithoutReply m) (serveEntries es m) := by
  rw [sendWithoutReply]
  cases hw : c.ws with
  | none => exact ⟨fun i hi => absurd (hw.symm.trans hi) (by simp), h.silent⟩
  | some i =>
    by_cases hc : c.connected = true
    · obtain ⟨j, hj, ho⟩ := connected_iff.mp hc
      rw [hw] at hj
      cases hj
      have hstate : ∀ j, (c.setSocket i fun s => { s with sent := s.sent ++ [m] }).stateOf j = c.stateOf j := by
        intro j
        by_cases hij : i = j
        · subst hij
          rw [stateOf_setSocket_self]
          rfl
        · exact stateOf_setSocket hij
      obtain ⟨s, hs, -⟩ := Option.map_eq_some_iff.mp ho
      simp only [if_pos hc]
      refine ⟨fun j hj hoj => ?_, fun j hj => ?_⟩
      · have hij : j = i := Option.some.inj (hj.symm.trans hw)
        subst hij
        have hsent : (c.setSocket j fun s => { s with sent := s.sent ++ [m] }).sentOn j = c.sentOn j ++ [m] := by
          rw [sentOn, setSocket, List.getElem?_modify_eq, sentOn, hs]
          rfl
        rw [hsent, sessionEntries_snoc, h.current j hw ho]
      · rw [hstate] at hj
        have hij : i ≠ j := by
          rintro rfl
          rw [ho] at hj
          cases hj
        have hsent : (c.setSocket i fun s => { s with sent := s.sent ++ [m] }).sentOn j = c.sentOn j := by
          rw [sentOn, setSocket, List.getElem?_modify_ne _ _ hij, sentOn]
        rw [hsent]
        exact h.silent j hj
    · simp only [if_neg hc]
      exact ⟨fun j hj ho => absurd (connected_iff.mpr ⟨j, hj, ho⟩) hc, h.silent⟩

theorem Serves.eq {es' : List SubEntry} (h : Serves c es) (he : es = es') : Serves c es' := he ▸ h

theorem send_offline (hc : c.connected ≠ true) (m : JsObject) : c.sendWithoutReply m = c := by
  rw [sendWithoutReply]
  split
  · rfl
  · rw [if_neg hc]

/-- Without an open socket nothing is asked of what was sent. -/
theorem Serves.offline (h : Serves c es) (hc : c.connected ≠ true) (es' : List SubEntry) : Serves c es' :=
  ⟨fun j hj ho => absurd (connected_iff.mpr ⟨j, hj, ho⟩) hc, h.silent⟩

theorem Serves.sendAll (f : Str → JsObject) (paths : List Str) : ∀ {c : VeWsClient} {es : List SubEntry}, Serves c es →
    Serves (paths.foldl (fun c path => c.sendWithoutReply (f path)) c) ((paths.map f).foldl serveEntries es) := by
  induction paths with
  | nil => exact fun h => h
  | cons p paths ih => exact fun h => ih (h.send (f p))

theorem sendAll_offline (f : Str → JsObject) (hc : c.connected ≠ true) (paths : List Str) :
    paths.foldl (fun c path => c.sendWithoutReply (f path)) c = c := by
  induction paths with
  | nil => rfl
  | cons p paths ih => rw [List.foldl_cons, send_offline hc, ih]

theorem Serves.closeWs (h : Serves c es) : Serves c.closeWs es := by
  rw [VeWsClient.closeWs]
  cases hw : c.ws with
  | none => exact h
  | some i =>
    refine h.closing (fun s => ?_) fun s => ?_
    · cases s.readyState <;> rfl
    · cases hr : s.readyState <;> simp [hr]

theorem subscriptions_send (m : JsObject) : (c.sendWithoutReply m).subscriptions = c.subscriptions := by
  rw [(sends_sendWithoutReply c m).same]

/-- The message, on a client that is otherwise another. -/
theorem Serves.sendsTo {m : JsObject} (h : Serves c es) (hs : c'.sockets = c.sockets) (hw : c'.ws = c.ws) :
    Serves (c'.sendWithoutReply m) (serveEntries es m) := (h.same hs hw).send m

end Sockets

/-! ### Messages -/

theorem neutral_of {m : JsObject} {op : Str} (hm : textOf m (ascii "op") = op)
    (h : op ≠ ascii "subscribe" ∧ op ≠ ascii "unsubscribe" ∧ op ≠ ascii "batch") : Neutral m := by
  subst hm
  exact h

theorem serveEntries_subscribe (es : List SubEntry) (path : Str) (tree bubble : Bool) :
    serveEntries es (subscribeMessage path tree bubble) = es ++ [entryOf (path, tree, bubble)] := rfl

theorem serveEntries_resubscribe (es : List SubEntry) (path : Str) :
    serveEntries es (resubscribeMessage path) = es ++ [entryOf (path, true, false)] := rfl

theorem serveEntries_unsubscribe (es : List SubEntry) (path : Str) :
    serveEntries es (unsubscribeMessage path) = es.filter fun e => e.path ≠ normalizePath path := rfl

theorem serveEntries_resubscribeAll (paths : List Str) : ∀ es : List SubEntry,
    (paths.map resubscribeMessage).foldl serveEntries es = es ++ paths.map fun p => entryOf (p, true, false) := by
  induction paths with
  | nil => exact fun es => (List.append_nil es).symm
  | cons p paths ih =>
    intro es
    rw [List.map_cons, List.foldl_cons, ih, serveEntries_resubscribe, List.map_cons, List.append_assoc,
      List.singleton_append]

section Steps

variable {options : VeWsClientOptions} {c c' : VeWsClient} {w : List Watch}

theorem mirror_fresh (options : VeWsClientOptions) : Mirror (fresh options) [] :=
  ⟨registered_nil, fun _ h => (by cases h), fun _ h => (by cases h)⟩

theorem Mirror.same (h : Mirror c w) (hs : c'.sockets = c.sockets) (hw : c'.ws = c.ws)
    (hsub : c'.subscriptions = c.subscriptions) : Mirror c' w := by
  refine ⟨?_, ?_⟩
  · rw [hsub]
    exact h.registered
  · rw [hsub]
    exact h.serves.same hs hw

theorem Mirror.call (h : Mirror c w) {op : Str} {payload : JsObject} (hn : c.connected = true →
    Neutral (spread [(ascii "op", .str op), (ascii "id", .int (increment c.nextId))] payload)) :
    Mirror (c.call op payload) w := by
  simp only [VeWsClient.call]
  split
  · next hc =>
    refine ⟨?_, ?_⟩
    · rw [subscriptions_send]
      exact h.registered
    · rw [subscriptions_send]
      refine Serves.eq ?_ (serveEntries_neutral (hn hc) _)
      exact h.serves.sendsTo rfl rfl
  · exact h.same rfl rfl rfl

theorem Mirror.watch (h : Mirror c w) {path : Str} {handler : Nat} {tree bubble : Bool} (immediate : Bool)
    (hx : Agrees w ⟨path, handler, tree, bubble⟩) :
    Mirror (c.watch path handler immediate tree bubble) (w ++ [⟨path, handler, tree, bubble⟩]) := by
  have hreg := h.registered.add hx
  have hadd : Mirror ((c.addPath path tree bubble).addHandler path handler) (w ++ [⟨path, handler, tree, bubble⟩]) := by
    cases hl : c.subscriptions.lookup path with
    | some set =>
      have hpath : c.addPath path tree bubble = c := by
        rw [addPath, hl]
        exact if_pos rfl
      rw [hpath]
      refine ⟨hreg, ?_⟩
      refine Serves.eq ?_ (entriesFor_known h.registered hx _ (by rw [hl]; rfl)).symm
      exact h.serves.same rfl rfl
    | none =>
      have hpath : c.addPath path tree bubble =
          { c with subscriptions := assign c.subscriptions path [] }.sendWithoutReply
            (subscribeMessage path tree bubble) := by
        rw [addPath, hl]
        exact ite_sendWithoutReply _ _
      have hsubs : ((c.addPath path tree bubble).addHandler path handler).subscriptions =
          assign c.subscriptions path (addTo ((c.subscriptions.lookup path).getD []) handler) := by
        simp only [addHandler, hpath, handlers, subscriptions_send, lookup_assign, if_pos, Option.getD_some,
          assign_assign, hl, Option.getD_none]
        rfl
      refine ⟨?_, ?_⟩
      · rw [hsubs]
        exact hreg
      · rw [hsubs, entriesFor_new h.registered hx _ hl, hpath]
        have hsend : Serves ({ c with subscriptions := assign c.subscriptions path [] }.sendWithoutReply
            (subscribeMessage path tree bubble))
            (serveEntries (entriesFor w c.subscriptions) (subscribeMessage path tree bubble)) :=
          h.serves.sendsTo rfl rfl
        exact hsend.same rfl rfl
  rw [VeWsClient.watch]
  split
  · refine hadd.call fun _ => ?_
    exact neutral_of (show _ = ascii "node.get" from rfl) (by decide)
  · exact hadd

theorem Mirror.unwatch (h : Mirror c w) {path : Str} (ha : c.connected = true → Alone c.subscriptions path) :
    Mirror (c.unwatch path) (watched w (.unwatch path)) := by
  have hreg : Registered (watched w (.unwatch path)) (unassign c.subscriptions path) [] :=
    h.registered.drop fun g hg => absurd hg List.not_mem_nil
  simp only [VeWsClient.unwatch, ite_sendWithoutReply]
  refine ⟨by rw [subscriptions_send]; exact hreg, ?_⟩
  rw [subscriptions_send]
  have hsend : Serves ({ c with subscriptions := unassign c.subscriptions path }.sendWithoutReply
      (unsubscribeMessage path)) (serveEntries (entriesFor w c.subscriptions) (unsubscribeMessage path)) :=
    h.serves.sendsTo rfl rfl
  by_cases hc : c.connected = true
  · rw [entriesFor_drop h.registered hreg (ha hc)]
    exact hsend
  · refine Serves.offline hsend ?_ _
    rw [send_offline (by exact hc)]
    exact hc

theorem Mirror.cancel (h : Mirror c w) {path : Str} {handler : Nat}
    (ha : c.connected = true → ∀ set, c.subscriptions.lookup path = some set →
      (∀ g ∈ set, g = handler) → Alone c.subscriptions path) :
    Mirror (c.cancel path handler) (watched w (.cancel path handler)) := by
  have hnone : ∀ g, (path, g) ∉ ([] : List (Str × Nat)) := fun g hg => absurd hg List.not_mem_nil
  cases hl : c.subscriptions.lookup path with
  | none =>
    rw [VeWsClient.cancel, hl, h.registered.watched_none handler hl]
    exact h
  | some set =>
    by_cases hlast : ∀ g ∈ set, g = handler
    · have hrest : set.filter (fun g => g ≠ handler) = [] := by
        refine List.filter_eq_nil_iff.mpr fun g hg => ?_
        simp [hlast g hg]
      have hcancel : c.cancel path handler = c.unwatch path := by
        rw [VeWsClient.cancel, hl]
        exact if_pos hrest
      rw [hcancel, h.registered.watched_last hl hnone hlast]
      exact h.unwatch fun hc => ha hc set hl hlast
    · push Not at hlast
      have hreg := h.registered.cancel hl (hnone handler) hlast
      have hcancel : c.cancel path handler =
          { c with subscriptions := assign c.subscriptions path (deleteFrom set handler) } := by
        obtain ⟨g, hg, hne⟩ := hlast
        rw [VeWsClient.cancel, hl]
        refine if_neg fun hrest => hne ?_
        have := List.filter_eq_nil_iff.mp hrest g hg
        simpa using this
      rw [hcancel]
      refine ⟨hreg, ?_⟩
      refine Serves.eq ?_ (entriesFor_cancel h.registered hreg (by rw [hl]; rfl)).symm
      exact h.serves.same rfl rfl

theorem Mirror.closing (h : Mirror c w) {i : Nat} {f : WebSocket → WebSocket} (hf : ∀ s, (f s).sent = s.sent)
    (hr : ∀ s, (f s).readyState ≠ .open ∧ (f s).readyState ≠ .connecting) : Mirror (c.setSocket i f) w :=
  ⟨h.registered, h.serves.closing hf hr⟩

theorem Mirror.closeWs (h : Mirror c w) : Mirror c.closeWs w := by
  have hsub : c.closeWs.subscriptions = c.subscriptions := by
    rw [VeWsClient.closeWs]
    cases c.ws <;> rfl
  refine ⟨by rw [hsub]; exact h.registered, ?_⟩
  rw [hsub]
  exact h.serves.closeWs

theorem Mirror.scheduleReconnect (h : Mirror c w) : Mirror c.scheduleReconnect w := by
  rw [VeWsClient.scheduleReconnect]
  split
  · exact h
  · exact h.same rfl rfl rfl

theorem Mirror.createConnection (h : Mirror c w) (created : Bool) : Mirror (c.createConnection created) w := by
  rw [VeWsClient.createConnection]
  split
  · refine ⟨h.registered, fun i hi ho => ?_, fun i hi => ?_⟩
    · cases hi
      simp [stateOf] at ho
    · rcases Nat.lt_or_ge i c.sockets.length with hlt | hge
      · have hold := h.serves.silent i
        simp only [stateOf, sentOn, List.getElem?_append_left hlt] at hi hold ⊢
        exact hold hi
      · simp only [sentOn, List.getElem?_append_right hge]
        cases i - c.sockets.length <;> rfl
  · exact h.scheduleReconnect

/-- `onopen` subscribes the session of the current socket to every path. -/
theorem Mirror.onopen (h : Mirror c w) {i : Nat} (hi : c.stateOf i = some .connecting)
    (hg : Resubscribed (c, w) (.opened i)) : Mirror ((c.setState i .open).onopen options) w := by
  have hsubs : ((c.setState i .open).onopen options).subscriptions = c.subscriptions := by
    have hs := sends_foldl resubscribeMessage (c.subscriptions.map Prod.fst)
      { c.setState i .open with currentInterval := options.reconnectInterval }
    rw [VeWsClient.onopen]
    exact (congrArg VeWsClient.subscriptions hs.same).trans rfl
  have hsent : ∀ j, (c.setState i .open).sentOn j = c.sentOn j := fun j => sentOn_setSocket fun _ => rfl
  have hother : ∀ {j}, i ≠ j → (c.setState i .open).stateOf j = c.stateOf j := stateOf_setSocket
  have hself : (c.setState i .open).stateOf i = some .open := by
    obtain ⟨s, hs, -⟩ := Option.map_eq_some_iff.mp hi
    rw [setState, stateOf_setSocket_self, hs]
    rfl
  have hsilent : ∀ j, (c.setState i .open).stateOf j = some .connecting → (c.setState i .open).sentOn j = [] := by
    intro j hj
    by_cases hij : i = j
    · subst hij
      rw [hself] at hj
      cases hj
    · rw [hsent]
      exact h.serves.silent j (by rwa [hother hij] at hj)
  refine ⟨by rw [hsubs]; exact h.registered, ?_⟩
  rw [hsubs, VeWsClient.onopen]
  by_cases hw : c.ws = some i
  · have hfresh : Serves { c.setState i .open with currentInterval := options.reconnectInterval } [] := by
      refine Serves.same (c := c.setState i .open) ⟨fun j hj _ => ?_, hsilent⟩ rfl rfl
      have hij : j = i := Option.some.inj (hj.symm.trans hw)
      rw [hsent, hij, h.serves.silent i hi]
      rfl
    refine Serves.eq (Serves.sendAll _ _ hfresh) ?_
    rw [serveEntries_resubscribeAll, List.nil_append]
    simp only [setState, setSocket, List.map_map]
    refine List.map_congr_left fun s hs => ?_
    obtain ⟨x, hx, he⟩ := (h.registered.paths s.1).mp (mem_keys_iff.mp (List.mem_map_of_mem hs))
    obtain ⟨ht, hb⟩ := hg.1 hw x hx
    rw [entryIn, ← he, optionsOf_eq h.registered.options hx, ht, hb, Function.comp_apply, he]
  · have hkept : Serves { c.setState i .open with currentInterval := options.reconnectInterval }
        (entriesFor w c.subscriptions) := by
      refine Serves.same (c := c.setState i .open) ⟨fun j hj ho => ?_, hsilent⟩ rfl rfl
      have hij : i ≠ j := fun he => hw (he ▸ hj)
      rw [hsent]
      exact h.serves.current j hj (hother hij ▸ ho)
    by_cases hc : c.connected = true
    · have hpaths : c.subscriptions.map Prod.fst = [] := List.map_eq_nil_iff.mpr (hg.2 hw hc)
      exact (Serves.sendAll resubscribeMessage _ hkept).eq (by
        rw [show (c.setState i .open).subscriptions.map Prod.fst = [] from hpaths]
        rfl)
    · rw [sendAll_offline]
      · exact hkept
      · intro hc'
        obtain ⟨j, hj, ho⟩ := connected_iff.mp hc'
        have hij : i ≠ j := fun he => hw (he ▸ hj)
        exact hc (connected_iff.mpr ⟨j, hj, hother hij ▸ ho⟩)

theorem Mirror.handleMessage (h : Mirror c w) (msg : JsValue) : Mirror (c.handleMessage msg) w := by
  rcases c.handleMessage_cases msg with ⟨_, he⟩ | ⟨_, _, -, -, he⟩
  · rw [he]
    exact h.same rfl rfl rfl
  · rw [he]
    exact h.same rfl rfl rfl

theorem mirror_step {s s' : VeWsClient × List Watch} {a : Act} (hs : Guarded Resubscribed (WatchStep options) s a s')
    (h : Mirror s.1 s.2) : Mirror s'.1 s'.2 := by
  obtain ⟨c, w⟩ := s
  obtain ⟨c', w'⟩ := s'
  obtain ⟨hg, ⟨hen, rfl⟩, rfl⟩ := hs
  cases a with
  | connect created =>
    refine Mirror.createConnection ?_ created
    exact h.same rfl rfl rfl
  | disconnect =>
    have hrej : Mirror ({ c with intentionalClose := true, reconnectTimer := none }.rejectAll (ascii "Disconnected")) w :=
      h.same rfl rfl rfl
    exact ⟨hrej.closeWs.registered, fun _ hi => (by cases hi), hrej.closeWs.serves.silent⟩
  | call op payload => exact h.call hg
  | watch path handler immediate tree bubble => exact h.watch immediate hg
  | cancel path handler => exact h.cancel hg
  | unwatch path => exact h.unwatch hg
  | opened i => exact h.onopen hen hg
  | dropped i => exact h.closing (fun _ => rfl) fun _ => ⟨fun hr => (by cases hr), fun hr => (by cases hr)⟩
  | errored i =>
    refine Mirror.closeWs ?_
    exact h.closing (fun _ => rfl) fun _ => ⟨fun hr => (by cases hr), fun hr => (by cases hr)⟩
  | closed i =>
    have hset : Mirror (c.setSocket i fun s => { s with readyState := .closed, closeFired := true }) w :=
      h.closing (fun _ => rfl) fun _ => ⟨fun hr => (by cases hr), fun hr => (by cases hr)⟩
    have hrej : Mirror ((c.setSocket i fun s => { s with readyState := .closed, closeFired := true }).rejectAll
        (ascii "Connection closed")) w := hset.same rfl rfl rfl
    simp only [step, onclose]
    split
    · exact hrej
    · exact hrej.scheduleReconnect
  | message i msg => exact h.handleMessage msg
  | reconnect created =>
    refine Mirror.createConnection ?_ created
    exact h.same rfl rfl rfl
  | timeout id call => exact h.same rfl rfl rfl

end Steps

end VeWsClient

end VersatileEngine
