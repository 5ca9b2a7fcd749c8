import VersatileEngine.Schema.VarS
import VersatileEngine.Sdk.Ws
import VersatileEngine.Service.Bubble

/-!
# VersatileEngine.Sdk.Delivery

From a change of a node on the server to the handlers of `VeWsClient.watch`.

* `Forest.events`      — what a subscription pushes when the value of a node was set. An event has the
  normalized path of the subscription, or with `bubble` the path of the node that changed.
* `handled_event`      — the client hands an event to the handlers that it keeps under the path in it.
* `registered_run`     — a handler stays registered until the application takes it back.
* `watch_events_iff`   — when the events of a subscription reach the handler that asked for it.
-/

namespace VersatileEngine

namespace Forest

/-- The node that `subscribe` connects to: the beginning of `subscribeBubble`. -/
def subscriptionTarget (k : Nat) (f : Forest) (root : Id) (path : Str) : Option (Forest × Option Id) :=
  let normalized := normalizePath path
  if normalized = [] then some (f, some root)
  else (f.atPath k root normalized true).bind fun target =>
    match target with
    | some t => some (f, some t)
    | none => f.ensurePath k root normalized true

/-- The events for a subscription of the target `t` after the value of `n` was set. -/
def events (k : Nat) (f : Forest) (root : Id) (e : SubEntry) (t n : Id) : Option (List PushEvent) :=
  if e.bubble then f.pushes k root t n
  else if n = t ∧ f.silent n = false then
    if e.tree then (f.toTree k t).map fun s => [⟨e.path, nodeToVar .default s⟩]
    else some [⟨e.path, f.value t⟩]
  else some []

/-- The change reaches the connection of the subscription. -/
def Sees (k : Nat) (f : Forest) (bubble : Bool) (t n : Id) : Prop :=
  if bubble then f.watching n = true ∧ ∃ l, f.activate k n = some l ∧ t ∈ l
  else n = t ∧ f.silent n = false

/-- The watched path leads to the node, or to one above it. -/
def Covers (k : Nat) (f : Forest) (root : Id) (path : Str) (n : Id) : Prop :=
  ∃ t, f.subscriptionTarget k root path = some (f, some t) ∧ Climbs f.parent n t

theorem subscribeBubble_eq (k : Nat) (f : Forest) (root : Id) (path : Str) :
    f.subscribeBubble k root path = (f.subscriptionTarget k root path).bind fun r =>
      match r.2 with
      | none => some (r.1, none)
      | some t => (r.1.watchAll true k t).map fun f => (f, some t) := rfl

/-- The same result for every element. -/
theorem mapM_const {α β : Type} {o : Option β} : ∀ {l : List α} {es : List β},
    l.mapM (fun _ => o) = some es → (es = [] ↔ l = []) ∧ ∀ e ∈ es, o = some e := by
  intro l
  induction l with
  | nil =>
    intro es h
    cases h
    exact ⟨⟨fun _ => rfl, fun _ => rfl⟩, fun e he => (by cases he)⟩
  | cons a l ih =>
    intro es h
    rw [List.mapM_cons] at h
    obtain ⟨e, he, h⟩ := Option.bind_eq_some_iff.mp h
    obtain ⟨es', hes, h⟩ := Option.bind_eq_some_iff.mp h
    cases h
    refine ⟨⟨fun h => (by cases h), fun h => (by cases h)⟩, fun x hx => ?_⟩
    rcases List.mem_cons.mp hx with rfl | hx
    · exact he
    · exact (ih hes).2 x hx

/-- Every event of one change has the same path, and there is one exactly when it is seen. -/
theorem events_spec {k : Nat} {f : Forest} {root t n : Id} {e : SubEntry} {es : List PushEvent}
    (h : f.events k root e t n = some es) :
    (es ≠ [] ↔ f.Sees k e.bubble t n) ∧
      ∀ ev ∈ es, if e.bubble then f.path k n (some root) = some ev.path else ev.path = e.path := by
  rw [events] at h
  cases hb : e.bubble with
  | false =>
    simp only [hb, Bool.false_eq_true, if_false] at h ⊢
    simp only [Sees, Bool.false_eq_true, if_false]
    split_ifs at h with hn ht
    · obtain ⟨s, -, rfl⟩ := Option.map_eq_some_iff.mp h
      exact ⟨⟨fun _ => hn, fun _ => List.cons_ne_nil _ _⟩, fun ev hev => by rw [List.mem_singleton.mp hev]⟩
    · cases h
      exact ⟨⟨fun _ => hn, fun _ => List.cons_ne_nil _ _⟩, fun ev hev => by rw [List.mem_singleton.mp hev]⟩
    · cases h
      exact ⟨⟨fun h => absurd rfl h, fun h => absurd h hn⟩, fun ev hev => (by cases hev)⟩
  | true =>
    simp only [hb, if_true] at h ⊢
    simp only [Sees, if_true]
    rw [pushes] at h
    split_ifs at h with hw
    · obtain ⟨l, hl, h⟩ := Option.bind_eq_some_iff.mp h
      obtain ⟨hnil, hall⟩ := mapM_const h
      refine ⟨?_, fun ev hev => ?_⟩
      · rw [ne_eq, hnil, List.filter_eq_nil_iff]
        constructor
        · intro hex
          by_contra hno
          refine hex fun m hm he => hno ⟨hw, l, hl, ?_⟩
          rwa [← of_decide_eq_true he]
        · rintro ⟨-, l', hl', ht⟩ hex
          cases hl.symm.trans hl'
          exact hex t ht (decide_eq_true rfl)
      · obtain ⟨p, hp, rfl⟩ := Option.map_eq_some_iff.mp (hall ev hev)
        exact hp
    · cases h
      refine ⟨⟨fun h => absurd rfl h, fun h => absurd h.1 hw⟩, fun ev hev => (by cases hev)⟩

end Forest

/-! ### The client -/

namespace VeWsClient

/-- The event that `start` sends for `pushFn(session, path, value)`, as the client reads it. `parsed`
is what becomes of a value on the way. -/
def eventMessage (parsed : Var → JsValue) (e : PushEvent) : JsObject :=
  [(ascii "event", .str (ascii "node.changed")), (ascii "path", .str e.path),
    (ascii "value", parsed e.value)]

theorem receivers_event (c : VeWsClient) (parsed : Var → JsValue) (e : PushEvent) :
    c.receivers (eventMessage parsed e) = (c.handlers e.path).map fun h => (e.path, h) := rfl

/-- The handlers under the path of the event are called, with its path and its value. -/
theorem handled_event (c : VeWsClient) (parsed : Var → JsValue) (e : PushEvent) :
    (c.handleMessage (.obj (eventMessage parsed e))).handled =
      c.handled ++ (c.handlers e.path).map fun h => (h, e.path, parsed e.value) := by
  have hname : ((eventMessage parsed e).lookup (ascii "event")).isSome = true := rfl
  rw [handleMessage, if_pos hname, receivers_event, List.map_map]
  rfl

/-- The application takes back neither the handler nor the path. -/
def Keeps (path : Str) (handler : Nat) (_ : VeWsClient) : Act → Prop
  | .cancel p h => p = path → h ≠ handler
  | .unwatch p => p ≠ path
  | _ => True

section Registered

variable {c c' : VeWsClient} {path p : Str} {handler h : Nat}

theorem Sends.handlers (hs : Sends c c') : c'.handlers path = c.handlers path := by
  rw [VeWsClient.handlers, hs.same]
  rfl

@[simp] theorem call_handlers (op : Str) (payload : JsObject) :
    (c.call op payload).handlers path = c.handlers path := by
  rw [call]
  split
  · exact (sends_sendWithoutReply _ _).handlers
  · rfl

theorem handlers_assign (set : List Nat) :
    ({ c with subscriptions := assign c.subscriptions p set } : VeWsClient).handlers path =
      if path = p then set else c.handlers path := by
  rw [VeWsClient.handlers, lookup_assign]
  split_ifs <;> rfl

theorem handlers_unassign :
    ({ c with subscriptions := unassign c.subscriptions p } : VeWsClient).handlers path =
      if path = p then [] else c.handlers path := by
  rw [VeWsClient.handlers, lookup_unassign]
  split_ifs <;> rfl

@[simp] theorem addPath_handlers (tree bubble : Bool) :
    (c.addPath p tree bubble).handlers path = c.handlers path := by
  simp only [addPath, ite_sendWithoutReply]
  split_ifs with hknown
  · rfl
  · rw [(sends_sendWithoutReply _ _).handlers, handlers_assign]
    split_ifs with hp
    · subst hp
      rw [VeWsClient.handlers, Option.not_isSome_iff_eq_none.mp hknown]
      rfl
    · rfl

theorem mem_addHandler :
    h ∈ (c.addHandler p handler).handlers path ↔ h ∈ c.handlers path ∨ (path = p ∧ h = handler) := by
  simp only [addHandler]
  rw [handlers_assign]
  split_ifs with hp hmem
  · subst hp
    constructor
    · exact .inl
    · rintro (hh | ⟨-, rfl⟩)
      · exact hh
      · exact hmem
  · subst hp
    simp
  · simp [hp]

theorem mem_watch (immediate tree bubble : Bool) :
    h ∈ (c.watch p handler immediate tree bubble).handlers path ↔
      h ∈ c.handlers path ∨ (path = p ∧ h = handler) := by
  simp only [watch]
  cases immediate <;> simp [mem_addHandler]

theorem unwatch_handlers :
    (c.unwatch p).handlers path = if path = p then [] else c.handlers path := by
  simp only [unwatch, ite_sendWithoutReply]
  rw [(sends_sendWithoutReply _ _).handlers, handlers_unassign]

theorem cancel_handlers :
    (c.cancel p handler).handlers path =
      if path = p then (c.handlers p).filter fun g => g ≠ handler else c.handlers path := by
  rw [cancel]
  split
  · next hnone =>
    split_ifs with hp
    · subst hp
      rw [VeWsClient.handlers, hnone]
      rfl
    · rfl
  · next set hset =>
    have hcur : c.handlers p = set := by
      rw [VeWsClient.handlers, hset]
      rfl
    simp only [hcur]
    by_cases hrest : (set.filter fun g => g ≠ handler) = []
    · rw [if_pos hrest, unwatch_handlers, hrest]
    · rw [if_neg hrest, handlers_assign]

@[simp] theorem scheduleReconnect_handlers : c.scheduleReconnect.handlers path = c.handlers path := by
  rw [scheduleReconnect]
  split_ifs <;> rfl

@[simp] theorem createConnection_handlers (created : Bool) :
    (c.createConnection created).handlers path = c.handlers path := by
  rw [createConnection]
  split_ifs
  · rfl
  · exact scheduleReconnect_handlers

@[simp] theorem closeWs_handlers : c.closeWs.handlers path = c.handlers path := by
  rw [closeWs]
  cases c.ws <;> rfl

theorem handleMessage_handlers (msg : JsValue) :
    (c.handleMessage msg).handlers path = c.handlers path := by
  rcases c.handleMessage_cases msg with ⟨_, he⟩ | ⟨_, _, -, -, he⟩
  · rw [he]
    rfl
  · rw [he]
    rfl

/-- A handler stays registered. -/
theorem registered_step {options : VeWsClientOptions} {a : Act}
    (hs : Guarded (Keeps path handler) (Step options) c a c') (h : handler ∈ c.handlers path) :
    handler ∈ c'.handlers path := by
  obtain ⟨hk, -, rfl⟩ := hs
  cases a with
  | connect created =>
    rw [step, connect, createConnection_handlers]
    exact h
  | disconnect =>
    simp only [step, disconnect]
    exact (closeWs_handlers (c := rejectAll _ _)).symm ▸ h
  | call op payload =>
    rw [step, call_handlers]
    exact h
  | watch p g immediate tree bubble => exact (mem_watch _ _ _).mpr (.inl h)
  | cancel p g =>
    rw [step, cancel_handlers]
    split_ifs with hp
    · refine List.mem_filter.mpr ⟨hp ▸ h, ?_⟩
      simpa using fun he => hk hp.symm he.symm
    · exact h
  | unwatch p =>
    rw [step, unwatch_handlers, if_neg (Ne.symm hk)]
    exact h
  | opened i => exact (sends_foldl resubscribeMessage _ _).handlers.symm ▸ h
  | dropped i => exact h
  | errored i =>
    rw [step, onerror, closeWs_handlers]
    exact h
  | closed i =>
    simp only [step, onclose]
    split_ifs
    · exact h
    · rw [scheduleReconnect_handlers]
      exact h
  | message i msg =>
    rw [step, handleMessage_handlers]
    exact h
  | reconnect created =>
    rw [step, reconnect, createConnection_handlers]
    exact h
  | timeout id call => exact h

/-- A handler stays registered until the application takes it back. -/
theorem registered_run {options : VeWsClientOptions} {as : List Act}
    (hr : Runs (Guarded (Keeps path handler) (Step options)) c as c') (h : handler ∈ c.handlers path) :
    handler ∈ c'.handlers path := hr.invariant (fun h hs => registered_step hs h) h

end Registered

/-- The handler under `path` is called, and no handler under a path that is another one and does not
lead to the node or to one above it. -/
def Delivered (c : VeWsClient) (msg : JsObject) (path : Str) (handler : Nat) (covers : Str → Prop) : Prop :=
  (path, handler) ∈ c.receivers msg ∧ ∀ r ∈ c.receivers msg, r.1 = path ∨ covers r.1

theorem delivered_event_iff {c : VeWsClient} {path : Str} {handler : Nat} (parsed : Var → JsValue)
    (e : PushEvent) (covers : Str → Prop) (h : handler ∈ c.handlers path) :
    c.Delivered (eventMessage parsed e) path handler covers ↔ e.path = path := by
  rw [Delivered, receivers_event]
  constructor
  · rintro ⟨hmem, -⟩
    obtain ⟨g, -, hg⟩ := List.mem_map.mp hmem
    exact (Prod.mk.inj hg).1
  · rintro rfl
    refine ⟨List.mem_map_of_mem h, fun r hr => .inl ?_⟩
    obtain ⟨g, -, rfl⟩ := List.mem_map.mp hr
    rfl

/-- **The events of a watch reach its handler** exactly when the path in them is the one that was
watched: without `bubble` a path with no slash in front or behind, and with `bubble` the path of the
node that changed. -/
theorem watch_events_iff (options : VeWsClientOptions) (parsed : Var → JsValue) {k : Nat} {f : Forest}
    {root t n : Id} {path : Str} {tree bubble : Bool} {events : List PushEvent}
    (hev : f.events k root ⟨normalizePath path, bubble, tree⟩ t n = some events) :
    (∀ (c c' : VeWsClient) (handler : Nat) (immediate : Bool) (as : List Act),
      Runs (Guarded (Keeps path handler) (Step options)) (c.watch path handler immediate tree bubble)
        as c' →
      ∀ e ∈ events, c'.Delivered (eventMessage parsed e) path handler fun q => f.Covers k root q n) ↔
    (f.Sees k bubble t n → if bubble then f.path k n (some root) = some path
      else path.head? ≠ some 47 ∧ path.getLast? ≠ some 47) := by
  obtain ⟨hsees, hpath⟩ := Forest.events_spec hev
  have hall : (∀ (c c' : VeWsClient) (handler : Nat) (immediate : Bool) (as : List Act),
      Runs (Guarded (Keeps path handler) (Step options)) (c.watch path handler immediate tree bubble)
        as c' → ∀ e ∈ events, c'.Delivered (eventMessage parsed e) path handler
          fun q => f.Covers k root q n) ↔ ∀ e ∈ events, e.path = path := by
    constructor
    · intro h e he
      have hmem : 0 ∈ ((fresh options).watch path 0 false tree bubble).handlers path :=
        (mem_watch _ _ _).mpr (.inr ⟨rfl, rfl⟩)
      exact (delivered_event_iff parsed e _ hmem).mp (h _ _ 0 false [] .nil e he)
    · intro h c c' handler immediate as hr e he
      have hmem := registered_run hr ((mem_watch immediate tree bubble).mpr (.inr ⟨rfl, rfl⟩))
      exact (delivered_event_iff parsed e _ hmem).mpr (h e he)
  rw [hall, ← hsees]
  cases bubble with
  | false =>
    simp only [Bool.false_eq_true, if_false] at hpath ⊢
    rw [← normalizePath_eq_self]
    constructor
    · intro h hne
      obtain ⟨e, he⟩ := List.exists_mem_of_ne_nil events hne
      exact (hpath e he).symm.trans (h e he)
    · intro h e he
      exact (hpath e he).trans (h (List.ne_nil_of_mem he))
  | true =>
    simp only [if_true] at hpath ⊢
    constructor
    · intro h hne
      obtain ⟨e, he⟩ := List.exists_mem_of_ne_nil events hne
      rw [hpath e he, h e he]
    · intro h e he
      have hsame := h (List.ne_nil_of_mem he)
      rw [hpath e he] at hsame
      exact Option.some.inj hsame

/-- A watch of `a` hears that the node `a` got a value. -/
theorem watch_events_sample : ∃ f, Forest.bareRoot.subscriptionTarget 3 0 (ascii "a") = some (f, some 1) ∧
    ∀ (c c' : VeWsClient) (handler : Nat) (as : List Act),
      Runs (Guarded (Keeps (ascii "a") handler) (Step ⟨5000, 1000, 30000⟩))
        (c.watch (ascii "a") handler false false false) as c' →
      ∀ e ∈ [(⟨ascii "a", .bool true⟩ : PushEvent)],
        c'.Delivered (eventMessage (fun _ => .bool true) e) (ascii "a") handler
          fun q => (f.set 1 (.bool true)).Covers 3 0 q 1 := by
  obtain ⟨f, hsub, hev⟩ : ∃ f, Forest.bareRoot.subscriptionTarget 3 0 (ascii "a") = some (f, some 1) ∧
      (f.set 1 (.bool true)).events 3 0 ⟨normalizePath (ascii "a"), false, false⟩ 1 1 =
        some [⟨ascii "a", .bool true⟩] :=
    ⟨_, rfl, rfl⟩
  have hplain : (ascii "a").head? ≠ some 47 ∧ (ascii "a").getLast? ≠ some 47 := by decide
  have h := (watch_events_iff ⟨5000, 1000, 30000⟩ (fun _ => .bool true) hev).mpr fun _ => hplain
  exact ⟨f, hsub, fun c c' handler as hr => h c c' handler false as hr⟩

/-- A watch of `/a` does not hear it: the event says `a`. -/
theorem watch_misses_slash : ¬ ∀ (options : VeWsClientOptions) (parsed : Var → JsValue) (k : Nat)
    (f₀ f₁ f : Forest) (ops : List Op) (root t n : Id) (path : Str) (tree bubble : Bool)
    (events : List PushEvent) (c c' : VeWsClient) (handler : Nat) (immediate : Bool) (as : List Act),
    Forest.Inv f₀ → f₀.live root = true → f₀.subscriptionTarget k root path = some (f₁, some t) →
    Runs Forest.Step f₁ ops f →
    f.events k root ⟨normalizePath path, bubble, tree⟩ t n = some events →
    Runs (Guarded (Keeps path handler) (Step options)) (c.watch path handler immediate tree bubble) as c' →
    ∀ e ∈ events, c'.Delivered (eventMessage parsed e) path handler fun q => f.Covers k root q n := by
  intro h
  obtain ⟨f₁, hsub, hlive, hev⟩ : ∃ f₁,
      Forest.bareRoot.subscriptionTarget 3 0 (ascii "/a") = some (f₁, some 1) ∧ f₁.live 1 = true ∧
      (f₁.set 1 (.bool true)).events 3 0 ⟨normalizePath (ascii "/a"), false, false⟩ 1 1 =
        some [⟨ascii "a", .bool true⟩] :=
    ⟨_, rfl, rfl, rfl⟩
  have hset : Forest.Step f₁ (.set 1 (.bool true)) (f₁.set 1 (.bool true)) :=
    ⟨⟨by simpa [Op.args] using hlive, fun _ h => (by cases h)⟩, 0, rfl⟩
  have hmem := (h ⟨5000, 1000, 30000⟩ (fun _ => .null) 3 _ _ _ _ 0 1 1 (ascii "/a") false false _
    (fresh ⟨5000, 1000, 30000⟩) _ 0 false [] Forest.inv_bareRoot rfl hsub (.single hset) hev .nil _
    (List.mem_singleton.mpr rfl)).1
  obtain ⟨g, -, hg⟩ := List.mem_map.mp hmem
  exact absurd (Prod.mk.inj hg).1 (by decide)

end VeWsClient

end VersatileEngine
