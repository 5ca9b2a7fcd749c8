import VersatileEngine.Lib.Runs
import VersatileEngine.Sdk.Value

/-!
# VersatileEngine.Sdk.Ws

`VeWsClient` of `ws.ts`: the methods, the handlers of its sockets and its timers.

* `WebSocket`       — a socket the client created. A handler knows `this.ws` only, not its own socket,
  so the client keeps the sockets by number and `ws` is the number of one of them.
* `VeWsClient.step` — a method that the application calls, an event of a socket, a message, or a timer.
  Each runs to its end before the next one. What the callbacks of the application call are steps of
  their own.
* `Enabled`         — when an event can come: a socket opens once, closes once, and has messages while
  it is open.
-/

namespace VersatileEngine

inductive ReadyState where
  | connecting
  | open
  | closing
  | closed
deriving DecidableEq

structure WebSocket where
  readyState : ReadyState
  closeFired : Bool
  sent : List JsObject

/-- How the promise of a call ends. -/
inductive CallOutcome where
  | resolved (msg : JsObject)
  | rejected (error : Str)

structure VeWsClientOptions where
  timeout : Nat
  reconnectInterval : Nat
  maxReconnectInterval : Nat

structure VeWsClient where
  sockets : List WebSocket
  ws : Option Nat
  reconnectTimer : Option Nat
  currentInterval : Nat
  intentionalClose : Bool
  nextId : Nat
  /-- The ids that are waited for, with the number of the call. -/
  pending : List (Nat × Nat)
  /-- The running timeouts: the id and the call. -/
  timers : List (Nat × Nat)
  subscriptions : List (Str × List Nat)
  /-- How many calls there were. -/
  calls : Nat
  /-- What was sent for a call, in order. -/
  requests : List (Nat × JsObject)
  /-- The calls that have ended, in order. -/
  ended : List (Nat × CallOutcome)
  /-- The events that were handed to the handlers, in order. -/
  handled : List (Nat × Str × JsValue)

namespace VeWsClient

inductive Act where
  | connect (created : Bool)
  | disconnect
  | call (op : Str) (payload : JsObject)
  | watch (path : Str) (handler : Nat) (immediate tree bubble : Bool)
  | cancel (path : Str) (handler : Nat)
  | unwatch (path : Str)
  | opened (i : Nat)
  | dropped (i : Nat)
  | errored (i : Nat)
  | closed (i : Nat)
  | message (i : Nat) (msg : JsValue)
  | reconnect (created : Bool)
  | timeout (id call : Nat)

def fresh (options : VeWsClientOptions) : VeWsClient :=
  { sockets := [], ws := none, reconnectTimer := none, currentInterval := options.reconnectInterval,
    intentionalClose := false, nextId := 0, pending := [], timers := [], subscriptions := [], calls := 0,
    requests := [], ended := [], handled := [] }

/-! ### Sockets -/

def stateOf (c : VeWsClient) (i : Nat) : Option ReadyState := (c.sockets[i]?).map WebSocket.readyState

def setSocket (c : VeWsClient) (i : Nat) (f : WebSocket → WebSocket) : VeWsClient :=
  { c with sockets := c.sockets.modify i f }

def setState (c : VeWsClient) (i : Nat) (r : ReadyState) : VeWsClient :=
  c.setSocket i fun s => { s with readyState := r }

/-- `this.ws?.readyState === WebSocket.OPEN`. -/
def connected (c : VeWsClient) : Bool := c.ws.any fun i => c.stateOf i = some .open

/-- `WebSocket.close()`. -/
def closeSocket (c : VeWsClient) (i : Nat) : VeWsClient :=
  c.setSocket i fun s =>
    match s.readyState with
    | .connecting | .open => { s with readyState := .closing }
    | _ => s

/-- `this.ws?.close()`. -/
def closeWs (c : VeWsClient) : VeWsClient := c.ws.elim c c.closeSocket

def sendWithoutReply (c : VeWsClient) (payload : JsObject) : VeWsClient :=
  match c.ws with
  | none => c
  | some i => if c.connected then c.setSocket i fun s => { s with sent := s.sent ++ [payload] } else c

/-! ### Requests -/

def subscribeMessage (path : Str) (tree bubble : Bool) : JsObject :=
  [(ascii "op", .str (ascii "subscribe")), (ascii "path", .str path), (ascii "tree", .bool tree),
    (ascii "bubble", .bool bubble)]

/-- What `onopen` sends for a path. -/
def resubscribeMessage (path : Str) : JsObject :=
  [(ascii "op", .str (ascii "subscribe")), (ascii "path", .str path), (ascii "tree", .bool true)]

def unsubscribeMessage (path : Str) : JsObject :=
  [(ascii "op", .str (ascii "unsubscribe")), (ascii "path", .str path)]

section Options

variable (options : VeWsClientOptions)

def rejectAll (c : VeWsClient) (error : Str) : VeWsClient :=
  { c with
    pending := []
    timers := c.timers.filter fun t => !c.pending.contains t
    ended := c.ended ++ c.pending.map fun p => (p.2, .rejected error) }

def call (c : VeWsClient) (op : Str) (payload : JsObject) : VeWsClient :=
  if c.connected then
    let id := increment c.nextId
    let request := spread [(ascii "op", .str op), (ascii "id", .int id)] payload
    { c with
      nextId := id
      pending := assign c.pending id c.calls
      timers := c.timers ++ [(id, c.calls)]
      calls := c.calls + 1
      requests := c.requests ++ [(c.calls, request)] }.sendWithoutReply request
  else
    { c with calls := c.calls + 1, ended := c.ended ++ [(c.calls, .rejected (ascii "Not connected"))] }

def handlers (c : VeWsClient) (path : Str) : List Nat := (c.subscriptions.lookup path).getD []

/-- The first watch of a path: `this.subscriptions.set(path, new Set())`, and the request. -/
def addPath (c : VeWsClient) (path : Str) (tree bubble : Bool) : VeWsClient :=
  if (c.subscriptions.lookup path).isSome then c
  else
    let c₁ := { c with subscriptions := assign c.subscriptions path [] }
    if c₁.connected then c₁.sendWithoutReply (subscribeMessage path tree bubble) else c₁

/-- `this.subscriptions.get(path)!.add(handler)`. -/
def addHandler (c : VeWsClient) (path : Str) (handler : Nat) : VeWsClient :=
  let set := c.handlers path
  { c with
    subscriptions := assign c.subscriptions path (if handler ∈ set then set else set ++ [handler]) }

/-- With `immediate` the value is asked for too. -/
def watch (c : VeWsClient) (path : Str) (handler : Nat) (immediate tree bubble : Bool) : VeWsClient :=
  let c₁ := (c.addPath path tree bubble).addHandler path handler
  if immediate then c₁.call (ascii "node.get") [(ascii "path", .str path), (ascii "depth", .int (-1))]
  else c₁

def unwatch (c : VeWsClient) (path : Str) : VeWsClient :=
  let c₁ := { c with subscriptions := unassign c.subscriptions path }
  if c₁.connected then c₁.sendWithoutReply (unsubscribeMessage path) else c₁

/-- The function that `watch` returned. Without its last handler a path goes as in `unwatch`. -/
def cancel (c : VeWsClient) (path : Str) (handler : Nat) : VeWsClient :=
  match c.subscriptions.lookup path with
  | none => c
  | some set =>
    let rest := set.filter fun h => h ≠ handler
    if rest = [] then c.unwatch path
    else { c with subscriptions := assign c.subscriptions path rest }

/-! ### Connection management -/

def scheduleReconnect (c : VeWsClient) : VeWsClient :=
  if c.reconnectTimer.isSome then c else { c with reconnectTimer := some c.currentInterval }

/-- `created` is false when `new WebSocket` throws. -/
def createConnection (c : VeWsClient) (created : Bool) : VeWsClient :=
  if created then
    { c with sockets := c.sockets ++ [⟨.connecting, false, []⟩], ws := some c.sockets.length }
  else c.scheduleReconnect

def connect (c : VeWsClient) (created : Bool) : VeWsClient :=
  { c with intentionalClose := false }.createConnection created

def disconnect (c : VeWsClient) : VeWsClient :=
  let c₁ := ({ c with intentionalClose := true, reconnectTimer := none }.rejectAll (ascii "Disconnected")).closeWs
  { c₁ with ws := none }

def onopen (c : VeWsClient) : VeWsClient :=
  (c.subscriptions.map Prod.fst).foldl (fun c path => c.sendWithoutReply (resubscribeMessage path))
    { c with currentInterval := options.reconnectInterval }

def onclose (c : VeWsClient) : VeWsClient :=
  let c₁ := c.rejectAll (ascii "Connection closed")
  if c₁.intentionalClose then c₁ else c₁.scheduleReconnect

def onerror (c : VeWsClient) : VeWsClient := c.closeWs

/-- The handlers of an event, each with the path it was found under. -/
def receivers (c : VeWsClient) (msg : JsObject) : List (Str × Nat) :=
  match msg.lookup (ascii "event"), msg.lookup (ascii "path") with
  | some (.str e), some (.str path) =>
    if e = ascii "node.changed" then (c.handlers path).map fun h => (path, h) else []
  | _, _ => []

/-- `handleMessage`: an event goes to the handlers, a reply to the call that waits for its id. What
`JSON.parse` returned is an object or is ignored. -/
def handleMessage (c : VeWsClient) (msg : JsValue) : VeWsClient :=
  match msg with
  | .obj o =>
    if (o.lookup (ascii "event")).isSome then
      { c with handled := c.handled ++
          (c.receivers o).map fun r => (r.2, r.1, (o.lookup (ascii "value")).getD .undefined) }
    else
      match o.lookup (ascii "id") with
      | some (.int i) =>
        match c.pending.find? fun p => (p.1 : Int) = i with
        | some p =>
          { c with
            pending := unassign c.pending p.1
            timers := c.timers.erase p
            ended := c.ended ++ [(p.2, .resolved o)] }
        | none => c
      | _ => c
  | _ => c

/-- The timer that `scheduleReconnect` set. -/
def reconnect (c : VeWsClient) (created : Bool) : VeWsClient :=
  { c with
    reconnectTimer := none
    currentInterval := min (c.currentInterval * 2) options.maxReconnectInterval }.createConnection created

/-- The timer of a call. -/
def timeout (c : VeWsClient) (id call : Nat) : VeWsClient :=
  { c with
    timers := c.timers.erase (id, call)
    pending := unassign c.pending id
    ended := c.ended ++ [(call, .rejected (ascii "Request timeout (" ++ natChars options.timeout ++ ascii "ms)"))] }

def step (c : VeWsClient) : Act → VeWsClient
  | .connect created => c.connect created
  | .disconnect => c.disconnect
  | .call op payload => c.call op payload
  | .watch path handler immediate tree bubble => c.watch path handler immediate tree bubble
  | .cancel path handler => c.cancel path handler
  | .unwatch path => c.unwatch path
  | .opened i => (c.setState i .open).onopen options
  | .dropped i => c.setState i .closing
  | .errored i => (c.setState i .closed).onerror
  | .closed i => (c.setSocket i fun s => { s with readyState := .closed, closeFired := true }).onclose
  | .message _ msg => c.handleMessage msg
  | .reconnect created => c.reconnect options created
  | .timeout id call => c.timeout options id call

/-- An error event comes before the close event of its socket. -/
def Enabled (c : VeWsClient) : Act → Prop
  | .opened i => c.stateOf i = some .connecting
  | .dropped i => c.stateOf i = some .connecting ∨ c.stateOf i = some .open
  | .errored i | .closed i => ∃ s, c.sockets[i]? = some s ∧ s.closeFired = false
  | .message i _ => c.stateOf i = some .open
  | .reconnect _ => c.reconnectTimer.isSome
  | .timeout id call => (id, call) ∈ c.timers
  | _ => True

/-- A step that can come. -/
def Step (c : VeWsClient) (a : Act) (c' : VeWsClient) : Prop := c.Enabled a ∧ c' = c.step options a

end Options

/-! ### What a message changes -/

/-- A message hands values to handlers, or it ends a call that is registered under its id. -/
theorem handleMessage_cases (c : VeWsClient) (msg : JsValue) :
    (∃ handled, c.handleMessage msg = { c with handled := handled }) ∨
      ∃ o p, o.lookup (ascii "id") = some (.int (p.1 : Int)) ∧ p ∈ c.pending ∧ c.handleMessage msg =
        { c with
          pending := unassign c.pending p.1
          timers := c.timers.erase p
          ended := c.ended ++ [(p.2, .resolved o)] } := by
  cases msg with
  | obj o =>
    simp only [handleMessage]
    split
    · exact .inl ⟨_, rfl⟩
    · split
      · next i hi =>
        split
        · next p hp =>
          have hpi := List.find?_some hp
          rw [decide_eq_true_eq] at hpi
          exact .inr ⟨o, p, by rw [hi, hpi], List.mem_of_find?_eq_some hp, rfl⟩
        · exact .inl ⟨c.handled, rfl⟩
      · exact .inl ⟨c.handled, rfl⟩
  | _ => exact .inl ⟨c.handled, rfl⟩

/-! ### What sending changes -/

/-- Of a socket, what sending leaves as it is. -/
def status (s : WebSocket) : ReadyState × Bool := (s.readyState, s.closeFired)

/-- `c'` is `c` after some messages were sent. -/
structure Sends (c c' : VeWsClient) : Prop where
  same : c' = { c with sockets := c'.sockets }
  status : c'.sockets.map status = c.sockets.map status

namespace Sends

theorem refl (c : VeWsClient) : Sends c c := ⟨rfl, rfl⟩

theorem trans {c c' c'' : VeWsClient} (h : Sends c c') (h' : Sends c' c'') : Sends c c'' :=
  ⟨by rw [h'.same, h.same], h'.status.trans h.status⟩

end Sends

theorem sends_sendWithoutReply (c : VeWsClient) (payload : JsObject) :
    Sends c (c.sendWithoutReply payload) := by
  rw [sendWithoutReply]
  split
  · exact .refl c
  · split
    · refine ⟨rfl, List.ext_getElem? fun j => ?_⟩
      simp only [setSocket, List.getElem?_map, List.getElem?_modify]
      split
      · cases c.sockets[j]? <;> rfl
      · cases c.sockets[j]? <;> rfl
    · exact .refl c

theorem sends_foldl (f : Str → JsObject) (paths : List Str) (c : VeWsClient) :
    Sends c (paths.foldl (fun c path => c.sendWithoutReply (f path)) c) := by
  induction paths generalizing c with
  | nil => exact .refl c
  | cons p paths ih => exact (sends_sendWithoutReply c (f p)).trans (ih _)

/-- `sendWithoutReply` asks again whether the socket is open. -/
theorem ite_sendWithoutReply (c : VeWsClient) (payload : JsObject) :
    (if c.connected then c.sendWithoutReply payload else c) = c.sendWithoutReply payload := by
  split_ifs with hc
  · rfl
  · rw [sendWithoutReply]
    split
    · rfl
    · rw [if_neg hc]

end VeWsClient

end VersatileEngine
