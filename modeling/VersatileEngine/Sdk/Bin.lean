import VersatileEngine.Lib.Runs
import VersatileEngine.Sdk.MsgPack
import VersatileEngine.Sdk.Ws
import VersatileEngine.Service.Frame

/-!
# VersatileEngine.Sdk.Bin

`VeBinTcpClient` of `bin.ts`: the methods, the handlers of its sockets and its timers.

* `TcpSocket`            — a socket the client created, by number as in `VersatileEngine.Sdk.Ws`.
* `splitFrame`           — the first frame of the receive buffer.
* `VeBinTcpClient.step`  — a method, an event of a socket, a timer, or the continuation of an `await`. What
  the callbacks of the application call are steps of their own.
* `Enabled`              — when an event can come.
-/

namespace VersatileEngine

structure TcpSocket where
  connected : Bool
  destroyed : Bool
  closeFired : Bool
  /-- The reconnect timer waits for it. -/
  byTimer : Bool
  /-- The bytes of its data events. -/
  received : List UInt8
  written : List JsObject

structure VeBinTcpClientOptions where
  timeout : Nat
  autoReconnect : Bool
  reconnectInterval : Nat
  maxReconnectInterval : Nat

structure VeBinTcpClient where
  sockets : List TcpSocket
  socket : Option Nat
  /-- The calls of `connect` that wait for `import('node:net')`, and whether the timer made them. -/
  importing : List Bool
  recvBuf : List UInt8
  nextId : Nat
  pending : List (Nat × Nat)
  timers : List (Nat × Nat)
  intentionalClose : Bool
  /-- `_connected`. -/
  connected : Bool
  reconnectTimer : Option Nat
  currentReconnectDelay : Nat
  notifyHandlers : List (Str × List Nat)
  /-- The calls of `subscribe` that wait for their reply: the call, the path and the handler. -/
  awaiting : List (Nat × Str × Nat)
  calls : Nat
  /-- What was sent for a call, in order. -/
  requests : List (Nat × JsObject)
  /-- The calls that have ended, in order. -/
  ended : List (Nat × CallOutcome)
  /-- The events that were handed to the handlers, in order. -/
  handled : List (Nat × Str × JsValue)
  /-- The messages that were handled, with the socket whose data event it was and the flag. -/
  messages : List (Nat × UInt8 × JsValue)

/-- The frame at the beginning of a buffer: its flag, its payload and what is behind it. -/
def splitFrame : List UInt8 → Option ((UInt8 × List UInt8) × List UInt8)
  | flag :: b1 :: b2 :: b3 :: b4 :: rest =>
    let length := Frame.declaredLength b1 b2 b3 b4
    if rest.length < length then none else some ((flag, rest.take length), rest.drop length)
  | _ => none

namespace VeBinTcpClient

inductive Act where
  | connect
  | imported
  | socketConnected (i : Nat)
  | data (i : Nat) (chunk : List UInt8)
  | errored (i : Nat)
  | closed (i : Nat)
  | close
  | call (op : Str) (payload : JsObject)
  | subscribe (path : Str) (handler : Nat)
  | subscribed (call : Nat) (path : Str) (handler : Nat)
  | cancel (path : Str) (handler : Nat)
  | reconnect
  | timeout (id call : Nat)

def fresh (options : VeBinTcpClientOptions) : VeBinTcpClient :=
  { sockets := [], socket := none, importing := [], recvBuf := [], nextId := 0, pending := [], timers := [],
    intentionalClose := false, connected := false, reconnectTimer := none,
    currentReconnectDelay := options.reconnectInterval, notifyHandlers := [], awaiting := [], calls := 0,
    requests := [], ended := [], handled := [], messages := [] }

def setSocket (c : VeBinTcpClient) (i : Nat) (f : TcpSocket → TcpSocket) : VeBinTcpClient :=
  { c with sockets := c.sockets.modify i f }

def rejectAll (c : VeBinTcpClient) (error : Str) : VeBinTcpClient :=
  { c with
    pending := []
    timers := c.timers.filter fun t => !c.pending.contains t
    ended := c.ended ++ c.pending.map fun p => (p.2, .rejected error) }

def handlers (c : VeBinTcpClient) (path : Str) : List Nat := (c.notifyHandlers.lookup path).getD []

/-! ### Requests -/

/-- `this.socket.write`, of the header and the encoded payload. -/
def write (c : VeBinTcpClient) (i : Nat) (payload : JsObject) : VeBinTcpClient :=
  c.setSocket i fun s => { s with written := s.written ++ [payload] }

def call (c : VeBinTcpClient) (op : Str) (payload : JsObject) : VeBinTcpClient :=
  match c.socket, c.connected with
  | some i, true =>
    let id := increment c.nextId
    let request := spread [(ascii "op", .str op), (ascii "id", .int id)] payload
    { c with
      nextId := id
      pending := assign c.pending id c.calls
      timers := c.timers ++ [(id, c.calls)]
      calls := c.calls + 1
      requests := c.requests ++ [(c.calls, request)] }.write i request
  | _, _ =>
    { c with calls := c.calls + 1, ended := c.ended ++ [(c.calls, .rejected (ascii "Not connected"))] }

/-- `this.notifyHandlers.get(path)!.add(handler)`; without the path it throws. -/
def addHandler (c : VeBinTcpClient) (path : Str) (handler : Nat) : VeBinTcpClient :=
  match c.notifyHandlers.lookup path with
  | none => c
  | some set =>
    { c with
      notifyHandlers := assign c.notifyHandlers path (if handler ∈ set then set else set ++ [handler]) }

/-- `subscribe`, up to the reply where it waits for one. -/
def subscribe (c : VeBinTcpClient) (path : Str) (handler : Nat) : VeBinTcpClient :=
  if (c.notifyHandlers.lookup path).isSome then c.addHandler path handler
  else
    let c₁ := { c with notifyHandlers := assign c.notifyHandlers path [] }
    if c₁.connected then
      { c₁.call (ascii "subscribe") [(ascii "path", .str path)] with
        awaiting := c₁.awaiting ++ [(c₁.calls, path, handler)] }
    else c₁.addHandler path handler

/-- The function that `subscribe` resolves to. -/
def cancel (c : VeBinTcpClient) (path : Str) (handler : Nat) : VeBinTcpClient :=
  match c.notifyHandlers.lookup path with
  | none => c
  | some set =>
    let rest := set.filter fun h => h ≠ handler
    if rest = [] then
      let c₁ := { c with notifyHandlers := unassign c.notifyHandlers path }
      if c₁.connected then c₁.call (ascii "unsubscribe") [(ascii "path", .str path)] else c₁
    else { c with notifyHandlers := assign c.notifyHandlers path rest }

/-- A request for every path, after a reconnect by the timer. -/
def resubscribe (c : VeBinTcpClient) : VeBinTcpClient :=
  (c.notifyHandlers.map Prod.fst).foldl
    (fun c path => c.call (ascii "subscribe") [(ascii "path", .str path)]) c

/-! ### Frames -/

section Frames

variable (text : JsValue → Str)

/-- The properties of a message; what is no object has none. -/
def fieldsOf : JsValue → JsObject
  | .obj o => o
  | _ => []

/-- `String(msg.path ?? '')`. -/
def pathOf (msg : JsObject) : Str :=
  match msg.lookup (ascii "path") with
  | none | some .undefined | some .null => []
  | some v => Sdk.keyOf text v

def handleNotify (c : VeBinTcpClient) (msg : JsObject) : VeBinTcpClient :=
  match msg.lookup (ascii "event") with
  | some (.str e) =>
    if e = ascii "node.changed" then
      let path := pathOf text msg
      { c with handled := c.handled ++
          (c.handlers path).map fun h => (h, path, (msg.lookup (ascii "value")).getD .undefined) }
    else c
  | _ => c

def handleReply (c : VeBinTcpClient) (msg : JsObject) : VeBinTcpClient :=
  match msg.lookup (ascii "id") with
  | some (.int i) =>
    match c.pending.find? fun p => (p.1 : Int) = i with
    | some p =>
      { c with
        pending := unassign c.pending p.1
        timers := c.timers.erase p
        ended := c.ended ++ [(p.2, .resolved msg)] }
    | none => c
  | _ => c

def handleMessage (c : VeBinTcpClient) (i : Nat) (flag : UInt8) (msg : JsValue) : VeBinTcpClient :=
  let c₁ := { c with messages := c.messages ++ [(i, flag, msg)] }
  if flag &&& 0xc0 = 0x80 then c₁.handleNotify text (fieldsOf msg) else c₁.handleReply (fieldsOf msg)

/-- One turn of the loop after the frame was cut off; `none` when it throws, which it does for a payload
that is `null`. A malformed frame is skipped. -/
def handleFrame (c : VeBinTcpClient) (i : Nat) (flag : UInt8) (payload : List UInt8) :
    Option VeBinTcpClient :=
  match Sdk.msgpackDecode text payload with
  | none => some c
  | some .null | some .undefined => none
  | some msg => some (c.handleMessage text i flag msg)

/-- `processFrames`, in a data event of the socket `i`. -/
def processFrames (i : Nat) : Nat → VeBinTcpClient → VeBinTcpClient
  | 0, c => c
  | turns + 1, c =>
    match splitFrame c.recvBuf with
    | none => c
    | some ((flag, payload), rest) =>
      let c₁ := { c with recvBuf := rest }
      match c₁.handleFrame text i flag payload with
      | some c₂ => processFrames i turns c₂
      | none => c₁

def onData (c : VeBinTcpClient) (i : Nat) (chunk : List UInt8) : VeBinTcpClient :=
  let newBuf := c.recvBuf ++ chunk
  processFrames text i newBuf.length { c with recvBuf := newBuf }

/-- A message is noted; it hands values to handlers, or ends a call that is registered under its id. -/
theorem handleMessage_cases (c : VeBinTcpClient) (i : Nat) (flag : UInt8) (msg : JsValue) :
    (∃ handled, c.handleMessage text i flag msg =
      { c with messages := c.messages ++ [(i, flag, msg)], handled := handled }) ∨
      ∃ p, flag &&& 0xc0 ≠ 0x80 ∧ (fieldsOf msg).lookup (ascii "id") = some (.int (p.1 : Int)) ∧ p ∈ c.pending ∧
        c.handleMessage text i flag msg =
          { c with
            messages := c.messages ++ [(i, flag, msg)]
            pending := unassign c.pending p.1
            timers := c.timers.erase p
            ended := c.ended ++ [(p.2, .resolved (fieldsOf msg))] } := by
  simp only [handleMessage]
  split
  · simp only [handleNotify]
    split
    · split
      · exact .inl ⟨_, rfl⟩
      · exact .inl ⟨c.handled, rfl⟩
    · exact .inl ⟨c.handled, rfl⟩
  · next hflag =>
    simp only [handleReply]
    split
    · next j hj =>
      split
      · next p hp =>
        have hpj := List.find?_some hp
        rw [decide_eq_true_eq] at hpj
        exact .inr ⟨p, hflag, by rw [hj, hpj], List.mem_of_find?_eq_some hp, rfl⟩
      · exact .inl ⟨c.handled, rfl⟩
    · exact .inl ⟨c.handled, rfl⟩

variable {text} {c c' : VeBinTcpClient} {i : Nat} {flag : UInt8} {payload : List UInt8}

theorem handleFrame_cases (h : c.handleFrame text i flag payload = some c') :
    c' = c ∨ ∃ msg, c' = c.handleMessage text i flag msg := by
  rw [handleFrame] at h
  split at h
  · exact .inl (Option.some.inj h).symm
  · cases h
  · cases h
  · exact .inr ⟨_, (Option.some.inj h).symm⟩

/-- What holds after a frame is cut off, and after a message, holds after the loop. -/
theorem processFrames_keeps {I : VeBinTcpClient → Prop} (hcut : ∀ {c} rest, I c → I { c with recvBuf := rest })
    (hmessage : ∀ {c} flag msg, I c → I (c.handleMessage text i flag msg)) (turns : Nat) :
    ∀ {c}, I c → I (processFrames text i turns c) := by
  induction turns with
  | zero => exact fun h => h
  | succ turns ih =>
    intro c h
    rw [processFrames]
    split
    · exact h
    · next flag payload rest _ =>
      simp only []
      split
      · next c₂ hc₂ =>
        rcases handleFrame_cases hc₂ with rfl | ⟨msg, rfl⟩
        · exact ih (hcut rest h)
        · exact ih (hmessage flag msg (hcut rest h))
      · exact hcut rest h

end Frames

/-! ### Connection -/

section Options

variable (options : VeBinTcpClientOptions)

def scheduleReconnect (c : VeBinTcpClient) : VeBinTcpClient :=
  if c.reconnectTimer.isSome then c else { c with reconnectTimer := some c.currentReconnectDelay }

/-- `connect`, up to the import. -/
def connect (c : VeBinTcpClient) (byTimer : Bool) : VeBinTcpClient :=
  { c with intentionalClose := false, importing := c.importing ++ [byTimer] }

/-- The rest of `connect`: the socket is created and connects. -/
def createSocket (c : VeBinTcpClient) : VeBinTcpClient :=
  match c.importing with
  | [] => c
  | byTimer :: importing =>
    { c with
      importing := importing
      sockets := c.sockets ++ [⟨false, false, false, byTimer, [], []⟩]
      socket := some c.sockets.length }

/-- The handler of `connect`; then what waits for the promise goes on. -/
def onConnect (c : VeBinTcpClient) (byTimer : Bool) : VeBinTcpClient :=
  let c₁ := { c with connected := true, currentReconnectDelay := options.reconnectInterval }
  if byTimer then c₁.resubscribe else c₁

def onClose (c : VeBinTcpClient) : VeBinTcpClient :=
  let c₁ := { c with connected := false, socket := none }.rejectAll (ascii "Connection closed")
  if !c₁.intentionalClose && options.autoReconnect then c₁.scheduleReconnect else c₁

/-- The `catch` of the timer. -/
def connectFailed (c : VeBinTcpClient) : VeBinTcpClient :=
  let c₁ := { c with currentReconnectDelay := min (c.currentReconnectDelay * 2) options.maxReconnectInterval }
  if options.autoReconnect && !c₁.intentionalClose then c₁.scheduleReconnect else c₁

/-- The handler of `error`: `s` is the socket as it was. -/
def onError (c : VeBinTcpClient) (i : Nat) (s : TcpSocket) : VeBinTcpClient :=
  let c₁ := c.setSocket i fun s => { s with destroyed := true }
  if !c.connected && !s.connected && s.byTimer then c₁.connectFailed options else c₁

def close (c : VeBinTcpClient) : VeBinTcpClient :=
  let c₁ := { c with intentionalClose := true, reconnectTimer := none }.rejectAll (ascii "Disconnected")
  let c₂ := c₁.socket.elim c₁ fun i => c₁.setSocket i fun s => { s with destroyed := true }
  { c₂ with socket := none, connected := false }

/-- The timer of `scheduleReconnect`. With a connection `connect` returns at once. -/
def reconnect (c : VeBinTcpClient) : VeBinTcpClient :=
  let c₁ := { c with reconnectTimer := none }
  if c₁.connected then c₁.resubscribe else c₁.connect true

/-- The timer of a call. -/
def timeout (c : VeBinTcpClient) (id call : Nat) : VeBinTcpClient :=
  { c with
    timers := c.timers.erase (id, call)
    pending := unassign c.pending id
    ended := c.ended ++ [(call, .rejected (ascii "Request timeout (" ++ natChars options.timeout ++ ascii "ms)"))] }

variable (text : JsValue → Str)

def step (c : VeBinTcpClient) : Act → VeBinTcpClient
  | .connect => if c.connected then c else c.connect false
  | .imported => c.createSocket
  | .socketConnected i =>
    (c.setSocket i fun s => { s with connected := true }).onConnect options
      ((c.sockets[i]?).any TcpSocket.byTimer)
  | .data i chunk =>
    (c.setSocket i fun s => { s with received := s.received ++ chunk }).onData text i chunk
  | .errored i => (c.sockets[i]?).elim c fun s => c.onError options i s
  | .closed i => (c.setSocket i fun s => { s with destroyed := true, closeFired := true }).onClose options
  | .close => c.close
  | .call op payload => c.call op payload
  | .subscribe path handler => c.subscribe path handler
  | .subscribed call path handler =>
    { c with awaiting := c.awaiting.erase (call, path, handler) }.addHandler path handler
  | .cancel path handler => c.cancel path handler
  | .reconnect => c.reconnect
  | .timeout id call => c.timeout options id call

/-- A socket that connects once, has data while it is connected and not destroyed, and closes once. -/
def Enabled (c : VeBinTcpClient) : Act → Prop
  | .imported => c.importing ≠ []
  | .socketConnected i =>
    ∃ s, c.sockets[i]? = some s ∧ s.connected = false ∧ s.destroyed = false ∧ s.closeFired = false
  | .data i _ =>
    ∃ s, c.sockets[i]? = some s ∧ s.connected = true ∧ s.destroyed = false ∧ s.closeFired = false
  | .errored i => ∃ s, c.sockets[i]? = some s ∧ s.destroyed = false ∧ s.closeFired = false
  | .closed i => ∃ s, c.sockets[i]? = some s ∧ s.closeFired = false
  | .subscribed call path handler => (call, path, handler) ∈ c.awaiting ∧ ∃ o, (call, o) ∈ c.ended
  | .reconnect => c.reconnectTimer.isSome
  | .timeout id call => (id, call) ∈ c.timers
  | _ => True

/-- A step that can come. -/
def Step (c : VeBinTcpClient) (a : Act) (c' : VeBinTcpClient) : Prop :=
  c.Enabled a ∧ c' = c.step options text a

end Options

end VeBinTcpClient

end VersatileEngine
