import VersatileEngine.Sdk.Bin
import VersatileEngine.Sdk.Correlation

/-!
# VersatileEngine.Sdk.Transports

`MsgPackTransport` of `transports.py`: the calls, each in a thread of its own, and the thread that receives.

* `commandPayload`, `payloadDict` — what is sent.
* `handleFrame`, `processFrames`  — one turn and the loop of `_process_frames`.
* `step` — a call up to the wait for its event, its end, or what `recv` returns.

A `dict` is an object, `None` is `null`. The MessagePack library of Python is not part of the repository:
`unpackb` is a parameter, `none` where it raises.
-/

namespace VersatileEngine

/-- A key of a Python `dict`. -/
def hashable : JsValue → Bool
  | .arr _ | .obj _ => false
  | _ => true

/-- A value that is equal to an `int`, as a key. -/
def keyEq (v : JsValue) (n : Nat) : Bool :=
  match v with
  | .int i => i = n
  | .bool b => n = if b then 1 else 0
  | _ => false

def popKey (pending : List (Nat × Nat)) (v : JsValue) : List (Nat × Nat) := pending.filter fun p => !keyEq v p.1

/-- `bool(v)`. -/
def truthy : JsValue → Bool
  | .undefined | .null => false
  | .bool b => b
  | .int i => i ≠ 0
  | .float _ => true
  | .str s => s ≠ []
  | .bytes b => b ≠ []
  | .arr l => !l.isEmpty
  | .obj o => !o.isEmpty

/-- `wait` and `id` of the arguments. -/
def commandOptions (o : JsObject) : JsObject :=
  let payload : JsObject := [(ascii "wait", .bool true)]
  let payload := (o.lookup (ascii "wait")).elim payload fun v => assign payload (ascii "wait") (.bool (truthy v))
  (o.lookup (ascii "id")).elim payload (assign payload (ascii "id"))

def commandPayload : JsValue → JsObject
  | .undefined | .null => [(ascii "wait", .bool true), (ascii "args", .arr [])]
  | .obj o =>
    assign (commandOptions o) (ascii "args")
      (((o.lookup (ascii "args")).or (o.lookup (ascii "argv"))).getD
        (.obj (o.filter fun p => p.1 ≠ ascii "wait" ∧ p.1 ≠ ascii "id")))
  | args => [(ascii "wait", .bool true), (ascii "args", args)]

structure MsgPackTransport where
  recvBuf : List UInt8
  /-- `_id`. -/
  id : Nat
  pending : List (Nat × Nat)
  /-- The receive loop goes on. -/
  running : Bool
  /-- The connection ended. -/
  closed : Bool
  calls : Nat
  /-- What was sent for a call, in order. -/
  requests : List (Nat × JsObject)
  /-- The calls that wait for their event, with the key that their `finally` pops. -/
  waiting : List (Nat × JsValue)
  /-- What the events were set with: the call, the flag and the message. -/
  results : List (Nat × UInt8 × JsObject)
  /-- The calls that have ended, in order; the flag of a result is in `results`. -/
  ended : List (Nat × CallOutcome)

namespace MsgPackTransport

/-- How far `packb` and `sendall` come. -/
inductive Sending where
  | unpackable (error : Str)
  | unsent (error : Str)
  | sent

inductive Act where
  | send (op path : Str) (data : JsValue) (sending : Sending)
  | command (name : Str) (args : JsValue) (sending : Sending)
  | wake (call : Nat) (key : JsValue) (flag : UInt8) (msg : JsObject)
  | expire (call : Nat) (key : JsValue)
  | received (chunk : List UInt8)
  /-- `recv` waited as long as the timeout of the socket. -/
  | idle
  | lost

def fresh : MsgPackTransport := ⟨[], 0, [], true, false, 0, [], [], [], []⟩

def payloadDict (id : Nat) (op path : Str) (data : JsValue) : JsObject :=
  let d : JsObject := [(ascii "op", .str op), (ascii "id", .int id)]
  let d := if path = [] then d else assign d (ascii "path") (.str path)
  match data with
  | .obj o => assignAll d o
  | .undefined | .null => d
  | v => assign d (ascii "value") v

/-- `payload_dict["id"]`. -/
def keyOf (d : JsObject) : JsValue := (idOf d).getD .null

/-- `_send_frame`, up to the wait. -/
def sendFrame (c : MsgPackTransport) (op path : Str) (data : JsValue) (sending : Sending) : MsgPackTransport :=
  let id := c.id + 1
  let d := payloadDict id op path data
  match sending with
  | .unpackable error => { c with id := id, calls := c.calls + 1, ended := c.ended ++ [(c.calls, .rejected error)] }
  | .unsent error =>
    { c with
      id := id
      pending := popKey (assign c.pending id c.calls) (keyOf d)
      calls := c.calls + 1
      ended := c.ended ++ [(c.calls, .rejected error)] }
  | .sent =>
    { c with
      id := id
      pending := assign c.pending id c.calls
      calls := c.calls + 1
      requests := c.requests ++ [(c.calls, d)]
      waiting := c.waiting ++ [(c.calls, keyOf d)] }

/-- The end of `_send_frame`; the `finally` raises where its key is no key of a `dict`. -/
def finish (c : MsgPackTransport) (call : Nat) (key : JsValue) (outcome : CallOutcome) : MsgPackTransport :=
  { c with
    waiting := c.waiting.filter fun w => w.1 ≠ call
    pending := popKey c.pending key
    ended := c.ended ++ [(call, if hashable key then outcome else .rejected (ascii "unhashable type"))] }

section Frames

variable (unpackb : List UInt8 → Option JsValue)

/-- A reply sets the event of the call that waits under its id. `none` where it raises. -/
def handleReply (c : MsgPackTransport) (flag : UInt8) (o : JsObject) : Option MsgPackTransport :=
  match idOf o with
  | none | some .undefined | some .null => some c
  | some v =>
    if hashable v then
      match c.pending.find? fun p => keyEq v p.1 with
      | some p =>
        some { c with pending := unassign c.pending p.1, results := c.results ++ [(p.2, flag, o)] }
      | none => some c
    else none

/-- One turn of the loop. A frame that does not unpack is skipped; what is no `dict` has no `get`, and the
callbacks of an event are looked up by its path. -/
def handleFrame (c : MsgPackTransport) (flag : UInt8) (payload : List UInt8) : Option MsgPackTransport :=
  match unpackb payload with
  | none => some c
  | some (.obj o) =>
    if flag &&& 0xc0 = 0x80 then
      match o.lookup (ascii "event"), o.lookup (ascii "path") with
      | some (.str e), some path => if e = ascii "node.changed" ∧ !hashable path then none else some c
      | _, _ => some c
    else c.handleReply flag o
  | some _ => none

/-- `_process_frames`; where it raises the receive loop ends. -/
def processFrames : Nat → MsgPackTransport → MsgPackTransport
  | 0, c => c
  | turns + 1, c =>
    match splitFrame c.recvBuf with
    | none => c
    | some ((flag, payload), rest) =>
      let c₁ := { c with recvBuf := rest }
      match c₁.handleFrame unpackb flag payload with
      | some c₂ => processFrames turns c₂
      | none => { c₁ with running := false }

def receive (c : MsgPackTransport) (chunk : List UInt8) : MsgPackTransport :=
  if c.running then
    let buf := c.recvBuf ++ chunk
    processFrames unpackb buf.length { c with recvBuf := buf }
  else c

def step (c : MsgPackTransport) : Act → MsgPackTransport
  | .send op path data sending => c.sendFrame op path data sending
  | .command name args sending =>
    c.sendFrame (ascii "command.run") [] (.obj (assignAll [(ascii "name", .str name)] (commandPayload args))) sending
  | .wake call key _ msg => c.finish call key (.resolved msg)
  | .expire call key => c.finish call key (.rejected (ascii "Request timeout"))
  | .received chunk => c.receive unpackb chunk
  | .idle => { c with running := false }
  | .lost => { c with running := false, closed := true }

/-- A call goes on when its event is set, or after the timeout when it is not. -/
def Enabled (c : MsgPackTransport) : Act → Prop
  | .wake call key flag msg => (call, key) ∈ c.waiting ∧ (call, flag, msg) ∈ c.results
  | .expire call key => (call, key) ∈ c.waiting ∧ ∀ r ∈ c.results, r.1 ≠ call
  | .received _ | .idle | .lost => c.closed = false
  | _ => True

/-- A step that can come. -/
def Step (c : MsgPackTransport) (a : Act) (c' : MsgPackTransport) : Prop := c.Enabled a ∧ c' = c.step unpackb a

end Frames

end MsgPackTransport

end VersatileEngine
