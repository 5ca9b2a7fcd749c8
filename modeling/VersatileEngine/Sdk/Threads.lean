import VersatileEngine.Sdk.Transports

/-!
# VersatileEngine.Sdk.Threads

The threads of `TcpJsonTransport` and `MsgPackTransport`: the callers, the thread that receives, and the
lock `_sub_lock` between them.

* `Pc`       — where a thread stands in `subscribe`, a returned `unsub`, `unsubscribe` or `_send`.
* `Loop`     — where the receive thread stands in its loop; the callbacks that it runs may call the
  transport, so it has a `Pc` besides.
* `Arrival`  — what a received message asks of the receive thread.
* `Wire`     — where the classes differ: how a message is read, and how a request gets its id.
* `step`     — one step of one thread.
* `Deadlocked` — the receive thread waits for the lock, and its holder for a reply.

`_lock` is held over a few assignments, in which no thread waits, so these are one step with what follows.
Any message can come at any time.
-/

namespace VersatileEngine

/-- What a message is to the receive thread. -/
inductive Arrival where
  | changed (path : JsValue)
  | reply (id : JsValue)
  | ignored
  /-- An exception ends the receive loop. -/
  | raises

/-- The part of both loops behind the test for an event. -/
def replyArrival (o : JsObject) : Arrival :=
  match idOf o with
  | none | some .undefined | some .null => .ignored
  | some id => if hashable id then .reply id else .raises

/-- `msg.get("event") == "node.changed"`. -/
def isChanged (o : JsObject) : Bool :=
  match o.lookup (ascii "event") with
  | some (.str e) => e = ascii "node.changed"
  | _ => false

/-- `msg.get("path", "")`. -/
def changedPath (o : JsObject) : JsValue := (o.lookup (ascii "path")).getD (.str [])

/-- `_process_messages`, on a value that `raw_decode` has returned. -/
def TcpJsonTransport.arrival : JsValue → Arrival
  | .obj o => if isChanged o then .changed (changedPath o) else replyArrival o
  | _ => .raises

/-- `_process_frames`, on the flag of a frame and what `unpackb` makes of its payload. -/
def MsgPackTransport.arrival : UInt8 × Option JsValue → Arrival
  | (_, none) => .ignored
  | (flag, some (.obj o)) =>
    if flag &&& 0xc0 = 0x80 then if isChanged o then .changed (changedPath o) else .ignored
    else replyArrival o
  | (_, some _) => .raises

structure Wire (M : Type) where
  arrival : M → Arrival
  /-- The payload may replace the id of a request, and is packed before the request is registered. -/
  packs : Bool

def TcpJsonTransport.wire : Wire JsValue := ⟨TcpJsonTransport.arrival, false⟩

def MsgPackTransport.wire : Wire (UInt8 × Option JsValue) := ⟨MsgPackTransport.arrival, true⟩

inductive Thread where
  | receiver
  | caller (n : Nat)
deriving DecidableEq

/-- What follows a `_send`. -/
inductive After where
  | request
  | subscribe (path : Str) (callback : Nat)
  /-- Still under `_sub_lock`, with exceptions caught. -/
  | unsub
deriving DecidableEq

inductive Pc where
  | idle
  /-- `with self._sub_lock`, and its body, in `subscribe`. -/
  | subscribing (path : Str) (callback : Nat)
  | adding (path : Str) (callback : Nat)
  /-- The same in `unsub`. -/
  | unsubbing (path : Str) (callback : Nat)
  | discarding (path : Str) (callback : Nat)
  /-- The same in `unsubscribe`. -/
  | unsubscribing (path : Str)
  | popping (path : Str)
  /-- Before `_send`, with the id that the payload brings. -/
  | sending (id : Option JsValue) (after : After)
  /-- In `event.wait`; `finally` will pop `key`. -/
  | waiting (id : Nat) (key : JsValue) (after : After)

inductive Loop where
  | reading
  /-- `with self._sub_lock`, and its body. -/
  | locking (path : JsValue)
  | copying (path : JsValue)
  /-- A callback runs, and `rest` are to come. -/
  | calling (rest : List Nat)
  | stopped

inductive Operation where
  | subscribe (path : Str) (callback : Nat)
  | unsub (path : Str) (callback : Nat)
  | unsubscribe (path : Str)
  | request (id : Option JsValue)

/-- At `with self._sub_lock`. -/
def Pc.wantsLock : Pc → Bool
  | .subscribing .. | .unsubbing .. | .unsubscribing _ => true
  | _ => false

def Operation.wantsLock : Operation → Bool
  | .request _ => false
  | _ => true

structure Threads where
  /-- `_id`. -/
  id : Nat
  /-- The keys of `_pending`. -/
  pending : List Nat
  /-- The requests whose event is set. -/
  fired : List Nat
  /-- `_subscriptions`: path to callbacks. -/
  subscriptions : List (Str × List Nat)
  /-- The path and the callback of each `unsub` that was returned. -/
  returned : List (Str × Nat)
  subLock : Option Thread
  loop : Loop
  pc : Thread → Pc

namespace Threads

def fresh : Threads := ⟨0, [], [], [], [], none, .reading, fun _ => .idle⟩

def setPc (s : Threads) (t : Thread) (pc : Pc) : Threads :=
  { s with pc := fun u => if u = t then pc else s.pc u }

/-- `_normalize_path`. -/
def normalizePath (path : Str) : Str := path.dropWhile (· = 47)

inductive Act (M : Type) where
  | call (t : Thread) (op : Operation)
  | acquire (t : Thread)
  /-- The body of `with self._sub_lock`. -/
  | enter (t : Thread)
  | send (t : Thread) (sending : MsgPackTransport.Sending)
  | wake (t : Thread)
  | expire (t : Thread)
  /-- The receive thread takes a message. -/
  | take (msg : M)
  | lock
  | copy
  /-- A callback returns. -/
  | next
  /-- `recv` returns nothing or raises. -/
  | lost

/-- A thread may call: any caller that is in no call, and the receive thread inside a callback. -/
def mayCall (s : Threads) : Thread → Bool
  | .caller _ => true
  | .receiver => match s.loop with
    | .calling _ => true
    | _ => false

def begin (s : Threads) (t : Thread) : Operation → Option Threads
  | .subscribe path callback => some (s.setPc t (.subscribing (normalizePath path) callback))
  | .unsub path callback =>
    if (path, callback) ∈ s.returned then some (s.setPc t (.unsubbing path callback)) else none
  | .unsubscribe path => some (s.setPc t (.unsubscribing (normalizePath path)))
  | .request id => some (s.setPc t (.sending id .request))

/-- A free lock goes to a thread that waits for it. -/
def acquire (s : Threads) (t : Thread) : Option Threads :=
  if s.subLock.isSome then none else
  match s.pc t with
  | .subscribing path callback => some { s.setPc t (.adding path callback) with subLock := some t }
  | .unsubbing path callback => some { s.setPc t (.discarding path callback) with subLock := some t }
  | .unsubscribing path => some { s.setPc t (.popping path) with subLock := some t }
  | _ => none

/-- The body of the `with` statement; only `unsub` may go on to `_send` without leaving it. -/
def enter (s : Threads) (t : Thread) : Option Threads :=
  match s.pc t with
  | .adding path callback =>
    let callbacks := (s.subscriptions.lookup path).getD []
    let subscriptions := assign s.subscriptions path (callbacks.insert callback)
    if callbacks = [] then
      some { s.setPc t (.sending none (.subscribe path callback)) with
        subscriptions := subscriptions, subLock := none }
    else
      some { s.setPc t .idle with
        subscriptions := subscriptions, subLock := none, returned := (path, callback) :: s.returned }
  | .discarding path callback =>
    let callbacks := (s.subscriptions.lookup path).getD []
    if callbacks = [] then some { s.setPc t .idle with subLock := none }
    else if callbacks.erase callback = [] then
      some { s.setPc t (.sending none .unsub) with subscriptions := unassign s.subscriptions path }
    else
      some { s.setPc t .idle with
        subscriptions := assign s.subscriptions path (callbacks.erase callback), subLock := none }
  | .popping path =>
    some { s.setPc t (.sending none .request) with
      subscriptions := unassign s.subscriptions path, subLock := none }
  | _ => none

/-- `_send` returns, or raises. -/
def finish (s : Threads) (t : Thread) (returns : Bool) : After → Threads
  | .request => s.setPc t .idle
  | .subscribe path callback =>
    { s.setPc t .idle with returned := if returns then (path, callback) :: s.returned else s.returned }
  | .unsub => { s.setPc t .idle with subLock := none }

/-- `self._pending.pop(key, None)`. -/
def popPending (s : Threads) (key : JsValue) : Threads :=
  { s with pending := s.pending.filter fun n => !keyEq key n }

/-- `_send` or `_send_frame`, up to the wait. -/
def send (packs : Bool) (s : Threads) (t : Thread) (sending : MsgPackTransport.Sending) : Option Threads :=
  match s.pc t with
  | .sending id after =>
    let n := s.id + 1
    let key := if packs then id.getD (.int n) else .int n
    match sending with
    | .unpackable _ => if packs then some (finish { s with id := n } t false after) else none
    | .unsent _ => some (finish (popPending { s with id := n, pending := n :: s.pending } key) t false after)
    | .sent => some { s.setPc t (.waiting n key after) with id := n, pending := n :: s.pending }
  | _ => none

def wake (s : Threads) (t : Thread) : Option Threads :=
  match s.pc t with
  | .waiting id key after =>
    if id ∈ s.fired then some (finish (popPending s key) t (hashable key) after) else none
  | _ => none

def expire (s : Threads) (t : Thread) : Option Threads :=
  match s.pc t with
  | .waiting id key after =>
    if id ∈ s.fired then none else some (finish (popPending s key) t false after)
  | _ => none

/-- A reply sets the event that is registered under its id. -/
def fire (s : Threads) (id : JsValue) : Threads :=
  match s.pending.find? fun n => keyEq id n with
  | some n => { s with pending := s.pending.filter (· ≠ n), fired := n :: s.fired }
  | none => s

/-- The callbacks that are to come, the first of which runs. -/
def runCallbacks : List Nat → Loop
  | [] => .reading
  | _ :: rest => .calling rest

/-- `callbacks = list(self._subscriptions.get(path, set()))`. -/
def copyCallbacks (s : Threads) (path : JsValue) : Threads :=
  match path with
  | .str p => { s with subLock := none, loop := runCallbacks ((s.subscriptions.lookup p).getD []) }
  | _ => { s with subLock := none, loop := if hashable path then .reading else .stopped }

def receive (s : Threads) : Arrival → Threads
  | .changed path => { s with loop := .locking path }
  | .reply id => s.fire id
  | .ignored => s
  | .raises => { s with loop := .stopped }

section Step

variable {M : Type} (w : Wire M)

def step (s : Threads) : Act M → Option Threads
  | .call t op => match s.pc t with
    | .idle => if s.mayCall t then s.begin t op else none
    | _ => none
  | .acquire t => s.acquire t
  | .enter t => s.enter t
  | .send t sending => s.send w.packs t sending
  | .wake t => s.wake t
  | .expire t => s.expire t
  | .take msg => match s.loop with
    | .reading => some (s.receive (w.arrival msg))
    | _ => none
  | .lock => match s.loop with
    | .locking path => if s.subLock.isSome then none else
      some { s with loop := .copying path, subLock := some .receiver }
    | _ => none
  | .copy => match s.loop with
    | .copying path => some (s.copyCallbacks path)
    | _ => none
  | .next => match s.loop, s.pc .receiver with
    | .calling rest, .idle => some { s with loop := runCallbacks rest }
    | _, _ => none
  | .lost => match s.loop with
    | .reading => some { s with loop := .stopped }
    | _ => none

def Step (s : Threads) (a : Act M) (s' : Threads) : Prop := s.step w a = some s'

end Step

/-! ## The bad state -/

/-- The receive thread waits for `_sub_lock`, in its loop or in a callback. -/
def ReceiverWaits (s : Threads) : Prop := (∃ path, s.loop = .locking path) ∨ Pc.wantsLock (s.pc .receiver) = true

/-- The holder of `_sub_lock` waits for a reply that has not come. -/
def HolderWaits (s : Threads) : Prop :=
  ∃ t id key after, s.subLock = some t ∧ s.pc t = .waiting id key after ∧ id ∉ s.fired

/-- Neither can go on: replies come through the receive thread only. -/
def Deadlocked (s : Threads) : Prop := s.ReceiverWaits ∧ s.HolderWaits

end Threads

end VersatileEngine
