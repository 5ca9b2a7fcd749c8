import VersatileEngine.Bin.Wire
import VersatileEngine.Lib.Runs
import VersatileEngine.Service.TcpServers
import VersatileEngine.Service.Total

/-!
# VersatileEngine.Service.Remote

`BinTcpClient` and `BinTcpServer` with the connections between them.

* `Remote`      — the client, the connection that it has, those that it has left and the server still reads,
  and the state behind the server. A connection is two queues of bytes and the buffers at their ends.
* `Remote.step` — one step of a caller, of the client's io thread, of the server, or of the net. Bytes are
  delivered in any portions; connections break at any time, and the socket library makes new ones of itself.
* `AtomicCalls` — what calls mean: a request is dispatched at most once, at one moment, and what the call
  returns is the reply of that moment.
* `received_id`, `replied_id` — the id that a call has given goes through request tree, reply and frames.

The steps of the client are those of `Client`.
-/

namespace VersatileEngine

open Protocol Sessions

/-- What the io thread of the client is at. -/
inductive IoThread where
  | stopped
  | connected
  /-- The connection is broken, and `onDisconnect` has yet to run. -/
  | lost
  /-- Between the two parts of `onDisconnect`. -/
  | told
  /-- The reconnect timer of the socket library is running. -/
  | waiting
deriving DecidableEq

/-- A connection that the client has left: what is on the way to the server, and its buffer. -/
structure LeftLink where
  key : SessionKey
  up : List UInt8
  buf : List UInt8

/-- What happens, as far as calls are concerned. -/
inductive CallEvent (S : Type) where
  | invoked (id : Int64) (request : List (Str × Var))
  | dispatched (request : Var) (before : S) (reply : Tree) (after : S)
  /-- The state changes otherwise. -/
  | changed (after : S)
  | returned (id : Int64) (out : Option Var)

structure Remote (S : Type) where
  client : Client
  /-- The packet of the call that has armed the slot and has yet to send. -/
  outgoing : Option (List UInt8)
  io : IoThread
  key : SessionKey
  up : List UInt8
  /-- The buffer of the server, while it has the connection. -/
  buf : Option (List UInt8)
  down : List UInt8
  left : List LeftLink
  state : S
  history : List (CallEvent S)

inductive RemoteAction (S : Type) where
  | client (a : Action)
  /-- `client.send(packet)` of `call`. -/
  | send
  /-- `client.start` of `connect`, with the key that the server gives to the connection. -/
  | start (ok : Bool) (key : SessionKey)
  /-- So many bytes arrive at the client. -/
  | deliver (n : Nat)
  /-- So many bytes arrive at the server, and its callback runs. -/
  | serve (n : Nat)
  | serveLeft (i n : Nat)
  /-- `postToSession`. -/
  | notify (payload : Var)
  /-- The server closes the connection. -/
  | hangUp
  | hangUpLeft (i : Nat)
  | drop
  | reconnected (key : SessionKey)
  /-- Other sessions, and the application itself. -/
  | elsewhere (change : S → S)

namespace Remote

section Step

variable {S N : Type} (app : SessionKey → App S N) (ctx : Context) (removeSession : SessionKey → S → S)

def fresh (s : S) : Remote S :=
  { client := .fresh, outgoing := none, io := .stopped, key := 0, up := [], buf := none, down := [], left := []
    state := s, history := [] }

/-- `BinTcpServer.answer`, with the dispatch written down. -/
def answer (key : SessionKey) (frame : UInt8 × Var) (p : S × List (CallEvent S)) :
    Option ((S × List (CallEvent S)) × List (List UInt8)) :=
  if frame.1 &&& flagTypeMask ≠ 0 then some (p, [])
  else
    (dispatchNodeProtocol (app key) ctx.tcp (VarS.importNode .default (.blank (ascii "req")) frame.2)
      (.blank (ascii "rep")) p.1).map fun (s, rep) =>
        ((s, p.2 ++ [.dispatched frame.2 p.1 rep s]), [BinTcpServer.replyFrame rep])

def handler : Handler SessionKey (UInt8 × Var) (S × List (CallEvent S)) (List UInt8) :=
  ⟨answer app ctx, fun _ p => p⟩

/-- `processFrames` on a buffer. -/
def processFrames (key : SessionKey) (buf : List UInt8) (p : S × List (CallEvent S)) :
    Option ((S × List (CallEvent S)) × List (List UInt8) × List UInt8) :=
  drain Frame.pop (handler app ctx) key buf.length buf p

/-- The client has no connection any more. What is on the way to it is lost. -/
def leave (r : Remote S) : Remote S :=
  { r with
    up := [], buf := none, down := []
    left := r.left ++ (r.buf.map fun buf => ⟨r.key, r.up, buf⟩).toList }

/-- A new connection. -/
def link (r : Remote S) (key : SessionKey) : Remote S :=
  { r with io := .connected, key := key, up := [], buf := some [], down := [] }

/-- The call that the client has begun to make, if it has. -/
def invocation (c c' : Client) : Action → List (CallEvent S)
  | .prepare (.dict request) =>
    match c.phase, c'.phase with
    | .idle, .prepared id _ => [.invoked id request]
    | _, _ => []
  | _ => []

/-- The calls that have returned. -/
def returns (c c' : Client) : List (CallEvent S) :=
  (c'.log.drop c.log.length).map fun r => .returned r.id r.out

/-- A step of the client that leaves the connection alone. -/
def act (r : Remote S) (a : Action) : Remote S :=
  let c := r.client.step ctx.platform a
  { r with client := c, history := r.history ++ invocation r.client c a ++ returns r.client c }

/-- The packet of the call that is about to arm the slot. -/
def packetOf (c : Client) : Option (List UInt8) :=
  match c.phase with
  | .prepared _ packet => some packet
  | _ => none

/-- `client.send`: without a connection the packet is lost. -/
def send (r : Remote S) (packet : List UInt8) : Remote S :=
  { r with outgoing := none, up := if r.buf.isSome then r.up ++ packet else r.up }

def step (r : Remote S) : RemoteAction S → Option (Remote S)
  | .client a =>
    match a with
    | .received _ | .startClient _ => none
    | .arm => some { r.act ctx .arm with outgoing := packetOf r.client <|> r.outgoing }
    -- the call that holds `callMtx` has yet to send
    | .prepare request => if r.outgoing.isNone then some (r.act ctx (.prepare request)) else none
    | .finish => if r.outgoing.isNone then some (r.act ctx .finish) else none
    | .stopClient => some { (r.leave).act ctx .stopClient with io := .stopped }
    | .connectionLost => if r.io = .lost then some { r.act ctx .connectionLost with io := .told } else none
    | .dropWait => if r.io = .told then some { r.act ctx .dropWait with io := .waiting } else none
    | a => some (r.act ctx a)
  | .send => r.outgoing.map r.send
  | .start ok key =>
    if r.io = .stopped then
      let r := r.act ctx (.startClient ok)
      some (if ok then r.link key else r)
    else none
  | .deliver n =>
    if r.io = .connected then
      some { r.act ctx (.received (r.down.take n)) with down := r.down.drop n }
    else none
  | .serve n =>
    r.buf.bind fun buf =>
      (processFrames app ctx r.key (buf ++ r.up.take n) (r.state, r.history)).map fun (p, out, rest) =>
        { r with
          up := r.up.drop n, buf := some rest, down := r.down ++ out.flatten, state := p.1, history := p.2 }
  | .serveLeft i n =>
    r.left[i]?.bind fun l =>
      (processFrames app ctx l.key (l.buf ++ l.up.take n) (r.state, r.history)).map fun (p, _, rest) =>
        { r with left := r.left.set i ⟨l.key, l.up.drop n, rest⟩, state := p.1, history := p.2 }
  | .notify payload =>
    if r.buf.isSome then some { r with down := r.down ++ Frame.encodeFrame flagNotify payload } else none
  | .hangUp =>
    r.buf.map fun _ =>
      { r with
        up := [], buf := none, state := removeSession r.key r.state
        history := r.history ++ [.changed (removeSession r.key r.state)] }
  | .hangUpLeft i =>
    r.left[i]?.map fun l =>
      { r with
        left := r.left.eraseIdx i, state := removeSession l.key r.state
        history := r.history ++ [.changed (removeSession l.key r.state)] }
  | .drop => if r.io = .connected then some { r.leave with io := .lost } else none
  | .reconnected key => if r.io = .waiting then some (r.link key) else none
  | .elsewhere change =>
    some { r with state := change r.state, history := r.history ++ [.changed (change r.state)] }

def Step (r : Remote S) (a : RemoteAction S) (r' : Remote S) : Prop := r.step app ctx removeSession a = some r'

end Step

end Remote

/-! ## What calls mean -/

/-- The body of the frame of a call. -/
def callBody (id : Int64) (request : List (Str × Var)) : List UInt8 :=
  writeVar (.dict (assign request (ascii "id") (.int id))) []

/-- What arrives of it at the server. -/
def received (id : Int64) (request : List (Str × Var)) : Var :=
  wire (.dict (assign request (ascii "id") (.int id)))

/-- The body of the frame of a reply. -/
def replyBody (rep : Tree) : List UInt8 := writeVar (nodeToVar .default rep) []

/-- What arrives of it at the client. -/
def replied (rep : Tree) : Var := wire (nodeToVar .default rep)

section Atomic

variable {S N : Type} (app : SessionKey → App S N) (ctx : Context)

/-- What has happened when every call is dispatched at most once, at one moment between its begin and its end,
and returns the reply of that moment, or nothing. The state is the one that the dispatches and the other
changes make one after another. -/
inductive AtomicCalls (s₀ : S) : List (CallEvent S) → S → Prop
  | nil : AtomicCalls s₀ [] s₀
  | invoked {h : List (CallEvent S)} {s : S} (id : Int64) (request : List (Str × Var)) :
      AtomicCalls s₀ h s → (∀ request', .invoked id request' ∉ h) → AtomicCalls s₀ (h ++ [.invoked id request]) s
  | dispatched {h : List (CallEvent S)} {s s' : S} {rep : Tree} (key : SessionKey) (id : Int64)
      (request : List (Str × Var)) : AtomicCalls s₀ h s → .invoked id request ∈ h →
      (∀ b rep a, .dispatched (received id request) b rep a ∉ h) →
      dispatchNodeProtocol (app key) ctx.tcp
        (VarS.importNode .default (.blank (ascii "req")) (received id request)) (.blank (ascii "rep")) s = some (s', rep) →
      AtomicCalls s₀ (h ++ [.dispatched (received id request) s rep s']) s'
  | changed {h : List (CallEvent S)} {s : S} (s' : S) : AtomicCalls s₀ h s → AtomicCalls s₀ (h ++ [.changed s']) s'
  | answered {h : List (CallEvent S)} {s before after : S} {rep : Tree} (id : Int64) (request : List (Str × Var)) :
      AtomicCalls s₀ h s → .invoked id request ∈ h → .dispatched (received id request) before rep after ∈ h →
      (∀ out, .returned id out ∉ h) → AtomicCalls s₀ (h ++ [.returned id (some (replied rep))]) s
  | failed {h : List (CallEvent S)} {s : S} (id : Int64) : AtomicCalls s₀ h s → (∀ out, .returned id out ∉ h) →
      AtomicCalls s₀ (h ++ [.returned id none]) s

end Atomic

/-! ## The id of a call -/

section Ids

theorem received_eq (id : Int64) (request : List (Str × Var)) : received id request =
    .dict (assignAll [] ((assign request (ascii "id") (.int id)).map fun p => (p.1, wire p.2))) := wire_dict _

/-- The id arrives at the server. -/
theorem lookup_received {id : Int64} {request : List (Str × Var)} (h : request.lookup (ascii "id") = none) :
    (assignAll [] ((assign request (ascii "id") (.int id)).map fun p => (p.1, wire p.2))).lookup (ascii "id") =
      some (.int id) := by
  have hnew : ascii "id" ∉ request.map Prod.fst := by
    rw [← lookup_isSome, h]
    exact Bool.false_ne_true
  rw [assign_new _ hnew, List.map_append, assignAll_append]
  refine (lookup_assign _ _ _ _).trans ?_
  rw [if_pos rfl]
  exact congrArg some (wire_int id)

/-- Calls with different ids have different requests. -/
theorem received_inj {id id' : Int64} {request request' : List (Str × Var)}
    (h : request.lookup (ascii "id") = none) (h' : request'.lookup (ascii "id") = none)
    (he : received id request = received id' request') : id = id' := by
  rw [received_eq, received_eq, Var.dict.injEq] at he
  have hid := @lookup_received id request h
  rw [he, lookup_received h'] at hid
  cases hid
  rfl

/-- An entry whose value is no container is a child with this value. -/
theorem find?_entryKids {key : Str} {v : Var} (hk : key ≠ [] ∧ key ≠ valueKey) (hv : v.isContainer = false)
    {d : List (Str × Var)} (h : d.lookup key = some v) :
    (d.flatMap entryKids).find? (fun k => k.name = key) = some (.node key v []) := by
  induction d with
  | nil => cases h
  | cons p d ih =>
    rw [List.flatMap_cons, List.find?_append]
    by_cases hp : p.1 = key
    · obtain ⟨k, w⟩ := p
      subst hp
      rw [List.lookup_cons_self] at h
      cases h
      rw [entryKids, if_neg hk.2, if_neg hk.1, treeOf_leaf hv]
      simp
    · have hnone : (entryKids p).find? (fun k => decide (k.name = key)) = none :=
        List.find?_eq_none.mpr fun k hk => by simpa [entryKids_name hk] using hp
      rw [List.lookup_cons, beq_false_of_ne (Ne.symm hp)] at h
      rw [hnone, Option.none_or, ih h]

/-- The dispatcher reads the id of the call. -/
theorem received_id {id : Int64} {request : List (Str × Var)} (h : request.lookup (ascii "id") = none) (nm : Str) :
    (VarS.importNode .default (.blank nm) (received id request)).get (ascii "id") = .int id := by
  have hkeys : ((assignAll [] ((assign request (ascii "id") (.int id)).map fun p => (p.1, wire p.2))).map
      Prod.fst).Nodup := assignAll_nodup List.nodup_nil
  have hchild := find?_entryKids (by decide) rfl (@lookup_received id request h)
  rw [received_eq, importNode_blank, treeOf_dict _ hkeys, Tree.get, Tree.child?, Tree.kids_node, Tree.kids_node, hchild]
  rfl

/-- A reply with an id is a dictionary with it. -/
theorem nodeToVar_into (r : Reply) (id : Int64) : ∃ d,
    nodeToVar .default (r.into (.int id) (.blank (ascii "rep"))) = .dict d ∧ (d.map Prod.fst).Nodup ∧
      d.lookup (ascii "id") = some (.int id) := by
  obtain ⟨names, hnames, hnodup, hempty, hvalue⟩ : ∃ names : List Str, r.body.map Tree.name = names ∧
      (ascii "ok" :: ascii "id" :: names).Nodup ∧ [] ∉ names ∧ valueKey ∉ names := by
    cases r with
    | data d => exact ⟨[ascii "data"], by rw [Reply.body, List.map_singleton, copyTree_name]; rfl, by decide⟩
    | value v => exact ⟨[ascii "data"], rfl, by decide⟩
    | accepted taskId => exact ⟨[ascii "accepted", ascii "task_id"], rfl, by decide⟩
    | error code message => exact ⟨[ascii "code", ascii "error"], rfl, by decide⟩
  obtain ⟨visible, hvisible⟩ : ∃ visible, visible = (Tree.leaf (ascii "ok") (.bool r.isOk) ::
    Tree.leaf (ascii "id") (.int id) :: r.body).map Tree.exported := ⟨_, rfl⟩
  have hfst : visible.map Prod.fst = ascii "ok" :: ascii "id" :: names := by
    rw [hvisible, List.map_map, ← hnames]
    rfl
  have hother : ∀ nm, nm ∉ names → nm ≠ ascii "ok" → nm ≠ ascii "id" → nm ∉ visible.map Prod.fst := by
    intro nm h hok hid
    rw [hfst, List.mem_cons, List.mem_cons]
    rintro (he | he | he)
    · exact hok he
    · exact hid he
    · exact h he
  have hmem : ∀ p ∈ visible, p.1 ≠ [] ∧ p.1 ≠ valueKey := fun p hp =>
    ⟨fun he => hother [] hempty (by decide) (by decide) (he ▸ List.mem_map_of_mem hp),
      fun he => hother valueKey hvalue (by decide) (by decide) (he ▸ List.mem_map_of_mem hp)⟩
  have hdict : dictOf .none visible = visible := by
    have hall : visible.filter (fun p => p.1 ≠ []) = visible :=
      List.filter_eq_self.mpr fun p hp => by simpa using (hmem p hp).1
    have hnone : anonymous visible = [] := by
      rw [anonymous, List.filter_eq_nil_iff.mpr fun p hp => by simpa using (hmem p hp).1]
      rfl
    rw [dictOf_eq fun p hp => (hmem p hp).2, hnone,
      namedFirsts_distinct (by rw [hall, hfst]; exact hnodup) fun _ _ => .inl (by simp), hall]
    exact List.append_nil _
  refine ⟨visible, ?_, by rw [hfst]; exact hnodup, ?_⟩
  · rw [Reply.into, Reply.head]
    have hok : (Tree.leaf (ascii "ok") (.bool r.isOk)).name ≠ [] := List.cons_ne_nil _ _
    exact (nodeToVar_dict hok).trans (congrArg Var.dict (by rw [← hdict, hvisible]; rfl))
  · rw [hvisible]
    rfl

/-- And so does the caller. -/
theorem replied_id {S N : Type} {app : App S N} {ctx : Context} {id : Int64} {req rep : Tree} {s s' : S}
    (hid : req.get (ascii "id") = .int id)
    (h : dispatchNodeProtocol app ctx req (.blank (ascii "rep")) s = some (s', rep)) :
    ∃ d, replied rep = .dict d ∧ d.lookup (ascii "id") = some (.int id) := by
  obtain ⟨⟨s₁, r⟩, -, he⟩ := Option.map_eq_some_iff.mp h
  cases he
  rw [hid]
  obtain ⟨d, hd, hkeys, hlook⟩ := nodeToVar_into r id
  refine ⟨_, by rw [replied, hd, wire, unpackVar_dict hkeys], ?_⟩
  rw [lookup_map (fun _ v => unpackVar (objectOf v)), hlook]
  exact congrArg some (wire_int id)

end Ids

end VersatileEngine
