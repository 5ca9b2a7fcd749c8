import VersatileEngine.Service.RemoteAtomic

/-!
# VersatileEngine.Service.RemoteReturns

Calls of `BinTcpClient` over an undisturbed connection return.

* `Remote.Resting` — the client is connected, no call is under way, and nothing is on the way.
* `dispatches`     — the requests are dispatched one after the other, with no connection between.
* `exchange_returns`, `calls_return` — calls one after the other return what the dispatches reply, and leave the
  state that these leave. So whether a node is reached by a call or in place makes no difference.
-/

namespace VersatileEngine

open Protocol Sessions

/-- The calls with these requests, the first of which is given this id. -/
def numbered : Int64 → List (List (Str × Var)) → List RemoteCall
  | _, [] => []
  | id, request :: requests => (id, request) :: numbered (id + 1) requests

section Dispatches

variable {S N : Type} (app : App S N) (ctx : Context)

/-- The dispatch of the request of a call. -/
def dispatchCall (q : RemoteCall) (s : S) : Option (S × Tree) :=
  dispatchNodeProtocol app ctx.tcp (VarS.importNode .default (.blank (ascii "req")) (received q.1 q.2))
    (.blank (ascii "rep")) s

def dispatches : List RemoteCall → S → Option (S × List Tree)
  | [], s => some (s, [])
  | q :: qs, s => (dispatchCall app ctx q s).bind fun (s, rep) => (dispatches qs s).map fun (s, reps) => (s, rep :: reps)

end Dispatches

namespace Remote

/-- A call, the frames of which have at most so many bytes. -/
def exchange {S : Type} (request : List (Str × Var)) (n m : Nat) : List (RemoteAction S) :=
  [.client (.prepare (.dict request)), .client .arm, .send, .serve n, .deliver m, .client .popFrame, .client .finish]

structure Resting {S : Type} (r : Remote S) : Prop where
  idle : r.client.phase = .idle
  online : (r.client.connected && r.client.started) = true
  outgoing : r.outgoing = none
  connected : r.io = .connected
  read : r.buf = some []
  up : r.up = []
  down : r.down = []
  buffer : r.client.recvBuf = []

section Returns

variable {S N : Type} {app : SessionKey → App S N} {ctx : Context} {removeSession : SessionKey → S → S} {r : Remote S}

theorem drain_empty {σ : Type} {h : Handler SessionKey (UInt8 × Var) σ (List UInt8)} (key : SessionKey) (n : Nat)
    (s : σ) : drain Frame.pop h key n [] s = some (s, [], []) := by
  cases n with
  | zero => rfl
  | succ n => rfl

/-- One request arrives as a whole. -/
theorem processFrames_call {key : SessionKey} {q : RemoteCall} {s s' : S} {rep : Tree} {h : List (CallEvent S)}
    (hq : q.frame.2.length < 2 ^ 32) (hd : dispatchCall (app key) ctx q s = some (s', rep)) :
    processFrames app ctx key (Frame.ofBody 0 q.frame.2) (s, h) =
      some ((s', h ++ [.dispatched (received q.1 q.2) s rep s']), [BinTcpServer.replyFrame rep], []) := by
  have hpop := Frame.pop_ofBody hq 0 []
  rw [List.append_nil, payload_call hq] at hpop
  have hflag : ¬ ((0 : UInt8) &&& flagTypeMask ≠ 0) := by decide
  have hanswer : answer app ctx key (0, received q.1 q.2) (s, h) =
      some ((s', h ++ [.dispatched (received q.1 q.2) s rep s']), [BinTcpServer.replyFrame rep]) := by
    rw [answer, if_neg hflag]
    exact Option.map_eq_some_iff.mpr ⟨(s', rep), hd, rfl⟩
  obtain ⟨n, hn⟩ : ∃ n, (Frame.ofBody 0 q.frame.2).length = n + 1 := by
    rw [Frame.ofBody_length, Frame.headerSize]
    exact ⟨4 + q.frame.2.length, by omega⟩
  rw [processFrames, hn, drain, hpop]
  refine Option.bind_eq_some_iff.mpr ⟨_, hanswer, ?_⟩
  dsimp only
  rw [drain_empty]
  rfl

/-- The reply is what the call that waits takes. -/
theorem handleFrame_reply {platform : Platform} {c : Client} {id : Int64} {rep : Tree} {d : List (Str × Var)}
    (hr : replied rep = .dict d) (hid : d.lookup (ascii "id") = some (.int id)) (hactive : c.waitActive = true)
    (hwait : c.waitId = id) : Client.handleFrame platform c (BinTcpServer.flagFromReply rep) (replied rep) =
      { c with response := replied rep, waitDone := true, waitActive := false } := by
  have hflag : ¬ (BinTcpServer.flagFromReply rep &&& flagTypeMask ≠ flagResponse ∧
      BinTcpServer.flagFromReply rep &&& flagTypeMask ≠ flagError) := by
    rw [BinTcpServer.flagFromReply]
    split_ifs <;> decide
  have hmatch : c.waitActive ∧ (Var.int id).toInt64 platform (-1) = c.waitId := ⟨hactive, hwait.symm⟩
  simp only [Client.handleFrame, hr, hid, if_neg hflag, if_pos hmatch]

/-- The call has armed the slot. -/
def waitingFor (c : Client) (request : List (Str × Var)) : Client :=
  { c with
    nextId := c.nextId + 1, waitId := c.nextId, waitDone := false, waitActive := true, response := .none
    phase := .waiting c.nextId, sent := c.sent ++ [Frame.ofBody 0 (callBody c.nextId request)] }

/-- The request is sent. -/
theorem Resting.ask (hr : r.Resting) {request : List (Str × Var)} (ha : request.lookup (ascii "id") = none) :
    Runs (Step app ctx removeSession) r [.client (.prepare (.dict request)), .client .arm, .send] { r with
      client := waitingFor r.client request, up := Frame.ofBody 0 (callBody r.client.nextId request)
      history := r.history ++ [.invoked r.client.nextId request] } := by
  obtain ⟨c, hc⟩ : ∃ c, c = { r.client with
    nextId := r.client.nextId + 1
    phase := .prepared r.client.nextId (Frame.ofBody 0 (callBody r.client.nextId request)) } := ⟨_, rfl⟩
  have hprepare : r.client.step ctx.platform (.prepare (.dict request)) = c := by
    simp only [Client.step, Client.prepare, hr.idle, hr.online, if_true, ha, hc, Frame.encodeFrame, callBody]
  have harm : c.step ctx.platform .arm = waitingFor r.client request := by
    simp only [Client.step, hc, waitingFor]
  have hact : r.act ctx (.prepare (.dict request)) =
      { r with client := c, history := r.history ++ [.invoked r.client.nextId request] } := by
    rw [act, hprepare, returns_same (by rw [hc]), List.append_nil]
    simp only [invocation, hr.idle, hc]
  have h₁ : Step app ctx removeSession r (.client (.prepare (.dict request)))
      { r with client := c, history := r.history ++ [.invoked r.client.nextId request] } := by
    rw [Step, step, if_pos (by rw [hr.outgoing]; rfl), hact]
  have h₂ : Step app ctx removeSession { r with client := c, history := r.history ++ [.invoked r.client.nextId request] }
      (.client .arm) { r with
        client := waitingFor r.client request
        outgoing := some (Frame.ofBody 0 (callBody r.client.nextId request))
        history := r.history ++ [.invoked r.client.nextId request] } := by
    rw [Step, step, act_eq _ .arm trivial]
    dsimp only
    rw [harm, hc]
    rfl
  refine .cons h₁ (.cons h₂ (.single ?_))
  show some _ = some _
  rw [send, hr.read, hr.up, hr.outgoing]
  rfl

/-- The server replies. -/
theorem Resting.reply {c : Client} {history : List (CallEvent S)} (hr : r.Resting) {q : RemoteCall} {s' : S} {rep : Tree}
    {n : Nat} (hq : q.frame.2.length < 2 ^ 32) (hn : Frame.headerSize + q.frame.2.length ≤ n)
    (hd : dispatchCall (app r.key) ctx q r.state = some (s', rep)) :
    Step app ctx removeSession { r with client := c, up := Frame.ofBody 0 q.frame.2, history := history } (.serve n)
      { r with
        client := c, up := [], buf := some [], down := BinTcpServer.replyFrame rep, state := s'
        history := history ++ [.dispatched (received q.1 q.2) r.state rep s'] } := by
  have htake : (Frame.ofBody 0 q.frame.2).length ≤ n := by rwa [Frame.ofBody_length]
  refine Option.bind_eq_some_iff.mpr ⟨[], hr.read, ?_⟩
  dsimp only
  rw [List.nil_append, List.take_of_length_le htake, List.drop_of_length_le htake, processFrames_call hq hd, hr.down]
  simp

theorem act_finish_eq {c : Client} {x : Returned} (h : r.client.finish = c) (hlog : c.log = r.client.log ++ [x]) :
    r.act ctx .finish = { r with client := c, history := r.history ++ [.returned x.id x.out] } := by
  have hstep : r.client.step ctx.platform .finish = c := h
  have hi : invocation (S := S) r.client c .finish = [] := rfl
  rw [act, hstep, hi, returns_one hlog, List.append_nil]

/-- The call takes the reply and returns. -/
theorem listen {c : Client} {rep : Tree} {d : List (Str × Var)} {m : Nat} {id : Int64} (hio : r.io = .connected)
    (ho : r.outgoing = none) (hc : r.client = c) (hrecv : c.recvBuf = []) (hphase : c.phase = .waiting id)
    (hactive : c.waitActive = true) (hwait : c.waitId = id) (hdown : r.down = BinTcpServer.replyFrame rep)
    (hr : replied rep = .dict d) (hid : d.lookup (ascii "id") = some (.int id)) (hrep : (replyBody rep).length < 2 ^ 32)
    (hm : Frame.headerSize + (replyBody rep).length ≤ m) :
    Runs (Step app ctx removeSession) r [.deliver m, .client .popFrame, .client .finish] { r with
      client := { c with
        response := .none, waitDone := true, waitActive := false, phase := .idle
        log := c.log ++ [⟨id, some (replied rep)⟩] }
      down := [], history := r.history ++ [.returned id (some (replied rep))] } := by
  subst hc
  have htake : (BinTcpServer.replyFrame rep).length ≤ m := by
    rwa [BinTcpServer.replyFrame, Frame.encodeFrame, Frame.ofBody_length]
  have hpop := Frame.pop_ofBody hrep (BinTcpServer.flagFromReply rep) []
  rw [List.append_nil, payload_reply hrep] at hpop
  have h₁ : Step app ctx removeSession r (.deliver m)
      { r with client := { r.client with recvBuf := BinTcpServer.replyFrame rep }, down := [] } := by
    rw [Step, step, if_pos hio, act_eq r (.received (r.down.take m)) trivial, Client.step, hdown, hrecv,
      List.take_of_length_le htake, List.drop_of_length_le htake, List.nil_append]
  have hpopped : Client.step ctx.platform { r.client with recvBuf := BinTcpServer.replyFrame rep } .popFrame =
      { r.client with recvBuf := [], response := replied rep, waitDone := true, waitActive := false } := by
    rw [Client.popFrame_some hpop]
    exact handleFrame_reply hr hid hactive hwait
  have h₂ : Step app ctx removeSession
      { r with client := { r.client with recvBuf := BinTcpServer.replyFrame rep }, down := [] }
      (.client .popFrame) { r with
        client := { r.client with recvBuf := [], response := replied rep, waitDone := true, waitActive := false }
        down := [] } := by
    show some _ = some _
    rw [act_eq _ .popFrame trivial, hpopped]
  refine .cons h₁ (.cons h₂ (.single ?_))
  rw [Step, step, if_pos (by rw [ho]; rfl)]
  have hfinish : Client.finish { r.client with
      recvBuf := [], response := replied rep, waitDone := true, waitActive := false } = { r.client with
        response := .none, waitDone := true, waitActive := false, phase := .idle
        log := r.client.log ++ [⟨id, some (replied rep)⟩] } := by
    simp only [Client.finish, hphase, hr, hrecv]
  rw [act_finish_eq hfinish rfl]

/-- **An exchange is a dispatch.** -/
theorem exchange_returns (hr : r.Resting) {request : List (Str × Var)} (ha : request.lookup (ascii "id") = none)
    {s' : S} {rep : Tree} (hd : dispatchCall (app r.key) ctx (r.client.nextId, request) r.state = some (s', rep))
    (hreq : (callBody r.client.nextId request).length < 2 ^ 32) (hrep : (replyBody rep).length < 2 ^ 32) {n m : Nat}
    (hn : Frame.headerSize + (callBody r.client.nextId request).length ≤ n)
    (hm : Frame.headerSize + (replyBody rep).length ≤ m) :
    ∃ r', Runs (Step app ctx removeSession) r (exchange request n m) r' ∧ r'.Resting ∧
      r'.state = s' ∧ r'.key = r.key ∧ r'.client.nextId = r.client.nextId + 1 ∧
      r'.client.log = r.client.log ++ [⟨r.client.nextId, some (replied rep)⟩] := by
  obtain ⟨d, hrd, hid⟩ := replied_id (received_id ha (ascii "req")) hd
  have hask : Runs (Step app ctx removeSession) r _ _ := hr.ask ha
  have hreply := @Resting.reply S N app ctx removeSession r (waitingFor r.client request)
    (r.history ++ [.invoked r.client.nextId request]) hr (r.client.nextId, request) s' rep n hreq hn hd
  refine ⟨_, hask.trans (.cons hreply (listen hr.connected hr.outgoing rfl hr.buffer rfl rfl rfl rfl hrd hid hrep hm)),
    ⟨rfl, hr.online, hr.outgoing, hr.connected, rfl, rfl, rfl, hr.buffer⟩, rfl, rfl, rfl, rfl⟩

/-- **Calls return what is dispatched.** On an undisturbed connection a sequence of calls returns what the same
requests reply when they are dispatched in place, and changes the state alike. -/
theorem calls_return (app : SessionKey → App S N) (ctx : Context) (removeSession : SessionKey → S → S) (n m : Nat)
    (requests : List (List (Str × Var))) (ha : ∀ request ∈ requests, request.lookup (ascii "id") = none) :
    ∀ {r : Remote S} {s' : S} {reps : List Tree}, r.Resting →
      dispatches (app r.key) ctx (numbered r.client.nextId requests) r.state = some (s', reps) →
      (∀ q ∈ numbered r.client.nextId requests, (callBody q.1 q.2).length < 2 ^ 32 ∧
        Frame.headerSize + (callBody q.1 q.2).length ≤ n) →
      (∀ rep ∈ reps, (replyBody rep).length < 2 ^ 32 ∧ Frame.headerSize + (replyBody rep).length ≤ m) →
      ∃ r', Runs (Step app ctx removeSession) r (requests.flatMap fun request => exchange request n m) r' ∧ r'.Resting ∧
        r'.state = s' ∧ r'.client.log = r.client.log ++
          List.zipWith (fun q rep => ⟨q.1, some (replied rep)⟩) (numbered r.client.nextId requests) reps := by
  induction requests with
  | nil =>
    intro r s' reps hr hd _ _
    cases hd
    exact ⟨r, .nil, hr, rfl, (List.append_nil _).symm⟩
  | cons request requests ih =>
    intro r s' reps hr hd hreq hrep
    obtain ⟨ha, has⟩ := List.forall_mem_cons.mp ha
    obtain ⟨⟨s₁, rep⟩, hd₁, hd⟩ := Option.bind_eq_some_iff.mp hd
    obtain ⟨⟨s₂, reps⟩, hd₂, hd⟩ := Option.map_eq_some_iff.mp hd
    cases hd
    obtain ⟨hfirst, hreq⟩ := List.forall_mem_cons.mp hreq
    obtain ⟨hsize, hrep⟩ := List.forall_mem_cons.mp hrep
    obtain ⟨r₁, hrun, hrest, hstate, hkey, hid, hlog⟩ :=
      @exchange_returns S N app ctx removeSession r hr request ha s₁ rep hd₁ hfirst.1 hsize.1 n m hfirst.2 hsize.2
    rw [← hstate, ← hkey, ← hid] at hd₂
    rw [← hid] at hreq
    obtain ⟨r₂, hrun', hrest', hstate', hlog'⟩ := ih has hrest hd₂ hreq hrep
    refine ⟨r₂, hrun.trans hrun', hrest', hstate', ?_⟩
    rw [hlog', hlog, numbered, hid, List.zipWith_cons_cons, List.append_assoc]
    rfl

/-- A connection to a server without nodes. -/
def restingRoot : Remote (Forest × Unit) :=
  { fresh emptyRoot with
    client := { Client.fresh with connected := true, started := true }, io := .connected, buf := some [] }

def setRequest : List (Str × Var) :=
  [(ascii "op", .string (ascii "node.set")), (ascii "path", .string (ascii "a")), (ascii "value", .int 5)]

def getRequest : List (Str × Var) := [(ascii "op", .string (ascii "node.get")), (ascii "path", .string (ascii "a"))]

theorem calls_return_set : ∃ s' reps, dispatches (Forest.app 8 0 noServices) plainContext
    (numbered 1 [setRequest, getRequest]) emptyRoot = some (s', reps) ∧
      ∃ r', Runs (Step (fun _ => Forest.app 8 0 noServices) plainContext fun _ s => s) restingRoot
        (exchange setRequest 100 100 ++ exchange getRequest 100 100) r' ∧ r'.Resting ∧ r'.state = s' ∧
        r'.client.log = List.zipWith (fun q rep => ⟨q.1, some (replied rep)⟩) (numbered 1 [setRequest, getRequest]) reps := by
  have hlen : (dispatches (Forest.app 8 0 noServices) plainContext (numbered 1 [setRequest, getRequest]) emptyRoot).map
      (fun p => p.2.map fun rep => (replyBody rep).length) = some [22, 29] := by decide +kernel
  obtain ⟨⟨s', reps⟩, hd, hreps⟩ := Option.map_eq_some_iff.mp hlen
  refine ⟨s', reps, hd, ?_⟩
  have hsize : ∀ rep ∈ reps, (replyBody rep).length ≤ 29 := fun rep hm => by
    have hmem := List.mem_map_of_mem (f := fun rep => (replyBody rep).length) hm
    rw [hreps] at hmem
    revert hmem
    simp only [List.mem_cons, List.not_mem_nil, or_false]
    omega
  exact calls_return (fun _ => Forest.app 8 0 noServices) plainContext (fun _ s => s) 100 100 [setRequest, getRequest]
    (by decide) ⟨rfl, rfl, rfl, rfl, rfl, rfl, rfl, rfl⟩ hd (by decide)
    fun rep hm => ⟨by have := hsize rep hm; omega, by have := hsize rep hm; rw [Frame.headerSize]; omega⟩

end Returns

end Remote

end VersatileEngine
