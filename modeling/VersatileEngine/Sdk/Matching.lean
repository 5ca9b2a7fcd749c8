import VersatileEngine.Sdk.Correlation
import VersatileEngine.Sdk.Reassembly

/-!
# VersatileEngine.Sdk.Matching

How the TypeScript clients match replies to calls.

* `OwnIds`             — a call sends the id that was generated for it: its payload has no other.
* `Matching`           — under these steps the requests are correlated, and what was resolved was resolved by
  a reply to it. `matching_step` is the step lemma of each client.
* `Matching.delivers`  — the reply to a call that is waited for ends it.
* `Progress`           — what the frames of one data event leave of the calls that are waited for.
-/

namespace VersatileEngine

/-- The calls that were resolved were resolved by replies to them. -/
def OwnReplies (echo : JsValue → Option JsValue) (requests : List (Nat × JsObject))
    (ended : List (Nat × CallOutcome)) : Prop :=
  ∀ k o, (k, .resolved o) ∈ ended → RepliesTo echo requests k o

section OwnReplies

variable {echo : JsValue → Option JsValue} {requests : List (Nat × JsObject)} {ended : List (Nat × CallOutcome)}
  {k : Nat} {o : JsObject}

theorem RepliesTo.more (h : RepliesTo echo requests k o) (more : List (Nat × JsObject)) :
    RepliesTo echo (requests ++ more) k o := by
  obtain ⟨r, v, hr, hv⟩ := h
  exact ⟨r, v, List.mem_append_left _ hr, hv⟩

theorem OwnReplies.more (h : OwnReplies echo requests ended) (more : List (Nat × JsObject)) :
    OwnReplies echo (requests ++ more) ended := fun k o ho => (h k o ho).more more

theorem OwnReplies.reject (h : OwnReplies echo requests ended) {more : List (Nat × CallOutcome)}
    (hm : ∀ p ∈ more, ∃ e, p.2 = .rejected e) : OwnReplies echo requests (ended ++ more) := by
  intro k o ho
  rcases List.mem_append.mp ho with ho | ho
  · exact h k o ho
  · obtain ⟨e, he⟩ := hm _ ho
    cases he

theorem OwnReplies.resolve (h : OwnReplies echo requests ended) (hr : RepliesTo echo requests k o) :
    OwnReplies echo requests (ended ++ [(k, .resolved o)]) := by
  intro k' o' ho
  rcases List.mem_append.mp ho with ho | ho
  · exact h k' o' ho
  · cases List.mem_singleton.mp ho
    exact hr

theorem mem_of_unassign {pending : List (Nat × Nat)} {i : Nat} : ∀ p ∈ unassign pending i, p ∈ pending :=
  fun _ hp => (List.mem_filter.mp hp).1

theorem rejected_all (pending : List (Nat × Nat)) (error : Str) :
    ∀ p ∈ pending.map fun p => (p.2, CallOutcome.rejected error), ∃ e, p.2 = .rejected e := by
  intro p hp
  obtain ⟨q, -, rfl⟩ := List.mem_map.mp hp
  exact ⟨_, rfl⟩

theorem rejected_one (k : Nat) (error : Str) :
    ∀ p ∈ [(k, CallOutcome.rejected error)], ∃ e, p.2 = .rejected e := by
  intro p hp
  cases List.mem_singleton.mp hp
  exact ⟨_, rfl⟩

end OwnReplies

/-! ### `VeWsClient` -/

namespace VeWsClient

/-- A call sends the id that was generated for it. -/
def OwnIds (c : VeWsClient) : Act → Prop
  | .call _ payload => c.nextId < numberLimit ∧ OwnId payload (c.nextId + 1)
  | .watch _ _ _ _ _ => c.nextId < numberLimit
  | _ => True

structure Matching (c : VeWsClient) : Prop where
  correlated : Correlated c.nextId c.calls c.pending c.requests
  own : OwnReplies some c.requests c.ended

theorem echoes_some (n : Nat) : Echoes some n := fun _ _ => rfl

section Steps

variable {options : VeWsClientOptions} {c c' : VeWsClient}

theorem matching_fresh (options : VeWsClientOptions) : Matching (fresh options) :=
  ⟨correlated_fresh, fun _ _ h => absurd h List.not_mem_nil⟩

theorem Matching.of (h : Matching c) (hn : c'.nextId = c.nextId) (hc : c'.calls = c.calls)
    (hp : ∀ p ∈ c'.pending, p ∈ c.pending) (hr : c'.requests = c.requests)
    (he : OwnReplies some c.requests c'.ended) : Matching c' := by
  refine ⟨?_, by rw [hr]; exact he⟩
  rw [hn, hr, hc]
  exact h.correlated.shrink hp (Nat.le_refl _)

theorem Matching.sends (h : Matching c) (hs : Sends c c') : Matching c' := by
  have hsame := hs.same
  generalize c'.sockets = sockets at hsame
  subst hsame
  exact ⟨h.correlated, h.own⟩

theorem Matching.rejectAll (h : Matching c) (error : Str) : Matching (c.rejectAll error) :=
  h.of rfl rfl (fun _ hp => absurd hp List.not_mem_nil) rfl (h.own.reject (rejected_all c.pending error))

theorem Matching.call (h : Matching c) (op : Str) {payload : JsObject} (hn : c.nextId < numberLimit)
    (hid : OwnId payload (c.nextId + 1)) : Matching (c.call op payload) := by
  simp only [VeWsClient.call]
  split
  · refine Matching.sends ?_ (sends_sendWithoutReply _ _)
    have hinc : increment c.nextId = c.nextId + 1 := if_pos hn
    simp only [hinc]
    exact ⟨h.correlated.issue (idOf_spread _ hid), h.own.more _⟩
  · exact ⟨h.correlated.shrink (fun _ hp => hp) (Nat.le_succ _), h.own.reject (rejected_one _ _)⟩

theorem Matching.watch (h : Matching c) (path : Str) (handler : Nat) (immediate tree bubble : Bool)
    (hn : c.nextId < numberLimit) : Matching (c.watch path handler immediate tree bubble) := by
  have hpath : Matching (c.addPath path tree bubble) ∧ (c.addPath path tree bubble).nextId = c.nextId := by
    simp only [addPath, ite_sendWithoutReply]
    split
    · exact ⟨h, rfl⟩
    · have hs := sends_sendWithoutReply { c with subscriptions := assign c.subscriptions path [] }
        (subscribeMessage path tree bubble)
      refine ⟨Matching.sends ?_ hs, by rw [hs.same]⟩
      exact ⟨h.correlated, h.own⟩
  obtain ⟨hp, hnext⟩ := hpath
  have hadd : Matching ((c.addPath path tree bubble).addHandler path handler) := ⟨hp.correlated, hp.own⟩
  simp only [VeWsClient.watch]
  split
  · refine hadd.call _ (by rw [← hnext] at hn; exact hn) fun v hv => ?_
    simp only [List.mem_cons, List.not_mem_nil, or_false, Prod.mk.injEq] at hv
    rcases hv with ⟨he, -⟩ | ⟨he, -⟩
    · exact absurd he (by decide)
    · exact absurd he (by decide)
  · exact hadd

theorem Matching.unwatch (h : Matching c) (path : Str) : Matching (c.unwatch path) := by
  simp only [VeWsClient.unwatch, ite_sendWithoutReply]
  refine Matching.sends ?_ (sends_sendWithoutReply _ _)
  exact ⟨h.correlated, h.own⟩

theorem Matching.cancel (h : Matching c) (path : Str) (handler : Nat) : Matching (c.cancel path handler) := by
  simp only [VeWsClient.cancel]
  split
  · exact h
  · split
    · exact h.unwatch path
    · exact ⟨h.correlated, h.own⟩

theorem Matching.closeWs (h : Matching c) : Matching c.closeWs := by
  rw [VeWsClient.closeWs]
  cases c.ws with
  | none => exact h
  | some i => exact ⟨h.correlated, h.own⟩

theorem Matching.scheduleReconnect (h : Matching c) : Matching c.scheduleReconnect := by
  rw [VeWsClient.scheduleReconnect]
  split
  · exact h
  · exact ⟨h.correlated, h.own⟩

theorem Matching.createConnection (h : Matching c) (created : Bool) : Matching (c.createConnection created) := by
  rw [VeWsClient.createConnection]
  split
  · exact ⟨h.correlated, h.own⟩
  · exact h.scheduleReconnect

theorem Matching.handleMessage (h : Matching c) (msg : JsValue) : Matching (c.handleMessage msg) := by
  rcases c.handleMessage_cases msg with ⟨_, he⟩ | ⟨o, p, hid, hp, he⟩
  · rw [he]
    exact ⟨h.correlated, h.own⟩
  · rw [he]
    refine h.of rfl rfl mem_of_unassign rfl (h.own.resolve ?_)
    exact h.correlated.own (echoes_some _) hp hid

theorem matching_step {a : Act} (hs : Guarded OwnIds (Step options) c a c') (h : Matching c) : Matching c' := by
  obtain ⟨hg, -, rfl⟩ := hs
  cases a with
  | connect created =>
    refine Matching.createConnection ?_ created
    exact ⟨h.correlated, h.own⟩
  | disconnect =>
    have hrej := Matching.rejectAll (c := { c with intentionalClose := true, reconnectTimer := none })
      ⟨h.correlated, h.own⟩ (ascii "Disconnected")
    exact ⟨hrej.closeWs.correlated, hrej.closeWs.own⟩
  | call op payload => exact h.call op hg.1 hg.2
  | watch path handler immediate tree bubble => exact h.watch path handler immediate tree bubble hg
  | cancel path handler => exact h.cancel path handler
  | unwatch path => exact h.unwatch path
  | opened i =>
    refine Matching.sends ?_ (sends_foldl resubscribeMessage _ _)
    exact ⟨h.correlated, h.own⟩
  | dropped i => exact ⟨h.correlated, h.own⟩
  | errored i => exact Matching.closeWs ⟨h.correlated, h.own⟩
  | closed i =>
    have hrej := Matching.rejectAll (c := c.setSocket i fun s => { s with readyState := .closed, closeFired := true })
      ⟨h.correlated, h.own⟩ (ascii "Connection closed")
    simp only [step, onclose]
    split
    · exact hrej
    · exact hrej.scheduleReconnect
  | message i msg => exact h.handleMessage msg
  | reconnect created =>
    refine Matching.createConnection ?_ created
    exact ⟨h.correlated, h.own⟩
  | timeout id call => exact h.of rfl rfl mem_of_unassign rfl (h.own.reject (rejected_one _ _))

/-- The reply to a call that is waited for ends it. -/
theorem Matching.delivers (h : Matching c) {k : Nat} {o : JsObject} (he : o.lookup (ascii "event") = none)
    (hr : RepliesTo some c.requests k o) (hk : k ∈ c.pending.map Prod.snd) :
    (c.handleMessage (.obj o)).ended = c.ended ++ [(k, .resolved o)] := by
  obtain ⟨i, hi, hf⟩ := h.correlated.find (echoes_some _) hr hk
  rw [idOf] at hi
  simp only [VeWsClient.handleMessage, he, hi, hf]
  rfl

end Steps

end VeWsClient

/-! ### `VeBinTcpClient` -/

namespace VeBinTcpClient

/-- What the client reads for a value that it sent and that the server packs as it read it. -/
def echoed (text : JsValue → Str) (v : JsValue) : Option JsValue :=
  Sdk.msgpackDecode text (packVar (readVar (some (Sdk.msgpackEncode v))).1)

theorem echoes_echoed (text : JsValue → Str) {n : Nat} (hn : n < 2 ^ 32) : Echoes (echoed text) n := by
  intro i hi
  have hp : Sdk.Plain Sdk.Int32Bit MsgPack.depthLimit (.int i) := .int ⟨by omega, by omega⟩
  have hread : (readVar (some (Sdk.msgpackEncode (.int i)))).1 = Sdk.toVar (.int i) := by
    have h := readVar_packVar hp.fits []
    rw [List.append_nil] at h
    rw [Sdk.msgpackEncode, Sdk.encode_eq_packVar hp, h, Sdk.unpackVar_toVar hp]
  have hdec := @Sdk.decode_packVar text _ _ (hp.mono fun i => Sdk.Int32Bit.safe)
    (max (packVar (Sdk.toVar (.int i))).length (MsgPack.depthLimit + 1)) (by omega) []
  rw [List.append_nil] at hdec
  rw [echoed, hread, Sdk.msgpackDecode_eq (Nat.le_max_left _ (MsgPack.depthLimit + 1)), hdec]
  rfl

/-- A call sends the id that was generated for it, and there are fewer than 2^32 requests. -/
def OwnIds (c : VeBinTcpClient) (a : Act) : Prop :=
  c.nextId + c.notifyHandlers.length + 1 < 2 ^ 32 ∧
    ∀ op payload, a = .call op payload → OwnId payload (c.nextId + 1)

structure Matching (text : JsValue → Str) (c : VeBinTcpClient) : Prop where
  correlated : Correlated c.nextId c.calls c.pending c.requests
  own : OwnReplies (echoed text) c.requests c.ended
  bound : c.nextId < 2 ^ 32

section Steps

variable {text : JsValue → Str} {options : VeBinTcpClientOptions} {c c' : VeBinTcpClient}

theorem matching_fresh (text : JsValue → Str) (options : VeBinTcpClientOptions) : Matching text (fresh options) :=
  ⟨correlated_fresh, fun _ _ h => absurd h List.not_mem_nil, Nat.two_pow_pos 32⟩

theorem Matching.of (h : Matching text c) (hn : c'.nextId = c.nextId) (hc : c'.calls = c.calls)
    (hp : ∀ p ∈ c'.pending, p ∈ c.pending) (hr : c'.requests = c.requests)
    (he : OwnReplies (echoed text) c.requests c'.ended) : Matching text c' := by
  refine ⟨?_, by rw [hr]; exact he, by rw [hn]; exact h.bound⟩
  rw [hn, hr, hc]
  exact h.correlated.shrink hp (Nat.le_refl _)

/-- What a reply is looked up by is none of these fields. -/
theorem Matching.same (h : Matching text c) (hn : c'.nextId = c.nextId) (hc : c'.calls = c.calls)
    (hp : c'.pending = c.pending) (hr : c'.requests = c.requests) (he : c'.ended = c.ended) : Matching text c' :=
  h.of hn hc (fun p hp' => by rwa [hp] at hp') hr (by rw [he]; exact h.own)

theorem Matching.rejectAll (h : Matching text c) (error : Str) : Matching text (c.rejectAll error) :=
  h.of rfl rfl (fun _ hp => absurd hp List.not_mem_nil) rfl (h.own.reject (rejected_all c.pending error))

theorem Matching.call (h : Matching text c) (op : Str) {payload : JsObject} (hn : c.nextId + 1 < 2 ^ 32)
    (hid : OwnId payload (c.nextId + 1)) : Matching text (c.call op payload) := by
  have hinc : increment c.nextId = c.nextId + 1 := if_pos (h.bound.trans (by decide))
  rw [VeBinTcpClient.call]
  split
  · rw [hinc]
    exact ⟨h.correlated.issue (idOf_spread _ hid), h.own.more _, hn⟩
  · exact ⟨h.correlated.shrink (fun _ hp => hp) (Nat.le_succ _), h.own.reject (rejected_one _ _), h.bound⟩

theorem nextId_call (h : Matching text c) (op : Str) (payload : JsObject) :
    (c.call op payload).nextId ≤ c.nextId + 1 := by
  have hinc : increment c.nextId = c.nextId + 1 := if_pos (h.bound.trans (by decide))
  rw [VeBinTcpClient.call]
  split
  · rw [hinc]
    exact Nat.le_refl _
  · exact Nat.le_succ _

theorem ownId_path (path : Str) (n : Nat) : OwnId [(ascii "path", .str path)] n := by
  intro v hv
  have he : ascii "id" = ascii "path" := congrArg Prod.fst (List.mem_singleton.mp hv)
  exact absurd he (by decide)

theorem Matching.addHandler (h : Matching text c) (path : Str) (handler : Nat) :
    Matching text (c.addHandler path handler) := by
  rw [VeBinTcpClient.addHandler]
  split
  · exact h
  · exact h.same rfl rfl rfl rfl rfl

theorem Matching.subscribe (h : Matching text c) (path : Str) (handler : Nat) (hn : c.nextId + 1 < 2 ^ 32) :
    Matching text (c.subscribe path handler) := by
  have hnew : Matching text { c with notifyHandlers := assign c.notifyHandlers path [] } :=
    h.same rfl rfl rfl rfl rfl
  simp only [VeBinTcpClient.subscribe]
  split
  · exact h.addHandler path handler
  · split
    · exact (hnew.call _ hn (ownId_path path _)).same rfl rfl rfl rfl rfl
    · exact hnew.addHandler path handler

theorem Matching.cancel (h : Matching text c) (path : Str) (handler : Nat) (hn : c.nextId + 1 < 2 ^ 32) :
    Matching text (c.cancel path handler) := by
  have hgone : Matching text { c with notifyHandlers := unassign c.notifyHandlers path } :=
    h.same rfl rfl rfl rfl rfl
  simp only [VeBinTcpClient.cancel]
  split
  · exact h
  · split
    · split
      · exact hgone.call _ hn (ownId_path path _)
      · exact hgone
    · exact h.same rfl rfl rfl rfl rfl

theorem Matching.resubscribe (h : Matching text c) (hn : c.nextId + c.notifyHandlers.length < 2 ^ 32) :
    Matching text c.resubscribe := by
  have hall : ∀ (paths : List Str) (c : VeBinTcpClient), Matching text c → c.nextId + paths.length < 2 ^ 32 →
      Matching text (paths.foldl (fun c path => c.call (ascii "subscribe") [(ascii "path", .str path)]) c) := by
    intro paths
    induction paths with
    | nil => exact fun c h _ => h
    | cons p paths ih =>
      intro c h hn
      rw [List.length_cons] at hn
      have hnext := nextId_call h (ascii "subscribe") [(ascii "path", .str p)]
      refine ih _ (h.call _ (by omega) (ownId_path p _)) ?_
      show (c.call (ascii "subscribe") [(ascii "path", .str p)]).nextId + paths.length < 2 ^ 32
      omega
  exact hall _ c h (by rw [List.length_map]; exact hn)

theorem Matching.scheduleReconnect (h : Matching text c) : Matching text c.scheduleReconnect := by
  rw [VeBinTcpClient.scheduleReconnect]
  split
  · exact h
  · exact h.same rfl rfl rfl rfl rfl

/-! #### Frames -/

theorem Matching.handleMessage (h : Matching text c) (i : Nat) (flag : UInt8) (msg : JsValue) :
    Matching text (c.handleMessage text i flag msg) := by
  rcases handleMessage_cases text c i flag msg with ⟨_, he⟩ | ⟨p, -, hid, hp, he⟩
  · rw [he]
    exact h.same rfl rfl rfl rfl rfl
  · rw [he]
    refine h.of rfl rfl mem_of_unassign rfl (h.own.resolve ?_)
    exact h.correlated.own (echoes_echoed text h.bound) hp hid

theorem Matching.handleFrame (h : Matching text c) {i : Nat} {flag : UInt8} {payload : List UInt8}
    (hs : c.handleFrame text i flag payload = some c') : Matching text c' := by
  rcases handleFrame_cases hs with rfl | ⟨msg, rfl⟩
  · exact h
  · exact h.handleMessage i flag msg

theorem Matching.processFrames (i : Nat) (turns : Nat) (h : Matching text c) :
    Matching text (processFrames text i turns c) :=
  processFrames_keeps (fun _ h => h.same rfl rfl rfl rfl rfl) (fun flag msg h => h.handleMessage i flag msg) turns h

theorem matching_step {a : Act} (hs : Guarded OwnIds (Step options text) c a c') (h : Matching text c) :
    Matching text c' := by
  obtain ⟨⟨hn, hid⟩, hen, rfl⟩ := hs
  cases a with
  | connect =>
    rw [step]
    split
    · exact h
    · exact h.same rfl rfl rfl rfl rfl
  | imported =>
    simp only [step, createSocket]
    split
    · exact h
    · exact h.same rfl rfl rfl rfl rfl
  | socketConnected i =>
    have hset : Matching text { c.setSocket i fun s => { s with connected := true } with
        connected := true, currentReconnectDelay := options.reconnectInterval } := h.same rfl rfl rfl rfl rfl
    simp only [step, onConnect]
    split
    · exact hset.resubscribe (Nat.lt_of_succ_lt hn)
    · exact hset
  | data i chunk =>
    refine Matching.processFrames i _ ?_
    exact h.same rfl rfl rfl rfl rfl
  | errored i =>
    obtain ⟨s, hs, -⟩ := hen
    have hset : Matching text (c.setSocket i fun s => { s with destroyed := true }) := h.same rfl rfl rfl rfl rfl
    rw [step, hs]
    simp only [Option.elim_some, onError, connectFailed]
    split
    · split
      · refine Matching.scheduleReconnect ?_
        exact hset.same rfl rfl rfl rfl rfl
      · exact hset.same rfl rfl rfl rfl rfl
    · exact hset
  | closed i =>
    have hset : Matching text { c.setSocket i fun s => { s with destroyed := true, closeFired := true } with
        connected := false, socket := none } := h.same rfl rfl rfl rfl rfl
    have hrej := hset.rejectAll (ascii "Connection closed")
    simp only [step, onClose]
    split
    · exact hrej.scheduleReconnect
    · exact hrej
  | close =>
    have hset : Matching text { c with intentionalClose := true, reconnectTimer := none } :=
      h.same rfl rfl rfl rfl rfl
    have hrej := hset.rejectAll (ascii "Disconnected")
    simp only [step, close]
    cases c.socket with
    | none => exact hrej.same rfl rfl rfl rfl rfl
    | some i => exact hrej.same rfl rfl rfl rfl rfl
  | call op payload => exact h.call op (by omega) (hid op payload rfl)
  | subscribe path handler => exact h.subscribe path handler (by omega)
  | subscribed call path handler =>
    refine Matching.addHandler ?_ path handler
    exact h.same rfl rfl rfl rfl rfl
  | cancel path handler => exact h.cancel path handler (by omega)
  | reconnect =>
    have hset : Matching text { c with reconnectTimer := none } := h.same rfl rfl rfl rfl rfl
    simp only [step, reconnect]
    split
    · exact hset.resubscribe (Nat.lt_of_succ_lt hn)
    · exact hset.same rfl rfl rfl rfl rfl
  | timeout id call => exact h.of rfl rfl mem_of_unassign rfl (h.own.reject (rejected_one _ _))

/-! #### Delivery -/

/-- A call that was waited for is waited for still, or it was resolved. -/
structure Progress (c c' : VeBinTcpClient) : Prop where
  requests : c'.requests = c.requests
  ended : ∀ x ∈ c.ended, x ∈ c'.ended
  pending : ∀ k ∈ c.pending.map Prod.snd, k ∈ c'.pending.map Prod.snd ∨ ∃ o, (k, .resolved o) ∈ c'.ended

theorem Progress.refl (c : VeBinTcpClient) : Progress c c := ⟨rfl, fun _ h => h, fun _ h => .inl h⟩

theorem Progress.trans {c'' : VeBinTcpClient} (h : Progress c c') (h' : Progress c' c'') : Progress c c'' := by
  refine ⟨h'.requests.trans h.requests, fun x hx => h'.ended x (h.ended x hx), fun k hk => ?_⟩
  rcases h.pending k hk with hk | ⟨o, ho⟩
  · exact h'.pending k hk
  · exact .inr ⟨o, h'.ended _ ho⟩

theorem Matching.progress_handleMessage (h : Matching text c) (i : Nat) (flag : UInt8) (msg : JsValue) :
    Progress c (c.handleMessage text i flag msg) := by
  rcases handleMessage_cases text c i flag msg with ⟨_, he⟩ | ⟨p, -, -, hp, he⟩
  · rw [he]
    exact ⟨rfl, fun _ h => h, fun _ h => .inl h⟩
  · rw [he]
    refine ⟨rfl, fun x hx => List.mem_append_left _ hx, fun k hk => ?_⟩
    obtain ⟨q, hq, rfl⟩ := List.mem_map.mp hk
    by_cases hqp : q.1 = p.1
    · -- one id is the id of one call
      obtain ⟨r, hr, hid⟩ := h.correlated.pending p hp
      obtain ⟨r', hr', hid'⟩ := h.correlated.pending q hq
      have hcall := h.correlated.id _ r' _ r hr' hr (by rw [hid, hid', hqp])
      exact .inr ⟨fieldsOf msg, by rw [hcall]; exact List.mem_append_right _ List.mem_cons_self⟩
    · exact .inl (List.mem_map_of_mem (List.mem_filter.mpr ⟨hq, decide_eq_true hqp⟩))

theorem Matching.progress_handleFrame (h : Matching text c) {i : Nat} {flag : UInt8} {payload : List UInt8}
    (hs : c.handleFrame text i flag payload = some c') : Progress c c' := by
  rcases handleFrame_cases hs with rfl | ⟨msg, rfl⟩
  · exact .refl _
  · exact h.progress_handleMessage i flag msg

theorem Matching.progress_processFrames (h : Matching text c) (i : Nat) (turns : Nat) :
    Progress c (VeBinTcpClient.processFrames text i turns c) := by
  have hkeeps := @processFrames_keeps text i (fun c' => Matching text c' ∧ Progress c c') ?_ ?_ turns c ⟨h, .refl c⟩
  · exact hkeeps.2
  · rintro c' rest ⟨hm, hp⟩
    exact ⟨hm.same rfl rfl rfl rfl rfl, hp.trans ⟨rfl, fun _ h => h, fun _ h => .inl h⟩⟩
  · rintro c' flag msg ⟨hm, hp⟩
    exact ⟨hm.handleMessage i flag msg, hp.trans (hm.progress_handleMessage i flag msg)⟩

/-- The reply to a call that is waited for ends it. -/
theorem Matching.handleFrame_reply (h : Matching text c) {i k : Nat} {f : UInt8 × List UInt8} {o : JsObject}
    (hf : f.1 &&& 0xc0 ≠ 0x80) (hd : Sdk.msgpackDecode text f.2 = some (.obj o))
    (hr : RepliesTo (echoed text) c.requests k o) (hk : k ∈ c.pending.map Prod.snd)
    (hs : c.handleFrame text i f.1 f.2 = some c') : (k, .resolved o) ∈ c'.ended := by
  obtain ⟨n, hn, hfind⟩ := h.correlated.find (echoes_echoed text h.bound) hr hk
  rw [idOf] at hn
  rw [VeBinTcpClient.handleFrame, hd] at hs
  simp only [VeBinTcpClient.handleMessage, if_neg hf, fieldsOf, VeBinTcpClient.handleReply, hn, hfind] at hs
  cases hs
  exact List.mem_append_right _ List.mem_cons_self

/-- A reply in the buffer reaches the call that waits for it. -/
theorem Matching.delivers {i k : Nat} {f : UInt8 × List UInt8} {o : JsObject} (hf : f.1 &&& 0xc0 ≠ 0x80)
    (hd : Sdk.msgpackDecode text f.2 = some (.obj o)) (turns : Nat) : ∀ {c : VeBinTcpClient}, Matching text c →
    c.recvBuf.length ≤ turns → NoNull text (streamFrames c.recvBuf) → f ∈ streamFrames c.recvBuf →
    RepliesTo (echoed text) c.requests k o → k ∈ c.pending.map Prod.snd →
    ∃ o', (k, .resolved o') ∈ (VeBinTcpClient.processFrames text i turns c).ended := by
  induction turns with
  | zero =>
    intro c h hl _ hmem
    rw [List.eq_nil_of_length_eq_zero (Nat.le_zero.mp hl)] at hmem
    cases hmem
  | succ turns ih =>
    intro c h hl hn hmem hr hk
    cases hs : splitFrame c.recvBuf with
    | none =>
      rw [streamFrames, frames_none hs] at hmem
      cases hmem
    | some p =>
      obtain ⟨g, rest⟩ := p
      have hlt := framing_splitFrame.shorter hs
      have hcons : streamFrames c.recvBuf = g :: streamFrames rest := by
        rw [streamFrames, frames_some framing_splitFrame hs]
        rfl
      rw [hcons] at hn hmem
      have hcut : Matching text { c with recvBuf := rest } := h.same rfl rfl rfl rfl rfl
      obtain ⟨c₂, hc₂, -, hb⟩ := @handleFrame_spec text { c with recvBuf := rest } i g fun f hf =>
        hn f (by rw [List.mem_singleton.mp hf]; exact List.mem_cons_self)
      have hb' : c₂.recvBuf = rest := hb
      have hstep : VeBinTcpClient.processFrames text i (turns + 1) c = VeBinTcpClient.processFrames text i turns c₂ := by
        rw [VeBinTcpClient.processFrames, hs]
        simp only [hc₂]
      have hm₂ := hcut.handleFrame hc₂
      have hrest := hm₂.progress_processFrames i turns
      rw [hstep]
      rcases List.mem_cons.mp hmem with rfl | hmem
      · exact ⟨o, hrest.ended _ (hcut.handleFrame_reply hf hd hr hk hc₂)⟩
      · have hp := hcut.progress_handleFrame hc₂
        rcases hp.pending k hk with hk | ⟨o', ho⟩
        · refine ih hm₂ (by rw [hb']; omega) ?_ (by rw [hb']; exact hmem) (by rw [hp.requests]; exact hr) hk
          rw [hb']
          exact fun f hf => hn f (List.mem_cons_of_mem _ hf)
        · exact ⟨o', hrest.ended _ ho⟩

end Steps

end VeBinTcpClient

end VersatileEngine
