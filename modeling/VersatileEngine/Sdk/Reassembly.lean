import VersatileEngine.Lib.Framing
import VersatileEngine.Sdk.Bin

/-!
# VersatileEngine.Sdk.Reassembly

The frames that `VeBinTcpClient` receives on its connections.

* `framing_splitFrame` — the frames of a buffer are a `Framing`.
* `processFrames_spec` — one data event handles the frames of the buffer with the chunk behind it.
* `FrameBounds`        — data comes on a connection only when every other one has ended between frames.
* `frames_reassembled` — in such runs the messages of each connection are the frames that were completely
  received on it, in order.
-/

namespace VersatileEngine

theorem framing_splitFrame : Framing splitFrame := by
  refine ⟨fun {buf f rest} h => ?_, fun {buf f rest} h more => ?_⟩
  · unfold splitFrame at h
    split at h
    · simp only [] at h
      split_ifs at h with hlt
      cases h
      simp only [List.length_drop, List.length_cons]
      omega
    · cases h
  · unfold splitFrame at h
    split at h
    · simp only [] at h
      split_ifs at h with hlt
      cases h
      have hle := Nat.not_lt.mp hlt
      simp only [List.cons_append, splitFrame]
      rw [if_neg (by rw [List.length_append]; omega), List.take_append_of_le_length hle,
        List.drop_append_of_le_length hle]
    · cases h

namespace VeBinTcpClient

/-- The frames of a stream. -/
def streamFrames (bytes : List UInt8) : List (UInt8 × List UInt8) := (frames splitFrame bytes).1

/-- What is behind the last complete frame. -/
def leftover (bytes : List UInt8) : List UInt8 := (frames splitFrame bytes).2

section Messages

variable (text : JsValue → Str)

/-- The messages in frames; a malformed one has none. -/
def messagesIn (fs : List (UInt8 × List UInt8)) : List (UInt8 × JsValue) :=
  fs.filterMap fun f => (Sdk.msgpackDecode text f.2).map fun msg => (f.1, msg)

/-- No message is `null`. -/
def NoNull (fs : List (UInt8 × List UInt8)) : Prop :=
  ∀ f ∈ fs, Sdk.msgpackDecode text f.2 ≠ some .null ∧ Sdk.msgpackDecode text f.2 ≠ some .undefined

end Messages

/-- The bytes received on connection `i`. -/
def receivedOn (c : VeBinTcpClient) (i : Nat) : List UInt8 := (c.sockets[i]?).elim [] TcpSocket.received

/-- The messages handled in the data events of connection `i`. -/
def messagesOn (c : VeBinTcpClient) (i : Nat) : List (UInt8 × JsValue) :=
  (c.messages.filter fun m => m.1 = i).map Prod.snd

/-! ### One data event -/

/-- `c'` has handled these messages, of connection `i`. -/
structure Handles (i : Nat) (ms : List (UInt8 × JsValue)) (c c' : VeBinTcpClient) : Prop where
  sockets : c'.sockets = c.sockets
  messages : c'.messages = c.messages ++ ms.map (Prod.mk i)

section Data

variable {text : JsValue → Str} {c c' : VeBinTcpClient} {i : Nat}

theorem handles_handleMessage (flag : UInt8) (msg : JsValue) :
    Handles i [(flag, msg)] c (c.handleMessage text i flag msg) ∧
      (c.handleMessage text i flag msg).recvBuf = c.recvBuf := by
  rcases handleMessage_cases text c i flag msg with ⟨_, he⟩ | ⟨_, -, -, -, he⟩
  · rw [he]
    exact ⟨⟨rfl, rfl⟩, rfl⟩
  · rw [he]
    exact ⟨⟨rfl, rfl⟩, rfl⟩

/-- A frame is handled or skipped. -/
theorem handleFrame_spec (f : UInt8 × List UInt8) (hn : NoNull text [f]) :
    ∃ c', c.handleFrame text i f.1 f.2 = some c' ∧ Handles i (messagesIn text [f]) c c' ∧
      c'.recvBuf = c.recvBuf := by
  obtain ⟨hnull, hundef⟩ := hn f (List.mem_singleton.mpr rfl)
  rw [handleFrame]
  split
  · next h =>
    refine ⟨c, rfl, ⟨rfl, ?_⟩, rfl⟩
    rw [messagesIn, List.filterMap_cons, h]
    simp
  · next h => exact absurd h hnull
  · next h => exact absurd h hundef
  · next msg _ _ h =>
    obtain ⟨hh, hb⟩ := @handles_handleMessage text c i f.1 msg
    refine ⟨_, rfl, ⟨hh.sockets, ?_⟩, hb⟩
    rw [hh.messages, messagesIn, List.filterMap_cons, h]
    simp

/-- The loop handles all frames of the buffer and leaves what is behind them. -/
theorem processFrames_spec : ∀ (turns : Nat) (c : VeBinTcpClient), c.recvBuf.length ≤ turns →
    NoNull text (streamFrames c.recvBuf) →
    Handles i (messagesIn text (streamFrames c.recvBuf)) c (processFrames text i turns c) ∧
      (processFrames text i turns c).recvBuf = leftover c.recvBuf := by
  intro turns
  induction turns with
  | zero =>
    intro c hl _
    have hnil : c.recvBuf = [] := List.eq_nil_of_length_eq_zero (Nat.le_zero.mp hl)
    rw [streamFrames, leftover, hnil]
    exact ⟨⟨rfl, by simp [processFrames, frames, popAll, messagesIn]⟩, hnil⟩
  | succ turns ih =>
    intro c hl hn
    cases hs : splitFrame c.recvBuf with
    | none =>
      rw [streamFrames, leftover, frames_none hs, processFrames, hs]
      exact ⟨⟨rfl, by simp [messagesIn]⟩, rfl⟩
    | some p =>
      obtain ⟨f, rest⟩ := p
      have hlt := framing_splitFrame.shorter hs
      have hframes := frames_some framing_splitFrame hs
      have hcons : streamFrames c.recvBuf = f :: streamFrames rest := by rw [streamFrames, hframes]; rfl
      have hleft : leftover c.recvBuf = leftover rest := by rw [leftover, hframes]; rfl
      rw [hcons] at hn ⊢
      rw [hleft]
      have hfirst : NoNull text [f] := fun g hg => hn g (by rw [List.mem_singleton.mp hg]; simp)
      obtain ⟨c₂, hc₂, hh, hb⟩ := @handleFrame_spec text { c with recvBuf := rest } i f hfirst
      have hb' : c₂.recvBuf = rest := hb
      obtain ⟨hrest, hend⟩ := ih c₂ (by rw [hb']; omega)
        (by rw [hb']; exact fun g hg => hn g (List.mem_cons_of_mem _ hg))
      rw [hb'] at hrest hend
      have hstep : processFrames text i (turns + 1) c = processFrames text i turns c₂ := by
        rw [processFrames, hs]
        simp only [hc₂]
      rw [hstep]
      refine ⟨⟨hrest.sockets.trans hh.sockets, ?_⟩, hend⟩
      have hmore : messagesIn text (f :: streamFrames rest) =
          messagesIn text [f] ++ messagesIn text (streamFrames rest) := by
        rw [messagesIn, messagesIn, messagesIn, ← List.filterMap_append, List.singleton_append]
      rw [hrest.messages, hh.messages, hmore, List.map_append, List.append_assoc]

end Data

/-! ### Runs -/

/-- Data comes on a connection when all others have ended between two frames, and there is no `null`
among its messages. -/
def FrameBounds (text : JsValue → Str) (c : VeBinTcpClient) : Act → Prop
  | .data i chunk => (∀ j, j ≠ i → leftover (c.receivedOn j) = []) ∧
      NoNull text (streamFrames (c.receivedOn i ++ chunk))
  | _ => True

structure Assembled (text : JsValue → Str) (c : VeBinTcpClient) : Prop where
  messages : ∀ i, c.messagesOn i = messagesIn text (streamFrames (c.receivedOn i))
  buffer : ∃ i, c.recvBuf = leftover (c.receivedOn i) ∧ ∀ j, j ≠ i → leftover (c.receivedOn j) = []

/-- What is received and read stays the same. -/
structure Unread (c c' : VeBinTcpClient) : Prop where
  received : ∀ i, c'.receivedOn i = c.receivedOn i
  messages : c'.messages = c.messages
  buffer : c'.recvBuf = c.recvBuf

section Unread

variable {text : JsValue → Str} {options : VeBinTcpClientOptions} {c c' c'' : VeBinTcpClient} {i : Nat}

theorem Unread.refl (c : VeBinTcpClient) : Unread c c := ⟨fun _ => rfl, rfl, rfl⟩

theorem Unread.trans (h : Unread c c') (h' : Unread c' c'') : Unread c c'' :=
  ⟨fun i => (h'.received i).trans (h.received i), h'.messages.trans h.messages, h'.buffer.trans h.buffer⟩

theorem Unread.of (h : Unread c c') (hs : c''.sockets = c'.sockets) (hm : c''.messages = c'.messages)
    (hb : c''.recvBuf = c'.recvBuf) : Unread c c'' :=
  h.trans ⟨fun i => by rw [receivedOn, receivedOn, hs], hm, hb⟩

theorem unread_setSocket {f : TcpSocket → TcpSocket} (hf : ∀ s, (f s).received = s.received) :
    Unread c (c.setSocket i f) := by
  refine ⟨fun j => ?_, rfl, rfl⟩
  rw [receivedOn, receivedOn, setSocket, List.getElem?_modify]
  cases c.sockets[j]? with
  | none => rfl
  | some s =>
    simp only [Option.elim_some]
    split_ifs
    · exact hf s
    · rfl

theorem Assembled.unread (h : Assembled text c) (hu : Unread c c') : Assembled text c' := by
  refine ⟨fun i => ?_, ?_⟩
  · rw [hu.received, messagesOn, hu.messages]
    exact h.messages i
  · obtain ⟨i, hb, hj⟩ := h.buffer
    refine ⟨i, by rw [hu.buffer, hu.received, hb], fun j hne => ?_⟩
    rw [hu.received]
    exact hj j hne

theorem unread_call (op : Str) (payload : JsObject) : Unread c (c.call op payload) := by
  rw [call]
  split
  · refine Unread.trans ?_ (unread_setSocket fun _ => rfl)
    exact ⟨fun _ => rfl, rfl, rfl⟩
  · exact ⟨fun _ => rfl, rfl, rfl⟩

theorem unread_addHandler (path : Str) (handler : Nat) : Unread c (c.addHandler path handler) := by
  rw [addHandler]
  split <;> exact ⟨fun _ => rfl, rfl, rfl⟩

theorem unread_subscribe (path : Str) (handler : Nat) : Unread c (c.subscribe path handler) := by
  have hnew : Unread c { c with notifyHandlers := assign c.notifyHandlers path [] } := ⟨fun _ => rfl, rfl, rfl⟩
  simp only [subscribe]
  split
  · exact unread_addHandler path handler
  · split
    · exact (hnew.trans (unread_call _ _)).of rfl rfl rfl
    · exact hnew.trans (unread_addHandler path handler)

theorem unread_cancel (path : Str) (handler : Nat) : Unread c (c.cancel path handler) := by
  have hgone : Unread c { c with notifyHandlers := unassign c.notifyHandlers path } := ⟨fun _ => rfl, rfl, rfl⟩
  simp only [cancel]
  split
  · exact .refl c
  · split
    · split
      · exact hgone.trans (unread_call _ _)
      · exact hgone
    · exact ⟨fun _ => rfl, rfl, rfl⟩

theorem unread_resubscribe : Unread c c.resubscribe := by
  have hall : ∀ (paths : List Str) (c : VeBinTcpClient), Unread c
      (paths.foldl (fun c path => c.call (ascii "subscribe") [(ascii "path", .str path)]) c) := by
    intro paths
    induction paths with
    | nil => exact Unread.refl
    | cons p paths ih => exact fun c => (unread_call _ _).trans (ih _)
  exact hall _ c

theorem unread_scheduleReconnect : Unread c c.scheduleReconnect := by
  rw [scheduleReconnect]
  split
  · exact .refl c
  · exact ⟨fun _ => rfl, rfl, rfl⟩

theorem unread_createSocket : Unread c c.createSocket := by
  rw [createSocket]
  split
  · exact .refl c
  · refine ⟨fun i => ?_, rfl, rfl⟩
    rw [receivedOn, receivedOn]
    rcases Nat.lt_trichotomy i c.sockets.length with hi | hi | hi
    · rw [List.getElem?_append_left hi]
    · subst hi
      simp
    · rw [List.getElem?_eq_none (by rw [List.length_append, List.length_singleton]; omega),
        List.getElem?_eq_none (by omega)]

theorem unread_onClose : Unread c (c.onClose options) := by
  have hlost : Unread c ({ c with connected := false, socket := none }.rejectAll (ascii "Connection closed")) :=
    ⟨fun _ => rfl, rfl, rfl⟩
  simp only [onClose]
  split
  · exact hlost.trans unread_scheduleReconnect
  · exact hlost

theorem unread_onError (s : TcpSocket) : Unread c (c.onError options i s) := by
  have hdestroyed : Unread c (c.setSocket i fun s => { s with destroyed := true }) :=
    unread_setSocket fun _ => rfl
  simp only [onError, connectFailed]
  split
  · split
    · refine Unread.trans ?_ unread_scheduleReconnect
      exact hdestroyed.of rfl rfl rfl
    · exact hdestroyed.of rfl rfl rfl
  · exact hdestroyed

theorem unread_close : Unread c c.close := by
  have hgone : Unread c ({ c with intentionalClose := true, reconnectTimer := none }.rejectAll
      (ascii "Disconnected")) := ⟨fun _ => rfl, rfl, rfl⟩
  simp only [close]
  cases c.socket with
  | none => exact hgone.of rfl rfl rfl
  | some i =>
    have hset : Unread _ ((({ c with intentionalClose := true, reconnectTimer := none }.rejectAll
        (ascii "Disconnected"))).setSocket i fun s => { s with destroyed := true }) :=
      unread_setSocket fun _ => rfl
    exact (hgone.trans hset).of rfl rfl rfl

/-- Only a data event reads something. -/
theorem unread_step {a : Act} (hs : Step options text c a c') (ha : ∀ i chunk, a ≠ .data i chunk) :
    Unread c c' := by
  obtain ⟨hen, rfl⟩ := hs
  cases a with
  | data i chunk => exact absurd rfl (ha i chunk)
  | connect =>
    rw [step]
    split
    · exact .refl c
    · exact ⟨fun _ => rfl, rfl, rfl⟩
  | imported => exact unread_createSocket
  | socketConnected i =>
    have hset : Unread c (c.setSocket i fun s => { s with connected := true }) := unread_setSocket fun _ => rfl
    simp only [step, onConnect]
    split
    · refine Unread.trans ?_ unread_resubscribe
      exact hset.of rfl rfl rfl
    · exact hset.of rfl rfl rfl
  | errored i =>
    obtain ⟨s, hs, -⟩ := hen
    rw [step, hs]
    exact unread_onError s
  | closed i =>
    have hset : Unread c (c.setSocket i fun s => { s with destroyed := true, closeFired := true }) :=
      unread_setSocket fun _ => rfl
    exact hset.trans unread_onClose
  | close => exact unread_close
  | call op payload => exact unread_call op payload
  | subscribe path handler => exact unread_subscribe path handler
  | subscribed call path handler =>
    refine Unread.trans ?_ (unread_addHandler path handler)
    exact ⟨fun _ => rfl, rfl, rfl⟩
  | cancel path handler => exact unread_cancel path handler
  | reconnect =>
    simp only [step, reconnect]
    split
    · refine Unread.trans ?_ unread_resubscribe
      exact ⟨fun _ => rfl, rfl, rfl⟩
    · exact ⟨fun _ => rfl, rfl, rfl⟩
  | timeout id call => exact ⟨fun _ => rfl, rfl, rfl⟩

end Unread

/-! ### The invariant -/

theorem assembled_data {text : JsValue → Str} {c : VeBinTcpClient} {i : Nat} {chunk : List UInt8} {s : TcpSocket}
    (h : Assembled text c) (hs : c.sockets[i]? = some s) (hb : FrameBounds text c (.data i chunk)) :
    Assembled text ((c.setSocket i fun s => { s with received := s.received ++ chunk }).onData text i chunk) := by
  obtain ⟨hothers, hnull⟩ := hb
  have hbuf : c.recvBuf = leftover (c.receivedOn i) := by
    obtain ⟨k, hk, hrest⟩ := h.buffer
    by_cases hki : k = i
    · rw [hk, hki]
    · rw [hk, hothers k hki, hrest i fun he => hki he.symm]
  have happend := frames_append framing_splitFrame chunk _ (c.receivedOn i) (Nat.le_refl _)
  have hnew : streamFrames (c.receivedOn i ++ chunk) =
      streamFrames (c.receivedOn i) ++ streamFrames (c.recvBuf ++ chunk) := by
    rw [hbuf, streamFrames, happend]
    rfl
  have hleft : leftover (c.receivedOn i ++ chunk) = leftover (c.recvBuf ++ chunk) := by
    rw [hbuf, leftover, happend]
    rfl
  have hset : ∀ j, (c.setSocket i fun s => { s with received := s.received ++ chunk }).receivedOn j =
      if j = i then c.receivedOn i ++ chunk else c.receivedOn j := by
    intro j
    simp only [receivedOn, setSocket, List.getElem?_modify]
    by_cases hj : j = i
    · subst hj
      simp [hs]
    · rw [if_neg hj]
      cases c.sockets[j]? with
      | none => rfl
      | some s => simp [Ne.symm hj]
  obtain ⟨hh, hend⟩ := @processFrames_spec text i (c.recvBuf ++ chunk).length
    { c.setSocket i fun s => { s with received := s.received ++ chunk } with
      recvBuf := c.recvBuf ++ chunk } (Nat.le_refl _) fun f hf =>
        hnull f (by rw [hnew]; exact List.mem_append_right _ hf)
  have hrecv : ∀ j, ((c.setSocket i fun s => { s with received := s.received ++ chunk }).onData text i
      chunk).receivedOn j = if j = i then c.receivedOn i ++ chunk else c.receivedOn j := by
    intro j
    rw [← hset j, receivedOn, receivedOn]
    exact congrArg (fun l : List TcpSocket => (l[j]?).elim [] TcpSocket.received) hh.sockets
  refine ⟨fun j => ?_, i, ?_, fun j hj => ?_⟩
  · rw [hrecv]
    have hmsgs : ((c.setSocket i fun s => { s with received := s.received ++ chunk }).onData text i
        chunk).messages = c.messages ++ (messagesIn text (streamFrames (c.recvBuf ++ chunk))).map (Prod.mk i) :=
      hh.messages
    rw [messagesOn, hmsgs, List.filter_append, List.map_append]
    have hold := h.messages j
    rw [messagesOn] at hold
    rw [hold]
    split_ifs with hj
    · subst hj
      rw [hnew, messagesIn, messagesIn, messagesIn, List.filterMap_append]
      congr 1
      simp [List.filter_map, Function.comp_def]
    · simp [List.filter_map, Function.comp_def, Ne.symm hj]
  · rw [hrecv, if_pos rfl, hleft]
    exact hend
  · rw [hrecv, if_neg hj]
    exact hothers j hj

theorem assembled_fresh (text : JsValue → Str) (options : VeBinTcpClientOptions) :
    Assembled text (fresh options) := by
  have hnone : ∀ i, (fresh options).receivedOn i = [] := fun i => by simp [receivedOn, fresh]
  have hempty : frames splitFrame [] = ([], []) := rfl
  refine ⟨fun i => ?_, 0, ?_, fun j _ => ?_⟩
  · rw [hnone, streamFrames, hempty]
    rfl
  · rw [hnone, leftover, hempty]
    rfl
  · rw [hnone, leftover, hempty]

end VeBinTcpClient

end VersatileEngine
