import VersatileEngine.Service.Remote

/-!
# VersatileEngine.Service.RemoteCalls

The calls that a `BinTcpClient` has numbered.

* `Remote.Orderly` — what is asked of a run: no id of the caller's own, fewer than `2^64` calls, bodies below
  `2^32` bytes, `connect` and `disconnect` not at the same time, and no reconnection of the socket library
  in the middle of a call that still waits.
* `Client.prepare_cases`, `Client.finish_cases`, `Client.popFrame_cases` — what the client does, said once.
* `Calls`          — the history is one of `AtomicCalls`, and its ids are those that the client has given.
* `Calls.prepare`, `Calls.finish`, `Calls.changed` — the steps that write something down keep this.
-/

namespace VersatileEngine

open Protocol Sessions

/-- The bodies of the frames have lengths that the header holds. -/
def CallEvent.Sized {S : Type} : CallEvent S → Prop
  | .invoked id request => (callBody id request).length < 2 ^ 32
  | .dispatched _ _ rep _ => (replyBody rep).length < 2 ^ 32
  | _ => True

instance {S : Type} : (e : CallEvent S) → Decidable e.Sized
  | .invoked id request => inferInstanceAs (Decidable ((callBody id request).length < 2 ^ 32))
  | .dispatched _ _ rep _ => inferInstanceAs (Decidable ((replyBody rep).length < 2 ^ 32))
  | .changed _ | .returned _ _ => isTrue trivial

/-! ## Steps of the client -/

namespace Client

variable {platform : Platform} {c : Client}

/-- What is done with a frame: nothing, or it is taken as the response that is waited for. -/
theorem handleFrame_cases (c : Client) (flag : UInt8) (msg : Var) : handleFrame platform c flag msg = c ∨
    ∃ dict v, msg = .dict dict ∧ flag &&& flagTypeMask ≠ flagNotify ∧ dict.lookup (ascii "id") = some v ∧
      c.waitActive = true ∧ v.toInt64 platform (-1) = c.waitId ∧
      handleFrame platform c flag msg = { c with response := msg, waitDone := true, waitActive := false } := by
  simp only [handleFrame]
  split_ifs with hty
  · exact .inl rfl
  · cases msg with
    | dict dict =>
      dsimp only
      cases hv : dict.lookup (ascii "id") with
      | none => exact .inl rfl
      | some v =>
        dsimp only
        split_ifs with hmatch
        · refine .inr ⟨dict, v, rfl, fun hn => hty ?_, hv, hmatch.1, hmatch.2, rfl⟩
          rw [hn]
          decide
        · exact .inl rfl
    | _ => exact .inl rfl

theorem popFrame_some {f : UInt8 × Var} {rest : List UInt8} (h : Frame.pop c.recvBuf = some (f, rest)) :
    c.step platform .popFrame = handleFrame platform { c with recvBuf := rest } f.1 f.2 := by
  rw [Frame.pop] at h
  split_ifs at h with hok
  cases h
  simp only [step, if_pos hok]

theorem popFrame_cases (c : Client) : c.step platform .popFrame = c ∨
    ∃ f rest, Frame.pop c.recvBuf = some (f, rest) ∧
      c.step platform .popFrame = handleFrame platform { c with recvBuf := rest } f.1 f.2 := by
  cases hp : Frame.pop c.recvBuf with
  | some p => exact .inr ⟨p.1, p.2, rfl, popFrame_some hp⟩
  | none =>
    rw [Frame.pop] at hp
    split_ifs at hp with hok
    exact .inl (by simp only [step, if_neg hok])

/-- A call without an id of its own is given the next one, if the client is idle and connected. -/
theorem prepare_cases (c : Client) {request : Var} (h : Anonymous (.prepare request)) :
    prepare platform c request = c ∨ ∃ dict, request = .dict dict ∧ dict.lookup (ascii "id") = none ∧
      c.phase = .idle ∧ c.connected = true ∧ prepare platform c request =
        { c with nextId := c.nextId + 1, phase := .prepared c.nextId (Frame.ofBody 0 (callBody c.nextId dict)) } := by
  unfold prepare
  split
  · rename_i dict hidle
    split_ifs with hon
    · rw [Anonymous] at h
      rw [Bool.and_eq_true] at hon
      rw [h]
      exact .inr ⟨dict, rfl, h, hidle, hon.1, rfl⟩
    · exact .inl rfl
  · exact .inl rfl

theorem finish_cases (c : Client) : c.finish = c ∧ (∀ id, c.phase ≠ .waiting id) ∨
    ∃ id out, c.phase = .waiting id ∧ c.finish.log = c.log ++ [⟨id, out⟩] ∧ c.finish.phase = .idle ∧
      c.finish.recvBuf = c.recvBuf ∧ c.finish.waitActive = false ∧ c.finish.connected = c.connected ∧
      c.finish.waitId = c.waitId ∧ (c.finish.response = .none ∨ c.finish.response = c.response) ∧
      ∀ v, out = some v → c.response = v ∧ ∃ d, v = .dict d := by
  cases hp : c.phase with
  | idle => exact .inl ⟨by rw [finish, hp], fun _ h => by cases h⟩
  | prepared id packet => exact .inl ⟨by rw [finish, hp], fun _ h => by cases h⟩
  | waiting id =>
    by_cases hdone : ∃ d, c.waitDone = true ∧ c.response = .dict d
    · obtain ⟨d, hw, hr⟩ := hdone
      refine .inr ⟨id, some (.dict d), rfl, ?_⟩
      have hfin : c.finish = { c with
          waitActive := false, phase := .idle, response := .none, log := c.log ++ [⟨id, some (.dict d)⟩] } := by
        rw [finish, hp]
        simp only [hw, hr]
      rw [hfin]
      exact ⟨rfl, rfl, rfl, rfl, rfl, rfl, .inl rfl, fun v hv => by cases hv; exact ⟨hr, d, rfl⟩⟩
    · refine .inr ⟨id, none, rfl, ?_⟩
      have hfin : c.finish = { c with waitActive := false, phase := .idle, log := c.log ++ [⟨id, none⟩] } := by
        rw [finish, hp]
        dsimp only
        split
        · rename_i d hw hr
          exact absurd ⟨d, hw, hr⟩ hdone
        · rfl
      rw [hfin]
      exact ⟨rfl, rfl, rfl, rfl, rfl, rfl, .inr rfl, fun v hv => by cases hv⟩

/-- It neither begins nor ends a call. -/
def Quiet : Action → Prop
  | .prepare _ | .finish => False
  | _ => True

/-- Only the begin of a call gives out an id. -/
theorem given_step (c : Client) {a : Action} (h : ∀ request, a ≠ .prepare request) :
    (c.step platform a).given = c.given := by
  cases a with
  | prepare request => exact absurd rfl (h request)
  | popFrame =>
    rcases @popFrame_cases platform c with he | ⟨f, rest, -, he⟩
    · rw [he]
    · rw [he]
      rcases @handleFrame_cases platform { c with recvBuf := rest } f.1 f.2 with he | ⟨_, _, -, -, -, -, -, he⟩ <;>
        rw [he] <;> rfl
  | finish =>
    rcases finish_cases c with ⟨he, -⟩ | ⟨id, out, hw, hlog, hidle, -⟩
    · exact congrArg given he
    · show c.finish.given = c.given
      simp only [given, hlog, hidle, hw]
      rw [List.length_append]
      rfl
  | arm =>
    simp only [step]
    cases hp : c.phase <;> simp [given, hp]
  | dropWait =>
    simp only [step]
    split_ifs <;> rfl
  | _ => rfl

/-- Between its begin and its end, only its sending changes the phase of a call. -/
theorem phase_step (c : Client) {a : Action} (hq : Quiet a) (h : a ≠ .arm) : (c.step platform a).phase = c.phase := by
  cases a with
  | prepare request => exact hq.elim
  | finish => exact hq.elim
  | arm => exact absurd rfl h
  | popFrame =>
    rcases @popFrame_cases platform c with he | ⟨f, rest, -, he⟩
    · rw [he]
    · rw [he]
      rcases @handleFrame_cases platform { c with recvBuf := rest } f.1 f.2 with he | ⟨_, _, -, -, -, -, -, he⟩ <;>
        rw [he]
  | dropWait =>
    simp only [step]
    split_ifs <;> rfl
  | _ => rfl

/-- Only the end of a call is logged. -/
theorem log_step (c : Client) {a : Action} (h : a ≠ .finish) : (c.step platform a).log = c.log := by
  cases a with
  | finish => exact absurd rfl h
  | prepare request =>
    simp only [step, prepare]
    split
    · split_ifs
      · split <;> rfl
      · rfl
    · rfl
  | popFrame =>
    rcases @popFrame_cases platform c with he | ⟨f, rest, -, he⟩
    · rw [he]
    · rw [he]
      rcases @handleFrame_cases platform { c with recvBuf := rest } f.1 f.2 with he | ⟨_, _, -, -, -, -, -, he⟩ <;>
        rw [he]
  | arm =>
    simp only [step]
    split <;> rfl
  | dropWait =>
    simp only [step]
    split_ifs <;> rfl
  | _ => rfl

end Client

namespace Remote

section Calls

variable {S N : Type} (app : SessionKey → App S N) (ctx : Context) (removeSession : SessionKey → S → S) (s₀ : S)

instance : (request : Var) → Decidable (Client.Anonymous (.prepare request))
  | .dict dict => inferInstanceAs (Decidable (dict.lookup (ascii "id") = none))
  | .none | .bool _ | .int _ | .double _ | .string _ | .bin _ | .list _ | .pointer _ | .callable _ | .custom _ _ =>
    isTrue trivial

instance (phase : CallPhase) : Decidable (∀ id packet, phase ≠ .prepared id packet) :=
  match phase with
  | .prepared id packet => isFalse fun h => h id packet rfl
  | .idle => isTrue fun _ _ h => by cases h
  | .waiting _ => isTrue fun _ _ h => by cases h

/-- What a run must keep to. -/
def Orderly (r : Remote S) : RemoteAction S → Prop
  | .client (.prepare request) => Client.Anonymous (.prepare request) ∧ r.client.given + 1 < 2 ^ 64
  -- `disconnect` and `connect` clear the buffer of a client that has no connection
  | .client .releaseWait | .client .clearBuffer => r.io = .stopped
  | .start _ _ => r.client.recvBuf = []
  | .notify payload => (writeVar payload []).length < 2 ^ 32
  | .reconnected _ => (∀ id packet, r.client.phase ≠ .prepared id packet) ∧ r.client.waitActive = false
  | _ => True

instance (r : Remote S) : (a : RemoteAction S) → Decidable (Orderly r a)
  | .client (.prepare request) =>
    inferInstanceAs (Decidable (Client.Anonymous (.prepare request) ∧ r.client.given + 1 < 2 ^ 64))
  | .client .releaseWait | .client .clearBuffer => inferInstanceAs (Decidable (r.io = .stopped))
  | .start _ _ => inferInstanceAs (Decidable (r.client.recvBuf = []))
  | .notify payload => inferInstanceAs (Decidable ((writeVar payload []).length < 2 ^ 32))
  | .reconnected _ => inferInstanceAs
    (Decidable ((∀ id packet, r.client.phase ≠ .prepared id packet) ∧ r.client.waitActive = false))
  | .client (.received _) | .client .popFrame | .client .connectionLost | .client .dropWait | .client .stopClient
  | .client (.startClient _) | .client .resetWait | .client .arm | .client .finish | .send | .deliver _
  | .serve _ | .serveLeft _ _ | .hangUp | .hangUpLeft _ | .drop | .elsewhere _ => isTrue trivial

structure Fine (r : Remote S) (a : RemoteAction S) : Prop where
  orderly : Orderly r a
  sized : ∀ r' ∈ r.step app ctx removeSession a, ∀ e ∈ r'.history, e.Sized

instance (r : Remote S) (a : RemoteAction S) : Decidable (Fine app ctx removeSession r a) :=
  decidable_of_iff (Orderly r a ∧ ∀ r' ∈ r.step app ctx removeSession a, ∀ e ∈ r'.history, e.Sized)
    ⟨fun h => ⟨h.1, h.2⟩, fun h => ⟨h.orderly, h.sized⟩⟩

/-- The calls that the client has numbered. -/
structure Calls (r : Remote S) : Prop where
  client : r.client.Inv ctx.platform
  few : r.client.given < 2 ^ 64
  atomic : AtomicCalls app ctx s₀ r.history r.state
  anonymous : ∀ id request, .invoked id request ∈ r.history → request.lookup (ascii "id") = none
  asked : ∀ id request, .invoked id request ∈ r.history → ∃ k < r.client.given, id = Int64.ofNat (k + 1)
  answered : ∀ id out, .returned id out ∈ r.history → ⟨id, out⟩ ∈ r.client.log

/-- The response in the slot is the reply to the call that waits. -/
def Slot (r : Remote S) : Prop := ∀ d, r.client.response = .dict d → ∃ request b rep a,
  .invoked r.client.waitId request ∈ r.history ∧
    .dispatched (received r.client.waitId request) b rep a ∈ r.history ∧ r.client.response = replied rep

variable {app ctx removeSession s₀} {r r' : Remote S} {a : RemoteAction S}

/-! ### What a step writes down -/

theorem returns_same {c c' : Client} (h : c'.log = c.log) : returns (S := S) c c' = [] := by
  rw [returns, h, List.drop_length]
  rfl

theorem returns_one {c c' : Client} {x : Returned} (h : c'.log = c.log ++ [x]) :
    returns (S := S) c c' = [.returned x.id x.out] := by
  rw [returns, h, List.drop_left]
  rfl

/-- A step of the client that neither begins nor ends a call writes nothing down. -/
theorem act_eq (r : Remote S) (act : Action) (hq : Client.Quiet act) :
    r.act ctx act = { r with client := r.client.step ctx.platform act } := by
  have hi : invocation (S := S) r.client (r.client.step ctx.platform act) act = [] := by
    cases act with
    | prepare request => exact hq.elim
    | _ => rfl
  have hlog : (r.client.step ctx.platform act).log = r.client.log :=
    Client.log_step r.client fun hf => by rw [hf] at hq; exact hq
  rw [Remote.act, hi, returns_same hlog, List.append_nil, List.append_nil]

theorem act_history (r : Remote S) {act : Action} (hq : Client.Quiet act) :
    (r.act ctx act).history = r.history := by rw [act_eq r act hq]

/-! ### Numbered calls -/

theorem Calls.frame (h : Calls app ctx s₀ r) (hc : r'.client.Inv ctx.platform) (hg : r'.client.given = r.client.given)
    (hl : r'.client.log = r.client.log) (hh : r'.history = r.history) (hs : r'.state = r.state) :
    Calls app ctx s₀ r' where
  client := hc
  few := by rw [hg]; exact h.few
  atomic := by rw [hh, hs]; exact h.atomic
  anonymous := by rw [hh]; exact h.anonymous
  asked := by rw [hh, hg]; exact h.asked
  answered := by rw [hh, hl]; exact h.answered

theorem Calls.act (h : Calls app ctx s₀ r) {act : Action} (hq : Client.Quiet act) :
    Calls app ctx s₀ (r.act ctx act) := by
  have ha : Client.Anonymous act := by
    cases act with
    | prepare request => exact hq.elim
    | _ => trivial
  have hp : ∀ request, act ≠ .prepare request := fun _ he => by rw [he] at hq; exact hq
  have hf : act ≠ .finish := fun he => by rw [he] at hq; exact hq
  exact h.frame (Client.inv_step h.client act ha) (Client.given_step r.client hp) (Client.log_step r.client hf)
    (act_history r hq) rfl

/-- The ids of the calls so far are not the next one. -/
theorem Calls.fresh (h : Calls app ctx s₀ r) {id : Int64} {request : List (Str × Var)}
    (hm : .invoked id request ∈ r.history) (hmore : r.client.given + 1 < 2 ^ 64) : id ≠ r.client.nextId := by
  obtain ⟨k, hk, rfl⟩ := h.asked id request hm
  rw [h.client.next]
  exact Client.id_ne hk (by omega)

/-- What the begin of a call makes: nothing, or a packet with the next id. -/
theorem act_prepare (r : Remote S) {request : Var} (ha : Client.Anonymous (.prepare request)) :
    r.act ctx (.prepare request) = r ∨ ∃ dict, dict.lookup (ascii "id") = none ∧ r.client.phase = .idle ∧
      r.client.connected = true ∧ r.act ctx (.prepare request) = { r with
        client := { r.client with
          nextId := r.client.nextId + 1
          phase := .prepared r.client.nextId (Frame.ofBody 0 (callBody r.client.nextId dict)) }
        history := r.history ++ [.invoked r.client.nextId dict] } := by
  rcases @Client.prepare_cases ctx.platform r.client request ha with he | ⟨dict, rfl, hd, hidle, hon, he⟩
  · refine .inl ?_
    have hstep : r.client.step ctx.platform (.prepare request) = r.client := he
    have hi : invocation (S := S) r.client r.client (.prepare request) = [] := by
      cases request with
      | dict request =>
        rw [invocation]
        cases r.client.phase <;> rfl
      | _ => rfl
    rw [act, hstep, hi, returns_same rfl, List.append_nil, List.append_nil]
  · refine .inr ⟨dict, hd, hidle, hon, ?_⟩
    have hstep : r.client.step ctx.platform (.prepare (.dict dict)) = _ := he
    have hnone : returns (S := S) r.client (r.client.step ctx.platform (.prepare (.dict dict))) = [] :=
      returns_same (Client.log_step r.client fun hf => by cases hf)
    rw [act]
    dsimp only
    rw [hnone, List.append_nil, hstep]
    simp only [invocation, hidle]

/-- More has happened. -/
theorem Calls.extend (h : Calls app ctx s₀ r) (hc : r'.client.Inv ctx.platform) (hf : r'.client.given < 2 ^ 64)
    {es : List (CallEvent S)} (hh : r'.history = r.history ++ es) (ha : AtomicCalls app ctx s₀ r'.history r'.state)
    (hg : r.client.given ≤ r'.client.given) (hl : r.client.log ⊆ r'.client.log)
    (hi : ∀ id request, .invoked id request ∈ es → request.lookup (ascii "id") = none ∧
      ∃ k < r'.client.given, id = Int64.ofNat (k + 1))
    (hr : ∀ id out, .returned id out ∈ es → ⟨id, out⟩ ∈ r'.client.log) : Calls app ctx s₀ r' where
  client := hc
  few := hf
  atomic := ha
  anonymous id request hm := by
    rw [hh] at hm
    exact (List.mem_append.mp hm).elim (h.anonymous id request) fun hm => (hi id request hm).1
  asked id request hm := by
    rw [hh] at hm
    rcases List.mem_append.mp hm with hm | hm
    · obtain ⟨k, hk, hid⟩ := h.asked id request hm
      exact ⟨k, Nat.lt_of_lt_of_le hk hg, hid⟩
    · exact (hi id request hm).2
  answered id out hm := by
    rw [hh] at hm
    exact (List.mem_append.mp hm).elim (fun hm => hl (h.answered id out hm)) (hr id out)

theorem Calls.prepare (h : Calls app ctx s₀ r) {request : Var} (ha : Client.Anonymous (.prepare request))
    (hmore : r.client.given + 1 < 2 ^ 64) : Calls app ctx s₀ (r.act ctx (.prepare request)) := by
  rcases @act_prepare S ctx r _ ha with he | ⟨dict, hd, hidle, -, he⟩
  · rw [he]
    exact h
  · have hinv : (r.act ctx (.prepare request)).client.Inv ctx.platform := Client.inv_step h.client _ ha
    have hgiven : (r.act ctx (.prepare request)).client.given = r.client.given + 1 := by
      rw [he]
      simp only [Client.given, hidle]
    have hnext : r.client.nextId = Int64.ofNat (r.client.given + 1) := h.client.next
    have hhist : (r.act ctx (.prepare request)).history = r.history ++ [.invoked r.client.nextId dict] := by rw [he]
    refine h.extend hinv (by rw [hgiven]; exact hmore) hhist ?_
      (by rw [hgiven]; exact Nat.le_succ _) (by rw [he]; exact List.Subset.refl _) ?_ ?_
    · rw [he]
      exact .invoked _ _ h.atomic fun request' hm => h.fresh hm hmore rfl
    · intro id request hm
      cases List.mem_singleton.mp hm
      exact ⟨hd, _, by rw [hgiven]; exact Nat.lt_succ_self _, hnext⟩
    · intro id out hm
      cases List.mem_singleton.mp hm

/-- What the end of a call makes: nothing, or what the call returns is written down. -/
theorem act_finish (r : Remote S) : (r.act ctx .finish = r ∧ ∀ id, r.client.phase ≠ .waiting id) ∨
    ∃ id out, r.client.phase = .waiting id ∧ r.client.finish.log = r.client.log ++ [⟨id, out⟩] ∧
      (∀ v, out = some v → r.client.response = v ∧ ∃ d, v = .dict d) ∧
      r.act ctx .finish = { r with client := r.client.finish, history := r.history ++ [.returned id out] } := by
  rcases Client.finish_cases r.client with ⟨he, hw⟩ | ⟨id, out, hw, hlog, -, -, -, -, -, -, hout⟩
  · refine .inl ⟨?_, hw⟩
    have hstep : r.client.step ctx.platform .finish = r.client := he
    have hi : invocation (S := S) r.client r.client .finish = [] := rfl
    rw [act, hstep, hi, returns_same rfl, List.append_nil, List.append_nil]
  · refine .inr ⟨id, out, hw, hlog, hout, ?_⟩
    have hstep : r.client.step ctx.platform .finish = r.client.finish := rfl
    have hi : invocation (S := S) r.client r.client.finish .finish = [] := rfl
    rw [act, hstep, hi, returns_one hlog, List.append_nil]

theorem Calls.finish (h : Calls app ctx s₀ r) (hs : Slot r) : Calls app ctx s₀ (r.act ctx .finish) := by
  rcases @act_finish S ctx r with ⟨he, -⟩ | ⟨id, out, hw, hlog, hout, he⟩
  · rw [he]
    exact h
  · have hinv : (r.act ctx .finish).client.Inv ctx.platform := Client.inv_step h.client .finish trivial
    have hgiven : (r.act ctx .finish).client.given = r.client.given :=
      Client.given_step r.client fun _ hc => by cases hc
    obtain ⟨hid, hwait⟩ := h.client.waiting id hw
    have hcount : r.client.log.length + 1 < 2 ^ 64 := by
      have := h.few
      rwa [Client.given, hw] at this
    have hnew : ∀ out', .returned id out' ∉ r.history := fun out' hm => by
      obtain ⟨k, hk⟩ := List.mem_iff_getElem?.mp (h.answered id out' hm)
      have hlt := (List.getElem?_eq_some_iff.mp hk).1
      have hk' : id = Int64.ofNat (k + 1) := (h.client.log k _ hk).1
      exact Client.id_ne hlt (by omega) (hk'.symm.trans hid)
    have hlog' : (r.act ctx .finish).client.log = r.client.log ++ [⟨id, out⟩] := hlog
    have hhist : (r.act ctx .finish).history = r.history ++ [.returned id out] := by rw [he]
    refine h.extend hinv (by rw [hgiven]; exact h.few) hhist ?_ (by rw [hgiven])
      (by rw [hlog']; exact List.subset_append_left _ _) ?_ ?_
    · rw [he]
      cases out with
      | none => exact .failed id h.atomic hnew
      | some v =>
        obtain ⟨hv, d, rfl⟩ := hout v rfl
        obtain ⟨request, b, rep, a, hi, hd, hrep⟩ := hs d hv
        rw [hwait] at hi hd
        rw [← hv, hrep]
        exact .answered id request h.atomic hi hd hnew
    · intro id' request hm
      cases List.mem_singleton.mp hm
    · intro id' out' hm
      cases List.mem_singleton.mp hm
      rw [hlog']
      exact List.mem_append_right _ List.mem_cons_self

/-- The state changes without a call. -/
theorem Calls.changed (h : Calls app ctx s₀ r) (hc : r'.client = r.client)
    (hh : r'.history = r.history ++ [.changed r'.state]) : Calls app ctx s₀ r' := by
  refine h.extend (by rw [hc]; exact h.client) (by rw [hc]; exact h.few) hh ?_ (by rw [hc])
    (by rw [hc]; exact List.Subset.refl _)
    (fun id request hm => ?_) fun id out hm => ?_
  · rw [hh]
    exact .changed _ h.atomic
  · cases List.mem_singleton.mp hm
  · cases List.mem_singleton.mp hm

end Calls

end Remote

end VersatileEngine
