import Mathlib.Data.List.Flatten
import VersatileEngine.Service.Gateway
import VersatileEngine.Service.RemoteCalls

/-!
# VersatileEngine.Service.RemoteAtomic

Calls of `BinTcpClient` over `BinTcpServer` are atomic.

* `Requests` — what is on the way to the server are frames of calls that were begun and not yet dispatched.
* `Replies`  — what is on the way to the client are events and the replies to calls that were dispatched, and the
  last frame may have been cut off; or else the client makes no calls.
* `Sound`    — these two, with the numbers of the calls: every step of an orderly run keeps it.
* `calls_atomic` — in every such run the calls are `AtomicCalls`.

The connections that the client has left still deliver, so a call that has returned nothing may be dispatched
later, but then its reply is not read.
-/

namespace VersatileEngine

open Protocol Sessions

/-- A call under way: its id and what the caller asked. -/
abbrev RemoteCall := Int64 × List (Str × Var)

def RemoteCall.frame (q : RemoteCall) : UInt8 × List UInt8 := (0, callBody q.1 q.2)

/-- These calls were begun, and none of them was dispatched. -/
structure Pending {S : Type} (h : List (CallEvent S)) (qs : List RemoteCall) : Prop where
  invoked : ∀ q ∈ qs, .invoked q.1 q.2 ∈ h
  anonymous : ∀ q ∈ qs, q.2.lookup (ascii "id") = none
  undispatched : ∀ q ∈ qs, ∀ b rep a, .dispatched (received q.1 q.2) b rep a ∉ h
  nodup : (qs.map Prod.fst).Nodup

/-- A frame with the reply to a call that was dispatched. -/
def IsReply {S : Type} (h : List (CallEvent S)) (c : UInt8 × List UInt8) : Prop :=
  ∃ id request b rep a, .invoked id request ∈ h ∧ .dispatched (received id request) b rep a ∈ h ∧
    c.2 = replyBody rep ∧ ∃ d, replied rep = .dict d ∧ d.lookup (ascii "id") = some (.int id)

/-- A frame on the way to the client is an event or a reply. -/
def Known {S : Type} (h : List (CallEvent S)) (c : UInt8 × List UInt8) : Prop := c.1 = flagNotify ∨ IsReply h c

section Lists

variable {S : Type} {h h' : List (CallEvent S)} {qs qs' : List RemoteCall} {q : RemoteCall}

theorem Pending.subperm (hp : Pending h qs) (hs : List.Subperm qs' qs) : Pending h qs' where
  invoked q hq := hp.invoked q (hs.subset hq)
  anonymous q hq := hp.anonymous q (hs.subset hq)
  undispatched q hq := hp.undispatched q (hs.subset hq)
  nodup := by
    obtain ⟨l, hperm, hsub⟩ := hs
    exact (hperm.map Prod.fst).nodup_iff.mp (hp.nodup.sublist (hsub.map Prod.fst))

/-- What is no dispatch leaves the calls pending. -/
theorem Pending.append (hp : Pending h qs) {es : List (CallEvent S)}
    (hes : ∀ m b rep a, .dispatched m b rep a ∉ es) : Pending (h ++ es) qs where
  invoked q hq := List.mem_append_left _ (hp.invoked q hq)
  anonymous := hp.anonymous
  undispatched q hq b rep a hm := by
    rcases List.mem_append.mp hm with hm | hm
    · exact hp.undispatched q hq b rep a hm
    · exact hes _ _ _ _ hm
  nodup := hp.nodup

/-- A new call is pending, too. -/
theorem Pending.cons (hp : Pending h qs) (hi : .invoked q.1 q.2 ∈ h) (ha : q.2.lookup (ascii "id") = none)
    (hu : ∀ b rep a, .dispatched (received q.1 q.2) b rep a ∉ h) (hn : ∀ x ∈ qs, x.1 ≠ q.1) :
    Pending h (q :: qs) where
  invoked := List.forall_mem_cons.mpr ⟨hi, hp.invoked⟩
  anonymous := List.forall_mem_cons.mpr ⟨ha, hp.anonymous⟩
  undispatched := List.forall_mem_cons.mpr ⟨hu, hp.undispatched⟩
  nodup := List.nodup_cons.mpr ⟨fun hm => by
    obtain ⟨x, hx, he⟩ := List.mem_map.mp hm
    exact hn x hx he, hp.nodup⟩

/-- The first of them is dispatched. -/
theorem Pending.dispatch (hp : Pending h (q :: qs)) (b : S) (rep : Tree) (a : S) :
    Pending (h ++ [.dispatched (received q.1 q.2) b rep a]) qs where
  invoked x hx := List.mem_append_left _ (hp.invoked x (List.mem_cons_of_mem _ hx))
  anonymous x hx := hp.anonymous x (List.mem_cons_of_mem _ hx)
  undispatched x hx b' rep' a' hm := by
    rcases List.mem_append.mp hm with hm | hm
    · exact hp.undispatched x (List.mem_cons_of_mem _ hx) b' rep' a' hm
    · have he : received x.1 x.2 = received q.1 q.2 := (CallEvent.dispatched.inj (List.mem_singleton.mp hm)).1
      have hid := received_inj (hp.anonymous x (List.mem_cons_of_mem _ hx)) (hp.anonymous q List.mem_cons_self) he
      have hnodup := hp.nodup
      rw [List.map_cons, List.nodup_cons] at hnodup
      exact hnodup.1 (hid ▸ List.mem_map_of_mem hx)
  nodup := (List.nodup_cons.mp hp.nodup).2

theorem IsReply.mono {c : UInt8 × List UInt8} (hk : IsReply h c) (es : List (CallEvent S)) : IsReply (h ++ es) c := by
  obtain ⟨id, request, b, rep, a, hi, hd, hbody, hid⟩ := hk
  exact ⟨id, request, b, rep, a, List.mem_append_left _ hi, List.mem_append_left _ hd, hbody, hid⟩

theorem Known.mono {c : UInt8 × List UInt8} (hk : Known h c) (es : List (CallEvent S)) : Known (h ++ es) c :=
  hk.imp_right fun hr => hr.mono es

theorem IsReply.sized {c : UInt8 × List UInt8} (hk : IsReply h c) (hs : ∀ e ∈ h, e.Sized) : c.2.length < 2 ^ 32 := by
  obtain ⟨id, request, b, rep, a, -, hd, hbody, -⟩ := hk
  rw [hbody]
  exact hs _ hd

/-- What was dispatched is the request of a call. -/
theorem AtomicCalls.dispatched_invoked {N : Type} {app : SessionKey → App S N} {ctx : Context} {s₀ : S}
    {h : List (CallEvent S)} {s : S} {m : Var} {b a : S} {rep : Tree}
    (ha : AtomicCalls app ctx s₀ h s) (hm : .dispatched m b rep a ∈ h) :
    ∃ id request, m = received id request ∧ .invoked id request ∈ h := by
  have grow : ∀ {h es : List (CallEvent S)}, (∃ id request, m = received id request ∧ .invoked id request ∈ h) →
      ∃ id request, m = received id request ∧ .invoked id request ∈ h ++ es :=
    fun ⟨id, request, hr, hi⟩ => ⟨id, request, hr, List.mem_append_left _ hi⟩
  induction ha with
  | nil => cases hm
  | dispatched key id request _ hi _ _ ih =>
    rcases List.mem_append.mp hm with hm | hm
    · exact grow (ih hm)
    · cases List.mem_singleton.mp hm
      exact ⟨id, request, rfl, List.mem_append_left _ hi⟩
  | _ =>
    rename_i ih
    rcases List.mem_append.mp hm with hm | hm
    · exact grow (ih hm)
    · cases List.mem_singleton.mp hm

end Lists

section Links

variable {α β : Type}

/-- One pair of two lists is replaced by another. -/
theorem forall₂_set {R : α → β → Prop} {as : List α} {bs : List β} (h : List.Forall₂ R as bs) :
    ∀ {i : Nat} {a : α}, as[i]? = some a → ∃ b, bs[i]? = some b ∧ R a b ∧
      ∀ {a' b'}, R a' b' → List.Forall₂ R (as.set i a') (bs.set i b') := by
  induction h with
  | nil => exact fun h => (by cases h)
  | @cons a b as bs hab hrest ih =>
    intro i a' ha
    cases i with
    | zero =>
      cases ha
      exact ⟨b, rfl, hab, fun h => .cons h hrest⟩
    | succ i =>
      obtain ⟨b', hb', hab', hset⟩ := ih ha
      exact ⟨b', hb', hab', fun h => .cons hab (hset h)⟩

theorem forall₂_eraseIdx {R : α → β → Prop} {as : List α} {bs : List β} (h : List.Forall₂ R as bs) :
    ∀ i, List.Forall₂ R (as.eraseIdx i) (bs.eraseIdx i) := by
  induction h with
  | nil => exact fun i => by simp
  | cons hab hrest ih =>
    intro i
    cases i with
    | zero => exact hrest
    | succ i => exact .cons hab (ih i)

/-- One of the lists comes first. -/
theorem flatten_set_perm (xs : List α) : ∀ {ls : List (List α)} {i : Nat}, i < ls.length →
    (ls.set i xs).flatten.Perm (xs ++ (ls.set i []).flatten)
  | _ :: _, 0, _ => .refl _
  | l :: _, _ + 1, h =>
    ((flatten_set_perm xs (Nat.lt_of_succ_lt_succ h)).append_left l).trans (List.perm_append_comm_assoc _ _ _)

end Links

namespace Remote

section Calls

variable {S N : Type} {app : SessionKey → App S N} {ctx : Context} {s₀ : S} {r r' : Remote S}

/-- The call whose packet is ready, before or after the slot is armed for it. -/
def Ready (prepared outgoing : Option (List UInt8)) (ready : List RemoteCall) : Prop :=
  match prepared, outgoing with
  | none, none => ready = []
  | some packet, none | none, some packet => ∃ q : RemoteCall, ready = [q] ∧ packet = Frame.ofBody 0 (callBody q.1 q.2)
  | some _, some _ => False

def LeftLink.Holds (l : LeftLink) (qs : List RemoteCall) : Prop := l.buf ++ l.up = Frame.stream (qs.map RemoteCall.frame)

/-- The requests in flight: one to be sent, those on the connection, and those on the connections left. -/
structure Flights (r : Remote S) (ready now : List RemoteCall) (before : List (List RemoteCall)) : Prop where
  toSend : Ready (packetOf r.client) r.outgoing ready
  linked : ∀ b, r.buf = some b → b ++ r.up = Frame.stream (now.map RemoteCall.frame)
  unlinked : r.buf = none → now = []
  left : List.Forall₂ LeftLink.Holds r.left before
  pending : Pending r.history (ready ++ now ++ before.flatten)

def Requests (r : Remote S) : Prop := ∃ ready now before, Flights r ready now before

/-- What comes to the client are whole frames, the last of which may have been cut off. -/
def Clean (r : Remote S) : Prop := ∃ coming lost, r.client.recvBuf ++ r.down ++ lost = Frame.stream coming ∧
  (r.io = .connected → lost = []) ∧ ∀ c ∈ coming, c.2.length < 2 ^ 32 ∧ Known r.history c

/-- After a reconnection of the socket library no call is made until the next `connect`. -/
structure Dull (r : Remote S) : Prop where
  inactive : r.client.waitActive = false
  phase : ∀ id packet, r.client.phase ≠ .prepared id packet
  offline : r.client.connected = false

structure Replies (r : Remote S) : Prop where
  broken : r.io ≠ .connected → r.buf = none ∧ r.down = []
  told : r.io = .told ∨ r.io = .waiting → r.client.connected = false
  coming : Clean r ∨ Dull r
  slot : Slot r

/-! ### The server reads requests -/

/-- The dispatches of some calls, one after another: the events, the state, and the frames of the replies. -/
inductive Served (app : SessionKey → App S N) (ctx : Context) (key : SessionKey) :
    List (CallEvent S) → S → List RemoteCall → List (CallEvent S) → S → List (UInt8 × List UInt8) → Prop
  | nil {h : List (CallEvent S)} {s : S} : Served app ctx key h s [] h s []
  | cons {h h' : List (CallEvent S)} {s s₁ s' : S} {q : RemoteCall} {qs : List RemoteCall} {rep : Tree}
      {fs : List (UInt8 × List UInt8)} :
      dispatchNodeProtocol (app key) ctx.tcp
        (VarS.importNode .default (.blank (ascii "req")) (received q.1 q.2)) (.blank (ascii "rep")) s = some (s₁, rep) →
      Served app ctx key (h ++ [.dispatched (received q.1 q.2) s rep s₁]) s₁ qs h' s' fs →
      Served app ctx key h s (q :: qs) h' s' ((BinTcpServer.flagFromReply rep, replyBody rep) :: fs)

theorem payload_call {q : RemoteCall} (h : q.frame.2.length < 2 ^ 32) : Frame.payload q.frame.2 = received q.1 q.2 := by
  have hread := readVar_wire (v := .dict (assign q.2 (ascii "id") (.int q.1))) h []
  rw [List.append_nil] at hread
  exact congrArg Prod.fst hread

theorem payload_reply {rep : Tree} (h : (replyBody rep).length < 2 ^ 32) : Frame.payload (replyBody rep) = replied rep := by
  have hread := readVar_wire (v := nodeToVar .default rep) h []
  rw [List.append_nil] at hread
  exact congrArg Prod.fst hread

/-- What is popped off the beginning of a stream is its first frame. -/
theorem pop_stream {buf rest more : List UInt8} {f : UInt8 × Var} {fs : List (UInt8 × List UInt8)}
    (hp : Frame.pop buf = some (f, rest)) (hstream : buf ++ more = Frame.stream fs) (hs : Frame.Sized fs) :
    ∃ c fs', fs = c :: fs' ∧ f = Frame.delivered c ∧ rest ++ more = Frame.stream fs' := by
  have hmore := Frame.framing_pop.extend hp more
  rw [hstream] at hmore
  cases fs with
  | nil => cases hmore
  | cons c fs' =>
    have hc := Frame.pop_ofBody (hs c List.mem_cons_self) c.1 (Frame.stream fs')
    have hcons : Frame.stream (c :: fs') = Frame.ofBody c.1 c.2 ++ Frame.stream fs' := rfl
    rw [hcons, hc] at hmore
    obtain ⟨hf, hrest⟩ := Prod.ext_iff.mp (Option.some.inj hmore)
    exact ⟨c, fs', rfl, hf.symm, hrest.symm⟩

/-- **A chunk is worth the calls whose frames it completes.** -/
theorem served_of_drain {key : SessionKey} {more : List UInt8} (n : Nat) : ∀ {buf rest : List UInt8} {qs : List RemoteCall}
    {h h' : List (CallEvent S)} {s s' : S} {out : List (List UInt8)}, buf ++ more = Frame.stream (qs.map RemoteCall.frame) →
    Frame.Sized (qs.map RemoteCall.frame) →
    drain Frame.pop (handler app ctx) key n buf (s, h) = some ((s', h'), out, rest) →
    ∃ done qs' fs, qs = done ++ qs' ∧ rest ++ more = Frame.stream (qs'.map RemoteCall.frame) ∧
      Served app ctx key h s done h' s' fs ∧ out.flatten = Frame.stream fs := by
  induction n with
  | zero =>
    intro buf rest qs h h' s s' out hbuf _ hd
    cases hd
    exact ⟨[], qs, [], rfl, hbuf, .nil, rfl⟩
  | succ n ih =>
    intro buf rest qs h h' s s' out hbuf hs hd
    cases hp : Frame.pop buf with
    | none =>
      simp only [drain, hp] at hd
      cases hd
      exact ⟨[], qs, [], rfl, hbuf, .nil, rfl⟩
    | some p =>
      obtain ⟨f, rest'⟩ := p
      obtain ⟨c, fs', hqs, rfl, hrest⟩ := pop_stream hp hbuf hs
      obtain ⟨q, qs, rfl, rfl, rfl⟩ := List.map_eq_cons_iff.mp hqs
      obtain ⟨hq, hs⟩ := List.forall_mem_cons.mp hs
      simp only [drain, hp] at hd
      obtain ⟨⟨p₁, out₁⟩, ha, hd⟩ := Option.bind_eq_some_iff.mp hd
      obtain ⟨⟨p₂, out₂, rest₂⟩, hd₂, hd⟩ := Option.map_eq_some_iff.mp hd
      cases hd
      have hflag : ¬ (q.frame.1 &&& flagTypeMask ≠ 0) := show ¬ ((0 : UInt8) &&& flagTypeMask ≠ 0) by decide
      have hanswer : answer app ctx key (Frame.delivered q.frame) (s, h) = some (p₁, out₁) := ha
      rw [answer, Frame.delivered, if_neg hflag, payload_call hq] at hanswer
      obtain ⟨⟨s₁, rep⟩, hdisp, he⟩ := Option.map_eq_some_iff.mp hanswer
      cases he
      obtain ⟨done, qs', fs, rfl, hleft, hserved, hflat⟩ := ih hrest hs hd₂
      refine ⟨q :: done, qs', _, rfl, hleft, .cons hdisp hserved, ?_⟩
      rw [List.flatten_append, hflat]
      simp [BinTcpServer.replyFrame, Frame.encodeFrame, Frame.stream, replyBody]

/-- What the dispatches of pending calls leave. -/
structure Reached (app : SessionKey → App S N) (ctx : Context) (s₀ : S) (h : List (CallEvent S))
    (rest : List RemoteCall) (h' : List (CallEvent S)) (s' : S) (fs : List (UInt8 × List UInt8)) : Prop where
  atomic : AtomicCalls app ctx s₀ h' s'
  pending : Pending h' rest
  grows : ∃ es, h' = h ++ es ∧ ∀ e ∈ es, ∃ m b rep a, e = .dispatched m b rep a
  replies : ∀ c ∈ fs, IsReply h' c

theorem Served.reached {key : SessionKey} {h h' : List (CallEvent S)} {s s' : S} {done rest : List RemoteCall}
    {fs : List (UInt8 × List UInt8)} (hd : Served app ctx key h s done h' s' fs) :
    AtomicCalls app ctx s₀ h s → Pending h (done ++ rest) → Reached app ctx s₀ h rest h' s' fs := by
  induction hd with
  | nil => exact fun ha hp => ⟨ha, hp, ⟨[], (List.append_nil _).symm, by simp⟩, by simp⟩
  | @cons h h' s s₁ s' q qs rep fs hdisp hserved ih =>
    intro ha hp
    have hi := hp.invoked q List.mem_cons_self
    obtain ⟨hatomic, hpending, ⟨es, rfl, hes⟩, hreplies⟩ := ih
      (.dispatched key q.1 q.2 ha hi (hp.undispatched q List.mem_cons_self) hdisp) (hp.dispatch s rep s₁)
    refine ⟨hatomic, hpending, ⟨.dispatched (received q.1 q.2) s rep s₁ :: es, by simp, ?_⟩, ?_⟩
    · exact List.forall_mem_cons.mpr ⟨⟨_, _, _, _, rfl⟩, hes⟩
    · refine List.forall_mem_cons.mpr ⟨?_, hreplies⟩
      have hid := @received_id q.1 q.2 (hp.anonymous q List.mem_cons_self) (ascii "req")
      refine ⟨q.1, q.2, s, rep, s₁, ?_, ?_, rfl, replied_id hid hdisp⟩
      · exact List.mem_append_left _ (List.mem_append_left _ hi)
      · exact List.mem_append_left _ (List.mem_append_right _ List.mem_cons_self)

/-- **What arrives on a connection is dispatched, and the rest stays in flight.** -/
theorem Reached.ofProcess {key : SessionKey} {buf up rest : List UInt8} {n : Nat} {h h' : List (CallEvent S)} {s s' : S}
    {out : List (List UInt8)} {qs others : List RemoteCall} (ha : AtomicCalls app ctx s₀ h s) (hs : ∀ e ∈ h, e.Sized)
    (hp : Pending h (qs ++ others)) (hbuf : buf ++ up = Frame.stream (qs.map RemoteCall.frame))
    (hd : processFrames app ctx key (buf ++ up.take n) (s, h) = some ((s', h'), out, rest)) :
    ∃ qs' fs, rest ++ up.drop n = Frame.stream (qs'.map RemoteCall.frame) ∧ out.flatten = Frame.stream fs ∧
      Reached app ctx s₀ h (qs' ++ others) h' s' fs := by
  have hwhole : (buf ++ up.take n) ++ up.drop n = Frame.stream (qs.map RemoteCall.frame) := by
    rw [List.append_assoc, List.take_append_drop, hbuf]
  have hsized : Frame.Sized (qs.map RemoteCall.frame) := by
    intro c hc
    obtain ⟨q, hq, rfl⟩ := List.mem_map.mp hc
    exact hs _ (hp.invoked q (List.mem_append_left _ hq))
  obtain ⟨done, qs', fs, rfl, hrest, hserved, hout⟩ := served_of_drain _ hwhole hsized hd
  rw [List.append_assoc] at hp
  exact ⟨qs', fs, hrest, hout, hserved.reached ha hp⟩

/-- Dispatches begin and end no call. -/
theorem Calls.reached (h : Calls app ctx s₀ r) {rest : List RemoteCall}
    {fs : List (UInt8 × List UInt8)} (hc : r'.client = r.client)
    (hd : Reached app ctx s₀ r.history rest r'.history r'.state fs) : Calls app ctx s₀ r' := by
  obtain ⟨es, hh, hes⟩ := hd.grows
  refine h.extend (by rw [hc]; exact h.client) (by rw [hc]; exact h.few) hh hd.atomic (by rw [hc])
    (by rw [hc]; exact List.Subset.refl _)
    (fun id request hm => ?_) fun id out hm => ?_
  · obtain ⟨_, _, _, _, he⟩ := hes _ hm
    cases he
  · obtain ⟨_, _, _, _, he⟩ := hes _ hm
    cases he

/-! ### Requests in flight -/

theorem Requests.frame (h : Requests r) (hp : packetOf r'.client = packetOf r.client) (ho : r'.outgoing = r.outgoing)
    (hb : r'.buf = r.buf) (hu : r'.up = r.up) (hl : r'.left = r.left) {es : List (CallEvent S)}
    (hh : r'.history = r.history ++ es) (hes : ∀ m b rep a, .dispatched m b rep a ∉ es) : Requests r' := by
  obtain ⟨ready, now, before, hf⟩ := h
  refine ⟨ready, now, before, by rw [hp, ho]; exact hf.toSend, ?_, ?_, ?_, ?_⟩
  · rw [hb, hu]
    exact hf.linked
  · rw [hb]
    exact hf.unlinked
  · rw [hl]
    exact hf.left
  · rw [hh]
    exact hf.pending.append hes

theorem Requests.same (h : Requests r) (hp : packetOf r'.client = packetOf r.client) (ho : r'.outgoing = r.outgoing)
    (hb : r'.buf = r.buf) (hu : r'.up = r.up)
    (hl : r'.left = r.left) (hh : r'.history = r.history) : Requests r' := by
  have hh' : r'.history = r.history ++ [] := by rw [hh, List.append_nil]
  exact h.frame hp ho hb hu hl hh' (by simp)

theorem packetOf_phase {c c' : Client} (h : c'.phase = c.phase) : packetOf c' = packetOf c := by
  rw [packetOf, packetOf, h]

theorem Requests.act (h : Requests r) {act : Action} (hq : Client.Quiet act) (ha : act ≠ .arm) :
    Requests (r.act ctx act) :=
  h.same (packetOf_phase (Client.phase_step r.client hq ha)) rfl rfl rfl rfl (act_history r hq)

/-- The requests on the connection go on on their way. -/
theorem Requests.leave (h : Requests r) : Requests r.leave := by
  obtain ⟨ready, now, before, hf⟩ := h
  cases hb : r.buf with
  | none =>
    refine ⟨ready, [], before, hf.toSend, fun b hb => (by cases hb), fun _ => rfl, ?_, ?_⟩
    · simpa [Remote.leave, hb] using hf.left
    · have hp := hf.pending
      rw [hf.unlinked hb] at hp
      exact hp
  | some b =>
    refine ⟨ready, [], before ++ [now], hf.toSend, fun b hb => (by cases hb), fun _ => rfl, ?_, ?_⟩
    · have hlink : LeftLink.Holds ⟨r.key, r.up, b⟩ now := hf.linked b hb
      simpa [Remote.leave, hb] using List.rel_append hf.left (.cons hlink .nil)
    · refine hf.pending.subperm (List.Perm.subperm ?_)
      simp only [List.append_nil, List.flatten_append, List.flatten_cons, List.flatten_nil]
      rw [List.append_assoc]
      exact (List.perm_append_comm).append_left _

/-- A new connection has none. -/
theorem Requests.link (h : Requests r) (hb : r.buf = none) (key : SessionKey) : Requests (r.link key) := by
  obtain ⟨ready, now, before, hf⟩ := h
  refine ⟨ready, [], before, hf.toSend, fun b hb => (by cases hb; rfl), fun _ => rfl, hf.left, ?_⟩
  have hp := hf.pending
  rw [hf.unlinked hb] at hp
  exact hp

/-- A call that begins is ready to be sent, and was not dispatched: no call before it had its id. -/
theorem Requests.prepare (h : Requests r) (hc : Calls app ctx s₀ r) (ho : r.outgoing = none) {request : Var}
    (ha : Client.Anonymous (.prepare request)) (hmore : r.client.given + 1 < 2 ^ 64) :
    Requests (r.act ctx (.prepare request)) := by
  rcases @act_prepare S ctx r _ ha with he | ⟨dict, hd, hidle, -, he⟩
  · rw [he]
    exact h
  · obtain ⟨ready, now, before, hf⟩ := h
    have hready : ready = [] := by
      have := hf.toSend
      rwa [packetOf, hidle, ho] at this
    subst hready
    rw [he]
    refine ⟨[(r.client.nextId, dict)], now, before, ?_, hf.linked, hf.unlinked, hf.left, ?_⟩
    · dsimp only [packetOf]
      rw [ho]
      exact ⟨_, rfl, rfl⟩
    · refine (hf.pending.append (by simp)).cons
        (List.mem_append_right _ List.mem_cons_self) hd (fun b rep a hm => ?_) fun x hx => ?_
      · rcases List.mem_append.mp hm with hm | hm
        · obtain ⟨id, request', hsame, hi⟩ := hc.atomic.dispatched_invoked hm
          exact hc.fresh hi hmore (received_inj hd (hc.anonymous id request' hi) hsame).symm
        · cases List.mem_singleton.mp hm
      · exact hc.fresh (hf.pending.invoked x hx) hmore

/-- When the slot is armed, the packet is still to be sent. -/
theorem Requests.arm (h : Requests r) :
    Requests { r.act ctx .arm with outgoing := packetOf r.client <|> r.outgoing } := by
  rw [act_eq r .arm trivial]
  cases hp : r.client.phase with
  | prepared id packet =>
    obtain ⟨ready, now, before, hf⟩ := h
    have hpacket : packetOf r.client = some packet := by rw [packetOf, hp]
    have hsent : packetOf (r.client.step ctx.platform .arm) = none := by simp only [packetOf, Client.step, hp]
    have htoSend := hf.toSend
    refine ⟨ready, now, before, ?_, hf.linked, hf.unlinked, hf.left, hf.pending⟩
    dsimp only
    rw [hsent]
    rw [hpacket] at htoSend ⊢
    cases ho : r.outgoing with
    | none => rwa [ho] at htoSend
    | some _ => rw [ho] at htoSend; exact htoSend.elim
  | _ =>
    have hstep : r.client.step ctx.platform .arm = r.client := by simp only [Client.step, hp]
    have hnone : packetOf r.client = none := by simp only [packetOf, hp]
    rw [hstep, hnone]
    exact h

/-- The packet is sent, or lost when there is no connection. -/
theorem Requests.send (h : Requests r) {packet : List UInt8} (ho : r.outgoing = some packet) :
    Requests (r.send packet) := by
  obtain ⟨ready, now, before, hf⟩ := h
  have htoSend := hf.toSend
  rw [ho] at htoSend
  cases hp : packetOf r.client with
  | some _ => rw [hp] at htoSend; exact htoSend.elim
  | none =>
    rw [hp] at htoSend
    obtain ⟨q, rfl, rfl⟩ := htoSend
    have hready : Ready (packetOf r.client) none [] := by
      rw [hp]
      rfl
    cases hb : r.buf with
    | none =>
      refine ⟨[], now, before, hready, fun b hb' => ?_, hf.unlinked, hf.left, ?_⟩
      · rw [show r.buf = some b from hb'] at hb
        cases hb
      · exact hf.pending.subperm (List.sublist_cons_self _ _).subperm
    | some b =>
      refine ⟨[], now ++ [q], before, hready, fun b' hb' => ?_, fun hn => ?_, hf.left, ?_⟩
      · show b' ++ (if r.buf.isSome then r.up ++ Frame.ofBody 0 (callBody q.1 q.2) else r.up) = _
        rw [hb, if_pos Option.isSome_some, ← List.append_assoc, hf.linked b' hb', List.map_append, Frame.stream,
          Frame.stream, List.flatMap_append]
        exact congrArg (_ ++ ·) (List.append_nil _).symm
      · rw [show r.buf = none from hn] at hb
        cases hb
      · have hperm : (now ++ [q] ++ before.flatten).Perm ([q] ++ now ++ before.flatten) :=
          List.perm_append_comm.append_right _
        exact hf.pending.subperm hperm.subperm

theorem Requests.finish (h : Requests r) : Requests (r.act ctx .finish) := by
  rcases @act_finish S ctx r with ⟨he, -⟩ | ⟨id, out, hw, -, -, he⟩
  · rw [he]
    exact h
  · have hidle : r.client.finish.phase = .idle := by
      rcases Client.finish_cases r.client with ⟨-, hn⟩ | ⟨_, _, -, -, hidle, -⟩
      · exact absurd hw (hn id)
      · exact hidle
    have hpacket : packetOf r.client.finish = packetOf r.client := by rw [packetOf, packetOf, hidle, hw]
    rw [he]
    exact h.frame hpacket rfl rfl rfl rfl rfl (by simp)

theorem Flights.serve {ready now : List RemoteCall} {before : List (List RemoteCall)} (hf : Flights r ready now before)
    (hc : Calls app ctx s₀ r) (hs : ∀ e ∈ r.history, e.Sized) {buf rest : List UInt8} {n : Nat} {s' : S}
    {h' : List (CallEvent S)} {out : List (List UInt8)} (hb : r.buf = some buf)
    (hd : processFrames app ctx r.key (buf ++ r.up.take n) (r.state, r.history) = some ((s', h'), out, rest)) :
    ∃ now' fs, out.flatten = Frame.stream fs ∧
      Reached app ctx s₀ r.history (now' ++ (ready ++ before.flatten)) h' s' fs ∧
      Flights { r with up := r.up.drop n, buf := some rest, down := r.down ++ out.flatten, state := s', history := h' }
        ready now' before := by
  have hperm : ∀ now : List RemoteCall,
      (now ++ (ready ++ before.flatten)).Perm (ready ++ now ++ before.flatten) := fun now => by
    rw [List.append_assoc]
    exact List.perm_append_comm_assoc _ _ _
  obtain ⟨now', fs, hrest, hout, hreached⟩ :=
    Reached.ofProcess hc.atomic hs (hf.pending.subperm (hperm now).subperm) (hf.linked buf hb) hd
  refine ⟨now', fs, hout, hreached, hf.toSend, fun b hb' => ?_, fun hn => (by cases hn), hf.left, ?_⟩
  · cases hb'
    exact hrest
  · exact hreached.pending.subperm (hperm now').symm.subperm

theorem Flights.serveLeft {ready now : List RemoteCall} {before : List (List RemoteCall)} (hf : Flights r ready now before)
    (hc : Calls app ctx s₀ r) (hs : ∀ e ∈ r.history, e.Sized) {l : LeftLink} {rest : List UInt8} {i n : Nat} {s' : S}
    {h' : List (CallEvent S)} {out : List (List UInt8)} (hl : r.left[i]? = some l)
    (hd : processFrames app ctx l.key (l.buf ++ l.up.take n) (r.state, r.history) = some ((s', h'), out, rest)) :
    ∃ qs' fs, Reached app ctx s₀ r.history (qs' ++ (ready ++ now ++ (before.set i []).flatten)) h' s' fs ∧
      Flights { r with left := r.left.set i ⟨l.key, l.up.drop n, rest⟩, state := s', history := h' }
        ready now (before.set i qs') := by
  obtain ⟨qs, hqs, hholds, hset⟩ := forall₂_set hf.left hl
  obtain ⟨hi, hget⟩ := List.getElem?_eq_some_iff.mp hqs
  have hperm : ∀ qs : List RemoteCall, (qs ++ (ready ++ now ++ (before.set i []).flatten)).Perm
      (ready ++ now ++ (before.set i qs).flatten) := fun qs =>
    (List.perm_append_comm_assoc _ _ _).trans ((flatten_set_perm qs hi).symm.append_left _)
  have hpending : Pending r.history (ready ++ now ++ (before.set i qs).flatten) := by
    rw [← hget, List.set_getElem_self]
    exact hf.pending
  obtain ⟨qs', fs, hrest, -, hreached⟩ :=
    Reached.ofProcess hc.atomic hs (hpending.subperm (hperm qs).subperm) hholds hd
  exact ⟨qs', fs, hreached, hf.toSend, hf.linked, hf.unlinked, hset hrest,
    hreached.pending.subperm (hperm qs').symm.subperm⟩

/-- The server closes the connection. -/
theorem Requests.hangUp (h : Requests r) (s : S) : Requests { r with
    up := [], buf := none, state := s, history := r.history ++ [.changed s] } := by
  obtain ⟨ready, now, before, hf⟩ := h
  refine ⟨ready, [], before, hf.toSend, fun b hb => (by cases hb), fun _ => rfl, hf.left, ?_⟩
  refine (hf.pending.append (by simp)).subperm (List.Sublist.subperm ?_)
  rw [List.append_nil]
  exact (List.sublist_append_left _ _).append (List.Sublist.refl _)

theorem Requests.hangUpLeft (h : Requests r) (i : Nat) (s : S) : Requests { r with
    left := r.left.eraseIdx i, state := s, history := r.history ++ [.changed s] } := by
  obtain ⟨ready, now, before, hf⟩ := h
  refine ⟨ready, now, before.eraseIdx i, hf.toSend, hf.linked, hf.unlinked, forall₂_eraseIdx hf.left i, ?_⟩
  exact (hf.pending.append (by simp)).subperm
    ((List.eraseIdx_sublist before i).flatten.append_left _).subperm

/-! ### Replies in flight -/

/-- What has been written down stays, and so does a response. -/
theorem Slot.frame (h : Slot r) (hr : r'.client.response = .none ∨
      r'.client.response = r.client.response ∧ r'.client.waitId = r.client.waitId)
    {es : List (CallEvent S)} (hh : r'.history = r.history ++ es) : Slot r' := by
  intro d hd
  rcases hr with hr | ⟨hr, hw⟩
  · rw [hr] at hd
    cases hd
  · rw [hr] at hd
    obtain ⟨request, b, rep, a, hi, hdisp, hrep⟩ := h d hd
    rw [hh, hr, hw]
    exact ⟨request, b, rep, a, List.mem_append_left _ hi, List.mem_append_left _ hdisp, hrep⟩

/-- What comes stays, or is cut off. -/
theorem Clean.frame (h : Clean r) {lost : List UInt8}
    (hd : r'.client.recvBuf ++ r'.down ++ lost = r.client.recvBuf ++ r.down) (hl : r'.io = .connected → lost = [])
    (hio : r'.io = .connected → r.io = .connected) {es : List (CallEvent S)} (hh : r'.history = r.history ++ es) :
    Clean r' := by
  obtain ⟨coming, more, hbytes, hwhole, hknown⟩ := h
  refine ⟨coming, lost ++ more, ?_, fun hc => ?_, fun c hc => ?_⟩
  · rw [← List.append_assoc, hd, hbytes]
  · rw [hl hc, hwhole (hio hc)]
    rfl
  · rw [hh]
    exact (hknown c hc).imp_right fun hk => hk.mono es

/-- More frames come. -/
theorem Clean.extend (h : Clean r) (hio : r.io = .connected) {fs : List (UInt8 × List UInt8)}
    (hc : r'.client.recvBuf = r.client.recvBuf) (hd : r'.down = r.down ++ Frame.stream fs) {es : List (CallEvent S)}
    (hh : r'.history = r.history ++ es) (hfs : ∀ c ∈ fs, c.2.length < 2 ^ 32 ∧ Known r'.history c) : Clean r' := by
  obtain ⟨coming, more, hbytes, hwhole, hknown⟩ := h
  rw [hwhole hio, List.append_nil] at hbytes
  refine ⟨coming ++ fs, [], ?_, fun _ => rfl, fun c hm => ?_⟩
  · rw [List.append_nil, hc, hd, ← List.append_assoc, hbytes, Frame.stream, Frame.stream, Frame.stream,
      List.flatMap_append]
  · rcases List.mem_append.mp hm with hm | hm
    · rw [hh]
      exact (hknown c hm).imp_right fun hk => hk.mono es
    · exact hfs c hm

/-- Nothing comes. -/
theorem Clean.empty (hc : r.client.recvBuf = []) (hd : r.down = []) : Clean r :=
  ⟨[], [], by rw [hc, hd]; rfl, fun _ => rfl, by simp⟩

/-- **A frame that is taken for the response is the reply to the call that waits.** -/
theorem Replies.popFrame (h : Replies r) : Replies (r.act ctx .popFrame) := by
  rw [act_eq r .popFrame trivial]
  rcases @Client.popFrame_cases ctx.platform r.client with he | ⟨f, rest, hpop, he⟩
  · rw [he]
    exact h
  rw [he]
  rcases h.coming with ⟨coming, lost, hbytes, hwhole, hknown⟩ | hdull
  · rw [List.append_assoc] at hbytes
    obtain ⟨c, fs, rfl, rfl, hrest⟩ := pop_stream hpop hbytes fun c hc => (hknown c hc).1
    obtain ⟨⟨hsized, hkind⟩, hknown⟩ := List.forall_mem_cons.mp hknown
    rcases @Client.handleFrame_cases ctx.platform { r.client with recvBuf := rest } c.1 (Frame.payload c.2) with
      he | ⟨dict, v, hmsg, hflag, hv, -, hwait, he⟩
    · refine ⟨h.broken, ?_, .inl ⟨fs, lost, ?_, hwhole, hknown⟩, ?_⟩ <;> rw [Frame.delivered, he]
      · exact h.told
      · rw [List.append_assoc]
        exact hrest
      · exact h.slot
    · refine ⟨h.broken, ?_, .inl ⟨fs, lost, ?_, hwhole, hknown⟩, ?_⟩ <;> rw [Frame.delivered, he]
      · exact h.told
      · rw [List.append_assoc]
        exact hrest
      · intro d hd
        rcases hkind with hnotify | ⟨id, request, b, rep, a, hi, hdisp, hbody, d', hrep, hid⟩
        · exact absurd (by rw [hnotify]; decide) hflag
        · have hpayload : Frame.payload c.2 = replied rep := by
            rw [hbody] at hsized ⊢
            exact payload_reply hsized
          rw [hpayload, hrep] at hmsg
          cases hmsg
          rw [hid] at hv
          cases hv
          have hwait' : id = r.client.waitId := hwait
          exact ⟨request, b, rep, a, hwait' ▸ hi, hwait' ▸ hdisp, hpayload⟩
  · rcases @Client.handleFrame_cases ctx.platform { r.client with recvBuf := rest } f.1 f.2 with
      he | ⟨_, _, -, -, -, hactive, -⟩
    · rw [he]
      exact ⟨h.broken, h.told, .inr ⟨hdull.inactive, hdull.phase, hdull.offline⟩, h.slot⟩
    · exact absurd (hdull.inactive.symm.trans hactive) Bool.false_ne_true

theorem Dull.same (h : Dull r) (hc : r'.client = r.client) : Dull r' :=
  ⟨by rw [hc]; exact h.inactive, by rw [hc]; exact h.phase, by rw [hc]; exact h.offline⟩

/-- A step that leaves alone what comes. -/
theorem Replies.frame (h : Replies r) (hio : r'.io = r.io) (hb : r.buf = none → r'.buf = none) (hd : r'.down = r.down)
    (hc : r'.client.recvBuf = r.client.recvBuf) (hon : r'.client.connected = r.client.connected)
    (hdull : Dull r → Dull r') {es : List (CallEvent S)} (hh : r'.history = r.history ++ es) (hs : Slot r') :
    Replies r' where
  broken hn := by
    rw [hio] at hn
    exact ⟨hb (h.broken hn).1, by rw [hd]; exact (h.broken hn).2⟩
  told ht := by
    rw [hio] at ht
    rw [hon]
    exact h.told ht
  coming := by
    have hbytes : r'.client.recvBuf ++ r'.down ++ [] = r.client.recvBuf ++ r.down := by rw [hc, hd, List.append_nil]
    exact h.coming.imp (fun hc => hc.frame hbytes (fun _ => rfl) (fun hc => hio ▸ hc) hh) hdull
  slot := hs

/-- A step of the server that answers nobody here. -/
theorem Replies.elsewhere (h : Replies r) (hc : r'.client = r.client) (hio : r'.io = r.io)
    (hb : r.buf = none → r'.buf = none) (hd : r'.down = r.down) {es : List (CallEvent S)}
    (hh : r'.history = r.history ++ es) : Replies r' :=
  h.frame hio hb hd (by rw [hc]) (by rw [hc]) (fun hdull => hdull.same hc) hh
    (h.slot.frame (.inr ⟨by rw [hc], by rw [hc]⟩) hh)

/-- More frames come over the connection. -/
theorem Replies.extend (h : Replies r) (hb : r.buf ≠ none) (hc : r'.client = r.client) (hio : r'.io = r.io)
    {fs : List (UInt8 × List UInt8)} (hd : r'.down = r.down ++ Frame.stream fs) {es : List (CallEvent S)}
    (hh : r'.history = r.history ++ es) (hfs : ∀ c ∈ fs, c.2.length < 2 ^ 32 ∧ Known r'.history c) : Replies r' := by
  have hon : r.io = .connected := Classical.by_contradiction fun hn => hb (h.broken hn).1
  refine ⟨fun hn => absurd (hio.trans hon) hn, fun ht => ?_, h.coming.imp ?_ fun hdull => hdull.same hc, ?_⟩
  · rw [hio] at ht
    rw [hc]
    exact h.told ht
  · exact fun hclean => hclean.extend hon (by rw [hc]) hd hh hfs
  · exact h.slot.frame (.inr ⟨by rw [hc], by rw [hc]⟩) hh

/-- The client has no connection any more. -/
theorem Replies.cut (h : Replies r) (hb : r'.buf = none) (hd : r'.down = []) (hio : r'.io ≠ .connected)
    (ht : r'.io = .told ∨ r'.io = .waiting → r'.client.connected = false)
    (hc : r'.client.recvBuf = r.client.recvBuf) (hdull : Dull r → Dull r')
    (hr : r'.client.response = r.client.response) (hw : r'.client.waitId = r.client.waitId)
    (hh : r'.history = r.history) : Replies r' := by
  have hh' : r'.history = r.history ++ [] := by rw [hh, List.append_nil]
  refine ⟨fun _ => ⟨hb, hd⟩, ht, h.coming.imp (fun hclean => ?_) hdull, h.slot.frame (.inr ⟨hr, hw⟩) hh'⟩
  have hbytes : r'.client.recvBuf ++ r'.down ++ r.down = r.client.recvBuf ++ r.down := by
    rw [hc, hd, List.append_nil]
  exact hclean.frame hbytes (fun hc => absurd hc hio) (fun hc => absurd hc hio) hh'

/-- The buffer is empty, and nothing comes. -/
theorem Replies.clear (h : Replies r) (hb : r'.io ≠ .connected → r'.buf = none) (hd : r'.down = [])
    (ht : r'.io = .told ∨ r'.io = .waiting → r'.client.connected = false) (hc : r'.client.recvBuf = [])
    (hr : r'.client.response = r.client.response)
    (hw : r'.client.waitId = r.client.waitId) (hh : r'.history = r.history) : Replies r' where
  broken hn := ⟨hb hn, hd⟩
  told := ht
  coming := .inl (.empty hc hd)
  slot := by
    have hh' : r'.history = r.history ++ [] := by rw [hh, List.append_nil]
    exact h.slot.frame (.inr ⟨hr, hw⟩) hh'

theorem Replies.prepare (h : Replies r) {request : Var} (ha : Client.Anonymous (.prepare request)) :
    Replies (r.act ctx (.prepare request)) := by
  rcases @act_prepare S ctx r _ ha with he | ⟨dict, -, -, hon, he⟩
  · rw [he]
    exact h
  · have hhist : (r.act ctx (.prepare request)).history = r.history ++ [.invoked r.client.nextId dict] := by rw [he]
    have hdull : Dull r → Dull (r.act ctx (.prepare request)) := fun hd =>
      absurd (hd.offline.symm.trans hon) Bool.false_ne_true
    refine h.frame ?_ ?_ ?_ ?_ ?_ hdull hhist (h.slot.frame (.inr ?_) hhist) <;> rw [he]
    · exact id
    · exact ⟨rfl, rfl⟩

theorem Replies.arm (h : Replies r) {outgoing : Option (List UInt8)} :
    Replies { r.act ctx .arm with outgoing := outgoing } := by
  rw [act_eq r .arm trivial]
  cases hp : r.client.phase with
  | prepared id packet =>
    have hstep : r.client.step ctx.platform .arm = { r.client with
        waitId := id, waitDone := false, waitActive := true, response := .none
        phase := .waiting id, sent := r.client.sent ++ [packet] } := by simp only [Client.step, hp]
    rw [hstep]
    exact h.frame rfl (fun hb => hb) rfl rfl rfl (fun hd => absurd hp (hd.phase id packet)) (List.append_nil _).symm
      (h.slot.frame (.inl rfl) (List.append_nil _).symm)
  | _ =>
    have hstep : r.client.step ctx.platform .arm = r.client := by simp only [Client.step, hp]
    rw [hstep]
    exact h.elsewhere rfl rfl (fun hb => hb) rfl (List.append_nil _).symm

theorem Replies.finish (h : Replies r) : Replies (r.act ctx .finish) := by
  rcases @act_finish S ctx r with ⟨he, -⟩ | ⟨id, out, hw, -, -, he⟩
  · rw [he]
    exact h
  · rcases Client.finish_cases r.client with ⟨-, hn⟩ | ⟨_, _, -, -, hidle, hrecv, hinactive, hon, hid, hresp, -⟩
    · exact absurd hw (hn id)
    · rw [he]
      refine h.frame rfl (fun hb => hb) rfl hrecv hon (fun hd => ?_) rfl (h.slot.frame ?_ rfl)
      · exact ⟨hinactive, fun _ _ hc => (by cases hidle.symm.trans hc), hon.trans hd.offline⟩
      · exact hresp.imp (fun hn => hn) fun hs => ⟨hs, hid⟩

theorem Calls.same (h : Calls app ctx s₀ r) (hc : r'.client = r.client) (hh : r'.history = r.history)
    (hs : r'.state = r.state) : Calls app ctx s₀ r' :=
  h.frame (by rw [hc]; exact h.client) (by rw [hc]) (by rw [hc]) hh hs

/-! ### Every step -/

variable {removeSession : SessionKey → S → S}

variable (app ctx s₀) in
/-- What every orderly run keeps. -/
structure Sound (r : Remote S) : Prop where
  calls : Calls app ctx s₀ r
  requests : Requests r
  replies : Replies r
  sized : ∀ e ∈ r.history, e.Sized

theorem Sound.fresh : Sound app ctx s₀ (fresh s₀) where
  calls := ⟨Client.inv_fresh, show 0 < 2 ^ 64 by decide, .nil, fun _ _ hm => (by cases hm), fun _ _ hm => (by cases hm),
    fun _ _ hm => (by cases hm)⟩
  requests := ⟨[], [], [], rfl, fun _ hb => (by cases hb), fun _ => rfl, .nil,
    ⟨by simp, by simp, by simp, List.nodup_nil⟩⟩
  replies := ⟨fun _ => ⟨rfl, rfl⟩, fun ht => (by rcases ht with ht | ht <;> cases ht), .inl (.empty rfl rfl),
    fun _ hd => (by cases hd)⟩
  sized := fun _ he => (by cases he)

/-- A step of the client that neither begins, arms nor ends a call, while the link and what comes down may change too. -/
theorem Sound.quiet (h : Sound app ctx s₀ r) (act : Action) (hq : Client.Quiet act) (ha : act ≠ .arm)
    {io : IoThread} {down : List UInt8}
    (hr : Replies { r with client := r.client.step ctx.platform act, io := io, down := down }) :
    Sound app ctx s₀ { r with client := r.client.step ctx.platform act, io := io, down := down } := by
  have hcalls : Calls app ctx s₀ (r.act ctx act) := h.calls.act hq
  have hrequests : Requests (r.act ctx act) := h.requests.act hq ha
  rw [act_eq r act hq] at hcalls hrequests
  exact ⟨hcalls.same rfl rfl rfl, hrequests.same rfl rfl rfl rfl rfl rfl, hr, h.sized⟩

/-- The steps of the client. -/
theorem Sound.client (h : Sound app ctx s₀ r) {act : Action} (hf : Fine app ctx removeSession r (.client act))
    (hs : Step app ctx removeSession r (.client act) r') : Sound app ctx s₀ r' := by
  have hsized := hf.sized r' hs
  have hord := hf.orderly
  cases act with
  | received data => cases hs
  | startClient ok => cases hs
  | prepare request =>
    have hs' : (if r.outgoing.isNone then some (r.act ctx (.prepare request)) else none) = some r' := hs
    split_ifs at hs' with ho
    cases hs'
    exact ⟨h.calls.prepare hord.1 hord.2, h.requests.prepare h.calls (Option.isNone_iff_eq_none.mp ho) hord.1 hord.2,
      h.replies.prepare hord.1, hsized⟩
  | arm =>
    cases hs
    have hcalls : Calls app ctx s₀ (r.act ctx .arm) := h.calls.act trivial
    exact ⟨hcalls.same rfl rfl rfl, h.requests.arm, h.replies.arm, hsized⟩
  | finish =>
    have hs' : (if r.outgoing.isNone then some (r.act ctx .finish) else none) = some r' := hs
    split_ifs at hs'
    cases hs'
    exact ⟨h.calls.finish h.replies.slot, h.requests.finish, h.replies.finish, hsized⟩
  | popFrame =>
    cases hs
    exact ⟨h.calls.act trivial, h.requests.act trivial (fun hc => by cases hc), h.replies.popFrame, hsized⟩
  | resetWait =>
    cases hs
    rw [act_eq r .resetWait trivial]
    refine h.quiet .resetWait trivial (fun hc => by cases hc) ?_
    exact h.replies.frame rfl (fun hb => hb) rfl rfl rfl (fun hd => ⟨rfl, hd.phase, hd.offline⟩)
      (List.append_nil _).symm (h.replies.slot.frame (.inr ⟨rfl, rfl⟩) (List.append_nil _).symm)
  | stopClient =>
    cases hs
    have hcalls : Calls app ctx s₀ r.leave := h.calls.same rfl rfl rfl
    have hrequests : Requests (r.leave.act ctx .stopClient) := h.requests.leave.act trivial fun hc => by cases hc
    have hcalls' : Calls app ctx s₀ (r.leave.act ctx .stopClient) := hcalls.act trivial
    refine ⟨hcalls'.same rfl rfl rfl, hrequests.same rfl rfl rfl rfl rfl rfl, ?_, hsized⟩
    rw [act_eq r.leave .stopClient trivial]
    exact h.replies.cut rfl rfl (fun hc => by cases hc) (fun ht => by rcases ht with ht | ht <;> cases ht) rfl
      (fun hd => ⟨hd.inactive, hd.phase, rfl⟩) rfl rfl rfl
  | releaseWait =>
    cases hs
    have hio : r.io ≠ .connected := fun hc => by cases hord.symm.trans hc
    rw [act_eq r .releaseWait trivial]
    refine h.quiet .releaseWait trivial (fun hc => by cases hc) ?_
    exact h.replies.clear (fun hn => (h.replies.broken hn).1) (h.replies.broken hio).2 h.replies.told rfl rfl rfl rfl
  | clearBuffer =>
    cases hs
    have hio : r.io ≠ .connected := fun hc => by cases hord.symm.trans hc
    rw [act_eq r .clearBuffer trivial]
    refine h.quiet .clearBuffer trivial (fun hc => by cases hc) ?_
    exact h.replies.clear (fun hn => (h.replies.broken hn).1) (h.replies.broken hio).2 h.replies.told rfl rfl rfl rfl
  | connectionLost =>
    have hs' : (if r.io = .lost then some { r.act ctx .connectionLost with io := .told } else none) = some r' := hs
    split_ifs at hs' with hio
    cases hs'
    have hbroken := h.replies.broken fun hc => by cases hio.symm.trans hc
    rw [act_eq r .connectionLost trivial]
    refine h.quiet .connectionLost trivial (fun hc => by cases hc) ?_
    exact h.replies.cut hbroken.1 hbroken.2 (fun hc => by cases hc) (fun _ => rfl) rfl
      (fun hd => ⟨hd.inactive, hd.phase, rfl⟩) rfl rfl rfl
  | dropWait =>
    have hs' : (if r.io = .told then some { r.act ctx .dropWait with io := .waiting } else none) = some r' := hs
    split_ifs at hs' with hio
    cases hs'
    have hbroken := h.replies.broken fun hc => by cases hio.symm.trans hc
    rw [act_eq r .dropWait trivial]
    refine h.quiet .dropWait trivial (fun hc => by cases hc) ?_
    have hoff : r.client.connected = false := h.replies.told (.inl hio)
    have hstep : r.client.step ctx.platform .dropWait = r.client ∨ r.client.step ctx.platform .dropWait =
        { r.client with waitDone := true, waitActive := false } := by
      simp only [Client.step]
      split_ifs
      · exact .inr rfl
      · exact .inl rfl
    rcases hstep with he | he <;> rw [he]
    · exact h.replies.cut hbroken.1 hbroken.2 (fun hc => by cases hc) (fun _ => hoff) rfl
        (fun hd => hd.same rfl) rfl rfl rfl
    · exact h.replies.cut hbroken.1 hbroken.2 (fun hc => by cases hc) (fun _ => hoff) rfl
        (fun hd => ⟨rfl, hd.phase, hd.offline⟩) rfl rfl rfl

/-- A new connection. -/
theorem Sound.start (h : Sound app ctx s₀ r) {ok : Bool} {key : SessionKey}
    (hf : Fine app ctx removeSession r (.start ok key))
    (hs : Step app ctx removeSession r (.start ok key) r') : Sound app ctx s₀ r' := by
  have hsized := hf.sized r' hs
  have hrecv : r.client.recvBuf = [] := hf.orderly
  have hs' : (if r.io = .stopped then
      some (if ok then (r.act ctx (.startClient ok)).link key else r.act ctx (.startClient ok)) else none) = some r' := hs
  split_ifs at hs' with hio hok <;> cases hs'
  all_goals
    have hbroken := h.replies.broken fun hc => by cases hio.symm.trans hc
    have hcalls : Calls app ctx s₀ (r.act ctx (.startClient ok)) := h.calls.act trivial
    have hrequests : Requests (r.act ctx (.startClient ok)) := h.requests.act trivial fun hc => by cases hc
  · refine ⟨hcalls.same rfl rfl rfl, hrequests.link hbroken.1 key, ?_, hsized⟩
    rw [act_eq r (.startClient ok) trivial]
    exact h.replies.clear (fun hn => absurd rfl hn) rfl (fun ht => by rcases ht with ht | ht <;> cases ht) hrecv rfl rfl rfl
  · refine ⟨hcalls, hrequests, ?_, hsized⟩
    rw [act_eq r (.startClient ok) trivial]
    exact h.replies.clear (fun _ => hbroken.1) hbroken.2
      (fun ht => by rcases ht with ht | ht <;> cases hio.symm.trans ht) hrecv rfl rfl rfl

theorem Sound.deliver (h : Sound app ctx s₀ r) {n : Nat}
    (hs : Step app ctx removeSession r (.deliver n) r') : Sound app ctx s₀ r' := by
  have hs' : (if r.io = .connected then
      some { r.act ctx (.received (r.down.take n)) with down := r.down.drop n } else none) = some r' := hs
  split_ifs at hs' with hio
  cases hs'
  rw [act_eq r (.received (r.down.take n)) trivial]
  refine h.quiet (.received (r.down.take n)) trivial (fun hc => by cases hc) ?_
  refine ⟨fun hn => absurd hio hn, h.replies.told, h.replies.coming.imp (fun hc => ?_) fun hd => ?_,
    h.replies.slot⟩
  · have hbytes : (r.client.recvBuf ++ r.down.take n) ++ r.down.drop n ++ [] = r.client.recvBuf ++ r.down := by
      rw [List.append_nil, List.append_assoc, List.take_append_drop]
    exact hc.frame hbytes (fun _ => rfl) (fun _ => hio) (List.append_nil _).symm
  · exact ⟨hd.inactive, hd.phase, hd.offline⟩

/-- **The server dispatches what has arrived.** -/
theorem Sound.serve (h : Sound app ctx s₀ r) {n : Nat} (hf : Fine app ctx removeSession r (.serve n))
    (hs : Step app ctx removeSession r (.serve n) r') : Sound app ctx s₀ r' := by
  have hsized := hf.sized r' hs
  obtain ⟨buf, hb, hs'⟩ := Option.bind_eq_some_iff.mp hs
  obtain ⟨⟨⟨s', h'⟩, out, rest⟩, hd, he⟩ := Option.map_eq_some_iff.mp hs'
  cases he
  obtain ⟨ready, now, before, hflights⟩ := h.requests
  obtain ⟨now', fs, hout, hreached, hflights'⟩ := hflights.serve h.calls h.sized hb hd
  obtain ⟨es, hgrows, -⟩ := hreached.grows
  refine ⟨h.calls.reached rfl hreached, ⟨ready, now', before, hflights'⟩, ?_, hsized⟩
  exact h.replies.extend (by rw [hb]; exact Option.some_ne_none _) rfl rfl (congrArg (r.down ++ ·) hout) hgrows
    fun c hc => ⟨(hreached.replies c hc).sized hsized, .inr (hreached.replies c hc)⟩

/-- So does it on a connection that the client has left, but nobody reads the replies. -/
theorem Sound.serveLeft (h : Sound app ctx s₀ r) {i n : Nat} (hf : Fine app ctx removeSession r (.serveLeft i n))
    (hs : Step app ctx removeSession r (.serveLeft i n) r') : Sound app ctx s₀ r' := by
  have hsized := hf.sized r' hs
  obtain ⟨l, hl, hs'⟩ := Option.bind_eq_some_iff.mp hs
  obtain ⟨⟨⟨s', h'⟩, out, rest⟩, hd, he⟩ := Option.map_eq_some_iff.mp hs'
  cases he
  obtain ⟨ready, now, before, hflights⟩ := h.requests
  obtain ⟨qs', fs, hreached, hflights'⟩ := hflights.serveLeft h.calls h.sized hl hd
  obtain ⟨es, hgrows, -⟩ := hreached.grows
  exact ⟨h.calls.reached rfl hreached, ⟨ready, now, _, hflights'⟩,
    h.replies.elsewhere rfl rfl (fun hb => hb) rfl hgrows, hsized⟩

/-- Everything else. -/
theorem Sound.net (h : Sound app ctx s₀ r) {a : RemoteAction S} (hf : Fine app ctx removeSession r a)
    (hs : Step app ctx removeSession r a r') : Sound app ctx s₀ r' := by
  have hsized := hf.sized r' hs
  have hord := hf.orderly
  cases a with
  | client act => exact h.client hf hs
  | send =>
    obtain ⟨packet, ho, he⟩ := Option.map_eq_some_iff.mp hs
    cases he
    exact ⟨h.calls.same rfl rfl rfl, h.requests.send ho,
      h.replies.elsewhere rfl rfl (fun hb => hb) rfl (List.append_nil _).symm, hsized⟩
  | start ok key => exact h.start hf hs
  | deliver n => exact h.deliver hs
  | serve n => exact h.serve hf hs
  | serveLeft i n => exact h.serveLeft hf hs
  | notify payload =>
    have hs' : (if r.buf.isSome then some { r with down := r.down ++ Frame.encodeFrame flagNotify payload } else none) =
      some r' := hs
    split_ifs at hs' with hb
    cases hs'
    have hdown : r.down ++ Frame.encodeFrame flagNotify payload =
        r.down ++ Frame.stream [(flagNotify, writeVar payload [])] := by
      rw [Frame.encodeFrame, Frame.stream, List.flatMap_singleton]
    have hbuf : r.buf ≠ none := fun hn => by rw [hn] at hb; cases hb
    refine ⟨h.calls.same rfl rfl rfl, h.requests.same rfl rfl rfl rfl rfl rfl, ?_, hsized⟩
    exact h.replies.extend hbuf rfl rfl hdown (List.append_nil _).symm
      (List.forall_mem_singleton.mpr ⟨hord, .inl rfl⟩)
  | hangUp =>
    obtain ⟨buf, hb, he⟩ := Option.map_eq_some_iff.mp hs
    cases he
    exact ⟨h.calls.changed rfl rfl, h.requests.hangUp _, h.replies.elsewhere rfl rfl (fun _ => rfl) rfl rfl, hsized⟩
  | hangUpLeft i =>
    obtain ⟨l, hl, he⟩ := Option.map_eq_some_iff.mp hs
    cases he
    exact ⟨h.calls.changed rfl rfl, h.requests.hangUpLeft i _, h.replies.elsewhere rfl rfl (fun hb => hb) rfl rfl, hsized⟩
  | drop =>
    have hs' : (if r.io = .connected then some { r.leave with io := .lost } else none) = some r' := hs
    split_ifs at hs' with hio
    cases hs'
    refine ⟨h.calls.same rfl rfl rfl, h.requests.leave.same rfl rfl rfl rfl rfl rfl, ?_, hsized⟩
    exact h.replies.cut rfl rfl (fun hc => by cases hc) (fun ht => by rcases ht with ht | ht <;> cases ht) rfl
      (fun hd => hd.same rfl) rfl rfl rfl
  | reconnected key =>
    have hs' : (if r.io = .waiting then some (r.link key) else none) = some r' := hs
    split_ifs at hs' with hio
    cases hs'
    have hbroken := h.replies.broken fun hc => by cases hio.symm.trans hc
    refine ⟨h.calls.same rfl rfl rfl, h.requests.link hbroken.1 key, ?_, hsized⟩
    exact ⟨fun hn => absurd rfl hn, fun ht => (by rcases ht with ht | ht <;> cases ht),
      .inr ⟨hord.2, hord.1, h.replies.told (.inr hio)⟩, h.replies.slot⟩
  | elsewhere change =>
    cases hs
    refine ⟨h.calls.changed rfl rfl, ?_, h.replies.elsewhere rfl rfl (fun hb => hb) rfl rfl, hsized⟩
    exact h.requests.frame rfl rfl rfl rfl rfl rfl (by simp)

/-- **Remote calls are atomic.** In every orderly run, whatever the threads, the server and the net do in between, a
call is dispatched at most once, between its begin and its end, in the order in which the state of the server
changes, and what it returns is nothing, or the reply of its own dispatch. -/
theorem calls_atomic (app : SessionKey → App S N) (ctx : Context) (removeSession : SessionKey → S → S) (s₀ : S)
    {as : List (RemoteAction S)}
    (h : Runs (Guarded (Fine app ctx removeSession) (Step app ctx removeSession)) (fresh s₀) as r) :
    AtomicCalls app ctx s₀ r.history r.state :=
  (h.invariant (I := Sound app ctx s₀) (fun hi hs => hi.net hs.1 hs.2) Sound.fresh).calls.atomic

/-- `connect`, and a call that is answered. -/
def firstCall (S : Type) : List (RemoteAction S) :=
  [.client .stopClient, .client .releaseWait, .client .clearBuffer, .start true 1, .client .resetWait,
    .client (.prepare (.dict [])), .client .arm, .send, .serve 100, .deliver 100, .client .popFrame, .client .finish]

theorem calls_atomic_first : ∃ r : Remote (Forest × Unit), r.history.length = 3 ∧
    AtomicCalls (fun _ => Forest.app 8 0 noServices) plainContext emptyRoot r.history r.state := by
  have hrun : ((firstCall (Forest × Unit)).foldlM
      (fun r a => if Fine (fun _ => Forest.app 8 0 noServices) plainContext (fun _ s => s) r a
        then r.step (fun _ => Forest.app 8 0 noServices) plainContext (fun _ s => s) a else none)
      (fresh emptyRoot)).map (fun r => r.history.length) = some 3 := by decide +kernel
  obtain ⟨r, hr, hlen⟩ := Option.map_eq_some_iff.mp hrun
  exact ⟨r, hlen, calls_atomic _ _ (fun _ s => s) _ (Runs.of_foldlM hr)⟩

end Calls

end Remote

end VersatileEngine
