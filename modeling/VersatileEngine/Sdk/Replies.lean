import VersatileEngine.Sdk.Matching
import VersatileEngine.Sdk.Transports

/-!
# VersatileEngine.Sdk.Replies

Replies and calls of the three clients that take many calls at once.

* `Matched` — what was resolved was resolved by the reply to this call alone, and the reply to a call that is
  waited for is delivered to it.
* `OwnArgs` — the arguments of a command have no `id`, which the Python client moves to the request.
* `MsgPackTransport.OwnIds`, `MsgPackTransport.Matching` — the condition on the steps of the Python client, and the
  invariant of the runs that meet it.
* `replies_matched` — **where calls send the ids that were generated for them, replies are matched.**
-/

namespace VersatileEngine

/-- The arguments of a command have no `id` of their own but `n`. -/
def OwnArgs (args : JsValue) (n : Nat) : Prop :=
  ∀ o v, args = .obj o → o.lookup (ascii "id") = some v → v = .int n

theorem mem_assign_key {d : JsObject} {k key : Str} {v w : JsValue} (h : (k, w) ∈ assign d key v) (hne : k ≠ key) :
    (k, w) ∈ d := by
  rcases mem_assign h with he | h
  · exact absurd (congrArg Prod.fst he) hne
  · exact h

theorem ownId_commandOptions {o : JsObject} {n : Nat} (h : ∀ v, o.lookup (ascii "id") = some v → v = .int n) :
    OwnId (commandOptions o) n := by
  have hwait : ∀ v, (ascii "id", v) ∉ (o.lookup (ascii "wait")).elim ([(ascii "wait", .bool true)] : JsObject)
      fun v => assign [(ascii "wait", .bool true)] (ascii "wait") (.bool (truthy v)) := by
    intro v hv
    have hbase : (ascii "id", v) ∈ ([(ascii "wait", .bool true)] : JsObject) := by
      cases hl : o.lookup (ascii "wait") with
      | none => rwa [hl] at hv
      | some b =>
        rw [hl] at hv
        exact mem_assign_key hv (by decide)
    have he : ascii "id" = ascii "wait" := congrArg Prod.fst (List.mem_singleton.mp hbase)
    exact absurd he (by decide)
  intro w hw
  simp only [commandOptions] at hw
  cases hl : o.lookup (ascii "id") with
  | none =>
    rw [hl] at hw
    exact absurd hw (hwait w)
  | some v =>
    rw [hl] at hw
    rcases mem_assign hw with he | hw
    · rw [show w = v from congrArg Prod.snd he]
      exact h v hl
    · exact absurd hw (hwait w)

/-- The `id` of the arguments of a command is the one of its payload. -/
theorem ownId_commandPayload {args : JsValue} {n : Nat} (h : OwnArgs args n) : OwnId (commandPayload args) n := by
  have hplain : ∀ v, OwnId [(ascii "wait", .bool true), (ascii "args", v)] n := by
    intro v w hw
    simp only [List.mem_cons, List.not_mem_nil, or_false, Prod.mk.injEq] at hw
    rcases hw with ⟨he, -⟩ | ⟨he, -⟩
    · exact absurd he (by decide)
    · exact absurd he (by decide)
  cases args with
  | obj o => exact fun w hw => ownId_commandOptions (fun v hv => h o v rfl hv) w (mem_assign_key hw (by decide))
  | undefined => exact hplain _
  | null => exact hplain _
  | bool b => exact hplain _
  | int i => exact hplain _
  | float d => exact hplain _
  | str s => exact hplain _
  | bytes b => exact hplain _
  | arr l => exact hplain _

namespace MsgPackTransport

/-- The frame is a message, and what it is looked up by is a key; its `id` is no truth value, which would be the
key `0` or `1`. -/
def Proper (unpackb : List UInt8 → Option JsValue) (f : UInt8 × List UInt8) : Prop :=
  match unpackb f.2 with
  | none => True
  | some (.obj o) => (∀ v, idOf o = some v → hashable v = true ∧ ∀ b, v ≠ .bool b) ∧
      ∀ v, o.lookup (ascii "path") = some v → hashable v = true
  | some _ => False

/-- A call sends the id that was generated for it, the frames are proper, and no `recv` waits for the timeout. -/
def OwnIds (unpackb : List UInt8 → Option JsValue) (c : MsgPackTransport) : Act → Prop
  | .send _ _ data _ => ∀ o, data = .obj o → OwnId o (c.id + 1)
  | .command _ args _ => OwnArgs args (c.id + 1)
  | .received chunk => ∀ f ∈ VeBinTcpClient.streamFrames (c.recvBuf ++ chunk), Proper unpackb f
  | .idle => False
  | _ => True

structure Matching (c : MsgPackTransport) : Prop where
  correlated : Correlated c.id c.calls c.pending c.requests
  results : ∀ k flag o, (k, flag, o) ∈ c.results → RepliesTo some c.requests k o
  ended : ∀ k o, (k, .resolved o) ∈ c.ended → ∃ flag, (k, flag, o) ∈ c.results
  keys : ∀ k key, (k, key) ∈ c.waiting → ∃ r, (k, r) ∈ c.requests ∧ idOf r = some key
  waits : ∀ k key, (k, key) ∈ c.waiting → k ∈ c.pending.map Prod.snd ∨ ∃ flag o, (k, flag, o) ∈ c.results
  running : c.closed = false → c.running = true

section Steps

variable {unpackb : List UInt8 → Option JsValue} {c c' : MsgPackTransport}

theorem matching_fresh : Matching fresh where
  correlated := correlated_fresh
  results := fun _ _ _ h => absurd h List.not_mem_nil
  ended := fun _ _ h => absurd h List.not_mem_nil
  keys := fun _ _ h => absurd h List.not_mem_nil
  waits := fun _ _ h => absurd h List.not_mem_nil
  running := fun _ => rfl

theorem idOf_payloadDict {id : Nat} {data : JsValue} (op path : Str) (h : ∀ o, data = .obj o → OwnId o id) :
    idOf (payloadDict id op path data) = some (.int id) := by
  have hd : idOf (if path = [] then [(ascii "op", .str op), (ascii "id", .int id)]
      else assign [(ascii "op", .str op), (ascii "id", .int id)] (ascii "path") (.str path)) = some (.int id) := by
    have hbase : idOf [(ascii "op", .str op), (ascii "id", .int id)] = some (.int id) := by
      rw [idOf, List.lookup_cons, List.lookup_cons, beq_self_eq_true, beq_eq_false_iff_ne.mpr (by decide)]
    split_ifs
    · exact hbase
    · rw [idOf, lookup_assign, if_neg (by decide)]
      exact hbase
  have hvalue : ∀ v, idOf (assign (if path = [] then [(ascii "op", .str op), (ascii "id", .int id)]
      else assign [(ascii "op", .str op), (ascii "id", .int id)] (ascii "path") (.str path)) (ascii "value") v) =
      some (.int id) := by
    intro v
    rw [idOf, lookup_assign, if_neg (by decide)]
    exact hd
  cases data with
  | obj o => exact lookup_assignAll_same (h o rfl) hd
  | undefined => exact hd
  | null => exact hd
  | bool b => exact hvalue _
  | int i => exact hvalue _
  | float d => exact hvalue _
  | str s => exact hvalue _
  | bytes b => exact hvalue _
  | arr l => exact hvalue _

theorem mem_popKey {pending : List (Nat × Nat)} {v : JsValue} : ∀ p ∈ popKey pending v, p ∈ pending :=
  fun _ hp => (List.mem_filter.mp hp).1

theorem keyEq_int (i n : Nat) : keyEq (.int i) n = decide (i = n) := by
  simp only [keyEq, Nat.cast_inj]

theorem keyEq_key {v : JsValue} {n : Nat} (hb : ∀ b, v ≠ .bool b) (h : keyEq v n = true) : v = .int n := by
  cases v with
  | int i =>
    rw [keyEq, decide_eq_true_eq] at h
    rw [h]
  | bool b => exact absurd rfl (hb b)
  | undefined => cases h
  | null => cases h
  | float d => cases h
  | str s => cases h
  | bytes b => cases h
  | arr l => cases h
  | obj o => cases h

/-- What is popped under the id of a call was waited for by this call. -/
theorem Matching.popKey_keeps (h : Matching c) {k k' : Nat} {r : JsObject} {i : Nat} (hr : (k, r) ∈ c.requests)
    (hid : idOf r = some (.int i)) (hk : k' ∈ c.pending.map Prod.snd) (hne : k' ≠ k) :
    k' ∈ (popKey c.pending (.int i)).map Prod.snd := by
  obtain ⟨p, hp, rfl⟩ := List.mem_map.mp hk
  refine List.mem_map_of_mem (List.mem_filter.mpr ⟨hp, ?_⟩)
  rw [keyEq_int, Bool.not_eq_true', decide_eq_false_iff_not]
  rintro rfl
  obtain ⟨r', hr', hid'⟩ := h.correlated.pending p hp
  exact hne (h.correlated.id _ r' _ r hr' hr (hid'.trans hid.symm))

theorem Matching.key (h : Matching c) {k : Nat} {key : JsValue} (hw : (k, key) ∈ c.waiting) :
    ∃ (r : JsObject) (i : Nat), (k, r) ∈ c.requests ∧ idOf r = some (.int i) ∧ key = .int i := by
  obtain ⟨r, hr, hk⟩ := h.keys k key hw
  obtain ⟨-, i, -, hid⟩ := h.correlated.sent k r hr
  refine ⟨r, i, hr, hid, ?_⟩
  rw [hid] at hk
  injection hk with hk
  exact hk.symm

theorem Matching.sendFrame (h : Matching c) (op path : Str) {data : JsValue} (sending : Sending)
    (hd : ∀ o, data = .obj o → OwnId o (c.id + 1)) : Matching (c.sendFrame op path data sending) := by
  have hid := idOf_payloadDict op path hd
  have hkey : keyOf (payloadDict (c.id + 1) op path data) = .int ((c.id + 1 : Nat) : Int) := by
    rw [keyOf, hid]
    rfl
  have hended : ∀ error k o, (k, CallOutcome.resolved o) ∈ c.ended ++ [(c.calls, .rejected error)] →
      ∃ flag, (k, flag, o) ∈ c.results := by
    intro error k o ho
    rcases List.mem_append.mp ho with ho | ho
    · exact h.ended k o ho
    · cases List.mem_singleton.mp ho
  cases sending with
  | unpackable error =>
    exact ⟨h.correlated.skip.shrink (fun _ hp => hp) (Nat.le_succ _), h.results, hended error, h.keys, h.waits,
      h.running⟩
  | unsent error =>
    have hpop : popKey (assign c.pending (c.id + 1) c.calls) (keyOf (payloadDict (c.id + 1) op path data)) =
        c.pending := by
      rw [hkey, h.correlated.assign_next, popKey, List.filter_append, List.filter_singleton, keyEq_int,
        decide_eq_true rfl]
      refine (List.append_nil _).trans (List.filter_eq_self.mpr fun p hp => ?_)
      have := h.correlated.pending_le p hp
      rw [keyEq_int, Bool.not_eq_true', decide_eq_false_iff_not]
      omega
    simp only [MsgPackTransport.sendFrame, hpop]
    exact ⟨h.correlated.skip.shrink (fun _ hp => hp) (Nat.le_succ _), h.results, hended error, h.keys, h.waits,
      h.running⟩
  | sent =>
    refine ⟨h.correlated.issue hid, fun k flag o ho => (h.results k flag o ho).more _, h.ended,
      fun k key hw => ?_, fun k key hw => ?_, h.running⟩
    · rcases List.mem_append.mp hw with hw | hw
      · obtain ⟨r, hr, hk⟩ := h.keys k key hw
        exact ⟨r, List.mem_append_left _ hr, hk⟩
      · cases List.mem_singleton.mp hw
        exact ⟨_, List.mem_append_right _ List.mem_cons_self, by rw [hid, hkey]⟩
    · have hp : (c.sendFrame op path data .sent).pending = c.pending ++ [(c.id + 1, c.calls)] :=
        h.correlated.assign_next c.calls
      rw [hp, List.map_append]
      rcases List.mem_append.mp hw with hw | hw
      · exact (h.waits k key hw).imp_left (List.mem_append_left _)
      · cases List.mem_singleton.mp hw
        exact .inl (List.mem_append_right _ List.mem_cons_self)

theorem Matching.finish (h : Matching c) {call : Nat} {key : JsValue} {outcome : CallOutcome}
    (hw : (call, key) ∈ c.waiting) (ho : ∀ o, outcome = .resolved o → ∃ flag, (call, flag, o) ∈ c.results) :
    Matching (c.finish call key outcome) := by
  obtain ⟨r, i, hr, hid, rfl⟩ := h.key hw
  refine ⟨h.correlated.shrink mem_popKey (Nat.le_refl _), h.results, fun k o hk => ?_,
    fun k key hk => h.keys k key (List.mem_filter.mp hk).1, fun k key hk => ?_, h.running⟩
  · rcases List.mem_append.mp hk with hk | hk
    · exact h.ended k o hk
    · obtain ⟨rfl, he⟩ := Prod.mk.inj (List.mem_singleton.mp hk)
      exact ho o he.symm
  · obtain ⟨hk, hne⟩ := List.mem_filter.mp hk
    rw [decide_eq_true_eq] at hne
    exact (h.waits k key hk).imp_left fun hk => h.popKey_keeps hr hid hk hne

/-! #### Frames -/

/-- What frames change: events are set, and nothing else. -/
structure Handled (c c' : MsgPackTransport) : Prop where
  requests : c'.requests = c.requests
  waiting : c'.waiting = c.waiting
  results : ∀ x ∈ c.results, x ∈ c'.results
  running : c'.running = c.running
  closed : c'.closed = c.closed

theorem Handled.refl (c : MsgPackTransport) : Handled c c := ⟨rfl, rfl, fun _ h => h, rfl, rfl⟩

theorem Handled.trans {c'' : MsgPackTransport} (h : Handled c c') (h' : Handled c' c'') : Handled c c'' :=
  ⟨h'.requests.trans h.requests, h'.waiting.trans h.waiting, fun x hx => h'.results x (h.results x hx),
    h'.running.trans h.running, h'.closed.trans h.closed⟩

theorem handleReply_none (flag : UInt8) {o : JsObject}
    (hv : ∀ v, idOf o = some v → hashable v = true ∧ c.pending.find? (fun p => keyEq v p.1) = none) :
    c.handleReply flag o = some c := by
  rw [MsgPackTransport.handleReply]
  split
  · rfl
  · rfl
  · rfl
  · next v _ _ hi =>
    obtain ⟨hh, hf⟩ := hv v hi
    rw [if_pos hh, hf]

/-- A reply is handled, and the call that waits for it has a result. -/
theorem Matching.handleReply (h : Matching c) (flag : UInt8) {o : JsObject}
    (hv : ∀ v, idOf o = some v → hashable v = true ∧ ∀ b, v ≠ .bool b) :
    ∃ c', c.handleReply flag o = some c' ∧ Matching c' ∧ Handled c c' ∧ c'.recvBuf = c.recvBuf ∧
      ∀ k ∈ c.waiting.map Prod.fst, RepliesTo some c.requests k o → ∃ flag o, (k, flag, o) ∈ c'.results := by
  have hstay : (∀ i : Nat, idOf o = some (.int i) → ∀ p ∈ c.pending, p.1 ≠ i) →
      ∀ k ∈ c.waiting.map Prod.fst, RepliesTo some c.requests k o → ∃ flag o, (k, flag, o) ∈ c.results := by
    intro hnone k hk hr
    obtain ⟨w, hw, rfl⟩ := List.mem_map.mp hk
    refine (h.waits w.1 w.2 hw).resolve_left fun hp => ?_
    obtain ⟨i, hi, hf⟩ := h.correlated.find (VeWsClient.echoes_some _) hr hp
    exact hnone i hi _ (List.mem_of_find?_eq_some hf) rfl
  have hmissed : (∀ v, idOf o = some v → c.pending.find? (fun p => keyEq v p.1) = none) →
      ∃ c', c.handleReply flag o = some c' ∧ Matching c' ∧ Handled c c' ∧ c'.recvBuf = c.recvBuf ∧
        ∀ k ∈ c.waiting.map Prod.fst, RepliesTo some c.requests k o → ∃ flag o, (k, flag, o) ∈ c'.results := by
    intro hf
    refine ⟨c, handleReply_none flag fun v hi => ⟨(hv v hi).1, hf v hi⟩, h, .refl c, rfl, ?_⟩
    refine hstay fun i hi p hp he => ?_
    have hp := List.find?_eq_none.mp (hf _ hi) p hp
    rw [keyEq_int, decide_eq_true_eq] at hp
    exact hp he.symm
  cases hi : idOf o with
  | none =>
    refine hmissed fun v hv' => ?_
    rw [hi] at hv'
    cases hv'
  | some v =>
    obtain ⟨hh, hb⟩ := hv v hi
    cases hf : c.pending.find? fun p => keyEq v p.1 with
    | none =>
      refine hmissed fun v' hv' => ?_
      rw [hi] at hv'
      cases hv'
      exact hf
    | some p =>
      have hfound := List.find?_some hf
      obtain rfl := keyEq_key hb hfound
      have hmem := List.mem_of_find?_eq_some hf
      obtain ⟨r, hr, hid⟩ := h.correlated.pending p hmem
      have hown := h.correlated.own (VeWsClient.echoes_some _) hmem hi
      have hkept : ∀ k' ∈ c.pending.map Prod.snd, k' ≠ p.2 → k' ∈ (unassign c.pending p.1).map Prod.snd := by
        intro k' hk' hne
        have hpop := h.popKey_keeps hr hid hk' hne
        have he : popKey c.pending (.int p.1) = unassign c.pending p.1 := by
          refine List.filter_congr fun q _ => ?_
          rw [keyEq_int, ← decide_not]
          exact decide_eq_decide.mpr (not_congr eq_comm)
        rwa [he] at hpop
      refine ⟨{ c with pending := unassign c.pending p.1, results := c.results ++ [(p.2, flag, o)] }, ?_, ?_, ?_,
        rfl, ?_⟩
      · rw [MsgPackTransport.handleReply, hi]
        simp only [hashable, if_true, hf]
      · refine ⟨h.correlated.shrink mem_of_unassign (Nat.le_refl _), fun k flag' o' hk => ?_,
          fun k o' hk => ?_, h.keys, fun k key hw => ?_, h.running⟩
        · rcases List.mem_append.mp hk with hk | hk
          · exact h.results k flag' o' hk
          · cases List.mem_singleton.mp hk
            exact hown
        · obtain ⟨flag', hk⟩ := h.ended k o' hk
          exact ⟨flag', List.mem_append_left _ hk⟩
        · by_cases hk : k = p.2
          · exact .inr ⟨flag, o, by rw [hk]; exact List.mem_append_right _ List.mem_cons_self⟩
          · rcases h.waits k key hw with hp | ⟨flag', o', ho'⟩
            · exact .inl (hkept k hp hk)
            · exact .inr ⟨flag', o', List.mem_append_left _ ho'⟩
      · exact ⟨rfl, rfl, fun x hx => List.mem_append_left _ hx, rfl, rfl⟩
      · intro k _ hk
        refine ⟨flag, o, ?_⟩
        rw [← h.correlated.unique (VeWsClient.echoes_some _) hk hown]
        exact List.mem_append_right _ List.mem_cons_self

/-- A frame is handled, and the call it replies to has a result. -/
theorem Matching.handleFrame (h : Matching c) {f : UInt8 × List UInt8} (hf : Proper unpackb f) :
    ∃ c', c.handleFrame unpackb f.1 f.2 = some c' ∧ Matching c' ∧ Handled c c' ∧ c'.recvBuf = c.recvBuf ∧
      ∀ k ∈ c.waiting.map Prod.fst, ∀ o, f.1 &&& 0xc0 ≠ 0x80 → unpackb f.2 = some (.obj o) →
        RepliesTo some c.requests k o → ∃ flag o, (k, flag, o) ∈ c'.results := by
  rw [Proper] at hf
  rw [MsgPackTransport.handleFrame]
  split at hf
  · next hnone =>
    rw [hnone]
    exact ⟨c, rfl, h, .refl c, rfl, fun _ _ o _ ho => (by cases ho)⟩
  · next o ho =>
    obtain ⟨hid, hpath⟩ := hf
    simp only [ho]
    split
    · next hflag =>
      refine ⟨c, ?_, h, .refl c, rfl, fun _ _ _ hne => absurd hflag hne⟩
      split
      · next e path _ hp => rw [if_neg fun hn => by simp [hpath path hp] at hn]
      · rfl
    · next hflag =>
      obtain ⟨c', hs, hm, hh, hb, hd⟩ := h.handleReply f.1 hid
      refine ⟨c', hs, hm, hh, hb, fun k hk o' _ ho' hr => hd k hk ?_⟩
      cases ho'
      exact hr
  · exact hf.elim

/-- The frames of the buffer are handled, and the calls they reply to have results. -/
theorem Matching.processFrames (turns : Nat) : ∀ {c : MsgPackTransport}, Matching c →
    c.recvBuf.length ≤ turns → (∀ f ∈ VeBinTcpClient.streamFrames c.recvBuf, Proper unpackb f) →
    Matching (processFrames unpackb turns c) ∧ Handled c (processFrames unpackb turns c) ∧
      ∀ k ∈ c.waiting.map Prod.fst, ∀ f ∈ VeBinTcpClient.streamFrames c.recvBuf, ∀ o, f.1 &&& 0xc0 ≠ 0x80 →
        unpackb f.2 = some (.obj o) → RepliesTo some c.requests k o →
        ∃ flag o, (k, flag, o) ∈ (processFrames unpackb turns c).results := by
  induction turns with
  | zero =>
    intro c h hl _
    refine ⟨h, .refl c, fun k _ f hf => ?_⟩
    rw [List.eq_nil_of_length_eq_zero (Nat.le_zero.mp hl)] at hf
    cases hf
  | succ turns ih =>
    intro c h hl hp
    rw [MsgPackTransport.processFrames]
    cases hs : splitFrame c.recvBuf with
    | none =>
      refine ⟨h, .refl c, fun k _ f hf => ?_⟩
      rw [VeBinTcpClient.streamFrames, frames_none hs] at hf
      cases hf
    | some p =>
      obtain ⟨g, rest⟩ := p
      have hlt := framing_splitFrame.shorter hs
      have hcons : VeBinTcpClient.streamFrames c.recvBuf = g :: VeBinTcpClient.streamFrames rest := by
        rw [VeBinTcpClient.streamFrames, frames_some framing_splitFrame hs]
        rfl
      rw [hcons] at hp ⊢
      have hcut : Matching { c with recvBuf := rest } :=
        ⟨h.correlated, h.results, h.ended, h.keys, h.waits, h.running⟩
      obtain ⟨c₂, hc₂, hm₂, hh₂, hb₂, hd₂⟩ := hcut.handleFrame (hp g List.mem_cons_self)
      have hb₂ : c₂.recvBuf = rest := hb₂
      have hread : Handled c { c with recvBuf := rest } := ⟨rfl, rfl, fun _ h => h, rfl, rfl⟩
      have hh₂ := hread.trans hh₂
      simp only [hc₂]
      obtain ⟨hm, hh, hd⟩ := ih hm₂ (by rw [hb₂]; omega) fun f hf =>
        hp f (List.mem_cons_of_mem _ (by rwa [hb₂] at hf))
      refine ⟨hm, hh₂.trans hh, fun k hk f hf o hflag ho hr => ?_⟩
      rcases List.mem_cons.mp hf with rfl | hf
      · obtain ⟨flag, o', ho'⟩ := hd₂ k hk o hflag ho hr
        exact ⟨flag, o', hh.results _ ho'⟩
      · exact hd k (by rwa [hh₂.waiting]) f (by rwa [hb₂]) o hflag ho (by rwa [hh₂.requests])

theorem matching_step {a : Act} (hs : Guarded (OwnIds unpackb) (Step unpackb) c a c') (h : Matching c) :
    Matching c' := by
  obtain ⟨hg, hen, rfl⟩ := hs
  cases a with
  | send op path data sending => exact h.sendFrame op path sending hg
  | command name args sending =>
    refine h.sendFrame _ _ sending fun o ho w hw => ?_
    cases ho
    rcases mem_assignAll hw with hw | hw
    · have he : ascii "id" = ascii "name" := congrArg Prod.fst (List.mem_singleton.mp hw)
      exact absurd he (by decide)
    · exact ownId_commandPayload hg w hw
  | wake call key flag msg =>
    refine h.finish hen.1 fun o ho => ?_
    cases ho
    exact ⟨flag, hen.2⟩
  | expire call key => exact h.finish hen.1 fun o ho => (by cases ho)
  | received chunk =>
    have hbuf : Matching { c with recvBuf := c.recvBuf ++ chunk } :=
      ⟨h.correlated, h.results, h.ended, h.keys, h.waits, h.running⟩
    rw [step, receive]
    split
    · exact (hbuf.processFrames _ (Nat.le_refl _) hg).1
    · exact h
  | idle => exact hg.elim
  | lost => exact ⟨h.correlated, h.results, h.ended, h.keys, h.waits, fun hc => (by cases hc)⟩

end Steps

end MsgPackTransport

/-! ### All three -/

/-- A call that was resolved was resolved by the reply to its request, and to no other. -/
def OwnReply (echo : JsValue → Option JsValue) (requests : List (Nat × JsObject)) (k : Nat) (o : JsObject) : Prop :=
  RepliesTo echo requests k o ∧ ∀ k', RepliesTo echo requests k' o → k' = k

structure VeWsClient.Matched (options : VeWsClientOptions) (c : VeWsClient) : Prop where
  own : ∀ k o, (k, .resolved o) ∈ c.ended → OwnReply some c.requests k o
  delivered : ∀ i k o c', k ∈ c.pending.map Prod.snd → o.lookup (ascii "event") = none →
    RepliesTo some c.requests k o → Step options c (.message i (.obj o)) c' → (k, .resolved o) ∈ c'.ended

/-- The replies come in frames that are no notifications. -/
structure VeBinTcpClient.Matched (text : JsValue → Str) (options : VeBinTcpClientOptions) (c : VeBinTcpClient) :
    Prop where
  own : ∀ k o, (k, .resolved o) ∈ c.ended → OwnReply (echoed text) c.requests k o
  delivered : ∀ i k chunk f o c', k ∈ c.pending.map Prod.snd → NoNull text (streamFrames (c.recvBuf ++ chunk)) →
    f ∈ streamFrames (c.recvBuf ++ chunk) → f.1 &&& 0xc0 ≠ 0x80 → Sdk.msgpackDecode text f.2 = some (.obj o) →
    RepliesTo (echoed text) c.requests k o → Step options text c (.data i chunk) c' →
    ∃ o', (k, .resolved o') ∈ c'.ended

/-- A call has its reply when its thread can go on with it. -/
structure MsgPackTransport.Matched (unpackb : List UInt8 → Option JsValue) (c : MsgPackTransport) : Prop where
  own : ∀ k o, (k, .resolved o) ∈ c.ended → OwnReply some c.requests k o
  delivered : ∀ k key chunk f o c', (k, key) ∈ c.waiting →
    (∀ f ∈ VeBinTcpClient.streamFrames (c.recvBuf ++ chunk), Proper unpackb f) →
    f ∈ VeBinTcpClient.streamFrames (c.recvBuf ++ chunk) → f.1 &&& 0xc0 ≠ 0x80 → unpackb f.2 = some (.obj o) →
    RepliesTo some c.requests k o → Step unpackb c (.received chunk) c' →
    ∃ flag o', c'.Enabled (.wake k key flag o') ∧ (k, .resolved o') ∈ (c'.step unpackb (.wake k key flag o')).ended

theorem VeWsClient.Matching.matched {options : VeWsClientOptions} {c : VeWsClient} (h : Matching c) :
    Matched options c where
  own k o ho := ⟨h.own k o ho, fun _ hr => h.correlated.unique (echoes_some _) (h.own k o ho) hr⟩
  delivered i k o c' hk he hr hs := by
    obtain ⟨-, rfl⟩ := hs
    rw [step, h.delivers he hr hk]
    exact List.mem_append_right _ List.mem_cons_self

theorem VeBinTcpClient.Matching.matched {text : JsValue → Str} {options : VeBinTcpClientOptions} {c : VeBinTcpClient}
    (h : Matching text c) : Matched text options c where
  own k o ho := ⟨h.own k o ho, fun _ hr => h.correlated.unique (echoes_echoed text h.bound) (h.own k o ho) hr⟩
  delivered i k chunk f o c' hk hn hf hflag hd hr hs := by
    obtain ⟨-, rfl⟩ := hs
    have hbuf : Matching text { c.setSocket i fun s => { s with received := s.received ++ chunk } with
        recvBuf := c.recvBuf ++ chunk } := h.same rfl rfl rfl rfl rfl
    exact hbuf.delivers hflag hd _ (Nat.le_refl _) hn hf hr hk

theorem MsgPackTransport.Matching.matched {unpackb : List UInt8 → Option JsValue} {c : MsgPackTransport}
    (h : Matching c) : Matched unpackb c where
  own k o ho := by
    obtain ⟨flag, hk⟩ := h.ended k o ho
    have hown := h.results k flag o hk
    exact ⟨hown, fun _ hr => h.correlated.unique (VeWsClient.echoes_some _) hown hr⟩
  delivered k key chunk f o c' hw hp hf hflag hd hr hs := by
    obtain ⟨hen, rfl⟩ := hs
    have hbuf : Matching { c with recvBuf := c.recvBuf ++ chunk } :=
      ⟨h.correlated, h.results, h.ended, h.keys, h.waits, h.running⟩
    obtain ⟨-, hh, hres⟩ := hbuf.processFrames (c.recvBuf ++ chunk).length (Nat.le_refl _) hp
    obtain ⟨flag, o', ho'⟩ := hres k (List.mem_map_of_mem hw) f hf o hflag hd hr
    obtain ⟨r, i, -, -, rfl⟩ := h.key hw
    have hstep : c.step unpackb (.received chunk) = MsgPackTransport.processFrames unpackb
        (c.recvBuf ++ chunk).length { c with recvBuf := c.recvBuf ++ chunk } := by
      rw [MsgPackTransport.step, receive, if_pos (h.running hen)]
    rw [hstep]
    refine ⟨flag, o', ⟨by rw [hh.waiting]; exact hw, ho'⟩, ?_⟩
    exact List.mem_append_right _ List.mem_cons_self

end VersatileEngine
