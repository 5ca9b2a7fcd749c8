import Mathlib
import VersatileEngine.Lib.Framing

/-!
# VersatileEngine.Lib.Sessions

A server that takes requests off the streams of its sessions and answers each of them as soon as it is
complete.

* `Traffic`, `Server.step` — a session begins or ends under a key, a chunk arrives, the state changes
  otherwise. The server keeps what is left of the stream of every open session.
* `Work`, `performAll`   — the same without buffers: requests, ends and changes, one after another.
* `streams`              — what was received in the sessions of a key.
* `run_works`            — a run of the server carries out works, and the requests of a key among them
  are those of its streams. So neither the chunks nor the other sessions matter to what is requested.
* `sentTo_length`        — what is sent to a key is as much as its requests call for; `sentTo_filter`, one
  answer for each request of a kind.

A key may be used again when its session has ended.
-/

namespace VersatileEngine

namespace Sessions

inductive Traffic (κ α σ : Type) where
  | opened (key : κ)
  | received (key : κ) (chunk : List α)
  | closed (key : κ)
  | elsewhere (change : σ → σ)

inductive Work (κ φ σ : Type) where
  | request (key : κ) (frame : φ)
  | leave (key : κ)
  | elsewhere (change : σ → σ)

/-- What is made of a request and of the end of a session. -/
structure Handler (κ φ σ ο : Type) where
  answer : κ → φ → σ → Option (σ × List ο)
  leave : κ → σ → σ

structure Server (κ α σ ο : Type) where
  buffers : κ → Option (List α)
  state : σ
  /-- What was sent, and to whom. -/
  sent : List (κ × ο)

variable {κ α φ σ ο : Type}

def Server.start (s : σ) : Server κ α σ ο := ⟨fun _ => none, s, []⟩

section Run

variable (pop : List α → Option (φ × List α)) (h : Handler κ φ σ ο)

/-- The loop over a buffer, of at most so many turns: the state, the answers, and what is left. -/
def drain (key : κ) : Nat → List α → σ → Option (σ × List ο × List α)
  | 0, buf, s => some (s, [], buf)
  | n + 1, buf, s =>
    match pop buf with
    | none => some (s, [], buf)
    | some (f, rest) =>
      (h.answer key f s).bind fun (s, out) =>
        (drain key n rest s).map fun (s, more, buf) => (s, out ++ more, buf)

def Server.step [DecidableEq κ] (v : Server κ α σ ο) : Traffic κ α σ → Option (Server κ α σ ο)
  | .opened key => some { v with buffers := Function.update v.buffers key (some []) }
  | .received key chunk =>
    match v.buffers key with
    | none => some v
    | some buf =>
      (drain pop h key (buf ++ chunk).length (buf ++ chunk) v.state).map fun (s, out, rest) =>
        { buffers := Function.update v.buffers key (some rest), state := s
          sent := v.sent ++ out.map (Prod.mk key) }
  | .closed key =>
    some { v with buffers := Function.update v.buffers key none, state := h.leave key v.state }
  | .elsewhere change => some { v with state := change v.state }

def Server.run [DecidableEq κ] (v : Server κ α σ ο) (es : List (Traffic κ α σ)) : Option (Server κ α σ ο) :=
  es.foldlM (Server.step pop h) v

/-- A state with what was sent so far. -/
def perform (p : σ × List (κ × ο)) : Work κ φ σ → Option (σ × List (κ × ο))
  | .request key f => (h.answer key f p.1).map fun r => (r.1, p.2 ++ r.2.map (Prod.mk key))
  | .leave key => some (h.leave key p.1, p.2)
  | .elsewhere change => some (change p.1, p.2)

def performAll (ws : List (Work κ φ σ)) (p : σ × List (κ × ο)) : Option (σ × List (κ × ο)) :=
  ws.foldlM (perform h) p

/-- The works of a run that begins with these buffers. -/
def works [DecidableEq κ] : (κ → Option (List α)) → List (Traffic κ α σ) → List (Work κ φ σ)
  | _, [] => []
  | b, .opened key :: es => works (Function.update b key (some [])) es
  | b, .received key chunk :: es =>
    match b key with
    | none => works b es
    | some buf =>
      (frames pop (buf ++ chunk)).1.map (.request key) ++
        works (Function.update b key (some (frames pop (buf ++ chunk)).2)) es
  | b, .closed key :: es => .leave key :: works (Function.update b key none) es
  | b, .elsewhere change :: es => .elsewhere change :: works b es

end Run

/-- The requests of a key. -/
def requestsOf [DecidableEq κ] (key : κ) (ws : List (Work κ φ σ)) : List φ :=
  ws.filterMap fun w => match w with
    | .request k f => if k = key then some f else none
    | _ => none

/-- What was received in each session of a key, and first what has been received in the open one. -/
def streams [DecidableEq κ] (key : κ) : Option (List α) → List (Traffic κ α σ) → List (List α)
  | now, [] => now.toList
  | now, .opened k :: es => if k = key then now.toList ++ streams key (some []) es else streams key now es
  | now, .received k chunk :: es => streams key (if k = key then now.map (· ++ chunk) else now) es
  | now, .closed k :: es => if k = key then now.toList ++ streams key none es else streams key now es
  | now, .elsewhere _ :: es => streams key now es

/-- The works that are no requests. -/
def others (ws : List (Work κ φ σ)) : List (Work κ φ σ) :=
  ws.filter fun w => match w with
    | .request _ _ => false
    | _ => true

/-- The ends of sessions and the changes among what happens. -/
def interruptions (φ : Type) (es : List (Traffic κ α σ)) : List (Work κ φ σ) :=
  es.filterMap fun e => match e with
    | .closed key => some (.leave key)
    | .elsewhere change => some (.elsewhere change)
    | _ => none

/-! ## A run carries out its works -/

section Works

variable {pop : List α → Option (φ × List α)} {h : Handler κ φ σ ο}

theorem performAll_append (ws ws' : List (Work κ φ σ)) (p : σ × List (κ × ο)) :
    performAll h (ws ++ ws') p = (performAll h ws p).bind (performAll h ws') := List.foldlM_append

/-- The loop answers the frames of the buffer. -/
theorem drain_eq (key : κ) (n : Nat) : ∀ (buf : List α) (s : σ) (sent : List (κ × ο)),
    performAll h ((popAll pop n buf).1.map (.request key)) (s, sent) =
      (drain pop h key n buf s).map fun r => (r.1, sent ++ r.2.1.map (Prod.mk key)) := by
  induction n with
  | zero =>
    intro buf s sent
    simp [popAll, drain, performAll]
  | succ n ih =>
    intro buf s sent
    cases hp : pop buf with
    | none => simp [popAll_none hp, drain, hp, performAll]
    | some r =>
      obtain ⟨f, rest⟩ := r
      simp only [popAll_some hp, drain, hp, List.map_cons, performAll, List.foldlM_cons, perform]
      cases ha : h.answer key f s with
      | none => rfl
      | some a =>
        obtain ⟨s', out⟩ := a
        have := ih rest s' (sent ++ out.map (Prod.mk key))
        simp only [performAll] at this
        simp [this, Function.comp_def]

theorem drain_rest (key : κ) (n : Nat) : ∀ {buf rest : List α} {s s' : σ} {out : List ο},
    drain pop h key n buf s = some (s', out, rest) → rest = (popAll pop n buf).2 := by
  induction n with
  | zero =>
    intro buf rest s s' out hd
    cases hd
    rfl
  | succ n ih =>
    intro buf rest s s' out hd
    cases hp : pop buf with
    | none =>
      rw [popAll_none hp]
      simp only [drain, hp] at hd
      cases hd
      rfl
    | some r =>
      obtain ⟨f, rest'⟩ := r
      simp only [drain, hp] at hd
      obtain ⟨a, -, hd⟩ := Option.bind_eq_some_iff.mp hd
      obtain ⟨q, hq, hd⟩ := Option.map_eq_some_iff.mp hd
      cases hd
      rw [popAll_some hp]
      exact ih hq

variable [DecidableEq κ]

/-- **A run carries out its works**, and it ends where they do. -/
theorem run_eq (es : List (Traffic κ α σ)) : ∀ v : Server κ α σ ο,
    (v.run pop h es).map (fun v => (v.state, v.sent)) =
      performAll h (works pop v.buffers es) (v.state, v.sent) := by
  induction es with
  | nil => intro v; rfl
  | cons e es ih =>
    intro v
    have hrun : v.run pop h (e :: es) = (v.step pop h e).bind fun v => v.run pop h es := rfl
    rw [hrun]
    cases e with
    | opened key => exact ih _
    | elsewhere change => exact ih _
    | closed key => exact ih _
    | received key chunk =>
      cases hb : v.buffers key with
      | none =>
        simp only [Server.step, works, hb]
        exact ih v
      | some buf =>
        simp only [Server.step, works, hb]
        rw [performAll_append, frames, drain_eq]
        cases hd : drain pop h key (buf ++ chunk).length (buf ++ chunk) v.state with
        | none => rfl
        | some r =>
          obtain ⟨s, out, rest⟩ := r
          rw [drain_rest key _ hd]
          exact ih _

/-! ## The requests of a key -/

theorem requestsOf_append (key : κ) (ws ws' : List (Work κ φ σ)) :
    requestsOf key (ws ++ ws') = requestsOf key ws ++ requestsOf key ws' := List.filterMap_append

theorem requestsOf_map (key k : κ) (fs : List φ) :
    requestsOf key (fs.map (Work.request (σ := σ) k)) = if k = key then fs else [] := by
  rw [requestsOf, List.filterMap_map]
  by_cases hk : k = key
  · simp [hk]
  · simp [hk]

/-- What is to come of a session whose stream has these frames so far: they, and its further ones. -/
theorem requestsOf_works (hp : Framing pop) (key : κ) (es : List (Traffic κ α σ)) :
    ∀ (b : κ → Option (List α)) (now : Option (List α)), b key = now.map (fun s => (frames pop s).2) →
      (now.toList.flatMap fun s => (frames pop s).1) ++ requestsOf key (works pop b es) =
        (streams key now es).flatMap fun s => (frames pop s).1 := by
  induction es with
  | nil =>
    intro b now _
    rw [works, streams]
    exact List.append_nil _
  | cons e es ih =>
    intro b now hb
    have hempty : (frames pop ([] : List α)) = ([], []) := rfl
    cases e with
    | elsewhere change => exact ih b now hb
    | opened k =>
      rw [works, streams]
      split_ifs with hk
      · subst hk
        have hopen := ih (Function.update b k (some [])) (some []) (by rw [Function.update_self]; simp [hempty])
        rw [List.flatMap_append, ← hopen]
        simp [hempty]
      · exact ih _ now (by rw [Function.update_of_ne (Ne.symm hk), hb])
    | closed k =>
      have hcons : requestsOf key (works pop b (.closed k :: es)) =
          requestsOf key (works pop (Function.update b k none) es) := rfl
      rw [hcons, streams]
      split_ifs with hk
      · subst hk
        rw [List.flatMap_append, ← ih (Function.update b k none) none (by rw [Function.update_self]; rfl)]
        simp
      · exact ih _ now (by rw [Function.update_of_ne (Ne.symm hk), hb])
    | received k chunk =>
      rw [streams, works]
      cases hbk : b k with
      | none =>
        refine (ih b now hb).trans (congrArg (fun now => (streams key now es).flatMap _) ?_)
        split_ifs with hk
        · subst hk
          rw [hbk] at hb
          rw [Option.map_eq_none_iff.mp hb.symm]
          rfl
        · rfl
      | some buf =>
        simp only
        rw [requestsOf_append, requestsOf_map]
        split_ifs with hk
        · subst hk
          rw [hbk] at hb
          obtain ⟨s, rfl, hs⟩ := Option.map_eq_some_iff.mp hb.symm
          have happ := frames_append hp chunk _ s (Nat.le_refl _)
          rw [hs] at happ
          have hmore := ih (Function.update b k (some (frames pop (buf ++ chunk)).2))
            (some (s ++ chunk)) (by rw [Function.update_self, Option.map_some, happ])
          rw [Option.map_some, ← hmore]
          simp [happ]
        · rw [List.nil_append]
          exact ih _ now (by rw [Function.update_of_ne (Ne.symm hk), hb])

theorem others_works (es : List (Traffic κ α σ)) : ∀ b : κ → Option (List α),
    others (works pop b es) = interruptions φ es := by
  induction es with
  | nil => intro b; rfl
  | cons e es ih =>
    intro b
    cases e with
    | opened key => exact ih _
    | elsewhere change => exact congrArg (List.cons _) (ih _)
    | closed key => exact congrArg (List.cons _) (ih _)
    | received key chunk =>
      rw [works]
      cases hb : b key with
      | none => exact ih _
      | some buf =>
        have hnil : others ((frames pop (buf ++ chunk)).1.map (Work.request (σ := σ) key)) = [] := by
          simp [others]
        simp only [others, List.filter_append] at hnil ⊢
        rw [hnil]
        exact ih _

/-- **Neither chunks nor other sessions matter.** What a server does from its start is one sequence of
requests among the ends and changes, in which the requests of every key are those of its streams. -/
theorem run_works (hp : Framing pop) (s : σ) (es : List (Traffic κ α σ)) : ∃ ws : List (Work κ φ σ),
    ((Server.start s).run pop h es).map (fun v => (v.state, v.sent)) = performAll h ws (s, []) ∧
      (∀ key, requestsOf key ws = (streams key none es).flatMap fun bytes => (frames pop bytes).1) ∧
      others ws = interruptions φ es :=
  ⟨works pop (fun _ => none) es, run_eq es (Server.start s),
    fun key => requestsOf_works hp key es (fun _ => none) none rfl, others_works es _⟩

end Works

/-! ## What is sent -/

variable [DecidableEq κ]

/-- What was sent to a key. -/
def sentTo (key : κ) (sent : List (κ × ο)) : List ο := (sent.filter fun p => p.1 = key).map Prod.snd

theorem sentTo_append (key : κ) (a b : List (κ × ο)) : sentTo key (a ++ b) = sentTo key a ++ sentTo key b := by
  rw [sentTo, List.filter_append, List.map_append, sentTo, sentTo]

theorem sentTo_map (key k : κ) (out : List ο) :
    sentTo key (out.map (Prod.mk k)) = if k = key then out else [] := by
  rw [sentTo, List.filter_map, List.map_map]
  by_cases hk : k = key
  · simp [Function.comp_def, hk]
  · simp [Function.comp_def, hk]

/-- Where the answers to a request are as many as `count` says, what is sent to a key is as much as its
requests call for. -/
theorem sentTo_length {h : Handler κ φ σ ο} (count : φ → Nat)
    (hc : ∀ {key f s s' out}, h.answer key f s = some (s', out) → out.length = count f) (key : κ)
    (ws : List (Work κ φ σ)) : ∀ {s s' : σ} {sent sent' : List (κ × ο)},
      performAll h ws (s, sent) = some (s', sent') →
        (sentTo key sent').length = (sentTo key sent).length + ((requestsOf key ws).map count).sum := by
  induction ws with
  | nil =>
    intro s s' sent sent' hr
    cases hr
    rfl
  | cons w ws ih =>
    intro s s' sent sent' hr
    have hcons : performAll h (w :: ws) (s, sent) = (perform h (s, sent) w).bind (performAll h ws) := rfl
    rw [hcons] at hr
    obtain ⟨⟨s₁, sent₁⟩, hw, hr⟩ := Option.bind_eq_some_iff.mp hr
    rw [ih hr]
    cases w with
    | leave k =>
      cases hw
      rfl
    | elsewhere change =>
      cases hw
      rfl
    | request k f =>
      obtain ⟨⟨s₂, out⟩, ha, he⟩ := Option.map_eq_some_iff.mp hw
      cases he
      have hreq : requestsOf key (.request k f :: ws) = (if k = key then [f] else []) ++ requestsOf key ws := by
        by_cases hk : k = key <;> simp [requestsOf, hk]
      rw [hreq, sentTo_append, sentTo_map, List.length_append]
      split_ifs with hk
      · simp [hc ha, Nat.add_assoc]
      · simp

theorem sum_indicator (p : φ → Bool) (fs : List φ) :
    (fs.map fun f => if p f then 1 else 0).sum = (fs.filter p).length := by
  induction fs with
  | nil => rfl
  | cons f fs ih =>
    rw [List.map_cons, List.sum_cons, ih, List.filter_cons]
    by_cases h : p f = true <;> simp [h, Nat.add_comm]

/-- Where the requests with `p` are answered once and the others not at all, as many answers are sent. -/
theorem sentTo_filter {h : Handler κ φ σ ο} (p : φ → Bool)
    (hp : ∀ {key f s s' out}, h.answer key f s = some (s', out) → out.length = if p f then 1 else 0) (key : κ)
    {ws : List (Work κ φ σ)} {s s' : σ} {sent : List (κ × ο)} (hr : performAll h ws (s, []) = some (s', sent)) :
    (sentTo key sent).length = ((requestsOf key ws).filter p).length := by
  rw [sentTo_length (fun f => if p f then 1 else 0) hp key ws hr, sum_indicator]
  exact Nat.zero_add _

end Sessions

end VersatileEngine
