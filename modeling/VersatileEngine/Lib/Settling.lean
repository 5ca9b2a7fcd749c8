import Mathlib.Data.List.Forall2
import Mathlib.Order.Filter.AtTopBot.Basic
import VersatileEngine.Lib.Sessions

/-!
# VersatileEngine.Lib.Settling

Computations with a bound on what they follow, compared with ones that need none.

* `Settled R g y`  — from some bound on `g` is one value, and `R` relates it to `y`.
* `Settled.bind`, `Settled.map` — **one computation after another**.
* `Replies R`      — a state and what is said beside it: `R` relates the states, the rest is the same.
* `Itself P`       — a state with `P` beside itself: what keeps `P` is what follows itself.
* `run_settles`    — servers whose answers settle take the same traffic to the same answers.

For results that may be missing `R` is `Option.Rel`, so one side has a result exactly when the other has.
-/

namespace VersatileEngine

open Filter

def Settled {α β : Type} (R : α → β → Prop) (g : Nat → α) (y : β) : Prop :=
  ∃ x, R x y ∧ ∀ᶠ k in atTop, g k = x

/-- Two states with the same words. -/
def Replies {σ τ β : Type} (R : σ → τ → Prop) (x : σ × β) (y : τ × β) : Prop := R x.1 y.1 ∧ x.2 = y.2

/-- Where `x` returns, the state it leaves has `P`. -/
def Leaves {σ β : Type} (P : σ → Prop) (x : Option (σ × β)) : Prop := ∀ r, x = some r → P r.1

/-- A state that has `P`, and itself. -/
def Itself {σ : Type} (P : σ → Prop) (s t : σ) : Prop := s = t ∧ P s

theorem Leaves.follows {σ β : Type} {P : σ → Prop} {x : Option (σ × β)} (h : Leaves P x) :
    Option.Rel (Replies (Itself P)) x x := by
  cases x with
  | none => exact .none
  | some r => exact .some ⟨⟨rfl, h r rfl⟩, rfl⟩

section Settled

variable {α β γ δ : Type} {R : α → β → Prop} {Q : γ → δ → Prop} {g g' : Nat → α} {y y' : β} {z : δ}

theorem Settled.const {x : α} (h : R x y) : Settled R (fun _ => x) y := ⟨x, h, .of_forall fun _ => rfl⟩

theorem Settled.of_eventually {x : α} (h : ∀ᶠ k in atTop, g k = x) (hx : R x y) : Settled R g y := ⟨x, hx, h⟩

theorem Settled.congr (h : ∀ᶠ k in atTop, g k = g' k) (h' : Settled R g' y) : Settled R g y := by
  obtain ⟨x, hx, hg⟩ := h'
  refine ⟨x, hx, ?_⟩
  filter_upwards [h, hg] with k h₁ h₂
  rw [h₁, h₂]

theorem Settled.comp {f : α → γ} (h : Settled R g y) (hf : ∀ x, R x y → Q (f x) z) :
    Settled Q (fun k => f (g k)) z := by
  obtain ⟨x, hx, hg⟩ := h
  exact ⟨f x, hf x hx, hg.mono fun k hk => congrArg f hk⟩

theorem Settled.some (h : Settled R g y) : Settled (Option.Rel R) (fun k => some (g k)) (some y) := by
  obtain ⟨x, hx, hg⟩ := h
  exact ⟨Option.some x, .some hx, hg.mono fun k hk => congrArg Option.some hk⟩

theorem Settled.bind {g : Nat → Option α} {o : Option β} {g' : Nat → α → Option γ} {o' : β → Option δ}
    (h : Settled (Option.Rel R) g o)
    (h' : ∀ x y, R x y → Settled (Option.Rel Q) (fun k => g' k x) (o' y)) :
    Settled (Option.Rel Q) (fun k => (g k).bind (g' k)) (o.bind o') := by
  obtain ⟨r, hr, hg⟩ := h
  cases hr with
  | none => exact .congr (hg.mono fun k hk => by rw [hk, Option.bind_none]) (.const .none)
  | some hx => exact .congr (hg.mono fun k hk => by rw [hk, Option.bind_some]) (h' _ _ hx)

theorem Settled.map {g : Nat → Option α} {o : Option β} {g' : Nat → α → γ} {f : β → δ}
    (h : Settled (Option.Rel R) g o) (h' : ∀ x y, R x y → Settled Q (fun k => g' k x) (f y)) :
    Settled (Option.Rel Q) (fun k => (g k).map (g' k)) (o.map f) := by
  simp only [Option.map_eq_bind]
  exact h.bind fun x y hx => (h' x y hx).some

theorem Settled.ite {c : Prop} [Decidable c] (h : Settled R g y) (h' : Settled R g' y') :
    Settled R (fun k => if c then g k else g' k) (if c then y else y') := by
  split
  · exact h
  · exact h'

/-- The same words beside related states. -/
theorem Settled.reply {σ τ : Type} {P : σ → τ → Prop} {s : σ} {t : τ} (hs : P s t) {c : α}
    (h : ∀ᶠ k in atTop, g k = c) : Settled (Replies P) (fun k => (s, g k)) (t, c) :=
  ⟨(s, c), ⟨hs, rfl⟩, h.mono fun _ hk => congrArg (Prod.mk s) hk⟩

theorem Settled.said {σ τ : Type} {P : σ → τ → Prop} {g : Nat → σ} {t : τ} (h : Settled P g t) (c : γ) :
    Settled (Replies P) (fun k => (g k, c)) (t, c) :=
  h.comp (f := fun s => (s, c)) (z := (t, c)) fun _ hs => ⟨hs, rfl⟩

/-- The same made of the words on both sides. -/
theorem Settled.reworded {σ τ : Type} {P : σ → τ → Prop} {g : Nat → Option (σ × γ)} {o : Option (τ × γ)}
    (h : Settled (Option.Rel (Replies P)) g o) (f : γ → δ) :
    Settled (Option.Rel (Replies P)) (fun k => (g k).map fun r => (r.1, f r.2)) (o.map fun r => (r.1, f r.2)) :=
  h.map fun _ _ hx => .const ⟨hx.1, congrArg f hx.2⟩

/-- After a computation that both sides share. -/
theorem Settled.after {ε : Type} {g' : Nat → ε → Option γ} {f : ε → Option δ} (o : Option ε)
    (h : ∀ e, Settled (Option.Rel Q) (fun k => g' k e) (f e)) :
    Settled (Option.Rel Q) (fun k => o.bind (g' k)) (o.bind f) := by
  cases o with
  | none => exact .const .none
  | some e => exact h e

/-- Each element of a list turned into words. -/
theorem eventually_map {ns : List α} {ms : List β} {say : Nat → α → γ} {say' : β → γ}
    (h : List.Forall₂ R ns ms) (hsay : ∀ n m, R n m → ∀ᶠ k in atTop, say k n = say' m) :
    ∀ᶠ k in atTop, ns.map (say k) = ms.map say' := by
  induction h with
  | nil => exact .of_forall fun _ => rfl
  | cons hn _ ih =>
    filter_upwards [hsay _ _ hn, ih] with k h₁ h₂
    rw [List.map_cons, List.map_cons, h₁, h₂]

theorem option_rel_eq (o : Option α) : Option.Rel Eq o o := by
  cases o with
  | none => exact .none
  | some a => exact .some rfl

end Settled

namespace Sessions

/-! ## Servers -/

section Servers

variable {κ α φ σ τ ο : Type} {R : σ → τ → Prop}

/-- The same traffic, among changes that keep the states related. -/
inductive Traffic.Rel (R : σ → τ → Prop) : Traffic κ α σ → Traffic κ α τ → Prop
  | opened (key : κ) : Traffic.Rel R (.opened key) (.opened key)
  | received (key : κ) (chunk : List α) : Traffic.Rel R (.received key chunk) (.received key chunk)
  | closed (key : κ) : Traffic.Rel R (.closed key) (.closed key)
  | elsewhere {change : σ → σ} {change' : τ → τ} (h : ∀ s t, R s t → R (change s) (change' t)) :
    Traffic.Rel R (.elsewhere change) (.elsewhere change')

/-- Traffic whose changes keep `P`. -/
theorem Traffic.kept {P : σ → Prop} {es : List (Traffic κ α σ)}
    (he : ∀ change, .elsewhere change ∈ es → ∀ {s}, P s → P (change s)) :
    List.Forall₂ (Traffic.Rel (Itself P)) es es := by
  refine List.forall₂_same.mpr fun e hm => ?_
  cases e with
  | opened key => exact .opened key
  | received key chunk => exact .received key chunk
  | closed key => exact .closed key
  | elsewhere change =>
    refine .elsewhere fun s t hs => ?_
    obtain ⟨rfl, hs⟩ := hs
    exact ⟨rfl, he change hm hs⟩

/-- Two servers with the same buffers and the same answers, over related states. -/
structure Server.Alike (R : σ → τ → Prop) (v : Server κ α σ ο) (w : Server κ α τ ο) : Prop where
  buffers : v.buffers = w.buffers
  state : R v.state w.state
  sent : v.sent = w.sent

theorem Server.start_alike {s : σ} {t : τ} (hs : R s t) :
    (Server.start s : Server κ α σ ο).Alike R (Server.start t) := ⟨rfl, hs, rfl⟩

/-- Handlers that take related states to related ones, and say the same. -/
structure Handler.Follows (R : σ → τ → Prop) (h : Nat → Handler κ φ σ ο) (h' : Handler κ φ τ ο) : Prop where
  answer : ∀ {s t}, R s t → ∀ key f,
    Settled (Option.Rel (Replies R)) (fun k => (h k).answer key f s) (h'.answer key f t)
  leave : ∀ {s t}, R s t → ∀ key, Settled R (fun k => (h k).leave key s) (h'.leave key t)

variable {pop : List α → Option (φ × List α)} {h : Nat → Handler κ φ σ ο} {h' : Handler κ φ τ ο}

/-- The loop over a buffer, by its turns. -/
theorem drain_settles (hh : Handler.Follows R h h') (key : κ) (n : Nat) : ∀ {buf : List α} {s : σ} {t : τ}, R s t →
    Settled (Option.Rel (Replies R)) (fun k => drain pop (h k) key n buf s) (drain pop h' key n buf t) := by
  induction n with
  | zero => exact fun hs => .const (.some ⟨hs, rfl⟩)
  | succ n ih =>
    intro buf s t hs
    simp only [drain]
    cases pop buf with
    | none => exact .const (.some ⟨hs, rfl⟩)
    | some r =>
      refine (hh.answer hs key r.1).bind fun x y hx => ?_
      obtain ⟨s₁, out⟩ := x
      obtain ⟨t₁, out'⟩ := y
      obtain ⟨hs₁, rfl⟩ := hx
      refine (ih hs₁).map fun x y hx => .const ?_
      obtain ⟨s₂, more⟩ := x
      obtain ⟨t₂, more'⟩ := y
      obtain ⟨hs₂, rfl⟩ := hx
      exact ⟨hs₂, rfl⟩

variable [DecidableEq κ]

theorem step_settles (hh : Handler.Follows R h h') {v : Server κ α σ ο} {w : Server κ α τ ο} (hv : v.Alike R w)
    {e : Traffic κ α σ} {e' : Traffic κ α τ} (he : e.Rel R e') :
    Settled (Option.Rel (Server.Alike R)) (fun k => v.step pop (h k) e) (w.step pop h' e') := by
  obtain ⟨hbuf, hs, hsent⟩ := hv
  cases he with
  | opened key => exact .const (.some ⟨by rw [hbuf], hs, hsent⟩)
  | elsewhere hc => exact .const (.some ⟨hbuf, hc _ _ hs, hsent⟩)
  | closed key =>
    have hleave := (hh.leave hs key).comp
      (f := fun s => (⟨Function.update v.buffers key none, s, v.sent⟩ : Server κ α σ ο))
      (Q := Server.Alike R) (z := ⟨Function.update w.buffers key none, h'.leave key w.state, w.sent⟩)
      fun s hs' => ⟨by rw [hbuf], hs', hsent⟩
    exact hleave.some
  | received key chunk =>
    simp only [Server.step, hbuf]
    cases w.buffers key with
    | none => exact .const (.some ⟨hbuf, hs, hsent⟩)
    | some buf =>
      refine (drain_settles hh key _ hs).map fun x y hx => .const ?_
      obtain ⟨s₁, out, rest⟩ := x
      obtain ⟨t₁, r⟩ := y
      obtain ⟨hs₁, rfl⟩ := hx
      exact ⟨rfl, hs₁, by rw [hsent]⟩

/-- **Servers whose answers settle do alike**, whatever they receive. -/
theorem run_settles (hh : Handler.Follows R h h') {es : List (Traffic κ α σ)} {es' : List (Traffic κ α τ)}
    (he : List.Forall₂ (Traffic.Rel R) es es') : ∀ {v : Server κ α σ ο} {w : Server κ α τ ο}, v.Alike R w →
      Settled (Option.Rel (Server.Alike R)) (fun k => v.run pop (h k) es) (w.run pop h' es') := by
  induction he with
  | nil => exact fun hv => .const (.some hv)
  | cons he _ ih => exact fun hv => (step_settles hh hv he).bind fun _ _ hv => ih hv

end Servers

end Sessions

end VersatileEngine
