import Mathlib.Data.List.Nodup
import Mathlib.Logic.Relation

/-!
# VersatileEngine.Lib.Links

Ordered forests as two link functions: `up` leads to the parent, `down` lists the children in
order. The two views are kept apart, as a program that stores both keeps them, and `Linked` says
that they agree.

* `unlink`, `unlinkAll` — cut nodes off their parents.
* `link`                — place roots below a node, from a position on.
* `Rooted`              — following `up` ends.
* `Climbs`              — following `up` leads from one node to the other, possibly in no step.

`Linked` survives every cut, and every `link` of distinct roots. `Rooted` survives every cut, and
every `link` of nodes from which the new parent cannot be climbed to (`Rooted.link`).
-/

namespace VersatileEngine

@[ext]
structure Links (α : Type) where
  up : α → Option α
  down : α → List α

namespace Links

variable {α : Type} [DecidableEq α] {s : Links α}

/-- Parents and child lists agree, and no child is listed twice. -/
structure Linked (s : Links α) : Prop where
  mem : ∀ c p, s.up c = some p ↔ c ∈ s.down p
  nodup : ∀ p, (s.down p).Nodup

def unlink (s : Links α) (c : α) : Links α :=
  ⟨fun m => if m = c then none else s.up m, fun p => (s.down p).erase c⟩

def unlinkAll (s : Links α) (cs : List α) : Links α := cs.foldl unlink s

/-- `cs` placed below `p`, in front of its `i`-th child. -/
def link (s : Links α) (p : α) (i : Nat) (cs : List α) : Links α :=
  ⟨fun m => if m ∈ cs then some p else s.up m,
    fun m => if m = p then (s.down p).take i ++ cs ++ (s.down p).drop i else s.down m⟩

@[simp] theorem unlink_up (c m : α) : (s.unlink c).up m = if m = c then none else s.up m := rfl
@[simp] theorem unlink_down (c p : α) : (s.unlink c).down p = (s.down p).erase c := rfl
@[simp] theorem link_up (p : α) (i : Nat) (cs : List α) (m : α) :
    (s.link p i cs).up m = if m ∈ cs then some p else s.up m := rfl
@[simp] theorem link_down (p : α) (i : Nat) (cs : List α) (m : α) : (s.link p i cs).down m =
    if m = p then (s.down p).take i ++ cs ++ (s.down p).drop i else s.down m := rfl

theorem Linked.unlink (h : s.Linked) (c : α) : (s.unlink c).Linked where
  mem m p := by
    by_cases hm : m = c
    · simp [hm, (h.nodup p).not_mem_erase]
    · simp [hm, h.mem m p, (h.nodup p).mem_erase_iff]
  nodup p := (h.nodup p).erase c

/-- Cutting off a root changes nothing. -/
theorem Linked.unlink_root (h : s.Linked) {c : α} (hc : s.up c = none) : s.unlink c = s := by
  have hup : (s.unlink c).up = s.up := by
    funext m
    by_cases hm : m = c <;> simp [hm, hc]
  have hdown : (s.unlink c).down = s.down := by
    funext p
    have : c ∉ s.down p := fun hmem => by
      rw [← h.mem, hc] at hmem
      cases hmem
    simp [List.erase_of_not_mem this]
  cases s
  simp only [Links.unlink, mk.injEq] at hup hdown ⊢
  exact ⟨hup, hdown⟩

theorem Linked.unlinkAll (h : s.Linked) (cs : List α) : (s.unlinkAll cs).Linked := by
  induction cs generalizing s with
  | nil => exact h
  | cons c cs ih => exact ih (h.unlink c)

theorem unlinkAll_up (cs : List α) (m : α) :
    (s.unlinkAll cs).up m = if m ∈ cs then none else s.up m := by
  induction cs generalizing s with
  | nil => rfl
  | cons c cs ih =>
    have := ih (s := s.unlink c)
    simp only [unlinkAll, List.foldl_cons] at this ⊢
    rw [this]
    by_cases h1 : m ∈ cs <;> by_cases h2 : m = c <;> simp [h1, h2]

theorem Linked.unlinkAll_down (h : s.Linked) (cs : List α) (p : α) :
    (s.unlinkAll cs).down p = (s.down p).filter fun m => m ∉ cs := by
  induction cs generalizing s with
  | nil => simp [Links.unlinkAll]
  | cons c cs ih =>
    have := ih (h.unlink c)
    simp only [Links.unlinkAll, List.foldl_cons] at this ⊢
    rw [this, unlink_down, (h.nodup p).erase_eq_filter, List.filter_filter]
    congr 1
    funext m
    by_cases h1 : m ∈ cs <;> by_cases h2 : m = c <;> simp [h1, h2]

/-- Cutting off roots changes nothing. -/
theorem Linked.unlinkAll_root (h : s.Linked) {cs : List α} (hcs : ∀ c ∈ cs, s.up c = none) :
    s.unlinkAll cs = s := by
  induction cs with
  | nil => rfl
  | cons c cs ih =>
    rw [Links.unlinkAll, List.foldl_cons, h.unlink_root (hcs c (by simp))]
    exact ih fun d hd => hcs d (by simp [hd])

theorem Linked.link (h : s.Linked) {p : α} {i : Nat} {cs : List α} (hcs : cs.Nodup)
    (hroot : ∀ c ∈ cs, s.up c = none) : (s.link p i cs).Linked where
  mem m q := by
    have hsplit : m ∈ s.down p ↔ m ∈ (s.down p).take i ∨ m ∈ (s.down p).drop i := by
      rw [← List.mem_append, List.take_append_drop]
    by_cases hm : m ∈ cs
    · by_cases hq : q = p
      · simp [hm, hq]
      · have : m ∉ s.down q := fun hmem => by
          rw [← h.mem, hroot m hm] at hmem
          cases hmem
        simp [hm, hq, Ne.symm hq, this]
    · by_cases hq : q = p
      · subst hq; simp [hm, h.mem, hsplit]
      · simp [hm, hq, h.mem]
  nodup q := by
    by_cases hq : q = p
    · have hfresh : ∀ c ∈ cs, c ∉ s.down p := fun c hc hmem => by
        rw [← h.mem, hroot c hc] at hmem
        cases hmem
      have hperm : List.Perm ((s.down p).take i ++ cs ++ (s.down p).drop i) (cs ++ s.down p) := by
        rw [List.append_assoc]
        refine (List.perm_append_comm_assoc _ _ _).trans ?_
        rw [List.take_append_drop]
      rw [link_down, if_pos hq, hperm.nodup_iff, List.nodup_append]
      exact ⟨hcs, h.nodup p, fun a ha b hb hab => hfresh a ha (hab ▸ hb)⟩
    · simpa [hq] using h.nodup q

end Links

/-! ## Climbing -/

section Climb

variable {α : Type} {up up' : α → Option α}

/-- Following `up` from here ends at a root. -/
inductive Rooted (up : α → Option α) : α → Prop where
  | root {n : α} : up n = none → Rooted up n
  | step {n p : α} : up n = some p → Rooted up p → Rooted up n

/-- `a` is `n` or an ancestor of `n`. -/
def Climbs (up : α → Option α) (n a : α) : Prop :=
  Relation.ReflTransGen (fun x y => up x = some y) n a

theorem Climbs.refl (n : α) : Climbs up n n := Relation.ReflTransGen.refl

theorem Climbs.head {n p a : α} (h : up n = some p) (hp : Climbs up p a) : Climbs up n a :=
  Relation.ReflTransGen.head h hp

theorem Climbs.trans {a b c : α} (h₁ : Climbs up a b) (h₂ : Climbs up b c) : Climbs up a c :=
  Relation.ReflTransGen.trans h₁ h₂

/-- Above a root there is nothing. -/
theorem Climbs.of_root {n a : α} (hn : up n = none) (h : Climbs up n a) : n = a := by
  cases Relation.ReflTransGen.cases_head h with
  | inl h => exact h
  | inr h =>
    obtain ⟨p, hp, _⟩ := h
    rw [hn] at hp
    cases hp

theorem Climbs.of_step {n p a : α} (hp : up n = some p) (h : Climbs up n a) :
    n = a ∨ Climbs up p a := by
  cases Relation.ReflTransGen.cases_head h with
  | inl h => exact .inl h
  | inr h =>
    obtain ⟨q, hq, hqa⟩ := h
    rw [hp] at hq
    cases hq
    exact .inr hqa

/-- With more links one climbs at least as far. -/
theorem Climbs.mono {n a : α} (hle : ∀ m p, up' m = some p → up m = some p) (h : Climbs up' n a) :
    Climbs up n a := Relation.ReflTransGen.mono (fun m p hp => hle m p hp) _ _ h

/-- Whoever climbs to another node climbs over one of its children. -/
theorem Climbs.last {n a : α} (h : Climbs up n a) : n = a ∨ ∃ c, up c = some a := by
  cases Relation.ReflTransGen.cases_tail h with
  | inl h => exact .inl h.symm
  | inr h =>
    obtain ⟨c, _, hc⟩ := h
    exact .inr ⟨c, hc⟩

/-- A rooted node is not its own ancestor. -/
theorem Rooted.not_below {n p : α} (h : Rooted up n) (hp : up n = some p) : ¬ Climbs up p n := by
  induction h generalizing p with
  | root hn => rw [hn] at hp; cases hp
  | step hn _ ih =>
    rw [hn] at hp
    cases hp
    intro hc
    rcases Relation.ReflTransGen.cases_head hc with rfl | ⟨q, hq, hqn⟩
    · exact ih hn (Climbs.refl _)
    · exact ih hq (Relation.ReflTransGen.tail hqn hn)

/-- Links that are only cut lead to a root sooner. -/
theorem Rooted.mono {n : α} (hle : ∀ m, up' m = up m ∨ up' m = none) (h : Rooted up n) :
    Rooted up' n := by
  induction h with
  | @root n hn =>
    rcases hle n with h' | h'
    · exact .root (h'.trans hn)
    · exact .root h'
  | @step n p hn _ ih =>
    rcases hle n with h' | h'
    · exact .step (h'.trans hn) ih
    · exact .root h'

/-- A climb that meets no changed link is the same climb before and after. -/
theorem Rooted.congr {n : α} (h : Rooted up n)
    (heq : ∀ m, Climbs up n m → up' m = up m) : Rooted up' n := by
  induction h with
  | root hn => exact .root ((heq _ (Climbs.refl _)).trans hn)
  | step hn _ ih =>
    exact .step ((heq _ (Climbs.refl _)).trans hn) (ih fun m hm => heq m (Climbs.head hn hm))

/-- New links to a node that is rooted anyway keep everything rooted. -/
theorem Rooted.redirect {p n : α} (hp : Rooted up' p)
    (hup : ∀ m, up' m = up m ∨ up' m = some p) (h : Rooted up n) : Rooted up' n := by
  induction h with
  | @root n hn =>
    rcases hup n with h' | h'
    · exact .root (h'.trans hn)
    · exact .step h' hp
  | @step n q hn _ ih =>
    rcases hup n with h' | h'
    · exact .step (h'.trans hn) ih
    · exact .step h' hp

/-- A climb over new links to `p` is one of before, or one that starts below the nodes placed. -/
theorem Climbs.of_link [DecidableEq α] {s : Links α} {p : α} {i : Nat} {cs : List α} {n a : α}
    (h : Climbs (s.link p i cs).up n a) :
    Climbs s.up n a ∨ ∃ c ∈ cs, Climbs s.up n c ∧ Climbs (s.link p i cs).up p a := by
  induction h using Relation.ReflTransGen.head_induction_on with
  | refl => exact .inl (.refl a)
  | @head n q hq hqa ih =>
    rw [Links.link_up] at hq
    split_ifs at hq with hn
    · cases hq
      exact .inr ⟨n, hn, .refl n, hqa⟩
    · rcases ih with h | ⟨c, hc, hqc, hpa⟩
      · exact .inl (.head hq h)
      · exact .inr ⟨c, hc, .head hq hqc, hpa⟩

/-- Placing nodes below `p` closes no cycle when none of them is `p` or above `p`. -/
theorem Rooted.link [DecidableEq α] {s : Links α} {p : α} {i : Nat} {cs : List α}
    (hall : ∀ n, Rooted s.up n) (hcs : ∀ c ∈ cs, ¬ Climbs s.up p c) (n : α) :
    Rooted (s.link p i cs).up n := by
  have hp : Rooted (s.link p i cs).up p := (hall p).congr fun m hm => by
    have : m ∉ cs := fun hmem => hcs m hmem hm
    simp [this]
  refine hp.redirect (fun m => ?_) (hall n)
  by_cases hm : m ∈ cs <;> simp [hm]

end Climb

end VersatileEngine
