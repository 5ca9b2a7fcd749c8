import Mathlib.Data.Option.Basic

/-!
# VersatileEngine.Lib.Yielding

Computations with a bound on what they follow, as functions of the bound.

* `Growing g`   — a result stays the result when the bound grows.
* `Yields g P`  — from some bound on there is a result, always the same, and `P` holds of it.
* `Yields.bind` — **one computation after another**; what holds of the first result is known in the second.
* `foldlM_more`, `mapM_more`, `Yields.mapM` — loops over lists have the results that their bodies have.
-/

namespace VersatileEngine

def Growing {α : Type} (g : Nat → Option α) : Prop := ∀ j k : Nat, j ≤ k → ∀ r, g j = some r → g k = some r

def Yields {α : Type} (g : Nat → Option α) (P : α → Prop) : Prop :=
  ∃ r, P r ∧ ∃ b, ∀ k, b ≤ k → g k = some r

section Yields

variable {α β : Type} {g : Nat → Option α} {P : α → Prop} {Q : β → Prop}

theorem Yields.const {r : α} (h : P r) : Yields (fun _ => some r) P := ⟨r, h, 0, fun _ _ => rfl⟩

theorem Growing.yields (hg : Growing g) {k : Nat} {r : α} (hr : g k = some r) (h : P r) : Yields g P :=
  ⟨r, h, k, fun j hj => hg k j hj r hr⟩

theorem Yields.mono {R : α → Prop} (h : Yields g P) (hPR : ∀ r, P r → R r) : Yields g R := by
  obtain ⟨r, hr, hg⟩ := h
  exact ⟨r, hPR r hr, hg⟩

theorem Yields.bind {g' : Nat → α → Option β} (h : Yields g P) (h' : ∀ a, P a → Yields (fun k => g' k a) Q) :
    Yields (fun k => (g k).bind (g' k)) Q := by
  obtain ⟨a, ha, b, hg⟩ := h
  obtain ⟨r, hr, b', hg'⟩ := h' a ha
  refine ⟨r, hr, max b b', fun k hk => ?_⟩
  dsimp only
  rw [hg k (Nat.le_trans (Nat.le_max_left b b') hk), Option.bind_some]
  exact hg' k (Nat.le_trans (Nat.le_max_right b b') hk)

theorem Yields.map {f : α → β} (h : Yields g P) (hf : ∀ a, P a → Q (f a)) :
    Yields (fun k => (g k).map f) Q := by
  obtain ⟨a, ha, b, hg⟩ := h
  exact ⟨f a, hf a ha, b, fun k hk => congrArg (Option.map f) (hg k hk)⟩

/-- What is known of the result, and that it is the result from some bound on. -/
theorem Yields.traced (h : Yields g P) : Yields g fun r => P r ∧ ∃ b, ∀ k, b ≤ k → g k = some r := by
  obtain ⟨r, hr, hg⟩ := h
  exact ⟨r, ⟨hr, hg⟩, hg⟩

/-- Two results are the same one. -/
theorem Yields.unique {R : α → Prop} (h : Yields g P) (h' : Yields g R) : Yields g fun r => P r ∧ R r := by
  obtain ⟨r, hr, b, hg⟩ := h
  obtain ⟨r', hr', b', hg'⟩ := h'
  have hsame : r = r' := Option.some.inj
    ((hg _ (Nat.le_max_left b b')).symm.trans (hg' _ (Nat.le_max_right b b')))
  exact ⟨r, ⟨hr, hsame ▸ hr'⟩, b, hg⟩

end Yields

section Loops

variable {α β : Type}

theorem foldlM_more {step step' : β → α → Option β} (h : ∀ b a r, step b a = some r → step' b a = some r)
    (l : List α) : ∀ {b r : β}, l.foldlM step b = some r → l.foldlM step' b = some r := by
  induction l with
  | nil => exact fun hr => hr
  | cons a l ih =>
    intro b r hr
    rw [List.foldlM_cons] at hr ⊢
    obtain ⟨b', hb', hr⟩ := Option.bind_eq_some_iff.mp hr
    exact Option.bind_eq_some_iff.mpr ⟨b', h b a b' hb', ih hr⟩

theorem mapM_more {step step' : α → Option β} (h : ∀ a r, step a = some r → step' a = some r) (l : List α) :
    ∀ {rs : List β}, l.mapM step = some rs → l.mapM step' = some rs := by
  induction l with
  | nil => exact fun hr => hr
  | cons a l ih =>
    intro rs hr
    rw [List.mapM_cons] at hr ⊢
    obtain ⟨r, ha, hr⟩ := Option.bind_eq_some_iff.mp hr
    obtain ⟨rest, hrest, hr⟩ := Option.bind_eq_some_iff.mp hr
    exact Option.bind_eq_some_iff.mpr ⟨r, h a r ha, Option.bind_eq_some_iff.mpr ⟨rest, ih hrest, hr⟩⟩

theorem exists_mapM {g : α → Option β} (l : List α) (h : ∀ a ∈ l, ∃ r, g a = some r) :
    ∃ rs, l.mapM g = some rs := by
  induction l with
  | nil => exact ⟨[], rfl⟩
  | cons a l ih =>
    rw [List.forall_mem_cons] at h
    obtain ⟨r, hr⟩ := h.1
    obtain ⟨rs, hrs⟩ := ih h.2
    exact ⟨r :: rs, by rw [List.mapM_cons, hr, hrs]; rfl⟩

theorem Yields.mapM {g : Nat → α → Option β} (l : List α) (h : ∀ a ∈ l, Yields (fun k => g k a) fun _ => True) :
    Yields (fun k => l.mapM (g k)) fun _ => True := by
  induction l with
  | nil => exact .const trivial
  | cons a l ih =>
    rw [List.forall_mem_cons] at h
    simp only [List.mapM_cons]
    exact h.1.bind fun r _ => (ih h.2).bind fun rs _ => .const trivial

end Loops

end VersatileEngine
