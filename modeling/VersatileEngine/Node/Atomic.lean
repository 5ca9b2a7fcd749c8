import VersatileEngine.Node.Ops

/-!
# VersatileEngine.Node.Atomic

What a failed `insert` leaves behind.

Both forms of `insert` cut the nodes off their parents first and look at the index afterwards. So a
call that returns `false` because of its index has moved the nodes already, unless they were roots.
`failed_insert_iff` gives the exact condition under which a failed call changes no parent and no
child list: the nodes have no parent, or the index is in range.

The range is that of the receiver without the nodes: `-(n + 1) ≤ index ≤ n`, where `n` counts the
receiver's children that are not being moved (`others`).
-/

namespace VersatileEngine

namespace Forest

/-- Every parent, child list and child order is the same. -/
def SameShape (f f' : Forest) : Prop := ∀ n, f'.parent n = f.parent n ∧ f'.nodes n = f.nodes n

/-- A call that returns `false` changes no link. -/
def AtomicOnFailure (f : Forest) (r : Forest × Bool) : Prop := r.2 = false → SameShape f r.1

/-- The number of children of `this` that are not in `cs`. -/
def others (f : Forest) (this : Id) (cs : List Id) : Int :=
  ((f.nodes this).filter fun c => c ∉ cs).length

/-- In the range of `insert` for a receiver with `n` children. -/
def InRange (index n : Int) : Prop := -(n + 1) ≤ index ∧ index ≤ n

theorem sameShape_refl (f : Forest) : SameShape f f := fun _ => ⟨rfl, rfl⟩

theorem resolveIndex_none {index n : Int} (hn : 0 ≤ n) :
    resolveIndex index n = none ↔ ¬ InRange index n := by
  simp only [resolveIndex, InRange]
  split <;> split <;> simp <;> omega

section Atomic

variable {f : Forest} {this : Id} {cs : List Id} {index : Int}

theorem insertAt_none (h : Inv f) :
    f.insertAt this cs index = none ↔ ¬ InRange index (f.others this cs) := by
  rw [insertAt, h.linked.unlinkAll_down]
  exact resolveIndex_none (Int.natCast_nonneg _)

/-- Cutting the nodes off is no change exactly when all of them are roots. -/
theorem Inv.unlinkAll_same (h : Inv f) {g : Forest} (hr : Relinked f g (f.links.unlinkAll cs)) :
    SameShape f g ↔ ∀ c ∈ cs, f.parent c = none := by
  constructor
  · intro hs c hc
    have := (hs c).1
    rw [hr.parent, Links.unlinkAll_up, if_pos hc] at this
    exact this.symm
  · intro hroot n
    rw [h.linked.unlinkAll_root hroot] at hr
    exact ⟨congrFun hr.parent n, congrFun hr.nodes n⟩

theorem insert_result (h : Inv f) (this c : Id) (index : Int) :
    (f.insert this (some c) index).2 = (f.insertAt this [c] index).isSome := by
  cases hi : f.insertAt this [c] index with
  | none => exact (insert_fails h hi).1
  | some i =>
    have hp := (prepare_spec h [c] this).1.nodes
    simp only [detachAll, List.foldl_cons, List.foldl_nil] at hp
    have hres : resolveIndex index (((f.detach c).ensureChildren this).nodes this).length = some i := by
      rw [hp]
      exact hi
    simp only [insert, hres]
    rfl

theorem insert_atomic_iff (h : Inv f) (c : Id) :
    AtomicOnFailure f (f.insert this (some c) index) ↔
      f.parent c = none ∨ InRange index (f.others this [c]) := by
  cases hi : f.insertAt this [c] index with
  | none =>
    obtain ⟨hb, hr, -⟩ := insert_fails h hi
    have hsame : SameShape f _ ↔ ∀ x ∈ [c], f.parent x = none := h.unlinkAll_same hr
    have hout := (insertAt_none h).mp hi
    simp only [AtomicOnFailure, hb, true_implies, hsame, hout, or_false]
    simp
  | some i =>
    have hb : (f.insert this (some c) index).2 = true := by rw [insert_result h, hi]; rfl
    have hin : InRange index (f.others this [c]) := by
      by_contra hout
      rw [(insertAt_none h).mpr hout] at hi
      cases hi
    simp [AtomicOnFailure, hb, hin]

theorem insertBatch_atomic_iff (h : Inv f) {children : List (Option Id)}
    (hcs : nonNull children = some cs) :
    AtomicOnFailure f (f.insertBatch this children index) ↔
      (∀ c ∈ cs, f.parent c = none) ∨ InRange index (f.others this cs) := by
  by_cases hne : children = []
  · subst hne
    cases hcs
    simp [AtomicOnFailure, insertBatch]
  cases hi : f.insertAt this cs index with
  | none =>
    obtain ⟨hb, hr, -⟩ := insertBatch_fails h hne hcs hi
    have hout := (insertAt_none h).mp hi
    simp only [AtomicOnFailure, hb, true_implies, h.unlinkAll_same hr, hout, or_false]
  | some i =>
    obtain ⟨sig, heq⟩ := insertBatch_eq h hne hcs hi
    have hin : InRange index (f.others this cs) := by
      by_contra hout
      rw [(insertAt_none h).mpr hout] at hi
      cases hi
    simp [AtomicOnFailure, heq, hin]

end Atomic

/-- **When a failed insert is atomic**, for both forms of `insert`. -/
theorem failed_insert_iff {f : Forest} (h : Inv f) (this : Id) (index : Int) :
    (∀ child, AtomicOnFailure f (f.insert this child index) ↔
      ∀ c, child = some c → f.parent c = none ∨ InRange index (f.others this [c])) ∧
    ∀ children, AtomicOnFailure f (f.insertBatch this children index) ↔
      ∀ cs, nonNull children = some cs →
        (∀ c ∈ cs, f.parent c = none) ∨ InRange index (f.others this cs) := by
  refine ⟨fun child => ?_, fun children => ?_⟩
  · cases child with
    | none => exact ⟨fun _ c hc => (by cases hc), fun _ _ => sameShape_refl f⟩
    | some c =>
      rw [insert_atomic_iff h]
      exact ⟨fun hc d hd => Option.some.inj hd ▸ hc, fun hc => hc c rfl⟩
  · cases hcs : nonNull children with
    | none =>
      have heq : f.insertBatch this children index = (f, false) := by
        have hne : children ≠ [] := fun he => by
          rw [he] at hcs
          cases hcs
        simp [insertBatch, hne, hcs]
      rw [heq]
      exact ⟨fun _ cs hcs => (by cases hcs), fun _ _ => sameShape_refl f⟩
    | some cs =>
      rw [insertBatch_atomic_iff h hcs]
      exact ⟨fun hc d hd => Option.some.inj hd ▸ hc, fun hc => hc cs rfl⟩

/-- Node `x` below `p`, and another root `q`. -/
def detachedSample : Forest :=
  ((((init.newNode (ascii "p")).1.newNode (ascii "x")).1.newNode (ascii "q")).1.insert 0 (some 1) 0).1

theorem inv_detachedSample : Inv detachedSample := by
  have h := newNode_spec (newNode_spec (newNode_spec inv_init (ascii "p")) (ascii "x")) (ascii "q")
  exact (insert_ok (i := 0) h (by decide) (by decide) (by decide)).2.2

/-- `q.insert(x, 5)` fails and leaves `x` without a parent. -/
theorem failed_insert_detaches :
    Inv detachedSample ∧ (detachedSample.insert 2 (some 1) 5).2 = false ∧
      ¬ SameShape detachedSample (detachedSample.insert 2 (some 1) 5).1 :=
  ⟨inv_detachedSample, by decide, fun h => absurd (h 1).1 (by decide)⟩

theorem failed_insert_iff_sample :
    AtomicOnFailure detachedSample (detachedSample.insert 0 (some 1) (-1)) :=
  ((failed_insert_iff inv_detachedSample 0 (-1)).1 (some 1)).mpr fun c hc =>
    .inr (by cases hc; exact ⟨by decide, by decide⟩)

end Forest

end VersatileEngine
