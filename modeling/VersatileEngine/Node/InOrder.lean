import VersatileEngine.Node.Mirror

/-!
# VersatileEngine.Node.InOrder

When a full copy, `dst.copy(src, true, true, ..)`, leaves the very tree of its source.

* `SameBelow` — below the root name the same tree: the same names in the same order, equal values.
* `InOrder`   — on every level the children that both trees have, by name and number, come in the same
  order. What one tree lacks does not matter.
* `Thinned`   — the destination has some of the children of the source, of each name the first ones:
  it is empty, or lacks the last ones of some names, or the source has more at the end of some names.
* `Pruned`    — the destination lacks any children of the source.

`copy_in_order` is the result; `copy_pruned_reorders` shows that lacking the first of two equally named
siblings is not enough.
-/

namespace VersatileEngine

/-- Below the root name, `u` is `t`. -/
inductive SameBelow : Tree → Tree → Prop
  | intro {u t : Tree} (value : u.value = t.value ∨ u.value.eqv t.value = true)
      (names : u.kids.map Tree.name = t.kids.map Tree.name)
      (elements : ∀ (i : Nat) (x y : Tree), u.kids[i]? = some x → t.kids[i]? = some y →
        SameBelow x y) :
      SameBelow u t

/-- The children of a tree by name and number. -/
def Tree.keys (t : Tree) : List (Str × Nat) := (keyed Tree.name t.kids).map Prod.fst

/-- Those that `u` has too, in the order of `t`. -/
def Tree.shared (t u : Tree) : List (Str × Nat) := t.keys.filter fun key => hasKey Tree.name u.kids key

/-- On every level, what both trees have comes in the same order. -/
inductive InOrder : Tree → Tree → Prop
  | intro {d s : Tree} (order : d.shared s = s.shared d)
      (elements : ∀ (nm : Str) (k : Nat) (x y : Tree), (d.named nm)[k]? = some x →
        (s.named nm)[k]? = some y → InOrder x y) :
      InOrder d s

/-- On every level, `d` has of each name the first children of `s`, in the order of `s`. -/
inductive Thinned : Tree → Tree → Prop
  | intro {d s : Tree} (order : d.keys.Sublist s.keys)
      (elements : ∀ (nm : Str) (k : Nat) (x y : Tree), (d.named nm)[k]? = some x →
        (s.named nm)[k]? = some y → Thinned x y) :
      Thinned d s

/-- Below the root name, `d` is `s` with some nodes removed, at any place. -/
inductive Pruned : Tree → Tree → Prop
  | intro {d s : Tree} (kept : List Tree) (value : d.value = s.value) (sub : kept.Sublist s.kids)
      (names : d.kids.map Tree.name = kept.map Tree.name) (elements : List.Forall₂ Pruned d.kids kept) :
      Pruned d s

/-! ## Trees -/

theorem Tree.keys_nodup (t : Tree) : t.keys.Nodup := keyed_nodup Tree.name t.kids

theorem Tree.hasKey_iff (t : Tree) (key : Str × Nat) : hasKey Tree.name t.kids key = true ↔ key ∈ t.keys :=
  lookup_isSome

/-- Picking the elements of a sublist out of a list without repetitions. -/
theorem filter_of_sublist {α : Type} {p : α → Bool} {l l' : List α} (h : l.Sublist l') :
    l'.Nodup → (∀ a ∈ l', p a = true ↔ a ∈ l) → l'.filter p = l := by
  induction h with
  | slnil => intro _ _; rfl
  | @cons l l' a hs ih =>
    intro hnd hp
    rw [List.nodup_cons] at hnd
    have ha : ¬ p a = true := fun he => hnd.1 (hs.subset ((hp a (by simp)).mp he))
    rw [List.filter_cons_of_neg ha]
    exact ih hnd.2 fun b hb => hp b (by simp [hb])
  | @cons_cons l l' a hs ih =>
    intro hnd hp
    rw [List.nodup_cons] at hnd
    rw [List.filter_cons_of_pos ((hp a (by simp)).mpr (by simp))]
    refine congrArg _ (ih hnd.2 fun b hb => ?_)
    have hne : b ≠ a := fun he => hnd.1 (he ▸ hb)
    rw [hp b (by simp [hb]), List.mem_cons]
    exact or_iff_right hne

theorem Thinned.inOrder {d s : Tree} (h : Thinned d s) : InOrder d s := by
  induction h with
  | @intro d s order _ ih =>
    refine ⟨?_, ih⟩
    have hd : d.shared s = d.keys := List.filter_eq_self.mpr fun key hk =>
      (s.hasKey_iff key).mpr (order.subset hk)
    have hs : s.shared d = d.keys := filter_of_sublist order s.keys_nodup fun key _ => d.hasKey_iff key
    rw [hd, hs]

theorem inOrder_leaf {d : Tree} (hd : d.kids = []) (s : Tree) : InOrder d s := by
  refine ⟨?_, fun _ _ _ _ hx _ => ?_⟩
  · have hkey : ∀ key, hasKey Tree.name d.kids key = false := fun _ => by rw [hd]; rfl
    simp only [Tree.shared, hkey, List.filter_false]
    rw [Tree.keys, hd]
    rfl
  · simp [Tree.named, hd] at hx

theorem InOrder.partner {d s : Tree} (h : InOrder d s) {nm : Str} {k : Nat} {y : Tree}
    (hy : (s.named nm)[k]? = some y) : InOrder (partner d nm k) y := by
  obtain ⟨-, helements⟩ := h
  rw [VersatileEngine.partner]
  cases hx : (d.named nm)[k]? with
  | none => exact inOrder_leaf rfl y
  | some x => exact helements nm k x y hx hy

/-- The children that have a counterpart, in either order. -/
theorem InOrder.partnered {d s : Tree} (h : InOrder d s) :
    (partnered Tree.name Tree.name d.kids s.kids).map Prod.fst =
      ((keyed Tree.name s.kids).filter fun p => hasKey Tree.name d.kids p.1).map Prod.fst := by
  obtain ⟨horder, -⟩ := h
  simp only [Tree.shared, Tree.keys, List.filter_map] at horder
  exact horder

/-- **A full copy onto a tree in order is the source**, below the root name. -/
theorem sameBelow_copyTree (au : Bool) (s : Tree) : ∀ d, InOrder d s →
    SameBelow (copyTree true true au s d) s := by
  induction s using Tree.ind with
  | h s ih =>
    intro d hd
    have hkids := copyTree_landed au d s
    rw [landed_in_order Tree.name Tree.name d.kids s.kids hd.partnered] at hkids
    refine ⟨?_, ?_, fun i x y hx hy => ?_⟩
    · rw [copyTree_value, copyValue]
      split
      · rename_i he
        exact .inr (Bool.and_eq_true_iff.mp he).2
      · exact .inl rfl
    · rw [hkids, List.map_map]
      conv_rhs => rw [← keyed_snd Tree.name s.kids, List.map_map]
      refine List.map_congr_left fun q hq => ?_
      simp only [Function.comp_apply, copyTree_name, partner_name]
      exact (mem_keyedFrom hq).1.symm
    · rw [hkids, List.getElem?_map, Option.map_eq_some_iff] at hx
      obtain ⟨⟨⟨nm, k⟩, y'⟩, hq, rfl⟩ := hx
      have hy' : y' = y := by
        have := congrArg (·[i]?) (keyed_snd Tree.name s.kids)
        simp only [List.getElem?_map, hq, hy, Option.map_some] at this
        exact Option.some.inj this
      subst hy'
      have hnamed := s.mem_keyed_kids.mp (List.mem_of_getElem? hq)
      exact ih y' (s.named_mem hnamed).1 _ (hd.partner hnamed)

/-! ## Nodes of a forest -/

namespace Forest

/-- **A full copy onto a tree in which the matched children come in the order of the source leaves the
tree of the source**; a destination that has of each name the first children of the source is such a
one. -/
theorem copy_in_order {f : Forest} (h : Inv f) {d s : Held} (hd : Holds f d) (hs : Holds f s)
    (hapart : ∀ m ∈ d.ids, m ∉ s.ids) (ho : InOrder d.tree s.tree ∨ Thinned d.tree s.tree) (au : Bool)
    {fuel : Nat} (hfuel : d.height + s.height ≤ fuel) :
    ∃ f' d', f.copy fuel d.id (some s.id) true true au = some f' ∧ Holds f' d' ∧ d'.id = d.id ∧
      SameBelow d'.tree s.tree := by
  obtain ⟨f', d', hrun, hd', hid, htree, -⟩ := copy_full h hd hs hapart au hfuel
  refine ⟨f', d', hrun, hd', hid, htree ▸ sameBelow_copyTree au s.tree d.tree ?_⟩
  rcases ho with ho | ht
  · exact ho
  · exact ht.inOrder

/-- `a` below `d`; `b, a, c` below `s`. -/
def inserted : Forest := scriptResult distinctB 0
  [.new (ascii "d"), .new (ascii "a"), .new (ascii "s"), .new (ascii "b"), .new (ascii "a"),
    .new (ascii "c"), .insertBatch 0 [some 1] (-1), .insertBatch 2 [some 3, some 4, some 5] (-1)]

def insertedDst : Held := .node 0 (ascii "d") .none [.node 1 (ascii "a") .none []]

def insertedSrc : Held :=
  .node 2 (ascii "s") .none [.node 3 (ascii "b") .none [], .node 4 (ascii "a") .none [],
    .node 5 (ascii "c") .none []]

theorem inserted_inv : Inv inserted :=
  inv_of_runs (runs_scriptResult distinct_of_distinctB _ (by decide))

theorem inserted_dst : Holds inserted insertedDst := by
  simp only [insertedDst, Holds, HoldsAll]
  exact ⟨rfl, rfl, rfl, rfl, ⟨rfl, rfl, rfl, rfl, trivial⟩, trivial⟩

theorem inserted_src : Holds inserted insertedSrc := by
  simp only [insertedSrc, Holds, HoldsAll]
  exact ⟨rfl, rfl, rfl, rfl, ⟨rfl, rfl, rfl, rfl, trivial⟩, ⟨rfl, rfl, rfl, rfl, trivial⟩,
    ⟨rfl, rfl, rfl, rfl, trivial⟩, trivial⟩

/-- `a, b, a` below `s`, copied below a fresh `d`, of which the first child is then removed. -/
def pruned : Forest := scriptResult distinctB 4
  [.new (ascii "s"), .new (ascii "a"), .new (ascii "b"), .new (ascii "a"),
    .insertBatch 0 [some 1, some 2, some 3] (-1), .set 1 (.int 1), .set 3 (.int 2),
    .new (ascii "d"), .copy 4 (some 0) true true false, .remove 4 (some 5)]

def prunedSrc : Held :=
  .node 0 (ascii "s") .none [.node 1 (ascii "a") (.int 1) [], .node 2 (ascii "b") .none [],
    .node 3 (ascii "a") (.int 2) []]

def prunedDst : Held :=
  .node 4 (ascii "d") .none [.node 6 (ascii "b") .none [], .node 7 (ascii "a") (.int 2) []]

theorem pruned_inv : Inv pruned :=
  inv_of_runs (runs_scriptResult distinct_of_distinctB _ (by decide))

theorem pruned_src : Holds pruned prunedSrc := by
  simp only [prunedSrc, Holds, HoldsAll]
  exact ⟨rfl, rfl, rfl, rfl, ⟨rfl, rfl, rfl, rfl, trivial⟩, ⟨rfl, rfl, rfl, rfl, trivial⟩,
    ⟨rfl, rfl, rfl, rfl, trivial⟩, trivial⟩

theorem pruned_dst : Holds pruned prunedDst := by
  simp only [prunedDst, Holds, HoldsAll]
  exact ⟨rfl, rfl, rfl, rfl, ⟨rfl, rfl, rfl, rfl, trivial⟩, ⟨rfl, rfl, rfl, rfl, trivial⟩, trivial⟩

theorem copy_in_order_sample : ∃ f' d', inserted.copy 4 0 (some 2) true true false = some f' ∧
    Holds f' d' ∧ d'.id = 0 ∧ SameBelow d'.tree insertedSrc.tree := by
  refine copy_in_order inserted_inv inserted_dst inserted_src (by decide) (.inl ?_) false (by decide)
  refine ⟨by decide, fun nm k x y hx _ => inOrder_leaf ?_ y⟩
  have hmem := (Tree.named_mem _ hx).1
  simp only [insertedDst, Held.tree_kids, Held.kids, List.map_cons, List.map_nil,
    List.mem_singleton] at hmem
  rw [hmem]
  rfl

/-- Removing the first of two equally named siblings puts `b` before both. -/
theorem copy_pruned_reorders : ¬ ∀ (f : Forest) (d s : Held) (au : Bool) (fuel : Nat), Inv f →
    Holds f d → Holds f s → (∀ m ∈ d.ids, m ∉ s.ids) →
    (InOrder d.tree s.tree ∨ Pruned d.tree s.tree) → d.height + s.height ≤ fuel →
    ∃ f' d', f.copy fuel d.id (some s.id) true true au = some f' ∧ Holds f' d' ∧ d'.id = d.id ∧
      SameBelow d'.tree s.tree := by
  intro hall
  have hpruned : Pruned prunedDst.tree prunedSrc.tree := by
    have hleaf : ∀ nm v, Pruned (.node nm v []) (.node nm v []) := fun nm v =>
      .intro [] rfl (List.Sublist.refl _) rfl .nil
    exact .intro [.node (ascii "b") .none [], .node (ascii "a") (.int 2) []] rfl
      (.cons _ (List.Sublist.refl _)) rfl (.cons (hleaf _ _) (.cons (hleaf _ _) .nil))
  obtain ⟨f₁, d₁, hrun₁, hd₁, hid₁, hsame⟩ := hall pruned prunedDst prunedSrc false 4 pruned_inv
    pruned_dst pruned_src (by decide) (.inr hpruned) (by decide)
  obtain ⟨f₂, d₂, hrun₂, hd₂, hid₂, htree, -⟩ := copy_full pruned_inv pruned_dst pruned_src
    (by decide) false (show prunedDst.height + prunedSrc.height ≤ 4 by decide)
  cases hrun₁.symm.trans hrun₂
  rw [hd₂.unique hd₁ (hid₁.trans hid₂.symm), htree] at hsame
  obtain ⟨-, hnames, -⟩ := hsame
  exact absurd hnames (by decide)

end Forest

end VersatileEngine
