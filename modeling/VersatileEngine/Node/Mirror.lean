import VersatileEngine.Lib.Landing
import VersatileEngine.Node.Copy

/-!
# VersatileEngine.Node.Mirror

When a full copy, `dst.copy(src, true, true, ..)`, leaves a mirror of its source.

* `Mirrors`   — the same children of every name, in the same order within the name, and equal values.
* `Unchanged` — what a repeated copy must leave: the same shape, and values equal to the old ones.
* `Lands`     — the exact condition. `copy` puts the source children of one name where their anchors
  stand in the destination; the condition compares each with the source child whose place it takes.
* `InPlace`   — a simpler condition that suffices: anchors never cross within a name.

`copy_mirrors_iff` is the result; `copy_misplaces` shows three siblings that land out of order.
-/

namespace VersatileEngine

/-- `u` mirrors `t`. -/
inductive Mirrors : Tree → Tree → Prop
  | intro {u t : Tree} (value : u.value.eqv t.value = true)
      (lengths : ∀ nm, (u.named nm).length = (t.named nm).length)
      (elements : ∀ (nm : Str) (k : Nat) (x y : Tree), (u.named nm)[k]? = some x →
        (t.named nm)[k]? = some y → Mirrors x y) :
      Mirrors u t

/-- `v` has the shape of `u`, and every value of `u`, or one that compares equal. -/
inductive Unchanged : Tree → Tree → Prop
  | intro {u v : Tree} (name : v.name = u.name)
      (value : v.value = u.value ∨ u.value.eqv v.value = true)
      (length : v.kids.length = u.kids.length)
      (elements : ∀ (i : Nat) (x y : Tree), u.kids[i]? = some x → v.kids[i]? = some y →
        Unchanged x y) :
      Unchanged u v

/-- What a source child is copied onto: its counterpart in `d`, or a new node. -/
def partner (d : Tree) (nm : Str) (k : Nat) : Tree := (d.named nm)[k]?.getD (Tree.blank nm)

/-- Copying `s` onto `d` gives a mirror of `t`: the `k`-th source child of a name, copied onto its
counterpart, mirrors the child of `t` at the number where it lands. -/
inductive Lands (autoUpdate : Bool) : Tree → Tree → Tree → Prop
  | intro {d s t : Tree} (value : (copyValue autoUpdate d.value s.value).eqv t.value = true)
      (lengths : ∀ nm, (s.named nm).length = (t.named nm).length)
      (elements : ∀ nm k x y, (s.named nm)[k]? = some x →
        (t.named nm)[landing Tree.name Tree.name d.kids s.kids nm k]? = some y →
        Lands autoUpdate (partner d nm k) x y) :
      Lands autoUpdate d s t

/-- No two source children of one name have their anchors in `d` the other way round, on any level,
and the values of the source compare equal to themselves. -/
inductive InPlace : Tree → Tree → Prop
  | intro {d s : Tree} (value : s.value.eqv s.value = true)
      (order : ∀ nm j k, j < k → k < (s.named nm).length →
        anchor Tree.name Tree.name d.kids s.kids (nm, j) ≤
          anchor Tree.name Tree.name d.kids s.kids (nm, k))
      (elements : ∀ nm k x, (s.named nm)[k]? = some x → InPlace (partner d nm k) x) :
      InPlace d s

/-! ## Children by name and number -/

theorem Tree.lookup_keyed_kids (t : Tree) (nm : Str) (k : Nat) :
    (keyed Tree.name t.kids).lookup (nm, k) = (t.named nm)[k]? := by
  rw [lookup_keyed, Tree.named]
  simp [beq_eq_decide]

theorem Tree.mem_keyed_kids (t : Tree) {nm : Str} {k : Nat} {x : Tree} :
    ((nm, k), x) ∈ keyed Tree.name t.kids ↔ (t.named nm)[k]? = some x := by
  rw [← lookup_keyed_kids]
  exact ⟨lookup_of_mem (keyed_nodup _ _), mem_of_lookup⟩

theorem Tree.count_names (t : Tree) (nm : Str) :
    (t.kids.map Tree.name).count nm = (t.named nm).length := by
  rw [List.count, List.countP_map, List.countP_eq_length_filter, Tree.named]
  simp [Function.comp_def, beq_eq_decide]

theorem Tree.named_mem (t : Tree) {nm : Str} {k : Nat} {x : Tree} (h : (t.named nm)[k]? = some x) :
    x ∈ t.kids ∧ x.name = nm := by
  have := List.mem_filter.mp (List.mem_of_getElem? h)
  simpa using this

@[simp] theorem partner_name (d : Tree) (nm : Str) (k : Nat) : (partner d nm k).name = nm := by
  rw [partner]
  cases h : (d.named nm)[k]? with
  | none => rfl
  | some x => exact (d.named_mem h).2

section CopyTree

variable (au : Bool) (d s t : Tree)

/-- The children of a full copy: every source child, copied onto its counterpart, where it lands. -/
theorem copyTree_landed : (copyTree true true au s d).kids =
    (landed Tree.name Tree.name d.kids s.kids).map fun q =>
      copyTree true true au q.2 (partner d q.1.1 q.1.2) := by
  rw [copyTree_kids, arrange_landed, List.map_map]
  refine List.map_congr_left fun q hq => ?_
  have hmem := (landed_perm Tree.name Tree.name d.kids s.kids).mem_iff.mp hq
  have hname := (s.named_mem (Tree.mem_keyed_kids s |>.mp hmem)).2
  simp only [Function.comp_apply, slotOf, partner, ← Tree.lookup_keyed_kids]
  cases (keyed Tree.name d.kids).lookup q.1 with
  | none => simp only [copySlot, hname, Option.getD_none]
  | some x => simp only [copySlot, Option.getD_some]

theorem copyTree_named (nm : Str) : (copyTree true true au s d).named nm =
    ((landed Tree.name Tree.name d.kids s.kids).filter fun q => q.1.1 == nm).map fun q =>
      copyTree true true au q.2 (partner d q.1.1 q.1.2) := by
  rw [Tree.named, copyTree_landed, List.filter_map]
  simp [Function.comp_def, beq_eq_decide]

theorem copyTree_named_length (nm : Str) :
    ((copyTree true true au s d).named nm).length = (s.named nm).length := by
  rw [copyTree_named, List.length_map, landed_named_length, Tree.count_names]

/-- The `k`-th source child of a name is found where it lands. -/
theorem copyTree_landing {nm : Str} {k : Nat} {x : Tree} (h : (s.named nm)[k]? = some x) :
    ((copyTree true true au s d).named nm)[landing Tree.name Tree.name d.kids s.kids nm k]? =
      some (copyTree true true au x (partner d nm k)) := by
  rw [copyTree_named, List.getElem?_map,
    landed_landing Tree.name Tree.name d.kids s.kids (s.mem_keyed_kids.mpr h)]
  rfl

/-- Every child of the copy is a source child where it lands. -/
theorem copyTree_landing_surj {nm : Str} {r : Nat} {u : Tree}
    (h : ((copyTree true true au s d).named nm)[r]? = some u) :
    ∃ k x, (s.named nm)[k]? = some x ∧ landing Tree.name Tree.name d.kids s.kids nm k = r ∧
      u = copyTree true true au x (partner d nm k) := by
  rw [copyTree_named, List.getElem?_map, Option.map_eq_some_iff] at h
  obtain ⟨q, hq, rfl⟩ := h
  obtain ⟨hmem, hname⟩ := List.mem_filter.mp (List.mem_of_getElem? hq)
  have hmem' := (landed_perm Tree.name Tree.name d.kids s.kids).mem_iff.mp hmem
  have hnm : q.1.1 = nm := by simpa using hname
  obtain ⟨⟨nm', k⟩, x⟩ := q
  simp only at hnm
  subst hnm
  refine ⟨k, x, s.mem_keyed_kids.mp hmem', ?_, rfl⟩
  have hland := landed_landing Tree.name Tree.name d.kids s.kids hmem'
  have hnd : ((landed Tree.name Tree.name d.kids s.kids).filter fun q => q.1.1 == nm').Nodup := by
    refine ((landed_perm Tree.name Tree.name d.kids s.kids).nodup_iff.mpr ?_).sublist
      List.filter_sublist
    exact List.Nodup.of_map Prod.fst (keyed_nodup _ _)
  obtain ⟨h1, h2⟩ := List.getElem?_eq_some_iff.mp hland
  obtain ⟨h3, h4⟩ := List.getElem?_eq_some_iff.mp hq
  exact (hnd.getElem_inj_iff).mp (h2.trans h4.symm)

/-- **A full copy mirrors `t` exactly when the source children land on it.** -/
theorem mirrors_copyTree : Mirrors (copyTree true true au s d) t ↔ Lands au d s t := by
  induction s using Tree.ind generalizing d t with
  | h s ih =>
    constructor
    · rintro ⟨hv, hl, he⟩
      refine ⟨by simpa using hv, fun nm => ?_, fun nm k x y hx hy => ?_⟩
      · rw [← hl, copyTree_named_length]
      · exact (ih x (s.named_mem hx).1 _ _).mp (he nm _ _ y (copyTree_landing au d s hx) hy)
    · rintro ⟨hv, hl, he⟩
      refine ⟨by simpa using hv, fun nm => ?_, fun nm r u y hu hy => ?_⟩
      · rw [copyTree_named_length, hl]
      · obtain ⟨k, x, hx, rfl, rfl⟩ := copyTree_landing_surj au d s hu
        exact (ih x (s.named_mem hx).1 _ _).mpr (he nm k x y hx hy)

end CopyTree

/-! ## Repeating the copy -/

theorem unchanged_copyTree (au : Bool) (s : Tree) :
    ∀ u, Mirrors u s → Unchanged u (copyTree true true au s u) := by
  induction s using Tree.ind with
  | h s ih =>
    rintro u ⟨hv, hl, he⟩
    have hkids := copyTree_kids true true au s u
    rw [arrange_matched Tree.name Tree.name true true fun nm => by
      rw [Tree.count_names, Tree.count_names, hl], List.map_map] at hkids
    refine ⟨by simp, ?_, ?_, fun i x y hx hy => ?_⟩
    · rw [copyTree_value, copyValue]
      split
      · exact .inl rfl
      · exact .inr hv
    · rw [hkids, List.length_map, ← List.length_map (f := Prod.snd), keyed_snd]
    · rw [hkids, List.getElem?_map, Option.map_eq_some_iff] at hy
      obtain ⟨⟨⟨nm, k⟩, x'⟩, hp, rfl⟩ := hy
      have hx' : x' = x := by
        have := congrArg (·[i]?) (keyed_snd Tree.name u.kids)
        simp only [List.getElem?_map, hp, hx, Option.map_some] at this
        exact Option.some.inj this
      subst hx'
      have hmem := u.mem_keyed_kids.mp (List.mem_of_getElem? hp)
      obtain ⟨hk, -⟩ := List.getElem?_eq_some_iff.mp hmem
      have hs : (s.named nm)[k]? = some ((s.named nm).get ⟨k, by rw [← hl]; exact hk⟩) :=
        List.getElem?_eq_getElem _
      have hlook := (Tree.lookup_keyed_kids s nm k).trans hs
      simp only [Function.comp_apply, hlook, copySlot]
      exact ih _ (s.named_mem hs).1 _ (he nm k _ _ hmem hs)

/-! ## Anchors in order -/

/-- Anchors that do not cross leave the `k`-th child of a name at number `k`. -/
theorem landing_inPlace {d s : Tree} {nm : Str} {k : Nat} (hk : k < (s.named nm).length)
    (h : ∀ j, j < k → anchor Tree.name Tree.name d.kids s.kids (nm, j) ≤
      anchor Tree.name Tree.name d.kids s.kids (nm, k))
    (h' : ∀ j, k < j → j < (s.named nm).length →
      anchor Tree.name Tree.name d.kids s.kids (nm, k) ≤
        anchor Tree.name Tree.name d.kids s.kids (nm, j)) :
    landing Tree.name Tree.name d.kids s.kids nm k = k := by
  rw [← Tree.count_names] at hk h'
  exact landing_uncrossed Tree.name Tree.name d.kids s.kids hk h h'

/-- In place is enough. -/
theorem lands_inPlace (au : Bool) {d s : Tree} (h : InPlace d s) : Lands au d s s := by
  induction h with
  | @intro d s hv ho _ ih =>
    refine ⟨?_, fun _ => rfl, fun nm k x y hx hy => ?_⟩
    · rw [copyValue]
      split
      · rename_i hc
        exact (Bool.and_eq_true_iff.mp hc).2
      · exact hv
    · obtain ⟨hk, -⟩ := List.getElem?_eq_some_iff.mp hx
      rw [landing_inPlace hk (fun j hj => ho nm j k hj hk) fun j hj hn => ho nm k j hj hn, hx] at hy
      cases hy
      exact ih nm k x hx

/-! ## The law for the nodes of a forest -/

namespace Forest

/-- What a full copy of `s` onto `d` should have reached: a mirror, which a further copy leaves as it
is. -/
structure MirrorLaw (au : Bool) (f : Forest) (d s : Held) : Prop where
  mirrors : Mirrors d.tree s.tree
  repeats : ∀ fuel, d.height + s.height ≤ fuel →
    ∃ f' d', f.copy fuel d.id (some s.id) true true au = some f' ∧ Holds f' d' ∧ d'.id = d.id ∧
      Unchanged d.tree d'.tree

/-- Repeating adds nothing to the law. -/
theorem mirrorLaw_iff {f : Forest} (h : Inv f) {d s : Held} (hd : Holds f d) (hs : Holds f s)
    (hapart : ∀ m ∈ d.ids, m ∉ s.ids) (au : Bool) :
    MirrorLaw au f d s ↔ Mirrors d.tree s.tree := by
  refine ⟨MirrorLaw.mirrors, fun hm => ⟨hm, fun fuel hfuel => ?_⟩⟩
  obtain ⟨f', d', hrun, hb, htree⟩ := copy_spec true true au s fuel f d h hd hs hapart hfuel
  exact ⟨f', d', hrun, hb.holds, hb.id, htree ▸ unchanged_copyTree au s.tree d.tree hm⟩

/-- A full copy of trees that share no node, with what it leaves of both. -/
theorem copy_full {f : Forest} (h : Inv f) {d s : Held} (hd : Holds f d) (hs : Holds f s)
    (hapart : ∀ m ∈ d.ids, m ∉ s.ids) (au : Bool) {fuel : Nat} (hfuel : d.height + s.height ≤ fuel) :
    ∃ f' d', f.copy fuel d.id (some s.id) true true au = some f' ∧ Holds f' d' ∧ d'.id = d.id ∧
      d'.tree = copyTree true true au s.tree d.tree ∧
      (MirrorLaw au f' d' s ↔ Mirrors d'.tree s.tree) := by
  obtain ⟨f', d', hrun, hb, htree⟩ := copy_spec true true au s fuel f d h hd hs hapart hfuel
  refine ⟨f', d', hrun, hb.holds, hb.id, htree, mirrorLaw_iff hb.inv hb.holds ?_ ?_ au⟩
  · exact hs.agrees fun m hm => hb.frame m (hs.live m hm) fun hmd => hapart m hmd hm
  · intro m hm hms
    rcases hb.own m hm with hmd | hdead
    · exact hapart m hmd hms
    · rw [hs.live m hms] at hdead
      cases hdead

/-- Anchors in order on every level are enough. -/
theorem mirrorLaw_inPlace {f : Forest} (h : Inv f) {d s : Held} (hd : Holds f d) (hs : Holds f s)
    (hapart : ∀ m ∈ d.ids, m ∉ s.ids) (hp : InPlace d.tree s.tree) (au : Bool) {fuel : Nat}
    (hfuel : d.height + s.height ≤ fuel) :
    ∃ f' d', f.copy fuel d.id (some s.id) true true au = some f' ∧ Holds f' d' ∧ d'.id = d.id ∧
      MirrorLaw au f' d' s := by
  obtain ⟨f', d', hrun, hd', hid, htree, hlaw⟩ := copy_full h hd hs hapart au hfuel
  refine ⟨f', d', hrun, hd', hid, hlaw.mpr ?_⟩
  rw [htree]
  exact (mirrors_copyTree au d.tree s.tree s.tree).mpr (lands_inPlace au hp)

/-- **A full copy mirrors its source exactly when the source children land in place**, in every
forest that a run can reach and for trees of any shape that share no node. -/
theorem copy_mirrors_iff {f : Forest} (h : Inv f) {d s : Held} (hd : Holds f d) (hs : Holds f s)
    (hapart : ∀ m ∈ d.ids, m ∉ s.ids) (au : Bool) {fuel : Nat} (hfuel : d.height + s.height ≤ fuel) :
    ∃ f' d', f.copy fuel d.id (some s.id) true true au = some f' ∧ Holds f' d' ∧ d'.id = d.id ∧
      (MirrorLaw au f' d' s ↔ Lands au d.tree s.tree s.tree) := by
  obtain ⟨f', d', hrun, hd', hid, htree, hlaw⟩ := copy_full h hd hs hapart au hfuel
  refine ⟨f', d', hrun, hd', hid, hlaw.trans ?_⟩
  rw [htree]
  exact mirrors_copyTree au d.tree s.tree s.tree

/-- Two trees: `b, a` below `d`, and `a, a, b` below `s`. -/
def misplaced : Forest := scriptResult distinctB 0
  [.new (ascii "d"), .new (ascii "b"), .new (ascii "a"), .new (ascii "s"), .new (ascii "a"),
    .new (ascii "a"), .new (ascii "b"), .insertBatch 0 [some 1, some 2] (-1),
    .insertBatch 3 [some 4, some 5, some 6] (-1), .set 4 (.int 1), .set 5 (.int 2)]

def misplacedDst : Held :=
  .node 0 (ascii "d") .none [.node 1 (ascii "b") .none [], .node 2 (ascii "a") .none []]

def misplacedSrc : Held :=
  .node 3 (ascii "s") .none [.node 4 (ascii "a") (.int 1) [], .node 5 (ascii "a") (.int 2) [],
    .node 6 (ascii "b") .none []]

theorem misplaced_inv : Inv misplaced :=
  inv_of_runs (runs_scriptResult distinct_of_distinctB _ (by decide))

theorem misplaced_dst : Holds misplaced misplacedDst := by
  simp only [misplacedDst, Holds, HoldsAll]
  exact ⟨rfl, rfl, rfl, rfl, ⟨rfl, rfl, rfl, rfl, trivial⟩, ⟨rfl, rfl, rfl, rfl, trivial⟩, trivial⟩

theorem misplaced_src : Holds misplaced misplacedSrc := by
  simp only [misplacedSrc, Holds, HoldsAll]
  exact ⟨rfl, rfl, rfl, rfl, ⟨rfl, rfl, rfl, rfl, trivial⟩, ⟨rfl, rfl, rfl, rfl, trivial⟩,
    ⟨rfl, rfl, rfl, rfl, trivial⟩, trivial⟩

theorem copy_mirrors_iff_sample : ∃ f' d', misplaced.copy 4 0 (some 3) true true false = some f' ∧
    Holds f' d' ∧ d'.id = 0 ∧
      (MirrorLaw false f' d' misplacedSrc ↔
        Lands false misplacedDst.tree misplacedSrc.tree misplacedSrc.tree) :=
  copy_mirrors_iff misplaced_inv misplaced_dst misplaced_src (by decide) false (by decide)

/-- The second `a` goes before `b` and so before the first: the copy holds `2, 1` under that name. -/
theorem copy_misplaces : ¬ ∀ (f : Forest) (d s : Held) (au : Bool) (fuel : Nat), Inv f → Holds f d →
    Holds f s → (∀ m ∈ d.ids, m ∉ s.ids) → d.height + s.height ≤ fuel →
    ∃ f' d', f.copy fuel d.id (some s.id) true true au = some f' ∧ Holds f' d' ∧ d'.id = d.id ∧
      MirrorLaw au f' d' s := by
  intro hall
  obtain ⟨f₁, d₁, hrun₁, hd₁, hid₁, hlaw⟩ := hall misplaced misplacedDst misplacedSrc false 4
    misplaced_inv misplaced_dst misplaced_src (by decide) (by decide)
  obtain ⟨f₂, d₂, hrun₂, hd₂, hid₂, htree, -⟩ := copy_full misplaced_inv misplaced_dst misplaced_src
    (by decide) false (show misplacedDst.height + misplacedSrc.height ≤ 4 by decide)
  cases hrun₁.symm.trans hrun₂
  have hmirrors := hlaw.mirrors
  rw [hd₂.unique hd₁ (hid₁.trans hid₂.symm), htree] at hmirrors
  obtain ⟨-, -, helements⟩ := hmirrors
  obtain ⟨hvalue, -, -⟩ := helements (ascii "a") 0 (.node (ascii "a") (.int 2) [])
    (.node (ascii "a") (.int 1) []) rfl rfl
  cases hvalue

end Forest

end VersatileEngine
