import VersatileEngine.Lib.Rearrange
import VersatileEngine.Node.Mirror
import VersatileEngine.Node.Standing

/-!
# VersatileEngine.Node.Converge

Copying again and again.

One full copy need not mirror its source, and the next one need not leave it alone: equal names may land the other
way round, and then other children are matched. But the numbers of the names are right after one copy, so on every
level the matching is final one copy after it is final above.

* `copyTree_converges` — **after as many copies as the source has levels, nothing changes any more**, for all flags.
* `mirrors_of_fixed`   — what a full copy does not change mirrors the source.
* `copies_converge`    — both for the nodes of a forest.
-/

namespace VersatileEngine

namespace Tree

/-- No place of the tree is deeper. -/
def Within (n : Nat) (t : Tree) : Prop := ∀ p k, t.sub p = some k → p.length < n

theorem Within.pos {n : Nat} {t : Tree} (h : t.Within n) : 0 < n := h [] t rfl

theorem Within.kid {n : Nat} {t k : Tree} (h : t.Within (n + 1)) (hk : k ∈ t.kids) : k.Within n := by
  intro p c hc
  obtain ⟨i, hi, rfl⟩ := List.getElem_of_mem hk
  have hsub : t.sub (i :: p) = some c := by
    rw [sub_cons, List.getElem?_eq_getElem hi]
    exact hc
  have := h (i :: p) c hsub
  rw [List.length_cons] at this
  omega

/-- Every value of the tree compares equal to itself. -/
inductive Comparable : Tree → Prop
  | intro {t : Tree} (value : t.value.eqv t.value = true) (kids : ∀ k ∈ t.kids, Comparable k) : Comparable t

end Tree

section Copies

variable {ai ar au : Bool} {s d : Tree}

theorem copyValue_again (au : Bool) (old new : Var) : copyValue au (copyValue au old new) new = copyValue au old new := by
  simp only [copyValue]
  split_ifs <;> rfl

theorem name_copySlot (x : Slot Tree Tree) : (copySlot ai ar au x).name = x.name Tree.name Tree.name := by
  cases x with
  | old d => rfl
  | joined d s => exact copyTree_name ..
  | fresh s => exact copyTree_name ..

/-- After one copy the numbers of the names are right. -/
theorem arranged_copy (s d : Tree) : Arranged Tree.name Tree.name ai ar (copyTree ai ar au s d).kids s.kids := by
  have hnames : (copyTree ai ar au s d).kids.map Tree.name =
      (arrange Tree.name Tree.name ai ar d.kids s.kids).map (Slot.name Tree.name Tree.name) := by
    rw [copyTree_kids, List.map_map]
    exact List.map_congr_left fun x _ => name_copySlot x
  have h := @arranged_arrange _ _ _ _ _ Tree.name Tree.name ai ar d.kids s.kids
  rw [Arranged] at h ⊢
  rwa [hnames]

/-- What a number of copies make of a child, when the numbers of the names are right. -/
def copyKid (ai ar au : Bool) (s : Tree) (n : Nat) (p : (Str × Nat) × Tree) : Tree :=
  match (keyed Tree.name s.kids).lookup p.1 with
  | some k => (copyTree ai ar au k)^[n] p.2
  | none => p.2

theorem copyKid_name (n : Nat) (p : (Str × Nat) × Tree) : (copyKid ai ar au s n p).name = p.2.name := by
  rw [copyKid]
  cases (keyed Tree.name s.kids).lookup p.1 with
  | none => rfl
  | some k =>
    induction n with
    | zero => rfl
    | succ n ih => simpa only [Function.iterate_succ_apply', copyTree_name] using ih

theorem copyKid_copyKid (n : Nat) (p : (Str × Nat) × Tree) :
    copyKid ai ar au s 1 (p.1, copyKid ai ar au s n p) = copyKid ai ar au s (n + 1) p := by
  simp only [copyKid]
  cases (keyed Tree.name s.kids).lookup p.1 with
  | none => rfl
  | some k => exact (Function.iterate_succ_apply' _ n p.2).symm

theorem copyTree_arranged (h : Arranged Tree.name Tree.name ai ar d.kids s.kids) : copyTree ai ar au s d =
    .node d.name (copyValue au d.value s.value) ((keyed Tree.name d.kids).map (copyKid ai ar au s 1)) := by
  rw [copyTree_eq, arrange_arranged h, List.map_map]
  refine congrArg _ (List.map_congr_left fun p _ => ?_)
  rw [Function.comp_apply, copyKid]
  cases (keyed Tree.name s.kids).lookup p.1 <;> rfl

/-- **From then on every child is copied onto for itself.** -/
theorem copies_arranged (h : Arranged Tree.name Tree.name ai ar d.kids s.kids)
    (hv : copyValue au d.value s.value = d.value) (n : Nat) :
    (copyTree ai ar au s)^[n] d = .node d.name d.value ((keyed Tree.name d.kids).map (copyKid ai ar au s n)) := by
  induction n with
  | zero =>
    have hkid : ∀ p : (Str × Nat) × Tree, copyKid ai ar au s 0 p = p.2 := fun p => by
      rw [copyKid]
      cases (keyed Tree.name s.kids).lookup p.1 <;> rfl
    rw [funext hkid, keyed_snd, Tree.eta]
    rfl
  | succ n ih =>
    have hnames : ((keyed Tree.name d.kids).map (copyKid ai ar au s n)).map Tree.name = d.kids.map Tree.name := by
      rw [List.map_map]
      refine (List.map_congr_left fun p _ => copyKid_name n p).trans ?_
      rw [← Function.comp_def Tree.name Prod.snd, ← List.map_map, keyed_snd]
    have hkeyed := keyed_rename Tree.name (copyKid ai ar au s n) (l := d.kids) fun key a _ => copyKid_name n (key, a)
    rw [Function.iterate_succ_apply', ih, copyTree_arranged (by rw [Arranged, Tree.kids_node, hnames]; exact h)]
    rw [Tree.kids_node, Tree.name_node, Tree.value_node, hv, hkeyed, List.map_map]
    exact congrArg _ (List.map_congr_left fun p _ => copyKid_copyKid n p)

/-- **After as many copies as the source has levels nothing changes any more.** -/
theorem copyTree_converges (s : Tree) : ∀ {n : Nat} (d : Tree), s.Within n →
    (copyTree ai ar au s)^[n + 1] d = (copyTree ai ar au s)^[n] d := by
  induction s using Tree.ind with
  | h s ih =>
    intro n d hn
    obtain ⟨n, rfl⟩ : ∃ m, n = m + 1 := ⟨n - 1, by have := hn.pos; omega⟩
    -- the first copy settles, the others work on the children
    have harranged := @arranged_copy ai ar au s d
    have hvalue : copyValue au (copyTree ai ar au s d).value s.value = (copyTree ai ar au s d).value := by
      rw [copyTree_value, copyValue_again]
    rw [Function.iterate_succ_apply _ (n + 1) d, Function.iterate_succ_apply _ n d, copies_arranged harranged hvalue,
      copies_arranged harranged hvalue]
    refine congrArg _ (List.map_congr_left fun p _ => ?_)
    rw [copyKid, copyKid]
    cases hl : (keyed Tree.name s.kids).lookup p.1 with
    | none => rfl
    | some k =>
      have hk := mem_of_keyed (mem_of_lookup hl)
      exact ih k hk p.2 (hn.kid hk)

/-- What a full copy does not change mirrors its source. -/
theorem mirrors_of_fixed (hs : s.Comparable) : ∀ {d : Tree}, copyTree true true au s d = d → Mirrors d s := by
  induction hs with
  | @intro s hv _ ih =>
    intro d hd
    have harranged := @arranged_copy true true au s d
    rw [hd] at harranged
    have hcopy := @copyTree_arranged true true au s _ harranged
    rw [hd] at hcopy
    refine ⟨?_, fun nm => ?_, fun nm k x y hx hy => ?_⟩
    · have hvalue := congrArg Tree.value hd
      rw [copyTree_value, copyValue] at hvalue
      split_ifs at hvalue with heq
      · exact (Bool.and_eq_true_iff.mp heq).2
      · rw [← hvalue]
        exact hv
    · rw [← Tree.count_names, ← Tree.count_names]
      exact Nat.le_antisymm (harranged.1 rfl nm) (harranged.2 rfl nm)
    · -- the child is what it is copied to
      have hkids : (keyed Tree.name d.kids).map (copyKid true true au s 1) = (keyed Tree.name d.kids).map Prod.snd := by
        rw [keyed_snd]
        exact (congrArg Tree.kids hcopy).symm
      have hkid := List.map_inj_left.mp hkids ((nm, k), x) (d.mem_keyed_kids.mpr hx)
      rw [copyKid, s.lookup_keyed_kids nm k, hy] at hkid
      exact ih y (s.named_mem hy).1 hkid

end Copies

/-! ## In a forest -/

namespace Forest

section Copies

variable {f f' : Forest} {ai ar au : Bool} {d s : Held}

/-- The same copy, a number of times. -/
def copies (k : Nat) (this other : Id) (ai ar au : Bool) : Nat → Forest → Option Forest
  | 0, f => some f
  | n + 1, f => (copies k this other ai ar au n f).bind fun g => g.copy k this (some other) ai ar au

/-- Every copy is a copy of the tree. -/
theorem copies_held (hi : Inv f) (hd : Holds f d) (hs : Holds f s) (hapart : ∀ m ∈ d.ids, m ∉ s.ids) (n : Nat) :
    ∃ f' d', (∃ j, ∀ k, j ≤ k → copies k d.id s.id ai ar au n f = some f') ∧ Becomes f f' d d' ∧ Holds f' s ∧
      d'.tree = (copyTree ai ar au s.tree)^[n] d.tree := by
  induction n with
  | zero => exact ⟨f, d, ⟨0, fun _ _ => rfl⟩, .refl hi hd, hs, rfl⟩
  | succ n ih =>
    obtain ⟨g, c, ⟨j, hrun⟩, hb, hsg, htree⟩ := ih
    -- what was made is not part of the source
    have hc : ∀ m ∈ c.ids, m ∉ s.ids := fun m hm hms => by
      rcases hb.own m hm with hmd | hdead
      · exact hapart m hmd hms
      · rw [hs.live m hms] at hdead
        cases hdead
    obtain ⟨f', d', hcopy, hb', htree'⟩ := copy_spec ai ar au s (c.height + s.height) g c hb.inv hb.holds hsg hc
      (Nat.le_refl _)
    refine ⟨f', d', ⟨max j (c.height + s.height), fun k hk => ?_⟩, hb.trans hb', ?_, ?_⟩
    · rw [copies, hrun k (by omega), Option.bind_some, ← hb.id]
      exact copy_more (by omega) hcopy
    · exact hsg.agrees fun m hm => hb'.frame m (hsg.live m hm) fun hmc => hc m hmc hm
    · rw [htree', htree, Function.iterate_succ_apply']

theorem within_height (s : Held) : s.tree.Within s.height := by
  intro p k hk
  rw [Held.tree_sub] at hk
  obtain ⟨e, he, -⟩ := Option.map_eq_some_iff.mp hk
  have := Held.sub_height he
  have := e.height_pos
  omega

/-- **Copying again and again converges.** Whatever the flags and the names, after as many copies as the source has
levels the destination is the same tree, which a further copy does not change; and with full copies it mirrors the
source. -/
theorem copies_converge (hi : Inv f) (hd : Holds f d) (hs : Holds f s) (hapart : ∀ m ∈ d.ids, m ∉ s.ids)
    (ai ar au : Bool) : ∃ t : Tree,
      (∀ n, s.height ≤ n → ∃ f' d', (∃ j, ∀ k, j ≤ k → copies k d.id s.id ai ar au n f = some f') ∧
        Becomes f f' d d' ∧ Holds f' s ∧ d'.tree = t) ∧
      copyTree ai ar au s.tree t = t ∧
      (ai = true → ar = true → s.tree.Comparable → Mirrors t s.tree) := by
  have hfixed : copyTree ai ar au s.tree ((copyTree ai ar au s.tree)^[s.height] d.tree) =
      (copyTree ai ar au s.tree)^[s.height] d.tree := by
    rw [← Function.iterate_succ_apply' (copyTree ai ar au s.tree)]
    exact copyTree_converges s.tree d.tree (within_height s)
  refine ⟨_, fun n hn => ?_, hfixed, ?_⟩
  · obtain ⟨f', d', hrun, hb, hsf, htree⟩ := copies_held hi hd hs hapart n
    refine ⟨f', d', hrun, hb, hsf, htree.trans ?_⟩
    obtain ⟨m, rfl⟩ := Nat.exists_eq_add_of_le' hn
    rw [Function.iterate_add_apply]
    exact Function.iterate_fixed hfixed m
  · rintro rfl rfl hv
    exact mirrors_of_fixed hv hfixed

/-- Two copies put in order what one copy misplaces. -/
theorem copies_converge_misplaced : ∃ f' d', (∃ j, ∀ k, j ≤ k → copies k 0 3 true true false 2 misplaced = some f') ∧
    Holds f' d' ∧ Mirrors d'.tree misplacedSrc.tree := by
  obtain ⟨t, hall, -, hmirrors⟩ := copies_converge misplaced_inv misplaced_dst misplaced_src (by decide) true true false
  obtain ⟨f', d', hrun, hb, -, rfl⟩ := hall 2 (by decide)
  have hleaf : ∀ nm v, v.eqv v = true → (Tree.node nm v []).Comparable := fun nm v hv =>
    ⟨hv, fun k hk => (by cases hk)⟩
  refine ⟨f', d', hrun, hb.holds, hmirrors rfl rfl ⟨rfl, ?_⟩⟩
  simp only [misplacedSrc, Held.tree, Held.trees, Tree.kids_node, List.forall_mem_cons]
  exact ⟨hleaf _ _ rfl, hleaf _ _ rfl, hleaf _ _ rfl, fun k hk => (by cases hk)⟩

end Copies

end Forest

end VersatileEngine
