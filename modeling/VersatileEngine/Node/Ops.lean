import VersatileEngine.Lib.Runs
import VersatileEngine.Node.Life

/-!
# VersatileEngine.Node.Ops

The public operations of `ve::Node` as the steps of one transition relation on forests.

A caller passes live nodes, and deletes only roots. Five operations are compound: `append`,
`remove` (twice), `update` and `copy` are runs of the primitive ones, and the only nodes they insert
are fresh (`compound_runs`). What one primitive operation can do to the links is said once
(`primitive_cases`), so an invariant of the forest is checked against that and holds after every
operation (`Step.preserves`).
-/

namespace VersatileEngine

inductive Op where
  | new (name : Str)
  | insert (this : Id) (child : Option Id) (index : Int)
  | insertBatch (this : Id) (children : List (Option Id)) (index : Int)
  | take (this : Id) (child : Option Id)
  | delete (n : Id)
  | clear (this : Id) (autoDelete : Bool)
  | set (this : Id) (v : Var)
  | setShadow (this : Id) (s : Option Id)
  | setFlags (this : Id) (watching silent : Bool)
  | append (this : Id) (name : Str) (overlap : Int)
  | remove (this : Id) (child : Option Id)
  | removeNamed (this : Id) (name : Str)
  | update (this : Id) (v : Var)
  | copy (this : Id) (other : Option Id) (autoInsert autoRemove autoUpdate : Bool)

namespace Op

/-- The nodes the caller passes. -/
def args : Op → List Id
  | new _ => []
  | insert this child _ => this :: child.toList
  | insertBatch this children _ => this :: children.filterMap id
  | take this child => this :: child.toList
  | delete n => [n]
  | clear this _ => [this]
  | set this _ => [this]
  | setShadow this s => this :: s.toList
  | setFlags this _ _ => [this]
  | append this _ _ => [this]
  | remove this child => this :: child.toList
  | removeNamed this _ => [this]
  | update this _ => [this]
  | copy this other _ _ _ => this :: other.toList

/-- The node a caller deletes outright. -/
def deletes : Op → List Id
  | delete n => [n]
  | _ => []

def primitive : Op → Bool
  | append _ _ _ | remove _ _ | removeNamed _ _ | update _ _ | copy _ _ _ _ _ => false
  | _ => true

def setsShadow : Op → Bool
  | setShadow _ _ => true
  | _ => false

/-- The receiver, the nodes and the index of a call of `insert` that gets past the null checks. -/
def inserts : Op → Option (Id × List Id × Int)
  | insert this (some c) index => some (this, [c], index)
  | insertBatch this children index =>
    if children = [] then none else (Forest.nonNull children).map fun cs => (this, cs, index)
  | _ => none

end Op

namespace Forest

def run (fuel : Nat) (f : Forest) : Op → Option Forest
  | .new name => some (f.newNode name).1
  | .insert this child index => some (f.insert this child index).1
  | .insertBatch this children index => some (f.insertBatch this children index).1
  | .take this child => some (f.take this child).1
  | .delete n => f.deleteNode fuel n
  | .clear this autoDelete => f.clear fuel this autoDelete
  | .set this v => some (f.set this v)
  | .setShadow this s => some (f.setShadow this s)
  | .setFlags this watching silent => some (f.setFlags this watching silent)
  | .append this name overlap => some (f.append this name overlap).1
  | .remove this child => (f.remove fuel this child).map Prod.fst
  | .removeNamed this name => (f.removeNamed fuel this name).map Prod.fst
  | .update this v => some (f.update this v).1
  | .copy this other autoInsert autoRemove autoUpdate =>
    f.copy fuel this other autoInsert autoRemove autoUpdate

/-- The caller's part: every node passed is live, and `delete` is called on roots. -/
structure Valid (f : Forest) (op : Op) : Prop where
  live : ∀ n ∈ op.args, f.live n = true
  root : ∀ n, op = .delete n → f.parent n = none

/-- `op` is called on `f` and returns, leaving `f'`. -/
def Step (f : Forest) (op : Op) (f' : Forest) : Prop :=
  Valid f op ∧ ∃ fuel, f.run fuel op = some f'

/-- No batch holds a node twice. -/
def Distinct (_ : Forest) (op : Op) : Prop :=
  ∀ {this cs index}, op.inserts = some (this, cs, index) → cs.Nodup

/-- Insertions that succeed place distinct nodes. -/
def Places (f : Forest) (op : Op) : Prop :=
  ∀ {this cs index i}, op.inserts = some (this, cs, index) → f.insertAt this cs index = some i →
    cs.Nodup

/-- A primitive operation that inserts only distinct, bare nodes below another node. -/
structure Fresh (f : Forest) (op : Op) : Prop where
  primitive : op.primitive = true
  shadow : op.setsShadow = false
  nodup : ∀ {this cs index}, op.inserts = some (this, cs, index) → cs.Nodup
  bare : ∀ {this cs index}, op.inserts = some (this, cs, index) →
    ∀ c ∈ cs, f.parent c = none ∧ f.nodes c = [] ∧ c ≠ this

theorem nonNull_some {children : List (Option Id)} {cs : List Id}
    (h : nonNull children = some cs) : children = cs.map some := by
  induction children generalizing cs with
  | nil => cases h; rfl
  | cons c children ih =>
    cases c with
    | none => cases h
    | some c =>
      obtain ⟨ds, hds, rfl⟩ := Option.map_eq_some_iff.mp h
      simpa using ih hds

theorem nonNull_map_some (cs : List Id) : nonNull (cs.map some) = some cs := by
  induction cs with
  | nil => rfl
  | cons c cs ih => simp [nonNull, ih]

/-! ## Primitive operations -/

section Primitive

variable {f f' : Forest} {op : Op}

/-- Same links and same live nodes: the invariant is not touched. -/
theorem Inv.same (h : Inv f) (hp : f'.parent = f.parent) (hk : f'.kids = f.kids)
    (hn : f'.name = f.name) (hl : f'.live = f.live) (hx : f'.next = f.next) : Inv f' where
  linked := by
    have : f'.links = f.links := Links.ext hp (by funext p; simp only [links_down, nodes, hk])
    exact this ▸ h.linked
  indexed p := by rw [hk, hn]; exact h.indexed p
  live hc := by
    simp only [nodes, hk] at hc
    rw [hl]
    exact h.live hc
  bound hn := by
    rw [hl] at hn
    rw [hx]
    exact h.bound hn

/-- Every link of `f'` is a link of `f`. -/
def Cuts (f f' : Forest) : Prop := ∀ m, f'.parent m = f.parent m ∨ f'.parent m = none

theorem Cuts.of_unlinkAll (cs : List Id) {s : Links Id} (hs : s = f.links.unlinkAll cs)
    (h : Relinked f f' s) : Cuts f f' := fun m => by
  rw [h.parent, hs, Links.unlinkAll_up]
  by_cases hm : m ∈ cs <;> simp [hm]

/-- Only `setShadow` gives a node a shadow. -/
def Shadows (f : Forest) (op : Op) (f' : Forest) : Prop :=
  op.setsShadow = true ∨ ∀ m, f'.shadow m = f.shadow m ∨ f'.shadow m = none

theorem Relinked.shadows {s : Links Id} (h : Relinked f f' s) : Shadows f op f' :=
  .inr fun m => .inl (congrFun h.shadow m)

/-- What a primitive operation can do: keep or cut links, or insert. -/
theorem primitive_cases (h : Inv f) (hs : Step f op f') (hp : op.primitive = true)
    (hpl : Places f op) :
    Inv f' ∧ Shadows f op f' ∧ (Cuts f f' ∨ ∃ this cs index i, op.inserts = some (this, cs, index) ∧
      f.insertAt this cs index = some i ∧
      f'.links = (f.links.unlinkAll cs).link this i.toNat cs) := by
  obtain ⟨hv, fuel, hrun⟩ := hs
  cases op with
  | new name =>
    cases hrun
    refine ⟨newNode_spec h name, .inr fun m => ?_,
      .inl fun m => .inl (congrFun (congrArg Links.up (newNode_links h name)) m)⟩
    by_cases hm : m = f.next <;> simp [hm]
  | insert this child index =>
    cases hrun
    cases child with
    | none => exact ⟨h, .inr fun m => .inl rfl, .inl fun m => .inl rfl⟩
    | some c =>
      have hthis : f.live this = true := hv.live this (by simp [Op.args])
      have hc : f.live c = true := hv.live c (by simp [Op.args])
      cases hi : f.insertAt this [c] index with
      | none =>
        obtain ⟨-, hr, hinv⟩ := insert_fails h hi
        exact ⟨hinv, hr.shadows, .inl (Cuts.of_unlinkAll [c] rfl hr)⟩
      | some i =>
        obtain ⟨-, hr, hinv⟩ := insert_ok h hthis hc hi
        exact ⟨hinv, hr.shadows, .inr ⟨this, [c], index, i, rfl, hi, hr.links⟩⟩
  | insertBatch this children index =>
    cases hrun
    by_cases hne : children = []
    · simp only [insertBatch, hne, if_true]
      exact ⟨h, .inr fun m => .inl rfl, .inl fun m => .inl rfl⟩
    cases hcs : nonNull children with
    | none =>
      simp only [insertBatch, hne, if_false, hcs]
      exact ⟨h, .inr fun m => .inl rfl, .inl fun m => .inl rfl⟩
    | some cs =>
      have hins : (Op.insertBatch this children index).inserts = some (this, cs, index) := by
        simp [Op.inserts, hne, hcs]
      have hthis : f.live this = true := hv.live this (by simp [Op.args])
      have hlive : ∀ c ∈ cs, f.live c = true := fun c hc => hv.live c (by
        simp [Op.args, nonNull_some hcs, hc])
      cases hi : f.insertAt this cs index with
      | none =>
        obtain ⟨-, hr, hinv⟩ := insertBatch_fails h hne hcs hi
        exact ⟨hinv, hr.shadows, .inl (Cuts.of_unlinkAll _ rfl hr)⟩
      | some i =>
        obtain ⟨-, hr, hinv⟩ := insertBatch_ok h hne hcs (hpl hins hi) hthis hlive hi
        exact ⟨hinv, hr.shadows, .inr ⟨this, cs, index, i, hins, hi, hr.links⟩⟩
  | take this child =>
    cases hrun
    cases child with
    | none =>
      rw [take_none]
      exact ⟨h, .inr fun m => .inl rfl, .inl fun m => .inl rfl⟩
    | some c =>
      by_cases hc : c ∈ f.nodes this
      · obtain ⟨-, hr, hinv⟩ := take_spec h hc
        exact ⟨hinv, hr.shadows, .inl (Cuts.of_unlinkAll [c] rfl hr)⟩
      · obtain ⟨-, hr, hinv⟩ := take_absent h hc
        exact ⟨hinv, hr.shadows, .inl fun m => .inl (congrFun hr.parent m)⟩
  | delete n =>
    obtain ⟨D, hD⟩ := deleteNode_deleted fuel hrun
    have hroot := hv.root n rfl
    exact ⟨h.deleted hD (by simpa using hroot), .inr fun m => .inl (congrFun hD.shadow m), .inl hD.cut⟩
  | clear this auto =>
    obtain ⟨g, hnode, hlive, hnext, hg⟩ := clear_spec hrun
    obtain ⟨hr, hinv⟩ := orphan_spec h this
    have hcut := Cuts.of_unlinkAll _ rfl hr
    have hpar : f'.parent = g.parent := by funext m; simp only [parent, hnode]
    have hsame : Inv g → Inv f' := fun hi => hi.same hpar (by funext m; simp only [kids, hnode])
      (by funext m; simp only [name, hnode]) hlive hnext
    have hsh : g.shadow = f.shadow → Shadows f (.clear this auto) f' := fun he =>
      .inr fun m => .inl (by rw [← he]; simp only [shadow, hnode])
    cases auto with
    | false =>
      simp only [Bool.false_eq_true, if_false] at hg
      subst hg
      exact ⟨hsame hinv, hsh hr.shadow, .inl (by rw [Cuts, hpar]; exact hcut)⟩
    | true =>
      obtain ⟨D, hD⟩ := hg
      have hroots : ∀ r ∈ f.nodes this, (f.orphan this).parent r = none := fun r hr' => by
        rw [hr.parent, Links.unlinkAll_up, if_pos hr']
      refine ⟨hsame (hinv.deleted hD hroots), hsh (hD.shadow.trans hr.shadow), .inl fun m => ?_⟩
      rw [hpar]
      rcases hD.cut m with hm | hm
      · rw [hm]; exact hcut m
      · exact .inr hm
  | set this v =>
    cases hrun
    exact ⟨h.same (by funext m; simp [set]) (by funext m; simp [set]) (by simp [set]) rfl rfl,
      .inr fun m => .inl (by simp [set]), .inl fun m => .inl (by simp [set])⟩
  | setShadow this s =>
    cases hrun
    exact ⟨h.same (by funext m; simp) (by funext m; simp) (by simp) rfl rfl, .inl rfl,
      .inl fun m => .inl (by simp)⟩
  | setFlags this watching silent =>
    cases hrun
    exact ⟨h.same (by funext m; simp) (by funext m; simp) (by simp) rfl rfl,
      .inr fun m => .inl (by simp), .inl fun m => .inl (by simp)⟩
  | append | remove | removeNamed | update | copy => cases hp

theorem Fresh.distinct (h : Fresh f op) : Distinct f op := h.nodup

theorem Fresh.places (h : Fresh f op) : Places f op := fun hins _ => h.nodup hins

theorem Distinct.places (h : Distinct f op) : Places f op := fun hins _ => h hins

/-- A fresh insertion keeps the invariant. -/
theorem Inv.fresh_step (h : Inv f) (hs : Guarded Fresh Step f op f') : Inv f' :=
  (primitive_cases h hs.2 hs.1.primitive hs.1.places).1

theorem Inv.fresh_runs {ops : List Op} (h : Inv f) (hr : Runs (Guarded Fresh Step) f ops f') :
    Inv f' := hr.invariant (fun h hs => h.fresh_step hs) h

end Primitive

/-! ## Compound operations -/

section Compound

variable {f f' : Forest}

/-- `f'` is reached from `f` by primitive operations that insert fresh nodes only. -/
def Reaches (f f' : Forest) : Prop := ∃ ops, Runs (Guarded Fresh Step) f ops f'

theorem Reaches.refl (f : Forest) : Reaches f f := ⟨[], .nil⟩

theorem Reaches.trans {g : Forest} : Reaches f g → Reaches g f' → Reaches f f'
  | ⟨_, h₁⟩, ⟨_, h₂⟩ => ⟨_, h₁.trans h₂⟩

theorem Reaches.inv (h : Inv f) : Reaches f f' → Inv f'
  | ⟨_, hr⟩ => h.fresh_runs hr

/-- One primitive operation that inserts nothing. -/
theorem Reaches.step (op : Op) (hp : op.primitive = true) (hsh : op.setsShadow = false)
    (hi : op.inserts = none) (hs : Step f op f') : Reaches f f' :=
  ⟨[op], .single ⟨⟨hp, hsh, fun h => (by rw [hi] at h; cases h), fun h => (by rw [hi] at h; cases h)⟩,
    hs⟩⟩

theorem reaches_new (f : Forest) (nm : Str) : Reaches f (f.newNode nm).1 :=
  .step (.new nm) rfl rfl rfl ⟨⟨by simp [Op.args], by simp⟩, 0, rfl⟩

theorem reaches_newNodes (nm : Str) (k : Nat) :
    ∀ f : Forest, Reaches f (f.newNodes nm k).1 := by
  induction k with
  | zero => intro f; exact .refl f
  | succ k ih => intro f; exact (reaches_new f nm).trans (ih _)

theorem reaches_take {this c : Id} (ht : f.live this = true) (hc : f.live c = true) :
    Reaches f (f.take this (some c)).1 :=
  .step (.take this (some c)) rfl rfl rfl
    ⟨⟨by simp [Op.args, ht, hc], by simp⟩, 0, rfl⟩

theorem reaches_set {this : Id} (ht : f.live this = true) (v : Var) : Reaches f (f.set this v) :=
  .step (.set this v) rfl rfl rfl ⟨⟨by simp [Op.args, ht], by simp⟩, 0, rfl⟩

theorem reaches_update {this : Id} (ht : f.live this = true) (v : Var) :
    Reaches f (f.update this v).1 := by
  simp only [update]
  split
  · exact .refl f
  · exact reaches_set ht v

theorem reaches_delete {fuel : Nat} {n : Id} (hn : f.live n = true) (hroot : f.parent n = none)
    (hrun : f.deleteNode fuel n = some f') : Reaches f f' :=
  .step (.delete n) rfl rfl rfl
    ⟨⟨by simp [Op.args, hn], fun m hm => by cases hm; exact hroot⟩, fuel, hrun⟩

/-- Deleting needs a live node. -/
theorem live_of_deleteNode {fuel : Nat} {n : Id} (hrun : f.deleteNode fuel n = some f') :
    f.live n = true := by
  cases fuel with
  | zero => cases hrun
  | succ k =>
    simp only [deleteNode] at hrun
    split at hrun
    · assumption
    · cases hrun

/-- Inserting one bare node, whether the index is accepted or not. -/
theorem reaches_insert {this c : Id} (ht : f.live this = true) (hc : f.live c = true)
    (hroot : f.parent c = none) (hbare : f.nodes c = []) (hne : c ≠ this) (index : Int) :
    Reaches f (f.insert this (some c) index).1 := by
  refine ⟨[.insert this (some c) index], .single ⟨⟨rfl, rfl, fun h => ?_, fun h => ?_⟩,
    ⟨by simp [Op.args, ht, hc], by simp⟩, 0, rfl⟩⟩
  · cases h
    exact List.nodup_singleton c
  · cases h
    simp [hroot, hbare, hne]

theorem reaches_append {this : Id} (hinv : Inv f) (ht : f.live this = true) (nm : Str) (overlap : Int) :
    Reaches f (f.append this nm overlap).1 := by
  have hlt := hinv.bound ht
  simp only [append]
  split
  · exact .refl f
  split
  · obtain ⟨hp, hn⟩ := hinv.isolated hinv.next_dead
    refine (reaches_new f nm).trans (reaches_insert ?_ ?_ ?_ ?_ ?_ (-1))
    · simp [ht]
    · simp
    · simp
    · simp
    · exact Nat.ne_of_gt hlt
  · obtain ⟨hi, hl, hr, hlive⟩ := newNodes_spec hinv nm (1 + overlap.toNat)
    have hins : ∀ {this' cs index}, (Op.insertBatch this ((f.newNodes nm (1 + overlap.toNat)).2.map some)
        (-1)).inserts = some (this', cs, index) → this' = this ∧
        cs = List.range' f.next (1 + overlap.toNat) := fun h => by
      simp only [Op.inserts, nonNull_map_some, hr] at h
      split at h
      · cases h
      · cases h
        exact ⟨rfl, rfl⟩
    refine (reaches_newNodes nm _ f).trans
      ⟨[.insertBatch this _ (-1)], .single ⟨⟨rfl, rfl, fun h => ?_, fun h c hc => ?_⟩, ⟨?_, by simp⟩, 0, rfl⟩⟩
    · obtain ⟨rfl, rfl⟩ := hins h
      exact List.nodup_range'
    · obtain ⟨rfl, rfl⟩ := hins h
      have hge : f.next ≤ c := by
        obtain ⟨i, _, rfl⟩ := List.mem_range'.mp hc
        exact Nat.le_add_right _ _
      have hdead : f.live c = false := by
        cases hl : f.live c with
        | false => rfl
        | true => exact absurd (hinv.bound hl) (Nat.not_lt.mpr hge)
      obtain ⟨hp, hn⟩ := hinv.isolated hdead
      have hpar := congrFun (congrArg Links.up hl) c
      have hnod := congrFun (congrArg Links.down hl) c
      refine ⟨hpar.trans hp, hnod.trans hn, fun he => ?_⟩
      subst he
      exact absurd hlt (Nat.not_lt.mpr hge)
    · intro n hn
      simp only [Op.args, List.mem_cons, List.filterMap_map] at hn
      rw [hlive]
      rcases hn with rfl | hn
      · simp [ht]
      · rw [hr] at hn
        have : n ∈ List.range' f.next (1 + overlap.toNat) := by simpa using hn
        simp [this]

theorem take_some {this c : Id} {child : Option Id} (h : Inv f)
    (hr : (f.take this child).2 = some c) :
    child = some c ∧ c ∈ f.nodes this ∧ Relinked f (f.take this child).1 (f.links.unlink c) := by
  cases child with
  | none => simp [take_none] at hr
  | some d =>
    by_cases hd : d ∈ f.nodes this
    · obtain ⟨h2, hrel, _⟩ := take_spec h hd
      rw [h2] at hr
      cases hr
      exact ⟨rfl, hd, hrel⟩
    · rw [(take_absent h hd).1] at hr
      cases hr

theorem reaches_remove {fuel : Nat} {this : Id} {child : Option Id} {b : Bool} (h : Inv f)
    (ht : f.live this = true) (hc : ∀ c ∈ child, f.live c = true)
    (hrun : f.remove fuel this child = some (f', b)) : Reaches f f' := by
  have htake : Reaches f (f.take this child).1 := by
    cases child with
    | none => rw [take_none]; exact .refl f
    | some c => exact reaches_take ht (hc c rfl)
  simp only [remove] at hrun
  split at hrun
  · rename_i g n heq
    obtain ⟨f₂, hdel, hret⟩ := Option.map_eq_some_iff.mp hrun
    cases hret
    rw [heq] at htake
    obtain ⟨-, -, hrel⟩ := take_some h (c := n) (by rw [heq])
    rw [heq] at hrel
    refine htake.trans (reaches_delete (live_of_deleteNode hdel) ?_ hdel)
    rw [hrel.parent]
    simp
  · rename_i g heq
    cases hrun
    rw [heq] at htake
    exact htake

theorem nodeAt_mem {l : List Id} {i : Int} {c : Id} (h : nodeAt l i = some c) : c ∈ l := by
  simp only [nodeAt] at h
  split at h
  · exact List.mem_of_getElem? h
  · cases h

theorem child_mem {this c : Id} {index : Int} (h : f.child this index = some c) :
    c ∈ f.nodes this := by
  simp only [child] at h
  split at h
  · cases h
  · rename_i ch hch
    generalize (if index < 0 then index + (ch.nodes.length : Int) else index) = j at h
    split at h
    · cases h
    · rw [nodes, kids_of_some hch]
      exact nodeAt_mem h

theorem childNamed_mem {this c : Id} {nm : Str} {k : Int} (h : f.childNamed this nm k = some c) :
    c ∈ f.nodes this := by
  simp only [childNamed] at h
  split at h
  · exact child_mem h
  · split at h
    · cases h
    · rename_i ch hch
      split at h
      · cases h
      · split at h
        · rw [nodes, kids_of_some hch]
          exact nodeAt_mem h
        · cases h

theorem reaches_removeLoop (k : Nat) {this : Id} {nm : Str} :
    ∀ {f : Forest} {r b : Bool}, Inv f → f.removeLoop k this nm r = some (f', b) →
      Reaches f f' := by
  induction k with
  | zero => intro f r b _ hrun; cases hrun
  | succ k ih =>
    intro f r b h hrun
    simp only [removeLoop] at hrun
    split at hrun
    · cases hrun
    rename_i hlive
    have ht : f.live this = true := by simpa using hlive
    have htake : Reaches f (f.take this (f.childNamed this nm 0)).1 := by
      cases hc : f.childNamed this nm 0 with
      | none => rw [take_none]; exact .refl f
      | some c => exact reaches_take ht (h.live (childNamed_mem hc)).2
    split at hrun
    · rename_i g n heq
      obtain ⟨f₂, hdel, hrun⟩ := Option.bind_eq_some_iff.mp hrun
      obtain ⟨-, -, hrel⟩ := take_some h (c := n) (by rw [heq])
      rw [heq] at htake hrel
      have hroot : g.parent n = none := by rw [hrel.parent]; simp
      have h₂ := htake.trans (reaches_delete (live_of_deleteNode hdel) hroot hdel)
      exact h₂.trans (ih (h₂.inv h) hrun)
    · rename_i g heq
      cases hrun
      rw [heq] at htake
      exact htake

theorem reaches_removeNamed {fuel : Nat} {this : Id} {nm : Str} {b : Bool} (h : Inv f)
    (ht : f.live this = true) (hrun : f.removeNamed fuel this nm = some (f', b)) :
    Reaches f f' := by
  simp only [removeNamed] at hrun
  split at hrun
  · exact reaches_remove h ht (fun c hc => (h.live (child_mem hc)).2) hrun
  · exact reaches_removeLoop fuel h hrun

/-- A node that `insert` turned down is a root. -/
theorem insert_false {g : Forest} {this c : Id} {index : Int} (h : Inv f) (ht : f.live this = true)
    (hc : f.live c = true) (hrun : f.insert this (some c) index = (g, false)) :
    g.parent c = none := by
  cases hi : f.insertAt this [c] index with
  | none =>
    have hr := (insert_fails h hi).2.1
    rw [hrun] at hr
    rw [hr.parent]
    simp
  | some i =>
    have hb := (insert_ok h ht hc hi).1
    rw [hrun] at hb
    cases hb

/-! ## copy -/

theorem reaches_insertFresh {this : Id} (h : Inv f) (ht : f.live this = true) (nm : Str)
    (anchor : Option Id) :
    Reaches f (f.insertFresh this nm anchor).1 ∧
      ((f.insertFresh this nm anchor).2 = false → (f.insertFresh this nm anchor).1.parent f.next = none) := by
  have hne : f.next ≠ this := (Nat.ne_of_lt (h.bound ht)).symm
  have hlive : (f.newNode nm).1.live this = true := by simp [ht]
  have hnext : (f.newNode nm).1.live f.next = true := by simp
  refine ⟨(reaches_new f nm).trans
    (reaches_insert hlive hnext (by simp) (by simp) hne _), fun hb => ?_⟩
  exact insert_false (newNode_spec h nm) hlive hnext (Prod.ext rfl hb)

section Copy

variable {copyInto : Forest → Id → Id → Option Forest} {fuel : Nat} {this : Id}

theorem reaches_removeUnmatched {matched : List Id} (cs : List Id) :
    ∀ {f : Forest}, Inv f → f.removeUnmatched fuel this matched cs = some f' → Reaches f f' := by
  induction cs with
  | nil =>
    intro f _ hrun
    cases hrun
    exact .refl _
  | cons c cs ih =>
    intro f h hrun
    simp only [removeUnmatched] at hrun
    split at hrun
    · exact ih h hrun
    split at hrun
    · cases hrun
    · rename_i hlive
      simp only [Bool.or_eq_true, Bool.not_eq_true', not_or, Bool.not_eq_false] at hlive
      obtain ⟨⟨g, b⟩, hrem, hrun⟩ := Option.bind_eq_some_iff.mp hrun
      have h₁ := reaches_remove h hlive.2 (by simpa using hlive.1) hrem
      exact h₁.trans (ih (h₁.inv h) hrun)

theorem reaches_flushPending
    (hcopy : ∀ {f f' d s}, Inv f → copyInto f d s = some f' → Reaches f f')
    {anchor : Option Id} (ps : List Id) :
    ∀ {f : Forest}, Inv f → f.flushPending copyInto fuel this anchor ps = some f' →
      Reaches f f' := by
  induction ps with
  | nil =>
    intro f _ hrun
    cases hrun
    exact .refl _
  | cons p ps ih =>
    intro f h hrun
    simp only [flushPending] at hrun
    split at hrun
    · rename_i hlive
      simp only [Bool.and_eq_true] at hlive
      have h₁ := reaches_insertFresh h hlive.2 (f.name p) anchor
      obtain ⟨g, hg, hrun⟩ := Option.bind_eq_some_iff.mp hrun
      split at hg
      · have h₂ := h₁.1.trans (hcopy (h₁.1.inv h) hg)
        exact h₂.trans (ih (h₂.inv h) hrun)
      · rename_i hb
        -- the fresh node was not accepted: it is deleted again
        have hroot := h₁.2 (by simpa using hb)
        have h₂ := h₁.1.trans (reaches_delete (live_of_deleteNode hg) hroot hg)
        exact h₂.trans (ih (h₂.inv h) hrun)
    · cases hrun

theorem reaches_copyChildren
    (hcopy : ∀ {f f' d s}, Inv f → copyInto f d s = some f' → Reaches f f') {autoInsert : Bool}
    (ss : List Id) :
    ∀ {f : Forest} {st : CopyMatchState} {pending ps : List Id}, Inv f →
      copyChildren copyInto fuel this autoInsert f ss st pending = some (f', ps) →
      Reaches f f' := by
  induction ss with
  | nil =>
    intro f st pending ps _ hrun
    cases hrun
    exact .refl _
  | cons s ss ih =>
    intro f st pending ps h hrun
    simp only [copyChildren] at hrun
    split at hrun
    · cases hrun
    split at hrun
    · exact ih h hrun
    · obtain ⟨f₁, hfl, hrun⟩ := Option.bind_eq_some_iff.mp hrun
      obtain ⟨f₂, hcp, hrun⟩ := Option.bind_eq_some_iff.mp hrun
      have h₁ := reaches_flushPending hcopy pending h hfl
      have h₂ := h₁.trans (hcopy (h₁.inv h) hcp)
      exact h₂.trans (ih (h₂.inv h) hrun)

end Copy

theorem reaches_copy (fuel : Nat) {autoInsert autoRemove autoUpdate : Bool} :
    ∀ {f f' : Forest} {this : Id} {other : Option Id}, Inv f →
      f.copy fuel this other autoInsert autoRemove autoUpdate = some f' → Reaches f f' := by
  induction fuel with
  | zero => intro f f' this other _ hrun; cases hrun
  | succ k ih =>
    intro f f' this other h hrun
    simp only [copy] at hrun
    split at hrun
    · cases hrun; exact .refl _
    split at hrun
    · cases hrun; exact .refl _
    split at hrun
    · cases hrun
    obtain ⟨f₁, hrem, hrun⟩ := Option.bind_eq_some_iff.mp hrun
    obtain ⟨⟨f₂, ps⟩, hch, hrun⟩ := Option.bind_eq_some_iff.mp hrun
    obtain ⟨f₃, hfl, hrun⟩ := Option.bind_eq_some_iff.mp hrun
    have h₁ : Reaches f f₁ := by
      split at hrem
      · exact reaches_removeUnmatched _ h hrem
      · cases hrem; exact .refl _
    have h₂ := h₁.trans (reaches_copyChildren (fun h hc => ih h hc) _ (h₁.inv h) hch)
    have h₃ := h₂.trans (reaches_flushPending (fun h hc => ih h hc) _ (h₂.inv h) hfl)
    split at hrun
    · rename_i hlive
      simp only [Bool.and_eq_true] at hlive
      split at hrun
      · cases hrun; exact h₃.trans (reaches_update hlive.1 _)
      · cases hrun; exact h₃.trans (reaches_set hlive.1 _)
    · cases hrun

/-- **A compound operation is a run of primitive ones that insert fresh nodes only.** -/
theorem compound_reaches {op : Op} (h : Inv f) (hp : op.primitive = false) (hs : Step f op f') :
    Reaches f f' := by
  obtain ⟨hv, fuel, hrun⟩ := hs
  have ht : ∀ this ∈ op.args, f.live this = true := hv.live
  cases op with
  | append this nm overlap =>
    cases hrun
    exact reaches_append h (ht this (by simp [Op.args])) nm overlap
  | remove this child =>
    obtain ⟨⟨g, b⟩, hrem, rfl⟩ := Option.map_eq_some_iff.mp hrun
    exact reaches_remove h (ht this (by simp [Op.args]))
      (fun c hc => ht c (by rw [Option.mem_def.mp hc]; simp [Op.args])) hrem
  | removeNamed this nm =>
    obtain ⟨⟨g, b⟩, hrem, rfl⟩ := Option.map_eq_some_iff.mp hrun
    exact reaches_removeNamed h (ht this (by simp [Op.args])) hrem
  | update this v =>
    cases hrun
    exact reaches_update (ht this (by simp [Op.args])) v
  | copy this other ai ar au => exact reaches_copy fuel h hrun
  | new | insert | insertBatch | take | delete | clear | set | setShadow | setFlags => cases hp

/-- The rule for invariants. What the primitive operations preserve under a condition `C`, every
operation preserves under `C`, provided that inserting fresh nodes meets `C`. -/
theorem Step.preserves {C : Forest → Op → Prop} {P : Forest → Prop}
    (hfresh : ∀ {f op}, Inv f → Fresh f op → C f op) (hplaces : ∀ {f op}, C f op → Places f op)
    (hprim : ∀ {f op f'}, Inv f → P f → C f op → op.primitive = true → Step f op f' → P f')
    {op : Op} (h : Inv f ∧ P f) (hs : Guarded C Step f op f') : Inv f' ∧ P f' := by
  have hone : ∀ {f op f'}, Inv f ∧ P f → C f op → op.primitive = true → Step f op f' →
      Inv f' ∧ P f' := fun h hC hp hs =>
    ⟨(primitive_cases h.1 hs hp (hplaces hC)).1, hprim h.1 h.2 hC hp hs⟩
  cases hp : op.primitive with
  | true => exact hone h hs.1 hp hs.2
  | false =>
    obtain ⟨ops, hr⟩ := compound_reaches h.1 hp hs.2
    exact hr.invariant (I := fun f => Inv f ∧ P f)
      (fun h hs => hone h (hfresh h.1 hs.1) hs.1.primitive hs.2) h

end Compound

/-! ## Running a list of operations -/

/-- The caller's part, as a check. -/
def validB (f : Forest) (op : Op) : Bool :=
  op.args.all f.live && op.deletes.all fun n => f.parent n = none

theorem valid_of_validB {f : Forest} {op : Op} (h : f.validB op = true) : Valid f op := by
  simp only [validB, Bool.and_eq_true, List.all_eq_true] at h
  refine ⟨h.1, fun n hn => ?_⟩
  subst hn
  simpa using h.2 n (by simp [Op.deletes])

/-- Each operation in turn, as long as the callers keep to the rules and `guard` holds. -/
def script (guard : Forest → Op → Bool) (fuel : Nat) : Forest → List Op → Option Forest
  | f, [] => some f
  | f, op :: ops =>
    if guard f op && f.validB op then (f.run fuel op).bind fun f => script guard fuel f ops else none

theorem runs_script {C : Forest → Op → Prop} {guard : Forest → Op → Bool} {fuel : Nat}
    (hC : ∀ {f op}, guard f op = true → C f op) (ops : List Op) :
    ∀ {f f' : Forest}, script guard fuel f ops = some f' → Runs (Guarded C Step) f ops f' := by
  induction ops with
  | nil =>
    intro f f' h
    cases h
    exact .nil
  | cons op ops ih =>
    intro f f' h
    simp only [script] at h
    split at h
    · rename_i hg
      simp only [Bool.and_eq_true] at hg
      obtain ⟨g, hrun, h⟩ := Option.bind_eq_some_iff.mp h
      exact .cons ⟨hC hg.1, valid_of_validB hg.2, fuel, hrun⟩ (ih h)
    · cases h

/-- The forest a script leads to. -/
def scriptResult (guard : Forest → Op → Bool) (fuel : Nat) (ops : List Op) : Forest :=
  (script guard fuel init ops).getD init

theorem runs_scriptResult {C : Forest → Op → Prop} {guard : Forest → Op → Bool} {fuel : Nat}
    (hC : ∀ {f op}, guard f op = true → C f op) (ops : List Op)
    (h : (script guard fuel init ops).isSome = true) :
    Runs (Guarded C Step) init ops (scriptResult guard fuel ops) := by
  obtain ⟨f, hf⟩ := Option.isSome_iff_exists.mp h
  rw [scriptResult, hf]
  exact runs_script hC ops hf

end Forest

end VersatileEngine
