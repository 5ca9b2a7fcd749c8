import VersatileEngine.Node.Shape

/-!
# VersatileEngine.Node.Life

Creating and deleting nodes.

* `newNode_spec`, `newNodes_spec` — a new node is a live root without children; nothing else moves.
* `deleteNode_deleted`            — `delete n` frees a set of nodes that is closed under children,
  cuts what it frees off everything, and leaves every other record alone. Nothing is assumed about
  the shape: where the deletion would free a node twice it has no result.
* `Inv.deleted`                   — deleting roots keeps the state invariant.
* `clear_spec`                    — `clear` cuts all children off and may delete them.
-/

namespace VersatileEngine

namespace Forest

section New

variable {f : Forest}

theorem newNode_links (h : Inv f) (nm : Str) : (f.newNode nm).1.links = f.links := by
  obtain ⟨hp, hn⟩ := h.isolated h.next_dead
  simp only [links, Links.mk.injEq]
  refine ⟨funext fun m => ?_, funext fun m => ?_⟩
  · by_cases hm : m = f.next <;> simp [hm, hp]
  · by_cases hm : m = f.next <;> simp [hm, hn]

theorem newNode_spec (h : Inv f) (nm : Str) : Inv (f.newNode nm).1 where
  linked := newNode_links h nm ▸ h.linked
  indexed p := by
    by_cases hp : p = f.next
    · simpa [hp] using Children.indexed_empty
    · refine Children.Indexed.congr (by simpa [hp] using h.indexed p) fun c hc => ?_
      have hlive := (h.live (p := p) (c := c) (by simpa [hp, nodes] using hc)).2
      have hne : c ≠ f.next := fun he => by
        rw [he, h.next_dead] at hlive
        cases hlive
      simp [hne]
  live {p c} hc := by
    have hlinks := congrFun (congrArg Links.down (newNode_links h nm)) p
    simp only [links_down] at hlinks
    rw [hlinks] at hc
    obtain ⟨h1, h2⟩ := h.live hc
    simp [h1, h2]
  bound {n} hn := by
    simp only [newNode_live, newNode_next] at hn ⊢
    split at hn
    · rename_i he
      exact he ▸ Nat.lt_succ_self _
    · exact Nat.lt_succ_of_lt (h.bound hn)

/-- A run of `newNode`: the new nodes are distinct live roots, the old ones are as before. -/
theorem newNodes_spec (h : Inv f) (nm : Str) (k : Nat) :
    Inv (f.newNodes nm k).1 ∧ (f.newNodes nm k).1.links = f.links ∧
      (f.newNodes nm k).2 = List.range' f.next k ∧
      (∀ m, (f.newNodes nm k).1.live m = (decide (m ∈ List.range' f.next k) || f.live m)) := by
  induction k generalizing f with
  | zero => exact ⟨h, rfl, rfl, fun m => by simp [newNodes]⟩
  | succ k ih =>
    obtain ⟨hi, hl, hr, hlive⟩ := ih (newNode_spec h nm)
    refine ⟨hi, hl.trans (newNode_links h nm), ?_, fun m => ?_⟩
    · simp only [newNodes, hr, newNode_next, List.range'_succ]
    · simp only [newNodes, hlive, newNode_live, newNode_next, List.range'_succ, List.mem_cons]
      by_cases hm : m = f.next <;> simp [hm]

end New

/-! ## Deleting -/

/-- From `f` to `f'` exactly the nodes `D` went: the roots `rs` and what hangs below them. -/
structure Deleted (f f' : Forest) (rs D : List Id) : Prop where
  dead : ∀ m ∈ D, f.live m = true ∧ f'.live m = false ∧ (f'.node m).children = none
  closed : ∀ m ∈ D, ∀ c ∈ f.nodes m, c ∈ D ∧ f'.parent c = none
  frame : ∀ m, m ∉ D → f'.node m = f.node m ∧ f'.live m = f.live m
  cut : ∀ m, f'.parent m = f.parent m ∨ f'.parent m = none
  roots : ∀ r ∈ rs, r ∈ D
  below : ∀ m ∈ D, m ∈ rs ∨ ∃ p ∈ D, m ∈ f.nodes p
  name : f'.name = f.name
  shadow : f'.shadow = f.shadow
  next : f'.next = f.next

section Delete

variable {f g f' : Forest} {rs ss D E : List Id}

theorem Deleted.refl (f : Forest) : Deleted f f [] [] := by
  constructor <;> simp

/-- One deletion after the other: the second one meets only what the first one left. -/
theorem Deleted.trans (h₁ : Deleted f g rs D) (h₂ : Deleted g f' ss E) :
    Deleted f f' (rs ++ ss) (D ++ E) := by
  have disj : ∀ m, m ∈ E → m ∉ D := fun m hE hD => by
    have := (h₁.dead m hD).2.1
    rw [(h₂.dead m hE).1] at this
    cases this
  have nodesE : ∀ m, m ∈ E → g.nodes m = f.nodes m := fun m hE => by
    simp only [nodes, kids, (h₁.frame m (disj m hE)).1]
  constructor
  · intro m hm
    rcases List.mem_append.mp hm with hD | hE
    · obtain ⟨a, b, c⟩ := h₁.dead m hD
      have hnE : m ∉ E := fun hE => disj m hE hD
      rw [(h₂.frame m hnE).1, (h₂.frame m hnE).2]
      exact ⟨a, b, c⟩
    · obtain ⟨a, b, c⟩ := h₂.dead m hE
      rw [(h₁.frame m (disj m hE)).2] at a
      exact ⟨a, b, c⟩
  · intro m hm c hc
    rcases List.mem_append.mp hm with hD | hE
    · obtain ⟨a, b⟩ := h₁.closed m hD c hc
      exact ⟨List.mem_append_left _ a, (h₂.cut c).elim (fun h => h.trans b) id⟩
    · obtain ⟨a, b⟩ := h₂.closed m hE c (nodesE m hE ▸ hc)
      exact ⟨List.mem_append_right _ a, b⟩
  · intro m hm
    simp only [List.mem_append, not_or] at hm
    obtain ⟨a, b⟩ := h₁.frame m hm.1
    obtain ⟨c, d⟩ := h₂.frame m hm.2
    exact ⟨c.trans a, d.trans b⟩
  · intro m
    rcases h₂.cut m with h | h
    · rw [h]; exact h₁.cut m
    · exact .inr h
  · intro r hr
    rcases List.mem_append.mp hr with hr | hr
    · exact List.mem_append_left _ (h₁.roots r hr)
    · exact List.mem_append_right _ (h₂.roots r hr)
  · intro m hm
    rcases List.mem_append.mp hm with hD | hE
    · rcases h₁.below m hD with h | ⟨p, hp, hmp⟩
      · exact .inl (List.mem_append_left _ h)
      · exact .inr ⟨p, List.mem_append_left _ hp, hmp⟩
    · rcases h₂.below m hE with h | ⟨p, hp, hmp⟩
      · exact .inl (List.mem_append_right _ h)
      · exact .inr ⟨p, List.mem_append_right _ hp, nodesE p hp ▸ hmp⟩
  · exact h₂.name.trans h₁.name
  · exact h₂.shadow.trans h₁.shadow
  · exact h₂.next.trans h₁.next

/-- Clearing the parent of a node before it goes changes nothing that outlives the deletion. -/
theorem Deleted.of_setParent {c : Id} (h : Deleted (f.setParent c none) f' [c] D) :
    Deleted f f' [c] D ∧ f'.parent c = none := by
  have hc : c ∈ D := h.roots c (by simp)
  refine ⟨⟨fun m hm => h.dead m hm, fun m hm d hd => h.closed m hm d (by simpa using hd), ?_, ?_,
    h.roots, fun m hm => ?_, by simpa using h.name, ?_, h.next⟩, ?_⟩
  · intro m hm
    have hmc : m ≠ c := fun he => hm (he ▸ hc)
    obtain ⟨a, b⟩ := h.frame m hm
    simp only [setParent, setNode_node, hmc, if_false] at a
    exact ⟨a, b⟩
  · intro m
    rcases h.cut m with hm | hm
    · rw [setParent_parent] at hm
      split at hm
      · exact .inr hm
      · exact .inl hm
    · exact .inr hm
  · simpa using h.below m hm
  · rw [h.shadow]; funext m; simp
  · rcases h.cut c with hm | hm
    · simpa using hm
    · exact hm

/-- The children loop of `clearChildren(true)`. -/
theorem deleteAll_deleted {del : Forest → Id → Option Forest}
    (hdel : ∀ {f f' n}, del f n = some f' → ∃ D, Deleted f f' [n] D) (cs : List Id) :
    ∀ {f f' : Forest}, cs.foldlM (fun f c => del (f.setParent c none) c) f = some f' →
      ∃ D, Deleted f f' cs D ∧ ∀ c ∈ cs, f'.parent c = none := by
  induction cs with
  | nil =>
    intro f f' h
    cases h
    exact ⟨[], Deleted.refl f, by simp⟩
  | cons c cs ih =>
    intro f f' h
    rw [List.foldlM_cons] at h
    obtain ⟨g, hg, h⟩ := Option.bind_eq_some_iff.mp h
    obtain ⟨D, hD⟩ := hdel hg
    obtain ⟨hD, hc⟩ := hD.of_setParent
    obtain ⟨E, hE, hcs⟩ := ih h
    refine ⟨D ++ E, hD.trans hE, fun d hd => ?_⟩
    rcases List.mem_cons.mp hd with rfl | hd
    · exact (hE.cut d).elim (fun h => h.trans hc) id
    · exact hcs d hd

theorem setChildren_self {n : Id} {ch : Option Children} (h : (f.node n).children = ch) :
    f.setChildren n ch = f := by
  have hnode : (f.setChildren n ch).node = f.node := by
    funext m
    by_cases hm : m = n
    · subst hm; simp [setChildren, ← h]
    · simp [setChildren, hm]
  cases f
  simp only [setChildren, setNode, mk.injEq, and_true] at hnode ⊢
  exact hnode

/-- Freeing a node whose children are gone. -/
theorem Deleted.add_root {n : Id} (hn : f.live n = true) (h : Deleted f g (f.nodes n) D)
    (hcs : ∀ c ∈ f.nodes n, g.parent c = none) :
    Deleted f ((g.setChildren n none).free n) [n] (n :: D) where
  dead m hm := by
    by_cases hmn : m = n
    · subst hmn; simp [hn, setChildren]
    · have hD : m ∈ D := by simpa [hmn] using hm
      simpa [hmn, setChildren] using h.dead m hD
  closed m hm c hc := by
    by_cases hmn : m = n
    · subst hmn
      exact ⟨by simp [h.roots c hc], by simpa using hcs c hc⟩
    · have hD : m ∈ D := by simpa [hmn] using hm
      obtain ⟨a, b⟩ := h.closed m hD c hc
      exact ⟨by simp [a], by simpa using b⟩
  frame m hm := by
    simp only [List.mem_cons, not_or] at hm
    simpa [hm.1, setChildren] using h.frame m hm.2
  cut m := by simpa using h.cut m
  roots r hr := by simp_all
  below m hm := by
    rcases List.mem_cons.mp hm with rfl | hm
    · exact .inl (by simp)
    · refine .inr ?_
      rcases h.below m hm with hmn | ⟨p, hp, hmp⟩
      · exact ⟨n, by simp, hmn⟩
      · exact ⟨p, by simp [hp], hmp⟩
  name := by simpa using h.name
  shadow := by rw [← h.shadow]; funext m; simp
  next := by simpa using h.next

theorem deleteNode_deleted (k : Nat) :
    ∀ {f f' : Forest} {n : Id}, f.deleteNode k n = some f' → ∃ D, Deleted f f' [n] D := by
  induction k with
  | zero => intro f f' n h; cases h
  | succ k ih =>
    intro f f' n h
    simp only [deleteNode] at h
    split at h
    · rename_i hlive
      obtain ⟨g, hg, rfl⟩ := Option.map_eq_some_iff.mp h
      simp only [clearChildren] at hg
      split at hg
      · rename_i hch
        cases hg
        have hnil : f.nodes n = [] := nodes_of_none hch
        have := Deleted.add_root hlive (hnil ▸ Deleted.refl f) (by simp [hnil])
        rw [setChildren_self hch] at this
        exact ⟨_, this⟩
      · rename_i ch hch
        obtain ⟨g', hg', rfl⟩ := Option.map_eq_some_iff.mp hg
        have hns : ch.nodes = f.nodes n := by rw [nodes, kids_of_some hch]
        simp only [if_true, hns] at hg'
        obtain ⟨D, hD, hcs⟩ := deleteAll_deleted ih _ hg'
        exact ⟨_, hD.add_root hlive hcs⟩
    · cases h

/-- Deleting roots keeps the state invariant. -/
theorem Inv.deleted (hi : Inv f) (h : Deleted f f' rs D) (hrs : ∀ r ∈ rs, f.parent r = none) :
    Inv f' := by
  have dead_nodes : ∀ m ∈ D, f'.nodes m = [] := fun m hm => nodes_of_none (h.dead m hm).2.2
  have dead_parent : ∀ m ∈ D, f'.parent m = none := fun m hm => by
    rcases h.below m hm with hr | ⟨p, hp, hmp⟩
    · exact (h.cut m).elim (fun h => h.trans (hrs m hr)) id
    · exact (h.closed p hp m hmp).2
  have frame_nodes : ∀ m, m ∉ D → f'.nodes m = f.nodes m := fun m hm => by
    simp only [nodes, kids, (h.frame m hm).1]
  have frame_parent : ∀ m, m ∉ D → f'.parent m = f.parent m := fun m hm => by
    simp only [parent, (h.frame m hm).1]
  -- a child of a node that stays, stays
  have stays : ∀ p c, p ∉ D → c ∈ f.nodes p → c ∉ D := by
    intro p c hp hc hD
    have hpc := hi.mem_iff.mpr hc
    rcases h.below c hD with hr | ⟨q, hq, hcq⟩
    · rw [hrs c hr] at hpc
      cases hpc
    · rw [hi.mem_iff.mpr hcq] at hpc
      cases hpc
      exact hp hq
  have nodes_cases : ∀ p, f'.nodes p = [] ∨ p ∉ D ∧ f'.nodes p = f.nodes p := fun p => by
    by_cases hp : p ∈ D
    · exact .inl (dead_nodes p hp)
    · exact .inr ⟨hp, frame_nodes p hp⟩
  refine ⟨⟨fun c p => ?_, fun p => ?_⟩, fun p => ?_, fun {p c} hc => ?_, fun {n} hn => ?_⟩
  · simp only [links_up, links_down]
    by_cases hc : c ∈ D
    · rw [dead_parent c hc]
      refine ⟨fun h => (by cases h), fun hmem => ?_⟩
      rcases nodes_cases p with hnil | ⟨hp, heq⟩
      · simp [hnil] at hmem
      · exact absurd hc (stays p c hp (heq ▸ hmem))
    · rw [frame_parent c hc]
      by_cases hp : p ∈ D
      · rw [dead_nodes p hp]
        constructor
        · intro hpc
          exact absurd (h.closed p hp c (hi.mem_iff.mp hpc)).1 hc
        · intro hmem
          simp at hmem
      · rw [frame_nodes p hp]
        exact hi.mem_iff
  · rcases nodes_cases p with hnil | ⟨-, heq⟩
    · simp [hnil]
    · simpa [heq] using hi.nodup p
  · by_cases hp : p ∈ D
    · have hk : f'.kids p = .empty := by simp [kids, (h.dead p hp).2.2]
      rw [hk]
      exact Children.indexed_empty
    · have hk : f'.kids p = f.kids p := by simp only [kids, (h.frame p hp).1]
      rw [hk, h.name]
      exact hi.indexed p
  · rcases nodes_cases p with hnil | ⟨hp, heq⟩
    · simp [hnil] at hc
    · have hc' : c ∈ f.nodes p := heq ▸ hc
      rw [(h.frame p hp).2, (h.frame c (stays p c hp hc')).2]
      exact hi.live hc'
  · rw [h.next]
    by_cases hD : n ∈ D
    · rw [(h.dead n hD).2.1] at hn
      cases hn
    · rw [(h.frame n hD).2] at hn
      exact hi.bound hn

end Delete

/-! ## clear -/

section Clear

variable {f : Forest} {this : Id}

/-- `clear` without deletion: every child is a root afterwards. -/
def orphan (f : Forest) (this : Id) : Forest :=
  (f.setParents (f.nodes this) none).setChildren this none

theorem orphan_nodes (f : Forest) (this p : Id) :
    (f.orphan this).nodes p = if p = this then [] else f.nodes p := by
  have hk := (setParents_spec (f.nodes this) none f).2.1
  have hn : (f.setParents (f.nodes this) none).nodes p = f.nodes p :=
    congrArg Children.nodes (congrFun hk p)
  rw [orphan, setChildren_nodes, hn]
  rfl

theorem orphan_spec (h : Inv f) (this : Id) :
    Relinked f (f.orphan this) (f.links.unlinkAll (f.nodes this)) ∧ Inv (f.orphan this) := by
  obtain ⟨hp, hk, hname, hval, hsh, hl, hnx⟩ := setParents_spec (f.nodes this) none f
  have hdown : ∀ p, (f.links.unlinkAll (f.nodes this)).down p = if p = this then [] else f.nodes p := by
    intro p
    rw [h.linked.unlinkAll_down]
    by_cases hpt : p = this
    · subst hpt; simp
    · rw [if_neg hpt, links_down, List.filter_eq_self]
      intro c hc
      have hne : c ∉ f.nodes this := fun hmem => by
        have := h.mem_iff.mpr hmem
        rw [h.mem_iff.mpr hc] at this
        exact hpt (Option.some.inj this)
      simp [hne]
  have hlinks : (f.orphan this).links = f.links.unlinkAll (f.nodes this) := by
    refine Links.ext (funext fun m => ?_) (funext fun p => ?_)
    · simp [orphan, hp, Links.unlinkAll_up]
    · rw [hdown, links_down, orphan_nodes]
  have hrel : Relinked f (f.orphan this) (f.links.unlinkAll (f.nodes this)) :=
    ⟨hlinks, by simp [orphan, hname], by funext m; simp [orphan, hval], by funext m; simp [orphan, hsh],
      hl, hnx⟩
  refine ⟨hrel, h.relink hrel (h.linked.unlinkAll _) (fun p => ?_) fun {p c} hc => ?_⟩
  · by_cases hpt : p = this
    · simpa [orphan, hpt] using Children.indexed_empty
    · simpa [orphan, hpt, hk, hname] using h.indexed p
  · rw [hdown] at hc
    split at hc
    · simp at hc
    · exact h.live hc

theorem setParents_node (cs : List Id) (p : Option Id) : ∀ (f : Forest) (m : Id),
    (f.setParents cs p).node m = if m ∈ cs then { f.node m with parent := p } else f.node m := by
  induction cs with
  | nil => exact fun f m => by simp [setParents]
  | cons c cs ih =>
    intro f m
    have hstep := ih (f.setParent c p) m
    simp only [setParents, List.foldl_cons, setParent, setNode_node, List.mem_cons] at hstep ⊢
    rw [hstep]
    by_cases hc : m = c <;> by_cases hm : m ∈ cs <;> simp [hc, hm]

/-- `clear(true)` as the deletion of the orphaned children. -/
theorem Deleted.of_orphan {g : Forest} {D : List Id} (h : Deleted f g (f.nodes this) D)
    (hcs : ∀ c ∈ f.nodes this, g.parent c = none) :
    Deleted (f.orphan this) (g.setChildren this none) (f.nodes this) D := by
  obtain ⟨hp, hk, hname, -, hsh, hl, hnx⟩ := setParents_spec (f.nodes this) none f
  have hlive : (f.orphan this).live = f.live := hl
  refine ⟨fun m hm => ?_, fun m hm c hc => ?_, fun m hm => ?_, fun m => ?_, h.roots,
    fun m hm => ?_, by simp [orphan, hname, h.name], by funext m; simp [orphan, hsh, h.shadow], by rw [setChildren_next, h.next]; exact hnx.symm⟩
  · obtain ⟨a, b, c⟩ := h.dead m hm
    refine ⟨hlive ▸ a, b, ?_⟩
    by_cases hmt : m = this
    · simp [setChildren, hmt]
    · simpa [setChildren, hmt] using c
  · rw [orphan_nodes] at hc
    split at hc
    · simp at hc
    · simpa using h.closed m hm c hc
  · obtain ⟨a, b⟩ := h.frame m hm
    have hmem : m ∉ f.nodes this := fun hmem => hm (h.roots m hmem)
    have hset := (setParents_node _ none f _).trans (if_neg hmem)
    refine ⟨?_, by rw [hlive]; exact b⟩
    by_cases hmt : m = this
    · subst hmt; simp [orphan, setChildren, a, hset]
    · simp [orphan, setChildren, hmt, a, hset]
  · have horph : (f.orphan this).parent m = if m ∈ f.nodes this then none else f.parent m := by
      simp [orphan, hp]
    rw [setChildren_parent, horph]
    by_cases hmem : m ∈ f.nodes this
    · simp [hmem, hcs m hmem]
    · simpa [hmem] using h.cut m
  · rcases h.below m hm with hr | ⟨p, hpD, hmp⟩
    · exact .inl hr
    · by_cases hpt : p = this
      · exact .inl (hpt ▸ hmp)
      · exact .inr ⟨p, hpD, by rw [orphan_nodes, if_neg hpt]; exact hmp⟩

theorem foldlM_setParent (cs : List Id) :
    ∀ f : Forest, cs.foldlM (fun f c => some (f.setParent c none)) f = some (f.setParents cs none) := by
  induction cs with
  | nil => intro f; rfl
  | cons c cs ih => intro f; exact ih (f.setParent c none)

/-- **clear**: the children are cut off; with `auto_delete` they and all below them are freed. -/
theorem clear_spec {fuel : Nat} {auto : Bool} {f' : Forest}
    (hrun : f.clear fuel this auto = some f') :
    ∃ g, f'.node = g.node ∧ f'.live = g.live ∧ f'.next = g.next ∧
      if auto then ∃ D, Deleted (f.orphan this) g (f.nodes this) D else g = f.orphan this := by
  simp only [clear] at hrun
  split at hrun
  · rename_i hch
    cases hrun
    have horph : f.orphan this = f := by
      rw [orphan, nodes_of_none hch]
      exact setChildren_self hch
    refine ⟨f, rfl, rfl, rfl, ?_⟩
    rw [horph, nodes_of_none hch]
    cases auto
    · simp
    · exact ⟨[], Deleted.refl f⟩
  · rename_i ch hch
    have hns : ch.nodes = f.nodes this := by rw [nodes, kids_of_some hch]
    obtain ⟨g, hg, rfl⟩ := Option.map_eq_some_iff.mp hrun
    refine ⟨g, by split <;> rfl, by split <;> rfl, by split <;> rfl, ?_⟩
    simp only [clearChildren, hch, hns] at hg
    obtain ⟨g', hg', rfl⟩ := Option.map_eq_some_iff.mp hg
    cases auto
    · simp only [Bool.false_eq_true, if_false, foldlM_setParent] at hg' ⊢
      cases hg'
      rfl
    · simp only [if_true] at hg' ⊢
      obtain ⟨D, hD, hcs⟩ := deleteAll_deleted (deleteNode_deleted fuel) _ hg'
      exact ⟨D, hD.of_orphan hcs⟩

end Clear

end Forest

end VersatileEngine
