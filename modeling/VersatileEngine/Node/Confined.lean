import VersatileEngine.Node.Appended
import VersatileEngine.Node.Frees

/-!
# VersatileEngine.Node.Confined

What an operation on one node leaves alone, as far as lookups can tell.

* `Same f f' m`      — the node `m` is there with its name, value, parent, shadow and children.
* `Confined f f' t`    — only what is below `t` changes, and what is new hangs there.
* `Still f f'`       — nothing changes.
* `Acts f f' t idle` — an operation on `t`: it stays within, and it is quiet exactly when `idle`.
* `acts_clear`, `acts_remove`, `acts_removeNamed`, `acts_setShadow`, `acts_append`, `acts_insertNew` — the
  operations that a terminal makes on its target.
-/

namespace VersatileEngine

namespace Forest

structure Same (f f' : Forest) (m : Id) : Prop where
  live : f'.live m = f.live m
  name : f'.name m = f.name m
  value : f'.value m = f.value m
  parent : f'.parent m = f.parent m
  shadow : f'.shadow m = f.shadow m
  nodes : f'.nodes m = f.nodes m

structure Confined (f f' : Forest) (t : Id) : Prop where
  kept : ∀ m, f.live m = true → ¬ Below f t m → Same f f' m
  came : ∀ m, f'.live m = true → f.live m = false → ∃ p, Below f t p ∧ Below f' p m

structure Still (f f' : Forest) : Prop where
  kept : ∀ m, f.live m = true → Same f f' m
  came : ∀ m, f'.live m = true → f.live m = true

/-- What an operation on `t` does: it is not seen exactly when `idle`. -/
structure Acts (f f' : Forest) (t : Id) (idle : Prop) : Prop where
  inv : Inv f'
  confined : Confined f f' t
  noticed : Same f f' t → idle
  quiet : idle → Still f f'

section Same

variable {f g f' : Forest} {m t n : Id} {idle : Prop}

theorem Same.refl (f : Forest) (m : Id) : Same f f m := ⟨rfl, rfl, rfl, rfl, rfl, rfl⟩

theorem Same.trans (h₁ : Same f g m) (h₂ : Same g f' m) : Same f f' m :=
  ⟨h₂.live.trans h₁.live, h₂.name.trans h₁.name, h₂.value.trans h₁.value, h₂.parent.trans h₁.parent,
    h₂.shadow.trans h₁.shadow, h₂.nodes.trans h₁.nodes⟩

theorem same_of_node (hnode : f'.node m = f.node m) (hlive : f'.live m = f.live m) : Same f f' m := by
  refine ⟨hlive, ?_, ?_, ?_, ?_, ?_⟩ <;> simp only [name, value, parent, shadow, nodes, kids, hnode]

theorem Relinked.same {s : Links Id} (h : Relinked f g s) (hup : s.up m = f.parent m)
    (hdown : s.down m = f.nodes m) : Same f g m :=
  ⟨by rw [h.live], by rw [h.name], by rw [h.value], by rw [h.parent, hup], by rw [h.shadow],
    by rw [h.nodes, hdown]⟩

theorem Still.refl (f : Forest) : Still f f := ⟨fun m _ => .refl f m, fun _ h => h⟩

theorem Still.confined (h : Still f f') (t : Id) : Confined f f' t :=
  ⟨fun m hm _ => h.kept m hm, fun m hm hd => by
    rw [h.came m hm] at hd
    cases hd⟩

/-- What stays below `t` stays below all that `t` is below of. -/
theorem Confined.mono (h : Confined f f' t) (hb : Below f n t) : Confined f f' n := by
  refine ⟨fun m hm hno => h.kept m hm fun htm => hno (hb.trans htm), fun m hm hd => ?_⟩
  obtain ⟨p, htp, hpm⟩ := h.came m hm hd
  exact ⟨p, hb.trans htp, hpm⟩

/-- A child that is freed is missed. -/
theorem not_same_of_gone (hi : Inv f') {c : Id} (hc : c ∈ f.nodes t) (hd : f'.live c = false) :
    ¬ Same f f' t := by
  intro hs
  rw [← hs.nodes] at hc
  rw [(hi.live hc).2] at hd
  cases hd

end Same

/-! ## Removing -/

section Remove

variable {f g f' : Forest} {c m t : Id} {k : Nat}

/-- A child that is taken and deleted: all that is not below the receiver stays as it is. -/
theorem same_takeDelete (h : Inv f) (hc : c ∈ f.nodes t) (hrel : Relinked f g (f.links.unlink c))
    (hdel : g.deleteNode k c = some f') (hm : ¬ Below f t m) : Same f f' m := by
  have hne : m ≠ c := fun he => hm (he ▸ .step .refl hc)
  have hmc : c ∉ f.nodes m := by
    intro hmem
    have hpar := h.mem_iff.mpr hmem
    rw [h.mem_iff.mpr hc] at hpar
    exact hm (Option.some.inj hpar ▸ .refl)
  have htake : Same f g m := hrel.same (by simp [hne]) (by simp [List.erase_of_not_mem hmc])
  obtain ⟨D, hD, hunder⟩ := deleteNode_under k hdel
  have hmD : m ∉ D := by
    intro hmem
    obtain ⟨r, hr, hb⟩ := hunder m hmem
    obtain rfl := List.mem_singleton.mp hr
    refine hm ((Below.step .refl hc).trans (hb.mono fun p x hx => ?_))
    rw [hrel.nodes] at hx
    exact List.mem_of_mem_erase hx
  exact htake.trans (same_of_node (hD.frame m hmD).1 (hD.frame m hmD).2)

/-- Taking and deleting frees nodes and makes none. -/
theorem old_takeDelete {s : Links Id} (hrel : Relinked f g s) (hdel : g.deleteNode k c = some f')
    (hm : f'.live m = true) : f.live m = true := by
  rw [← hrel.live]
  cases hg : g.live m with
  | true => rfl
  | false =>
    rw [(deleteNode_freed hdel).mpr (.inl hg)] at hm
    cases hm

theorem acts_remove {child : Option Id} (h : Inv f) (hchild : ∀ c, child = some c → c ∈ f.nodes t)
    (hrun : f.run k (.remove t child) = some f') : Acts f f' t (child = none) := by
  obtain ⟨⟨f', b⟩, hrem, rfl⟩ := Option.map_eq_some_iff.mp hrun
  have hinv := (sheds_remove h hrem).inv
  have hrem' := hrem
  rw [remove] at hrem'
  cases child with
  | none =>
    rw [take_none] at hrem'
    cases hrem'
    exact ⟨h, (Still.refl f).confined t, fun _ => rfl, fun _ => .refl f⟩
  | some c =>
    have hc := hchild c rfl
    obtain ⟨htake, hrel, -⟩ := take_spec h hc
    rw [show f.take t (some c) = ((f.take t (some c)).1, some c) from Prod.ext rfl htake] at hrem'
    obtain ⟨f₂, hdel, heq⟩ := Option.map_eq_some_iff.mp hrem'
    cases heq
    refine ⟨hinv, ⟨fun m _ hm => same_takeDelete h hc hrel hdel hm, fun m hm hd => ?_⟩, fun hs => ?_, fun he => ?_⟩
    · rw [old_takeDelete hrel hdel hm] at hd
      cases hd
    · exact absurd hs (not_same_of_gone hinv hc ((deleteNode_freed hdel).mpr (.inr .refl)))
    · cases he

/-- The loop of `remove(name)`. -/
theorem confined_removeLoop {nm : Str} {b : Bool} : ∀ {f : Forest} {r : Bool}, Inv f →
    f.removeLoop k t nm r = some (f', b) →
    (∀ m, f.live m = true → ¬ Below f t m → Same f f' m) ∧ ∀ m, f'.live m = true → f.live m = true := by
  induction k with
  | zero => intro f r _ hrun; cases hrun
  | succ k ih =>
    intro f r h hrun
    simp only [removeLoop] at hrun
    split at hrun
    · cases hrun
    cases hchild : f.childNamed t nm 0 with
    | none =>
      rw [hchild, take_none] at hrun
      cases hrun
      exact ⟨fun m _ _ => .refl _ m, fun _ hm => hm⟩
    | some c =>
      have hc := childNamed_mem hchild
      obtain ⟨htake, hrel, hi⟩ := take_spec h hc
      rw [hchild, show f.take t (some c) = ((f.take t (some c)).1, some c) from Prod.ext rfl htake] at hrun
      obtain ⟨f₂, hdel, hrun⟩ := Option.bind_eq_some_iff.mp hrun
      have hroot : (f.take t (some c)).1.parent c = none := by rw [hrel.parent]; simp
      have hshed := (sheds_take h t (some c) fun _ => True).trans
        ((sheds_delete hi hroot hdel).mono fun _ _ _ => trivial) h fun _ _ hm => hm
      obtain ⟨hrest, hold⟩ := ih hshed.inv hrun
      refine ⟨fun m hm hno => ?_, fun m hm => old_takeDelete hrel hdel (hold m hm)⟩
      have hfirst := same_takeDelete h hc hrel hdel hno
      refine hfirst.trans (hrest m (hfirst.live.trans hm) fun hb => hno (hshed.below h hb hm))

theorem acts_removeNamed {nm : Str} (h : Inv f) (hnm : nm ≠ [])
    (hs : Step f (.removeNamed t nm) f') : Acts f f' t (∀ c ∈ f.nodes t, f.name c ≠ nm) := by
  have hgone := fun m => @step_gone f f' (.removeNamed t nm) h hs trivial m
  obtain ⟨-, k, hrun⟩ := hs
  obtain ⟨⟨f', b⟩, hrem, rfl⟩ := Option.map_eq_some_iff.mp hrun
  have hinv := (sheds_removeNamed h hrem).inv
  rw [removeNamed, if_neg hnm] at hrem
  obtain ⟨hkept, hold⟩ := confined_removeLoop h hrem
  refine ⟨hinv, ⟨hkept, fun m hm hd => ?_⟩, fun hs c hc hcn => ?_, fun hidle => ?_⟩
  · rw [hold m hm] at hd
    cases hd
  · refine not_same_of_gone hinv hc (hgone c ⟨c, ?_, .refl⟩) hs
    rw [removes, if_neg hnm]
    exact ⟨hc, hcn⟩
  · have hnone : f.childNamed t nm 0 = none := by
      cases hchild : f.childNamed t nm 0 with
      | none => rfl
      | some c => exact absurd (childNamed_name h hnm hchild) (hidle c (childNamed_mem hchild))
    cases k with
    | zero => cases hrem
    | succ k =>
      simp only [removeLoop, hnone, take_none] at hrem
      split at hrem
      · cases hrem
      · cases hrem
        exact .refl f

theorem acts_clear (h : Inv f) (hs : Step f (.clear t true) f') : Acts f f' t (f.nodes t = []) := by
  have hinv := (outcome_clear h hs).inv
  obtain ⟨hv, k, hrun⟩ := hs
  have hfreed := fun m => @clear_freed f f' t k m hrun
  obtain ⟨g, hnode, hlive, -, D, hD⟩ := clear_spec hrun
  obtain ⟨hr, -⟩ := orphan_spec h t
  -- what is deleted hangs below a child
  have hout : ∀ m, f.live m = true → (∀ c ∈ f.nodes t, ¬ Below f c m) → m ∉ D := by
    intro m hm hno hmem
    have hdead := (hD.dead m hmem).2.1
    rw [← hlive] at hdead
    rcases (hfreed m).mp hdead with hd | ⟨c, hc, hb⟩
    · rw [hm] at hd
      cases hd
    · exact hno c hc hb
  have hsame : ∀ m, f.live m = true → (∀ c ∈ f.nodes t, ¬ Below f c m) → (m = t → f.nodes t = []) →
      Same f f' m := by
    intro m hm hno hself
    have hframe := hD.frame m (hout m hm hno)
    have horph : Same f (f.orphan t) m := by
      refine hr.same ?_ ?_
      · rw [Links.unlinkAll_up, if_neg fun hmem => hno m hmem .refl]
        rfl
      · rw [← congrFun hr.nodes m, orphan_nodes]
        split_ifs with he
        · rw [he, hself he]
        · rfl
    exact horph.trans (same_of_node (by rw [hnode]; exact hframe.1) (by rw [hlive]; exact hframe.2))
  have hold : ∀ m, f'.live m = true → f.live m = true := by
    intro m hm
    cases hl : f.live m with
    | true => rfl
    | false =>
      rw [(hfreed m).mpr (.inl hl)] at hm
      cases hm
  refine ⟨hinv, ⟨fun m hm hno => ?_, fun m hm hd => ?_⟩, fun hs => ?_, fun hnil => ⟨fun m hm => ?_, hold⟩⟩
  · exact hsame m hm (fun c hc hb => hno ((Below.step .refl hc).trans hb)) fun he => absurd (he ▸ .refl) hno
  · rw [hold m hm] at hd
    cases hd
  · refine List.eq_nil_iff_forall_not_mem.mpr fun c hc => ?_
    exact not_same_of_gone hinv hc ((hfreed c).mpr (.inr ⟨c, hc, .refl⟩)) hs
  · exact hsame m hm (by simp [hnil]) fun _ => hnil

end Remove

/-! ## Shadows and new children -/

section Add

variable {f f' : Forest} {t : Id}

theorem acts_setShadow {sh : Option Id} (hi : Inv (f.setShadow t sh)) :
    Acts f (f.setShadow t sh) t (f.shadow t = sh) := by
  have hother : ∀ m, m ≠ t → Same f (f.setShadow t sh) m := fun m hm =>
    same_of_node (by simp [setShadow, hm]) rfl
  refine ⟨hi, ⟨fun m _ hno => hother m fun he => hno (he ▸ .refl), fun m hm hd => ?_⟩, fun hs => ?_,
    fun he => ⟨fun m _ => ?_, fun m hm => hm⟩⟩
  · rw [setShadow_live, hd] at hm
    cases hm
  · rw [← hs.shadow]
    simp [setShadow, shadow]
  · by_cases hm : m = t
    · refine same_of_node ?_ rfl
      rw [hm, ← he]
      simp [setShadow, shadow]
    · exact hother m hm

theorem acts_append {nm : Str} {overlap : Int} (h : Inv f) (ht : f.live t = true) :
    Acts f (f.append t nm overlap).1 t (overlap < 0) := by
  by_cases hneg : overlap < 0
  · have heq : (f.append t nm overlap).1 = f := by rw [append, if_pos hneg]
    rw [heq]
    exact ⟨h, (Still.refl f).confined t, fun _ => hneg, fun _ => .refl f⟩
  · obtain ⟨n, rfl⟩ := Int.eq_ofNat_of_zero_le (not_lt.mp hneg)
    obtain ⟨-, ha⟩ := append_spec h ht nm n
    refine ⟨ha.inv, ⟨fun m hm hno => ?_, fun m hm hd => ?_⟩, fun hs => ?_, fun he => absurd he hneg⟩
    · have hnew : m ∉ List.range' f.next (n + 1) := h.not_coming hm _
      refine same_of_node (ha.others m hnew fun he => hno (he ▸ .refl)) ?_
      rw [ha.live, decide_eq_false hnew, Bool.false_or]
    · rw [ha.live, hd, Bool.or_false, decide_eq_true_eq] at hm
      exact ⟨t, .refl, .step .refl (by rw [ha.nodes]; exact List.mem_append_right _ hm)⟩
    · have hnodes := hs.nodes
      rw [ha.nodes] at hnodes
      simp at hnodes

/-- `auto* c = new Node(name); if (!t->insert(c, idx)) delete c;`. -/
def insertNew (f : Forest) (k : Nat) (t : Id) (nm : Str) (idx : Int) : Option Forest :=
  let r := (f.newNode nm).1.insert t (some f.next) idx
  if r.2 then some r.1 else r.1.deleteNode k f.next

theorem acts_insertNew {nm : Str} {idx : Int} {k : Nat} (h : Inv f) (ht : f.live t = true)
    (hrun : f.insertNew k t nm idx = some f') :
    Acts f f' t (resolveIndex idx (f.nodes t).length = none) := by
  have hi := newNode_spec h nm
  have hlinks := newNode_links h nm
  have hroot : (f.newNode nm).1.links.unlink f.next = f.links := by
    rw [hi.linked.unlink_root (by simp), hlinks]
  have hat : (f.newNode nm).1.insertAt t [f.next] idx = resolveIndex idx (f.nodes t).length := by
    rw [insertAt, Links.unlinkAll, List.foldl_cons, List.foldl_nil, hroot]
    rfl
  have hne : ∀ m, f.live m = true → m ≠ f.next := by
    rintro m hm rfl
    rw [h.next_dead] at hm
    cases hm
  have hnew : ∀ m, f.live m = true → Same f (f.newNode nm).1 m := fun m hm =>
    same_of_node (by simp [hne m hm]) (by simp [hne m hm])
  rw [insertNew] at hrun
  cases hres : resolveIndex idx (f.nodes t).length with
  | none =>
    obtain ⟨hfail, hr, hinv⟩ := insert_fails hi (hat.trans hres)
    rw [hroot] at hr
    simp only [hfail, Bool.false_eq_true, if_false] at hrun
    obtain ⟨D, hD, hunder⟩ := deleteNode_under k hrun
    have hnil : f.nodes f.next = [] := (h.isolated h.next_dead).2
    -- nothing hangs below the new node
    have hone : ∀ m, Below ((f.newNode nm).1.insert t (some f.next) idx).1 f.next m → m = f.next := by
      intro m hb
      induction hb with
      | refl => rfl
      | step _ hmem ih =>
        rw [ih, hr.nodes, links_down, hnil] at hmem
        cases hmem
    have hout : ∀ m, m ≠ f.next → m ∉ D := by
      intro m hm hmem
      obtain ⟨r, hroot, hb⟩ := hunder m hmem
      obtain rfl := List.mem_singleton.mp hroot
      exact hm (hone m hb)
    have hold : ∀ m, f'.live m = true → f.live m = true := by
      intro m hm
      by_cases he : m = f.next
      · rw [he, (deleteNode_freed hrun).mpr (.inr .refl)] at hm
        cases hm
      · rw [(hD.frame m (hout m he)).2, hr.live, newNode_live, if_neg he] at hm
        exact hm
    have hstill : Still f f' := by
      refine ⟨fun m hm => ?_, hold⟩
      have hframe := hD.frame m (hout m (hne m hm))
      have hins := @Relinked.same _ _ m _ hr (by simp [hne m hm]) (by simp [hne m hm])
      exact (hnew m hm).trans (hins.trans (same_of_node hframe.1 hframe.2))
    refine ⟨hinv.deleted hD ?_, hstill.confined t, fun _ => rfl, fun _ => hstill⟩
    intro r hroot
    obtain rfl := List.mem_singleton.mp hroot
    rw [hr.parent]
    exact (h.isolated h.next_dead).1
  | some i =>
    obtain ⟨hok, hr, hinv⟩ := insert_ok hi (by simp [ht]) (by simp) (hat.trans hres)
    rw [hroot] at hr
    simp only [hok, if_true] at hrun
    obtain rfl := Option.some.inj hrun
    have hmem : f.next ∈ ((f.newNode nm).1.insert t (some f.next) idx).1.nodes t := by
      rw [hr.nodes]
      simp
    refine ⟨hinv, ⟨fun m hm hno => ?_, fun m hm hd => ?_⟩, fun hs => ?_, fun he => by cases he⟩
    · have hmt : m ≠ t := fun he => hno (he ▸ .refl)
      refine (hnew m hm).trans (hr.same ?_ ?_)
      · simp [hne m hm]
      · simp [hmt, hne m hm]
    · rw [hr.live, newNode_live] at hm
      split_ifs at hm with he
      · rw [he]
        exact ⟨t, .refl, .step .refl hmem⟩
      · rw [hd] at hm
        cases hm
    · rw [hs.nodes] at hmem
      exact absurd rfl (hne _ (h.live hmem).2)

end Add

end Forest

end VersatileEngine
