import VersatileEngine.Node.Copy

/-!
# VersatileEngine.Node.Below

What is freed along with a node.

* `Below f r m`        — `m` is `r`, or hangs below it.
* `deleteNode_freed`   — deleting a node frees exactly what is below it.
* `Sheds f f' S`       — from `f` to `f'` no old node is moved, and the old nodes that go are of `S`.
* `sheds_remove`, `sheds_removeNamed`, `sheds_copy` — what the compound operations free.
-/

namespace VersatileEngine

namespace Forest

/-- `m` is `r`, or hangs below it. -/
inductive Below (f : Forest) (r : Id) : Id → Prop
  | refl : Below f r r
  | step {p m : Id} (h : Below f r p) (hm : m ∈ f.nodes p) : Below f r m

section Below

variable {f g f' : Forest} {r a m n : Id} {rs ss D E : List Id}

theorem Below.trans (h₁ : Below f r a) (h₂ : Below f a m) : Below f r m := by
  induction h₂ with
  | refl => exact h₁
  | step _ hm ih => exact .step ih hm

theorem Below.mono (h : ∀ p c, c ∈ g.nodes p → c ∈ f.nodes p) (hb : Below g r m) : Below f r m := by
  induction hb with
  | refl => exact .refl
  | step _ hm ih => exact .step ih (h _ _ hm)

/-- What hangs below a live node is live. -/
theorem Below.live (h : Inv f) (hr : f.live r = true) (hb : Below f r m) : f.live m = true := by
  induction hb with
  | refl => exact hr
  | step _ hm _ => exact (h.live hm).2

/-- A deletion gives no node new children. -/
theorem Deleted.nodes_sub (h : Deleted f f' rs D) (p c : Id) (hc : c ∈ f'.nodes p) : c ∈ f.nodes p := by
  by_cases hp : p ∈ D
  · rw [nodes_of_none (h.dead p hp).2.2] at hc
    cases hc
  · rwa [nodes, kids, (h.frame p hp).1] at hc

/-- All that is freed is below the roots of the deletion. -/
def Under (f : Forest) (rs D : List Id) : Prop := ∀ m ∈ D, ∃ r ∈ rs, Below f r m

theorem deleteAll_under {del : Forest → Id → Option Forest}
    (hdel : ∀ {f f' n}, del f n = some f' → ∃ D, Deleted f f' [n] D ∧ Under f [n] D) (cs : List Id) :
    ∀ {f f' : Forest}, cs.foldlM (fun f c => del (f.setParent c none) c) f = some f' →
      ∃ D, Deleted f f' cs D ∧ (∀ c ∈ cs, f'.parent c = none) ∧ Under f cs D := by
  induction cs with
  | nil =>
    intro f f' h
    cases h
    exact ⟨[], Deleted.refl f, by simp, fun m hm => (by cases hm)⟩
  | cons c cs ih =>
    intro f f' h
    rw [List.foldlM_cons] at h
    obtain ⟨g, hg, h⟩ := Option.bind_eq_some_iff.mp h
    obtain ⟨D, hD, hunder⟩ := hdel hg
    obtain ⟨hD, hc⟩ := hD.of_setParent
    obtain ⟨E, hE, hcs, hunder'⟩ := ih h
    refine ⟨D ++ E, hD.trans hE, fun d hd => ?_, fun m hm => ?_⟩
    · rcases List.mem_cons.mp hd with rfl | hd
      · exact (hE.cut d).elim (fun h => h.trans hc) id
      · exact hcs d hd
    · rcases List.mem_append.mp hm with hm | hm
      · obtain ⟨r, hr, hb⟩ := hunder m hm
        obtain rfl := List.mem_singleton.mp hr
        exact ⟨r, by simp, hb.mono fun p x hx => by simpa using hx⟩
      · obtain ⟨r, hr, hb⟩ := hunder' m hm
        exact ⟨r, by simp [hr], hb.mono hD.nodes_sub⟩

theorem deleteNode_under (k : Nat) : ∀ {f f' : Forest} {n : Id}, f.deleteNode k n = some f' →
    ∃ D, Deleted f f' [n] D ∧ Under f [n] D := by
  induction k with
  | zero => intro f f' n h; cases h
  | succ k ih =>
    intro f f' n h
    simp only [deleteNode] at h
    split at h
    · rename_i hlive
      obtain ⟨g, hg, rfl⟩ := Option.map_eq_some_iff.mp h
      simp only [clearChildren] at hg
      split at hg
      · rename_i hch
        cases hg
        have hnil : f.nodes n = [] := nodes_of_none hch
        have := Deleted.add_root hlive (hnil ▸ Deleted.refl f) (by simp [hnil])
        rw [setChildren_self hch] at this
        refine ⟨_, this, fun m hm => ⟨n, by simp, ?_⟩⟩
        rw [hnil] at hm
        obtain rfl := List.mem_singleton.mp hm
        exact .refl
      · rename_i ch hch
        obtain ⟨g', hg', rfl⟩ := Option.map_eq_some_iff.mp hg
        have hns : ch.nodes = f.nodes n := by rw [nodes, kids_of_some hch]
        simp only [if_true, hns] at hg'
        obtain ⟨D, hD, hcs, hunder⟩ := deleteAll_under ih _ hg'
        refine ⟨_, hD.add_root hlive hcs, fun m hm => ⟨n, by simp, ?_⟩⟩
        rcases List.mem_cons.mp hm with rfl | hm
        · exact .refl
        · obtain ⟨r, hr, hb⟩ := hunder m hm
          exact Below.trans (.step .refl hr) hb
    · cases h

/-- **Deleting a node frees what is below it**, and nothing else. -/
theorem deleteNode_freed {k : Nat} (h : f.deleteNode k n = some f') :
    f'.live m = false ↔ f.live m = false ∨ Below f n m := by
  obtain ⟨D, hD, hunder⟩ := deleteNode_under k h
  have hfree : Below f n m → m ∈ D := by
    intro hb
    induction hb with
    | refl => exact hD.roots n (by simp)
    | step _ hm ih => exact (hD.closed _ ih _ hm).1
  by_cases hm : m ∈ D
  · obtain ⟨r, hr, hb⟩ := hunder m hm
    obtain rfl := List.mem_singleton.mp hr
    simp [(hD.dead m hm).2.1, hb]
  · rw [(hD.frame m hm).2]
    exact ⟨.inl, fun h => h.resolve_right fun hb => hm (hfree hb)⟩

end Below

/-! ## What an operation sheds -/

/-- From `f` to `f'` no old node is moved or given a shadow, and the old nodes that go are of `S`. -/
structure Sheds (f f' : Forest) (S : Id → Prop) : Prop where
  inv : Inv f'
  next : f.next ≤ f'.next
  old : ∀ m, m < f.next → f'.live m = true → f.live m = true
  kids : ∀ p c, f.live c = true → c ∈ f'.nodes p → c ∈ f.nodes p
  gone : ∀ m, f.live m = true → f'.live m = false → S m
  shadow : ∀ m t, f'.live m = true → f'.shadow m = some t → f.live m = true ∧ f.shadow m = some t

section Sheds

variable {f g f' : Forest} {S T : Id → Prop} {this c n : Id} {nm : Str}

theorem Sheds.refl (h : Inv f) (S : Id → Prop) : Sheds f f S :=
  ⟨h, Nat.le_refl _, fun _ _ hm => hm, fun _ _ _ hc => hc, fun m hm hd => (by rw [hm] at hd; cases hd),
    fun _ _ hm ht => ⟨hm, ht⟩⟩

theorem Sheds.narrow (h : Sheds f f' S) (hST : ∀ m, f.live m = true → f'.live m = false → S m → T m) :
    Sheds f f' T :=
  { h with gone := fun m hm hd => hST m hm hd (h.gone m hm hd) }

theorem Sheds.mono (h : Sheds f f' S) (hST : ∀ m, f.live m = true → S m → T m) : Sheds f f' T :=
  h.narrow fun m hm _ hs => hST m hm hs

theorem Sheds.trans (h₁ : Sheds f g S) (h₂ : Sheds g f' T) (hi : Inv f)
    (hTS : ∀ m, f.live m = true → T m → S m) : Sheds f f' S where
  inv := h₂.inv
  next := Nat.le_trans h₁.next h₂.next
  old m hm hl := h₁.old m hm (h₂.old m (Nat.lt_of_lt_of_le hm h₁.next) hl)
  kids p c hc hm := by
    have hg : g.live c = true :=
      h₂.old c (Nat.lt_of_lt_of_le (hi.bound hc) h₁.next) (h₂.inv.live hm).2
    exact h₁.kids p c hc (h₂.kids p c hg hm)
  gone m hm hd := by
    cases hg : g.live m with
    | true => exact hTS m hm (h₂.gone m hg hd)
    | false => exact h₁.gone m hm hg
  shadow m t hm ht := by
    obtain ⟨hg, hs⟩ := h₂.shadow m t hm ht
    exact h₁.shadow m t hg hs

/-- What is below a node afterwards was below it before, or is new. -/
theorem Sheds.below (h : Sheds f f' S) (hi : Inv f) {r m : Id} (hb : Below f' r m)
    (hm : f.live m = true) : Below f r m := by
  induction hb with
  | refl => exact .refl
  | @step p m hp hmem ih =>
    have hin := h.kids p m hm hmem
    exact .step (ih (hi.live hin).1) hin

/-- Nothing old is below a new node. -/
theorem Sheds.below_new (h : Sheds f f' S) (hi : Inv f) {r m : Id} (hr : f.live r = false)
    (hb : Below f' r m) : f.live m = false := by
  induction hb with
  | refl => exact hr
  | @step p m hp hmem ih =>
    cases hm : f.live m with
    | false => rfl
    | true =>
      rw [(hi.live (h.kids p m hm hmem)).1] at ih
      cases ih

/-! ### The primitive steps -/

theorem sheds_new (h : Inv f) (nm : Str) (S : Id → Prop) : Sheds f (f.newNode nm).1 S where
  inv := newNode_spec h nm
  next := Nat.le_succ _
  old m hm hl := by
    rwa [newNode_live, if_neg (Nat.ne_of_lt hm)] at hl
  kids p c _ hm := by
    have hlinks := congrFun (congrArg Links.down (newNode_links h nm)) p
    simp only [links_down] at hlinks
    rwa [hlinks] at hm
  gone m hm hd := by
    rw [newNode_live] at hd
    split at hd
    · cases hd
    · rw [hm] at hd
      cases hd
  shadow m t hl ht := by
    by_cases hm : m = f.next
    · simp [hm] at ht
    · simp only [newNode_live, if_neg hm] at hl
      exact ⟨hl, by simpa [hm] using ht⟩

/-- Links that are a part of the old ones. -/
theorem Relinked.sheds {s : Links Id} (hr : Relinked f g s) (hi : Inv g)
    (hs : ∀ p c, f.live c = true → c ∈ s.down p → c ∈ f.nodes p) (S : Id → Prop) : Sheds f g S where
  inv := hi
  next := Nat.le_of_eq hr.next.symm
  old m _ hl := by rwa [hr.live] at hl
  kids p c hc hm := hs p c hc (by rwa [hr.nodes] at hm)
  gone m hm hd := by
    rw [hr.live, hm] at hd
    cases hd
  shadow m t hl ht := by
    rw [hr.live] at hl
    rw [hr.shadow] at ht
    exact ⟨hl, ht⟩

theorem sheds_take (h : Inv f) (this : Id) (child : Option Id) (S : Id → Prop) :
    Sheds f (f.take this child).1 S := by
  cases child with
  | none =>
    rw [take_none]
    exact .refl h S
  | some c =>
    by_cases hc : c ∈ f.nodes this
    · obtain ⟨-, hr, hinv⟩ := take_spec h hc
      exact hr.sheds hinv (fun p x _ hx => List.mem_of_mem_erase hx) S
    · obtain ⟨-, hr, hinv⟩ := take_absent h hc
      exact hr.sheds hinv (fun p x _ hx => hx) S

/-- A node that is new goes below another one, or is turned down. -/
theorem Sheds.insert (h : Sheds f g S) (ht : g.live this = true) (hc : g.live c = true)
    (hnew : f.live c = false) (index : Int) : Sheds f (g.insert this (some c) index).1 S := by
  have hdown : ∀ p x, f.live x = true → x ∈ (g.links.unlink c).down p → x ∈ f.nodes p :=
    fun p x hx hm => h.kids p x hx (List.mem_of_mem_erase hm)
  have hplace : ∀ {f' : Forest} {s : Links Id}, Relinked g f' s → Inv f' →
      (∀ p x, f.live x = true → x ∈ s.down p → x ∈ f.nodes p) → Sheds f f' S := by
    intro f' s hr hinv hs
    refine ⟨hinv, ?_, fun m hm hl => ?_, fun p x hx hm => hs p x hx (by rwa [hr.nodes] at hm),
      fun m hm hd => ?_, fun m t hl hsh => ?_⟩
    · rw [hr.next]
      exact h.next
    · rw [hr.live] at hl
      exact h.old m hm hl
    · rw [hr.live] at hd
      exact h.gone m hm hd
    · rw [hr.live] at hl
      rw [hr.shadow] at hsh
      exact h.shadow m t hl hsh
  cases hi : g.insertAt this [c] index with
  | none =>
    obtain ⟨-, hr, hinv⟩ := insert_fails h.inv hi
    exact hplace hr hinv hdown
  | some i =>
    obtain ⟨-, hr, hinv⟩ := insert_ok h.inv ht hc hi
    refine hplace hr hinv fun p x hx hm => ?_
    have hne : x ≠ c := fun he => by
      rw [he, hnew] at hx
      cases hx
    rw [Links.link_down] at hm
    split at hm
    · rename_i hp
      subst hp
      simp only [List.mem_append, List.mem_singleton, hne, or_false] at hm
      exact hdown _ x hx (hm.elim List.mem_of_mem_take List.mem_of_mem_drop)
    · exact hdown p x hx hm

theorem sheds_insertFresh (h : Inv f) (ht : f.live this = true) (nm : Str) (anchor : Option Id)
    (S : Id → Prop) : Sheds f (f.insertFresh this nm anchor).1 S :=
  (sheds_new h nm S).insert (by simp [ht]) (by simp) h.next_dead _

theorem sheds_delete {k : Nat} (h : Inv f) (hroot : f.parent n = none) (hrun : f.deleteNode k n = some f') :
    Sheds f f' (Below f n) := by
  obtain ⟨D, hD, hunder⟩ := deleteNode_under k hrun
  refine ⟨h.deleted hD (by simpa using hroot), Nat.le_of_eq hD.next.symm, fun m _ hl => ?_,
    fun p c _ hm => hD.nodes_sub p c hm, fun m hm hd => ?_, fun m t hl ht => ?_⟩
  · by_cases hm : m ∈ D
    · exact (hD.dead m hm).1
    · rwa [(hD.frame m hm).2] at hl
  · exact ((deleteNode_freed hrun).mp hd).resolve_left (by simp [hm])
  · rw [hD.shadow] at ht
    by_cases hm : m ∈ D
    · exact ⟨(hD.dead m hm).1, ht⟩
    · exact ⟨by rwa [(hD.frame m hm).2] at hl, ht⟩

theorem sheds_set (h : Inv f) (ht : f.live this = true) (v : Var) (S : Id → Prop) : Sheds f (f.set this v) S :=
  ⟨(reaches_set ht v).inv h, Nat.le_of_eq (by simp [set]), fun m _ hl => by simpa [set] using hl,
    fun p c _ hm => by simpa [set] using hm, fun m hm hd => (by simp [set, hm] at hd),
    fun m t hl hs => ⟨by simpa [set] using hl, by simpa [set] using hs⟩⟩

theorem sheds_update (h : Inv f) (ht : f.live this = true) (v : Var) (S : Id → Prop) :
    Sheds f (f.update this v).1 S := by
  rw [update]
  split
  · exact .refl h S
  · exact sheds_set h ht v S

end Sheds

/-! ## Removing -/

section Remove

variable {f f' : Forest} {this : Id} {fuel : Nat} {nm : Str} {b : Bool}

theorem sheds_remove {child : Option Id} (h : Inv f) (hrun : f.remove fuel this child = some (f', b)) :
    Sheds f f' (fun m => ∃ c, child = some c ∧ c ∈ f.nodes this ∧ Below f c m) := by
  have htake := fun S => sheds_take h this child S
  simp only [remove] at hrun
  split at hrun
  · rename_i g n heq
    obtain ⟨f₂, hdel, hret⟩ := Option.map_eq_some_iff.mp hrun
    cases hret
    obtain ⟨hchild, hmem, hrel⟩ := take_some h (c := n) (by rw [heq])
    rw [heq] at htake hrel
    have hroot : g.parent n = none := by rw [hrel.parent]; simp
    refine (htake _).trans (sheds_delete (htake fun _ => True).inv hroot hdel) h fun m hm hb => ?_
    exact ⟨n, hchild, hmem, (htake fun _ => True).below h hb hm⟩
  · rename_i g heq
    cases hrun
    rw [heq] at htake
    exact htake _

theorem childNamed_name {k : Int} {c : Id} (h : Inv f) (hnm : nm ≠ []) (hc : f.childNamed this nm k = some c) :
    f.name c = nm := by
  rw [childNamed_eq h, Scan.child, if_neg hnm] at hc
  have hmem := List.mem_filter.mp (nodeAt_mem hc)
  simpa [named] using hmem.2

theorem sheds_removeLoop (k : Nat) (hnm : nm ≠ []) : ∀ {f : Forest} {r : Bool}, Inv f →
    f.removeLoop k this nm r = some (f', b) →
    Sheds f f' (fun m => ∃ c ∈ f.nodes this, f.name c = nm ∧ Below f c m) := by
  induction k with
  | zero => intro f r _ hrun; cases hrun
  | succ k ih =>
    intro f r h hrun
    have htake := fun S => sheds_take h this (f.childNamed this nm 0) S
    simp only [removeLoop] at hrun
    split at hrun
    · cases hrun
    split at hrun
    · rename_i g n heq
      obtain ⟨f₂, hdel, hrun⟩ := Option.bind_eq_some_iff.mp hrun
      obtain ⟨hchild, hmem, hrel⟩ := take_some h (c := n) (by rw [heq])
      rw [heq] at htake hrel
      have hroot : g.parent n = none := by rw [hrel.parent]; simp
      obtain ⟨D, hD⟩ := deleteNode_deleted k hdel
      have hname : f₂.name = f.name := by rw [hD.name, hrel.name]
      have hfirst : f.name n = nm := childNamed_name h hnm hchild
      have h₂ : Sheds f f₂ (fun m => ∃ c ∈ f.nodes this, f.name c = nm ∧ Below f c m) := by
        refine (htake _).trans (sheds_delete (htake fun _ => True).inv hroot hdel) h fun m hm hb => ?_
        exact ⟨n, hmem, hfirst, (htake fun _ => True).below h hb hm⟩
      refine h₂.trans (ih h₂.inv hrun) h fun m hm hb => ?_
      obtain ⟨c, hc, hcn, hb⟩ := hb
      cases hlive : f.live c with
      | true => exact ⟨c, h₂.kids this c hlive hc, by rw [← hname]; exact hcn, h₂.below h hb hm⟩
      | false =>
        rw [h₂.below_new h hlive hb] at hm
        cases hm
    · rename_i g heq
      cases hrun
      rw [heq] at htake
      exact htake _

/-- The children that `remove(name)` frees: every one of the name, or the last one. -/
def removes (f : Forest) (this : Id) (nm : Str) (c : Id) : Prop :=
  if nm = [] then f.child this (-1) = some c else c ∈ f.nodes this ∧ f.name c = nm

theorem sheds_removeNamed (h : Inv f) (hrun : f.removeNamed fuel this nm = some (f', b)) :
    Sheds f f' (fun m => ∃ c, f.removes this nm c ∧ Below f c m) := by
  unfold removes
  rw [removeNamed] at hrun
  split at hrun
  · rename_i hnm
    refine (sheds_remove h hrun).mono fun m _ hm => ?_
    obtain ⟨c, hc, -, hb⟩ := hm
    exact ⟨c, by rwa [if_pos hnm], hb⟩
  · rename_i hnm
    refine (sheds_removeLoop fuel hnm h hrun).mono fun m _ hm => ?_
    obtain ⟨c, hc, hn, hb⟩ := hm
    exact ⟨c, by rw [if_neg hnm]; exact ⟨hc, hn⟩, hb⟩

/-! ### What hangs below a node that goes -/

/-- Every child stays where it is, or goes. -/
def Tight (f f' : Forest) : Prop := ∀ p x, x ∈ f.nodes p → x ∈ f'.nodes p ∨ f'.live x = false

/-- What an operation frees stays free. -/
theorem Sheds.dead {S : Id → Prop} {m : Id} (h : Sheds f f' S) (hm : m < f.next) (hd : f.live m = false) :
    f'.live m = false := by
  cases hl : f'.live m with
  | false => rfl
  | true =>
    rw [h.old m hm hl] at hd
    cases hd

theorem Tight.trans {g : Forest} {S T : Id → Prop} (h₁ : Tight f g) (h₂ : Tight g f') (hi : Inv f) (hs₁ : Sheds f g S)
    (hs₂ : Sheds g f' T) : Tight f f' := fun p x hx => by
  rcases h₁ p x hx with hx' | hd
  · exact h₂ p x hx'
  · exact .inr (hs₂.dead (Nat.lt_of_lt_of_le (hi.bound (hi.live hx).2) hs₁.next) hd)

/-- Below a node that goes all goes. -/
theorem Tight.gone (h : Tight f f') (hi' : Inv f') {c m : Id} (hc : f'.live c = false) (hb : Below f c m) :
    f'.live m = false := by
  induction hb with
  | refl => exact hc
  | @step p x _ hm ih =>
    rcases h p x hm with hx | hd
    · rw [(hi'.live hx).1] at ih
      cases ih
    · exact hd

theorem tight_deleteNode {k : Nat} {n : Id} (hrun : f.deleteNode k n = some f') : Tight f f' := by
  obtain ⟨D, hD⟩ := deleteNode_deleted k hrun
  intro p x hx
  by_cases hp : p ∈ D
  · exact .inr (hD.dead x (hD.closed p hp x hx).1).2.1
  · left
    rwa [nodes, kids, (hD.frame p hp).1]

theorem tight_remove {child : Option Id} (h : Inv f) (hrun : f.remove fuel this child = some (f', b)) :
    Tight f f' ∧ ∀ c, child = some c → c ∈ f.nodes this → f'.live c = false := by
  cases child with
  | none =>
    simp only [remove, take_none] at hrun
    cases hrun
    exact ⟨fun p x hx => .inl hx, fun c hc => (by cases hc)⟩
  | some c =>
    by_cases hc : c ∈ f.nodes this
    · obtain ⟨htake, hr, -⟩ := take_spec h hc
      have hpair : f.take this (some c) = ((f.take this (some c)).1, some c) := Prod.ext rfl htake
      simp only [remove] at hrun
      rw [hpair] at hrun
      obtain ⟨g, hdel, hret⟩ := Option.map_eq_some_iff.mp hrun
      cases hret
      have hdead : f'.live c = false := (deleteNode_freed hdel).mpr (.inr .refl)
      refine ⟨fun p x hx => ?_, fun d hd _ => by cases hd; exact hdead⟩
      by_cases hxc : x = c
      · exact .inr (hxc ▸ hdead)
      · refine tight_deleteNode hdel p x ?_
        rw [hr.nodes, Links.unlink_down]
        exact (List.mem_erase_of_ne hxc).mpr hx
    · obtain ⟨htake, hr, -⟩ := take_absent h hc
      have hpair : f.take this (some c) = ((f.take this (some c)).1, none) := Prod.ext rfl htake
      simp only [remove] at hrun
      rw [hpair] at hrun
      cases hrun
      refine ⟨fun p x hx => .inl ?_, fun d hd hmem => by cases hd; exact absurd hmem hc⟩
      rw [hr.nodes]
      exact hx

theorem Tight.below (h : Tight f f') (hi' : Inv f') {c m : Id} (hb : Below f c m) (hm : f'.live m = true) :
    Below f' c m := by
  induction hb with
  | refl => exact .refl
  | @step p x _ hx ih =>
    rcases h p x hx with hx' | hd
    · exact .step (ih (hi'.live hx').1) hx'
    · rw [hm] at hd
      cases hd

/-- **Emptying a node frees what is below its children**, and nothing else. -/
theorem clear_freed {m : Id} (hrun : f.clear fuel this true = some f') :
    f'.live m = false ↔ f.live m = false ∨ ∃ c ∈ f.nodes this, Below f c m := by
  rw [clear] at hrun
  split at hrun
  · rename_i hch
    cases hrun
    simp [nodes_of_none hch]
  · rename_i ch hch
    obtain ⟨g, hg, hrun⟩ := Option.map_eq_some_iff.mp hrun
    rw [clearChildren, hch] at hg
    obtain ⟨g', hg', rfl⟩ := Option.map_eq_some_iff.mp hg
    simp only [if_true] at hg'
    obtain ⟨D, hD, -, hunder⟩ := deleteAll_under (deleteNode_under fuel) _ hg'
    have hlive : f'.live = g'.live := by
      subst hrun
      split <;> rfl
    have hns : ch.nodes = f.nodes this := by rw [nodes, kids_of_some hch]
    rw [hlive, ← hns]
    have hfree : ∀ c ∈ ch.nodes, Below f c m → m ∈ D := by
      intro c hc hb
      induction hb with
      | refl => exact hD.roots c hc
      | step _ hm ih => exact (hD.closed _ ih _ hm).1
    by_cases hm : m ∈ D
    · obtain ⟨c, hc, hb⟩ := hunder m hm
      exact ⟨fun _ => .inr ⟨c, hc, hb⟩, fun _ => (hD.dead m hm).2.1⟩
    · rw [(hD.frame m hm).2]
      refine ⟨.inl, fun h => h.resolve_right ?_⟩
      rintro ⟨c, hc, hb⟩
      exact hm (hfree c hc hb)

/-- A child of the name is found. -/
theorem childNamed_first (h : Inv f) (hnm : nm ≠ []) {c : Id} (hc : c ∈ f.nodes this) (hn : f.name c = nm) :
    ∃ n, f.childNamed this nm 0 = some n := by
  have hmem : c ∈ (f.nodes this).filter (named f.name nm) :=
    List.mem_filter.mpr ⟨hc, by simp [named, hn]⟩
  rw [childNamed_eq h, Scan.child, if_neg hnm]
  cases hl : (f.nodes this).filter (named f.name nm) with
  | nil =>
    rw [hl] at hmem
    cases hmem
  | cons n l => exact ⟨n, by simp [nodeAt]⟩

theorem gone_removeLoop (k : Nat) (hnm : nm ≠ []) : ∀ {f : Forest} {r : Bool}, Inv f →
    f.removeLoop k this nm r = some (f', b) → ∀ {c m : Id}, c ∈ f.nodes this → f.name c = nm → Below f c m →
    f'.live m = false := by
  induction k with
  | zero => intro f r _ hrun; cases hrun
  | succ k ih =>
    intro f r h hrun c m hc hn hb
    simp only [removeLoop] at hrun
    split at hrun
    · cases hrun
    obtain ⟨n, hfirst⟩ := childNamed_first h hnm hc hn
    have hmem := childNamed_mem hfirst
    obtain ⟨htake, hr, -⟩ := take_spec h hmem
    rw [hfirst, show f.take this (some n) = ((f.take this (some n)).1, some n) from Prod.ext rfl htake] at hrun
    obtain ⟨f₂, hdel, hrun⟩ := Option.bind_eq_some_iff.mp hrun
    -- one round is a removal
    have hone : f.remove k this (some n) = some (f₂, true) := by
      rw [remove, show f.take this (some n) = ((f.take this (some n)).1, some n) from Prod.ext rfl htake]
      exact Option.map_eq_some_iff.mpr ⟨f₂, hdel, rfl⟩
    obtain ⟨htight, -⟩ := tight_remove h hone
    have hshed := sheds_remove h hone
    obtain ⟨D, hD⟩ := deleteNode_deleted k hdel
    have hname : f₂.name = f.name := by rw [hD.name, hr.name]
    have hlt : m < f₂.next := Nat.lt_of_lt_of_le (h.bound (hb.live h (h.live hc).2)) hshed.next
    cases hm : f₂.live m with
    | false => exact (sheds_removeLoop k hnm hshed.inv hrun).dead hlt hm
    | true =>
      have hb₂ := htight.below hshed.inv hb hm
      rcases htight this c hc with hc₂ | hd
      · exact ih hshed.inv hrun hc₂ (by rw [hname]; exact hn) hb₂
      · rw [htight.gone hshed.inv hd hb] at hm
        cases hm

/-- `remove(name)` frees all that it frees. -/
theorem gone_removeNamed (h : Inv f) (hrun : f.removeNamed fuel this nm = some (f', b)) {c m : Id}
    (hc : f.removes this nm c) (hb : Below f c m) : f'.live m = false := by
  unfold removes at hc
  rw [removeNamed] at hrun
  split at hrun
  · rename_i hnm
    rw [if_pos hnm] at hc
    obtain ⟨htight, hdead⟩ := tight_remove h hrun
    exact htight.gone (sheds_remove h hrun).inv (hdead c hc (child_mem hc)) hb
  · rename_i hnm
    rw [if_neg hnm] at hc
    exact gone_removeLoop fuel hnm h hrun hc.1 hc.2 hb

end Remove

/-! ## Copying -/

section Copy

variable {copyInto : Forest → Id → Id → Option Forest} {fuel : Nat} {this : Id} {ar : Bool}

/-- What is below the receiver may go, where copying removes. -/
def BelowOnly (ar : Bool) (f : Forest) (d m : Id) : Prop := ar = true ∧ Below f d m ∧ m ≠ d

theorem sheds_removeUnmatched {matched : List Id} (cs : List Id) : ∀ {f f' : Forest}, Inv f →
    f.removeUnmatched fuel this matched cs = some f' →
    Sheds f f' (fun m => ∃ c ∈ cs, c ∉ matched ∧ c ∈ f.nodes this ∧ Below f c m) := by
  induction cs with
  | nil =>
    intro f f' h hrun
    cases hrun
    exact .refl h _
  | cons c cs ih =>
    intro f f' h hrun
    simp only [removeUnmatched] at hrun
    split at hrun
    · refine (ih h hrun).mono fun m _ hm => ?_
      obtain ⟨x, hx, hm⟩ := hm
      exact ⟨x, by simp [hx], hm⟩
    split at hrun
    · cases hrun
    · rename_i hmatched _
      obtain ⟨⟨g, b⟩, hrem, hrun⟩ := Option.bind_eq_some_iff.mp hrun
      have h₁ : Sheds f g (fun m => ∃ x ∈ c :: cs, x ∉ matched ∧ x ∈ f.nodes this ∧ Below f x m) := by
        refine (sheds_remove h hrem).mono fun m _ hm => ?_
        obtain ⟨x, hx, hmem, hb⟩ := hm
        cases hx
        exact ⟨c, by simp, hmatched, hmem, hb⟩
      refine h₁.trans (ih h₁.inv hrun) h fun m hm hb => ?_
      obtain ⟨x, hx, hxm, hmem, hb⟩ := hb
      cases hlive : f.live x with
      | true => exact ⟨x, by simp [hx], hxm, h₁.kids this x hlive hmem, h₁.below h hb hm⟩
      | false =>
        rw [h₁.below_new h hlive hb] at hm
        cases hm

theorem gone_removeUnmatched {matched : List Id} (cs : List Id) : ∀ {f f' : Forest}, Inv f →
    f.removeUnmatched fuel this matched cs = some f' →
    Tight f f' ∧ ∀ c ∈ cs, c ∉ matched → c ∈ f.nodes this → f'.live c = false := by
  induction cs with
  | nil =>
    intro f f' h hrun
    cases hrun
    exact ⟨fun p x hx => .inl hx, fun c hc => (by cases hc)⟩
  | cons c cs ih =>
    intro f f' h hrun
    simp only [removeUnmatched] at hrun
    split at hrun
    · rename_i hmatched
      obtain ⟨htight, hdead⟩ := ih h hrun
      refine ⟨htight, fun x hx hxm hmem => ?_⟩
      rcases List.mem_cons.mp hx with rfl | hx
      · exact absurd hmatched hxm
      · exact hdead x hx hxm hmem
    split at hrun
    · cases hrun
    · obtain ⟨⟨g, b⟩, hrem, hrun⟩ := Option.bind_eq_some_iff.mp hrun
      have hs₁ := sheds_remove h hrem
      have hs₂ := sheds_removeUnmatched cs hs₁.inv hrun
      obtain ⟨htight₁, hdead₁⟩ := tight_remove h hrem
      obtain ⟨htight₂, hdead₂⟩ := ih hs₁.inv hrun
      refine ⟨htight₁.trans htight₂ h hs₁ hs₂, fun x hx hxm hmem => ?_⟩
      have hlt : x < g.next := Nat.lt_of_lt_of_le (h.bound (h.live hmem).2) hs₁.next
      rcases List.mem_cons.mp hx with rfl | hx
      · exact hs₂.dead hlt (hdead₁ x rfl hmem)
      · rcases htight₁ this x hmem with hmem' | hd
        · exact hdead₂ x hx hxm hmem'
        · exact hs₂.dead hlt hd

/-- New nodes only, and what is copied onto them. -/
theorem sheds_flushPending
    (hcopy : ∀ {f f' d s}, Inv f → copyInto f d s = some f' → Sheds f f' (BelowOnly ar f d))
    {anchor : Option Id} (ps : List Id) : ∀ {f f' : Forest}, Inv f →
      f.flushPending copyInto fuel this anchor ps = some f' → Sheds f f' (fun _ => False) := by
  induction ps with
  | nil =>
    intro f f' h hrun
    cases hrun
    exact .refl h _
  | cons p ps ih =>
    intro f f' h hrun
    simp only [flushPending] at hrun
    split at hrun
    · rename_i hlive
      simp only [Bool.and_eq_true] at hlive
      obtain ⟨g, hg, hrun⟩ := Option.bind_eq_some_iff.mp hrun
      have hins := fun S => sheds_insertFresh h hlive.2 (f.name p) anchor S
      -- nothing old hangs below the new node
      have hnew : ∀ m, f.live m = true → ¬ Below (f.insertFresh this (f.name p) anchor).1 f.next m := by
        intro m hm hb
        rw [(hins fun _ => True).below_new h h.next_dead hb] at hm
        cases hm
      have h₁ : Sheds f g (fun _ => False) := by
        split at hg
        · exact (hins _).trans (hcopy (hins fun _ => True).inv hg) h fun m hm hb => hnew m hm hb.2.1
        · rename_i hb
          have hroot := (reaches_insertFresh h hlive.2 (f.name p) anchor).2 (by simpa using hb)
          exact (hins _).trans (sheds_delete (hins fun _ => True).inv hroot hg) h fun m hm hb => hnew m hm hb
      exact h₁.trans (ih h₁.inv hrun) h fun _ _ hm => hm
    · cases hrun

/-- Every match comes from the snapshot. -/
structure Within (st : CopyMatchState) (L : List Id) : Prop where
  named : ∀ nm, ∀ c ∈ st.namedChildren nm, c ∈ L
  anonymous : ∀ c ∈ st.anonymousChildren, c ∈ L

theorem within_bucketChildren (name : Id → Str) (L : List Id) : Within (bucketChildren name L) L := by
  refine ⟨fun nm c hc => ?_, fun c hc => (List.mem_filter.mp hc).1⟩
  simp only [bucketChildren] at hc
  split at hc
  · cases hc
  · exact (List.mem_filter.mp hc).1

theorem takeFrom_mem {cs : List Id} : ∀ {n : Nat} {matched : List Id} {c : Id},
    (takeFrom cs n matched).1 = some c → c ∈ cs := by
  induction cs with
  | nil => intro n matched c h; cases h
  | cons x cs ih =>
    intro n matched c h
    rw [takeFrom] at h
    split at h
    · exact List.mem_cons_of_mem _ (ih h)
    · cases h
      exact List.mem_cons_self ..

theorem takeCopyMatch_within {name : Id → Str} {s : Id} {st : CopyMatchState} {L : List Id} (h : Within st L) :
    (∀ c, (takeCopyMatch name s st).1 = some c → c ∈ L) ∧ Within (takeCopyMatch name s st).2 L := by
  simp only [takeCopyMatch]
  split
  · exact ⟨fun c hc => h.anonymous c (List.mem_of_mem_drop (takeFrom_mem hc)), ⟨h.named, h.anonymous⟩⟩
  · exact ⟨fun c hc => h.named _ c (List.mem_of_mem_drop (takeFrom_mem hc)), ⟨h.named, h.anonymous⟩⟩

theorem sheds_copyChildren
    (hcopy : ∀ {f f' d s}, Inv f → copyInto f d s = some f' → Sheds f f' (BelowOnly ar f d))
    {ai : Bool} {L : List Id} (ss : List Id) : ∀ {f f' : Forest} {st : CopyMatchState} {pending ps : List Id},
      Inv f → Within st L → copyChildren copyInto fuel this ai f ss st pending = some (f', ps) →
      Sheds f f' (fun m => ∃ c ∈ L, BelowOnly ar f c m) := by
  induction ss with
  | nil =>
    intro f f' st pending ps h _ hrun
    cases hrun
    exact .refl h _
  | cons s ss ih =>
    intro f f' st pending ps h hst hrun
    obtain ⟨hmem, hst'⟩ := @takeCopyMatch_within f.name s _ _ hst
    simp only [copyChildren] at hrun
    split at hrun
    · cases hrun
    split at hrun
    · rename_i heq
      exact ih h (by rw [heq] at hst'; exact hst') hrun
    · rename_i x st' heq
      obtain ⟨f₁, hfl, hrun⟩ := Option.bind_eq_some_iff.mp hrun
      obtain ⟨f₂, hcp, hrun⟩ := Option.bind_eq_some_iff.mp hrun
      have hflush := sheds_flushPending hcopy pending h hfl
      have h₂ : Sheds f f₂ (fun m => ∃ c ∈ L, BelowOnly ar f c m) :=
        (hflush.mono fun _ _ hm => hm.elim).trans (hcopy hflush.inv hcp) h fun m hm hb =>
          ⟨x, hmem x (by rw [heq]), hb.1, hflush.below h hb.2.1 hm, hb.2.2⟩
      refine h₂.trans (ih h₂.inv (by rw [heq] at hst'; exact hst') hrun) h fun m hm hb => ?_
      obtain ⟨c, hc, hb⟩ := hb
      exact ⟨c, hc, hb.1, h₂.below h hb.2.1 hm, hb.2.2⟩

/-- **A copy frees nodes below the receiver only**, and none unless it removes. -/
theorem sheds_copy (ai au : Bool) (fuel : Nat) : ∀ {f f' : Forest} {this : Id} {other : Option Id}, Inv f →
    f.copy fuel this other ai ar au = some f' → Sheds f f' (BelowOnly ar f this) := by
  induction fuel with
  | zero => intro f f' this other _ hrun; cases hrun
  | succ k ih =>
    intro f f' this other h hrun
    simp only [copy] at hrun
    split at hrun
    · cases hrun; exact .refl h _
    split at hrun
    · cases hrun; exact .refl h _
    split at hrun
    · cases hrun
    obtain ⟨f₁, hrem, hrun⟩ := Option.bind_eq_some_iff.mp hrun
    obtain ⟨⟨f₂, ps⟩, hch, hrun⟩ := Option.bind_eq_some_iff.mp hrun
    obtain ⟨f₃, hfl, hrun⟩ := Option.bind_eq_some_iff.mp hrun
    let S : Id → Prop := fun m => ar = true ∧ Below f this m
    have h₁ : Sheds f f₁ S := by
      split at hrem
      · rename_i har
        simp only [Bool.and_eq_true] at har
        refine (sheds_removeUnmatched _ h hrem).mono fun m _ hm => ?_
        obtain ⟨c, -, -, hmem, hb⟩ := hm
        exact ⟨har.1, Below.trans (.step .refl hmem) hb⟩
      · cases hrem
        exact .refl h _
    have h₂ : Sheds f f₂ S := by
      refine h₁.trans (sheds_copyChildren (fun h hc => ih h hc) _ h₁.inv (within_bucketChildren _ _) hch) h
        fun m hm hb => ?_
      obtain ⟨c, hc, har, hb, -⟩ := hb
      rw [childList_eq] at hc
      exact ⟨har, h₁.below h (Below.trans (.step .refl hc) hb) hm⟩
    have h₃ : Sheds f f₃ S := h₂.trans (sheds_flushPending (fun h hc => ih h hc) _ h₂.inv hfl) h
      fun _ _ hm => hm.elim
    split at hrun
    · rename_i hlive
      simp only [Bool.and_eq_true] at hlive
      -- the receiver is there in the end
      have hmine : Sheds f f₃ (BelowOnly ar f this) := h₃.narrow fun m _ hd hb => by
        refine ⟨hb.1, hb.2, fun he => ?_⟩
        rw [he, hlive.1] at hd
        cases hd
      split at hrun
      · cases hrun
        exact hmine.trans (sheds_update h₃.inv hlive.1 _ fun _ => False) h fun _ _ hm => hm.elim
      · cases hrun
        exact hmine.trans (sheds_set h₃.inv hlive.1 _ fun _ => False) h fun _ _ hm => hm.elim
    · cases hrun

end Copy

end Forest

end VersatileEngine
