import VersatileEngine.Lib.Links
import VersatileEngine.Node.Index

/-!
# VersatileEngine.Node.Shape

The forest as links, and what each operation does to them.

`Forest.Inv` is the state invariant of `ve::Node`: parents and child lists agree (`Linked`), every
index map fits its child list (`Indexed`), and links join live nodes only. It does not say that the
links are free of cycles; `insert` can close one.

* `take_spec`, `take_absent`          — `take(child)` cuts one link.
* `insert_ok`, `insert_fails`         — `insert(child, index)` moves a node, or only cuts it off.
* `insertBatch_ok`, `insertBatch_fails` — the same for a batch of distinct nodes.
-/

namespace VersatileEngine

namespace Forest

/-- The parent pointers and the child lists. -/
def links (f : Forest) : Links Id := ⟨f.parent, f.nodes⟩

@[simp] theorem links_up (f : Forest) : f.links.up = f.parent := rfl
@[simp] theorem links_down (f : Forest) : f.links.down = f.nodes := rfl

structure Inv (f : Forest) : Prop where
  linked : f.links.Linked
  indexed : ∀ p, (f.kids p).Indexed f.name
  live : ∀ {p c}, c ∈ f.nodes p → f.live p = true ∧ f.live c = true
  bound : ∀ {n}, f.live n = true → n < f.next

/-- `f'` is `f` with the links `s`: the data of the nodes and the set of nodes are the same. -/
structure Relinked (f f' : Forest) (s : Links Id) : Prop where
  links : f'.links = s
  name : f'.name = f.name
  value : f'.value = f.value
  shadow : f'.shadow = f.shadow
  live : f'.live = f.live
  next : f'.next = f.next

section Relinked

variable {f g h : Forest} {s t : Links Id}

theorem Relinked.refl (f : Forest) : Relinked f f f.links := ⟨rfl, rfl, rfl, rfl, rfl, rfl⟩

theorem Relinked.trans (h₁ : Relinked f g s) (h₂ : Relinked g h t) : Relinked f h t :=
  ⟨h₂.links, h₂.name.trans h₁.name, h₂.value.trans h₁.value,
    h₂.shadow.trans h₁.shadow, h₂.live.trans h₁.live, h₂.next.trans h₁.next⟩

theorem Relinked.parent (h : Relinked f g s) : g.parent = s.up := congrArg Links.up h.links

theorem Relinked.nodes (h : Relinked f g s) : g.nodes = s.down := congrArg Links.down h.links

/-- The invariant after new links, when they join live nodes. -/
theorem Inv.relink (hi : Inv f) (h : Relinked f g s) (hs : s.Linked)
    (hidx : ∀ p, (g.kids p).Indexed g.name)
    (hlive : ∀ {p c}, c ∈ s.down p → f.live p = true ∧ f.live c = true) : Inv g where
  linked := h.links ▸ hs
  indexed := hidx
  live hc := by
    rw [h.live]
    exact hlive (h.nodes ▸ hc)
  bound hn := by
    rw [h.live] at hn
    rw [h.next]
    exact hi.bound hn

end Relinked

section Basic

variable {f : Forest}

theorem Inv.mem_iff (h : Inv f) {c p : Id} : f.parent c = some p ↔ c ∈ f.nodes p :=
  h.linked.mem c p

theorem Inv.nodup (h : Inv f) (p : Id) : (f.nodes p).Nodup := h.linked.nodup p

/-- A node that is not live hangs nowhere and carries nothing. -/
theorem Inv.isolated (h : Inv f) {n : Id} (hn : f.live n = false) :
    f.parent n = none ∧ f.nodes n = [] := by
  constructor
  · cases hp : f.parent n with
    | none => rfl
    | some p =>
      have := (h.live (h.mem_iff.mp hp)).2
      simp [hn] at this
  · cases hc : f.nodes n with
    | nil => rfl
    | cons c cs =>
      have := (h.live (p := n) (c := c) (by simp [hc])).1
      simp [hn] at this

theorem Inv.next_dead (h : Inv f) : f.live f.next = false := by
  cases hl : f.live f.next with
  | false => rfl
  | true => exact absurd (h.bound hl) (Nat.lt_irrefl _)

theorem inv_init : Inv init where
  linked := ⟨fun c p => by simp [links, init, parent, nodes, kids, Node.fresh, Children.empty],
    fun p => by simp [links, init, nodes, kids, Node.fresh, Children.empty]⟩
  indexed p := by
    simpa [init, kids, Node.fresh] using Children.indexed_empty
  live hc := by simp [init, nodes, kids, Node.fresh, Children.empty] at hc
  bound hn := by simp [init] at hn

/-- No container, no children. -/
theorem nodes_of_none {n : Id} (h : (f.node n).children = none) : f.nodes n = [] := by
  simp [nodes, kids, h, Children.empty]

theorem kids_of_some {n : Id} {ch : Children} (h : (f.node n).children = some ch) :
    f.kids n = ch := by simp [kids, h]

/-- A list split at an element of it, the first part free of it. -/
theorem mem_split {c : Id} {l : List Id} (hc : c ∈ l) (hl : l.Nodup) :
    ∃ a b, l = a ++ c :: b ∧ c ∉ a ∧ l.erase c = a ++ b := by
  obtain ⟨a, b, rfl⟩ := List.append_of_mem hc
  have ha : c ∉ a := fun h => by
    rw [List.nodup_append] at hl
    exact hl.2.2 c h c (by simp) rfl
  exact ⟨a, b, rfl, ha, by simp [List.erase_append_right, ha]⟩

end Basic

/-! ## take -/

section Take

variable {f : Forest} {this c : Id}

theorem take_spec (h : Inv f) (hc : c ∈ f.nodes this) :
    (f.take this (some c)).2 = some c ∧
      Relinked f (f.take this (some c)).1 (f.links.unlink c) ∧ Inv (f.take this (some c)).1 := by
  cases hch : (f.node this).children with
  | none => simp [nodes_of_none hch] at hc
  | some ch =>
    have hk := kids_of_some hch
    have hns : f.nodes this = ch.nodes := by rw [← hk]; rfl
    obtain ⟨a, b, hab, ha, her⟩ := mem_split hc (h.nodup this)
    have hidx : ch.Indexed f.name := hk ▸ h.indexed this
    obtain ⟨⟨oi, h2, -⟩, hn1, hi1⟩ := Children.takeOne_mem hidx (hns ▸ hab) ha
    obtain ⟨ch', hch', hn', hi'⟩ : ∃ ch', ch.takeOne f.name c = (ch', some ((a.length : Int), oi)) ∧
        ch'.nodes = a ++ b ∧ ch'.Indexed f.name := ⟨_, Prod.ext rfl h2, hn1, hi1⟩
    let f₁ := (f.setChildren this (some ch')).setParent c none
    obtain ⟨key, htake⟩ : ∃ key,
        f.take this (some c) = (f₁.emit this (.removed key 0), some c) := by
      simp only [take, hch, hch']
      exact ⟨_, rfl⟩
    have hother : ∀ p, p ≠ this → c ∉ f.nodes p := fun p hp hmem => by
      have h1 := h.mem_iff.mpr hmem
      rw [h.mem_iff.mpr hc] at h1
      exact hp (Option.some.inj h1).symm
    have hrel : Relinked f (f₁.emit this (.removed key 0)) (f.links.unlink c) := by
      refine ⟨?_, by simp [f₁], by funext m; simp [f₁], by funext m; simp [f₁], rfl, rfl⟩
      simp only [links, Links.unlink, Links.mk.injEq]
      refine ⟨by funext m; simp [f₁], funext fun p => ?_⟩
      by_cases hp : p = this
      · simp [f₁, hp, her, hn']
      · simp [f₁, hp, List.erase_of_not_mem (hother p hp)]
    rw [htake]
    refine ⟨rfl, hrel, h.relink hrel (h.linked.unlink c) (fun p => ?_) fun hmem => ?_⟩
    · by_cases hp : p = this
      · simpa [f₁, hp] using hi'
      · simpa [f₁, hp] using h.indexed p
    · exact h.live (List.mem_of_mem_erase hmem)

theorem take_absent (h : Inv f) (hc : c ∉ f.nodes this) :
    (f.take this (some c)).2 = none ∧
      Relinked f (f.take this (some c)).1 f.links ∧ Inv (f.take this (some c)).1 := by
  cases hch : (f.node this).children with
  | none =>
    have htake : f.take this (some c) = (f, none) := by simp [take, hch]
    rw [htake]
    exact ⟨rfl, Relinked.refl f, h⟩
  | some ch =>
    have hk := kids_of_some hch
    have hidx : ch.Indexed f.name := hk ▸ h.indexed this
    have hns : f.nodes this = ch.nodes := by rw [← hk]; rfl
    have htake : f.take this (some c) = (f.setChildren this (some ch), none) := by
      simp [take, hch, Children.takeOne_not_mem hidx (hns ▸ hc)]
    have hkids : ∀ p, (f.setChildren this (some ch)).kids p = f.kids p := fun p => by
      by_cases hp : p = this <;> simp [hp, hk]
    have hrel : Relinked f (f.setChildren this (some ch)) f.links := by
      refine ⟨?_, by simp, by funext m; simp, by funext m; simp, rfl, rfl⟩
      simp only [links, Links.mk.injEq]
      exact ⟨by funext m; simp, by funext m; simp only [nodes, hkids]⟩
    rw [htake]
    exact ⟨rfl, hrel, h.relink hrel h.linked (fun p => by simpa [hkids] using h.indexed p)
      fun hmem => h.live hmem⟩

theorem take_none (f : Forest) (this : Id) : f.take this none = (f, none) := by
  simp [take]

/-- Cutting a node off its parent, if it has one. -/
theorem detach_spec (h : Inv f) (c : Id) :
    Relinked f (f.detach c) (f.links.unlink c) ∧ Inv (f.detach c) := by
  cases hp : f.parent c with
  | none =>
    have : f.detach c = f := by simp [detach, hp]
    rw [this, h.linked.unlink_root hp]
    exact ⟨Relinked.refl f, h⟩
  | some q =>
    have : f.detach c = (f.take q (some c)).1 := by simp [detach, hp]
    rw [this]
    exact (take_spec h (h.mem_iff.mp hp)).2

theorem detachAll_spec (h : Inv f) (cs : List Id) :
    Relinked f (f.detachAll cs) (f.links.unlinkAll cs) ∧ Inv (f.detachAll cs) := by
  induction cs generalizing f with
  | nil => exact ⟨Relinked.refl f, h⟩
  | cons c cs ih =>
    obtain ⟨hr, hi⟩ := detach_spec h c
    obtain ⟨hr', hi'⟩ := ih hi
    rw [hr.links] at hr'
    exact ⟨hr.trans hr', hi'⟩

end Take

/-! ## insert -/

theorem resolveIndex_some {index sz i : Int} (h : resolveIndex index sz = some i) :
    0 ≤ i ∧ i ≤ sz := by
  simp only [resolveIndex] at h
  split at h <;> rename_i hc <;> simp_all <;> omega

section Insert

variable {f : Forest} {this c : Id} {cs : List Id} {index i : Int}

/-- The index, wrapped, against the child count of the receiver once `cs` is cut off. -/
def insertAt (f : Forest) (this : Id) (cs : List Id) (index : Int) : Option Int :=
  resolveIndex index ((f.links.unlinkAll cs).down this).length

theorem setParents_spec (cs : List Id) (p : Option Id) :
    ∀ f : Forest, (∀ m, (f.setParents cs p).parent m = if m ∈ cs then p else f.parent m) ∧
      (f.setParents cs p).kids = f.kids ∧ (f.setParents cs p).name = f.name ∧
      (f.setParents cs p).value = f.value ∧ (f.setParents cs p).shadow = f.shadow ∧
      (f.setParents cs p).live = f.live ∧ (f.setParents cs p).next = f.next := by
  induction cs with
  | nil => intro f; simp [setParents]
  | cons c cs ih =>
    intro f
    obtain ⟨h1, h2, h3, h4, h5, h6, h7⟩ := ih (f.setParent c p)
    simp only [setParents, List.foldl_cons] at h1 h2 h3 h4 h5 h6 h7 ⊢
    refine ⟨fun m => ?_, ?_, ?_, ?_, ?_, by rw [h6]; rfl, by rw [h7]; rfl⟩
    · rw [h1]
      by_cases hm : m ∈ cs <;> by_cases hc : m = c <;> simp [hm, hc]
    · rw [h2]; funext m; simp
    · rw [h3]; simp
    · rw [h4]; funext m; simp
    · rw [h5]; funext m; simp

/-- What both forms of `insert` do first: cut the nodes off and make sure of a container. -/
theorem prepare_spec (h : Inv f) (cs : List Id) (this : Id) :
    Relinked f ((f.detachAll cs).ensureChildren this) (f.links.unlinkAll cs) ∧
      Inv ((f.detachAll cs).ensureChildren this) := by
  obtain ⟨hr, hi⟩ := detachAll_spec h cs
  have he : Relinked (f.detachAll cs) ((f.detachAll cs).ensureChildren this)
      (f.links.unlinkAll cs) := by
    refine ⟨?_, by simp, by funext m; simp, by funext m; simp, rfl, rfl⟩
    rw [← hr.links]
    simp only [links, Links.mk.injEq]
    exact ⟨by funext m; simp, by funext m; simp⟩
  refine ⟨hr.trans he, hi.relink he (h.linked.unlinkAll cs) (fun p => ?_) fun hmem => ?_⟩
  · simpa using hi.indexed p
  · exact hi.live (hr.nodes ▸ hmem)

/-- What both forms of `insert` do last: a container with `cs` in it, and the parents of `cs`. -/
theorem place_spec (h : Inv f) (hthis : f.live this = true) (hcs : ∀ c ∈ cs, f.live c = true)
    (hnd : cs.Nodup) (hroot : ∀ c ∈ cs, f.parent c = none) {i : Nat} {ch : Children}
    (hn : ch.nodes = (f.nodes this).take i ++ cs ++ (f.nodes this).drop i)
    (hidx : ch.Indexed f.name) (sig : Signal) :
    Relinked f (((f.setChildren this (some ch)).setParents cs (some this)).emit this sig)
        (f.links.link this i cs) ∧
      Inv (((f.setChildren this (some ch)).setParents cs (some this)).emit this sig) := by
  obtain ⟨hp, hk, hname, hval, hsh, hl, hnx⟩ :=
    setParents_spec cs (some this) (f.setChildren this (some ch))
  have hrel : Relinked f (((f.setChildren this (some ch)).setParents cs (some this)).emit this sig)
      (f.links.link this i cs) := by
    refine ⟨?_, by simp [hname], ?_, ?_, by rw [emit_live, hl]; rfl, by rw [emit_next, hnx]; rfl⟩
    · simp only [links, Links.link, Links.mk.injEq]
      refine ⟨funext fun m => by simp [hp], funext fun p => ?_⟩
      simp only [nodes, emit_kids, hk, setChildren_kids]
      by_cases hpt : p = this
      · simpa [hpt, nodes] using hn
      · simp [hpt]
    · funext m; simp [hval]
    · funext m; simp [hsh]
  refine ⟨hrel, h.relink hrel (h.linked.link hnd hroot) (fun p => ?_) fun {p c} hmem => ?_⟩
  · simp only [emit_kids, emit_name, hk, hname, setChildren_kids, setChildren_name]
    by_cases hpt : p = this
    · simpa [hpt] using hidx
    · simpa [hpt] using h.indexed p
  · by_cases hpt : p = this
    · subst hpt
      simp only [Links.link_down, if_true, links_down, List.mem_append] at hmem
      rcases hmem with (hmem | hmem) | hmem
      · exact h.live (List.mem_of_mem_take hmem)
      · exact ⟨hthis, hcs c hmem⟩
      · exact h.live (List.mem_of_mem_drop hmem)
    · simp only [Links.link_down, if_neg hpt, links_down] at hmem
      exact h.live hmem

theorem insert_fails (h : Inv f) (hi : f.insertAt this [c] index = none) :
    (f.insert this (some c) index).2 = false ∧
      Relinked f (f.insert this (some c) index).1 (f.links.unlink c) ∧
      Inv (f.insert this (some c) index).1 := by
  have hp := prepare_spec h [c] this
  have hres : resolveIndex index (((f.detach c).ensureChildren this).nodes this).length = none := by
    have := hp.1.nodes
    simp only [detachAll, List.foldl_cons, List.foldl_nil] at this
    rw [this]
    exact hi
  have heq : f.insert this (some c) index = ((f.detach c).ensureChildren this, false) := by
    simp only [insert, hres]
  rw [heq]
  exact ⟨rfl, hp⟩

theorem insert_ok (h : Inv f) (hthis : f.live this = true) (hc : f.live c = true)
    (hi : f.insertAt this [c] index = some i) :
    (f.insert this (some c) index).2 = true ∧
      Relinked f (f.insert this (some c) index).1 ((f.links.unlink c).link this i.toNat [c]) ∧
      Inv (f.insert this (some c) index).1 := by
  let f₁ := (f.detach c).ensureChildren this
  obtain ⟨hr, hinv⟩ : Relinked f f₁ (f.links.unlink c) ∧ Inv f₁ := prepare_spec h [c] this
  have hlen : (f₁.nodes this).length = ((f.links.unlinkAll [c]).down this).length := by
    rw [hr.nodes]; rfl
  have hres : resolveIndex index (f₁.nodes this).length = some i := by rw [hlen]; exact hi
  obtain ⟨i, rfl⟩ := Int.eq_ofNat_of_zero_le (resolveIndex_some hres).1
  have hle : i ≤ (f₁.kids this).nodes.length := by
    have := (resolveIndex_some hres).2
    exact Int.ofNat_le.mp this
  obtain ⟨hn, hidx⟩ := Children.insertOne_spec (hinv.indexed this) c hle
  rw [insertIdx_eq_take_drop _ _ hle] at hn
  obtain ⟨sig, heq⟩ : ∃ sig, f.insert this (some c) index =
      (((f₁.setChildren this (some ((f₁.kids this).insertOne f₁.name c i).1)).setParents [c]
        (some this)).emit this sig, true) := by
    simp only [insert, f₁] at hres ⊢
    rw [hres]
    exact ⟨_, rfl⟩
  have hroot : ∀ d ∈ [c], f₁.parent d = none := by
    intro d hd
    rw [hr.parent, List.mem_singleton.mp hd]
    simp
  have hthis₁ : f₁.live this = true := by rw [hr.live]; exact hthis
  have hp := place_spec hinv hthis₁
    (fun d hd => by rw [hr.live, List.mem_singleton.mp hd]; exact hc) (List.nodup_singleton c) hroot
    (i := i) (by simpa [nodes] using hn) hidx sig
  rw [heq]
  refine ⟨rfl, ?_, hp.2⟩
  rw [hr.links] at hp
  exact hr.trans hp.1

theorem insertBatch_fails (h : Inv f) {children : List (Option Id)} (hne : children ≠ [])
    (hcs : nonNull children = some cs) (hi : f.insertAt this cs index = none) :
    (f.insertBatch this children index).2 = false ∧
      Relinked f (f.insertBatch this children index).1 (f.links.unlinkAll cs) ∧
      Inv (f.insertBatch this children index).1 := by
  have hp := prepare_spec h cs this
  have hres : resolveIndex index (((f.detachAll cs).ensureChildren this).nodes this).length = none := by
    rw [hp.1.nodes]
    exact hi
  have heq : f.insertBatch this children index = ((f.detachAll cs).ensureChildren this, false) := by
    simp only [insertBatch, hne, if_false, hcs, hres]
  rw [heq]
  exact ⟨rfl, hp⟩

/-- What a successful batch computes, whatever the batch. -/
theorem insertBatch_eq (h : Inv f) {children : List (Option Id)} (hne : children ≠ [])
    (hcs : nonNull children = some cs) (hi : f.insertAt this cs index = some i) :
    ∃ sig, f.insertBatch this children index =
      ((((((f.detachAll cs).ensureChildren this).setChildren this
        (some ((((f.detachAll cs).ensureChildren this).kids this).insertMany
          ((f.detachAll cs).ensureChildren this).name cs i).1)).setParents cs
        (some this)).emit this sig), true) := by
  have hp := prepare_spec h cs this
  have hres : resolveIndex index (((f.detachAll cs).ensureChildren this).nodes this).length =
      some i := by
    rw [hp.1.nodes]
    exact hi
  simp only [insertBatch, hne, if_false, hcs, hres]
  exact ⟨_, rfl⟩

theorem insertBatch_ok (h : Inv f) {children : List (Option Id)} (hne : children ≠ [])
    (hcs : nonNull children = some cs) (hnd : cs.Nodup) (hthis : f.live this = true)
    (hlive : ∀ c ∈ cs, f.live c = true) (hi : f.insertAt this cs index = some i) :
    (f.insertBatch this children index).2 = true ∧
      Relinked f (f.insertBatch this children index).1
        ((f.links.unlinkAll cs).link this i.toNat cs) ∧
      Inv (f.insertBatch this children index).1 := by
  obtain ⟨sig, heq⟩ := insertBatch_eq h hne hcs hi
  let f₁ := (f.detachAll cs).ensureChildren this
  obtain ⟨hr, hinv⟩ : Relinked f f₁ (f.links.unlinkAll cs) ∧ Inv f₁ := prepare_spec h cs this
  obtain ⟨hi0, hile⟩ := resolveIndex_some hi
  obtain ⟨i, rfl⟩ := Int.eq_ofNat_of_zero_le hi0
  have hle : i ≤ (f₁.kids this).nodes.length := by
    have hlen : (f₁.kids this).nodes = (f.links.unlinkAll cs).down this := by
      have := congrFun hr.nodes this
      exact this
    rw [hlen]
    exact Int.ofNat_le.mp hile
  obtain ⟨hn, hidx⟩ := Children.insertMany_spec (hinv.indexed this) cs hle
  have hroot : ∀ d ∈ cs, f₁.parent d = none := by
    intro d hd
    rw [hr.parent, Links.unlinkAll_up, if_pos hd]
  have hthis₁ : f₁.live this = true := by rw [hr.live]; exact hthis
  have hp := place_spec hinv hthis₁
    (fun d hd => by rw [hr.live]; exact hlive d hd) hnd hroot
    (i := i) (by simpa [nodes] using hn) hidx sig
  rw [heq]
  refine ⟨rfl, ?_, hp.2⟩
  rw [hr.links] at hp
  exact hr.trans hp.1

end Insert

end Forest

end VersatileEngine
