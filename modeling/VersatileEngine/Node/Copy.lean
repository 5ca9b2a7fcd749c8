import VersatileEngine.Node.Matching

/-!
# VersatileEngine.Node.Copy

`Node::copy` does to the nodes of a forest what `copyTree` does to trees.

* `Level`        — the state inside one call: the children of the receiver, each with the tree it
  holds; nothing outside the destination has changed.
* `Level.replace` — the step rule: some of the children give way to others.
* `deleteNode_total`, `remove_total` — removing a child that holds a tree.
* `flushPending_spec`, `copyChildren_spec`, `removeUnmatched_spec` — the three loops of `copy`.
* `copy_spec`    — the refinement, with a bound on the depth that suffices.
-/

namespace VersatileEngine

namespace Forest

/-- What a call that turns the held tree `d` into `d'` has done to the forest. -/
structure Becomes (f f' : Forest) (d d' : Held) : Prop where
  inv : Inv f'
  holds : Holds f' d'
  id : d'.id = d.id
  nodup : d'.ids.Nodup
  own : ∀ m ∈ d'.ids, m ∈ d.ids ∨ f.live m = false
  frame : ∀ m, f.live m = true → m ∉ d.ids → Agrees f f' m

/-- Inside a call on `this`, started in `f₀` with the destination nodes `T`: the children are now
`ks`. -/
structure Level (f₀ f : Forest) (T : List Id) (this : Id) (ks : List Held) : Prop where
  inv : Inv f
  live : f.live this = true
  name : f.name this = f₀.name this
  value : f.value this = f₀.value this
  nodes : f.nodes this = ks.map Held.id
  holds : ∀ k ∈ ks, Holds f k
  nodup : (this :: ks.flatMap Held.ids).Nodup
  own : ∀ k ∈ ks, ∀ m ∈ k.ids, m ∈ T ∨ f₀.live m = false
  mine : this ∈ T
  only : ∀ m, f₀.live m = true → m ∉ T → Agrees f₀ f m

section Level

variable {f₀ f f' : Forest} {T : List Id} {this : Id} {A B K L : List Held}

theorem Level.ids_live (h : Level f₀ f T this K) {m : Id} (hm : m ∈ K.flatMap Held.ids) :
    f.live m = true := by
  obtain ⟨k, hk, hm⟩ := List.mem_flatMap.mp hm
  exact (h.holds k hk).live m hm

/-- A node that was live at the start and is not of the destination is of no child. -/
theorem Level.foreign (h : Level f₀ f T this K) {m : Id} (hl : f₀.live m = true) (hT : m ∉ T) :
    m ∉ K.flatMap Held.ids := fun hm => by
  obtain ⟨k, hk, hm⟩ := List.mem_flatMap.mp hm
  rcases h.own k hk m hm with ht | hd
  · exact hT ht
  · rw [hl] at hd
    cases hd

theorem Level.holds_source (h : Level f₀ f T this K) {s : Held} (hs : Holds f₀ s)
    (hT : ∀ m ∈ s.ids, m ∉ T) : Holds f s :=
  hs.agrees fun m hm => h.only m (hs.live m hm) (hT m hm)

/-- **The step rule**: the children `K` give way to `L`, whose nodes are nodes of `K` or new. -/
theorem Level.replace (h : Level f₀ f T this (A ++ K ++ B)) (hinv : Inv f')
    (hlive : f'.live this = true) (hname : f'.name this = f.name this)
    (hvalue : f'.value this = f.value this) (hnodes : f'.nodes this = (A ++ L ++ B).map Held.id)
    (hholds : ∀ k ∈ L, Holds f' k) (hnd : (L.flatMap Held.ids).Nodup)
    (hown : ∀ m ∈ L.flatMap Held.ids, m ∈ K.flatMap Held.ids ∨ f.live m = false)
    (hframe : ∀ m, f.live m = true → m ≠ this → m ∉ K.flatMap Held.ids → Agrees f f' m) :
    Level f₀ f' T this (A ++ L ++ B) := by
  have hold := h.nodup
  simp only [List.flatMap_append, List.nodup_cons, List.nodup_append, List.mem_append, not_or] at hold
  obtain ⟨⟨⟨htA, htK⟩, htB⟩, ⟨hA, hK, hAK⟩, hB, hAKB⟩ := hold
  have live_of : ∀ m, m ∈ A.flatMap Held.ids ∨ m ∈ B.flatMap Held.ids → f.live m = true := by
    intro m hm
    refine h.ids_live ?_
    simp only [List.flatMap_append, List.mem_append]
    tauto
  -- a node of `A` or `B` is none of `K`
  have apartA : ∀ m ∈ A.flatMap Held.ids, m ∉ K.flatMap Held.ids := fun m hm hk => hAK m hm m hk rfl
  have apartB : ∀ m ∈ B.flatMap Held.ids, m ∉ K.flatMap Held.ids := fun m hm hk =>
    hAKB m (.inr hk) m hm rfl
  have new_apart : ∀ m ∈ L.flatMap Held.ids,
      m ∉ A.flatMap Held.ids ∧ m ∉ B.flatMap Held.ids ∧ m ≠ this := by
    intro m hm
    rcases hown m hm with hk | hd
    · exact ⟨fun ha => apartA m ha hk, fun hb => apartB m hb hk, fun he => htK (he ▸ hk)⟩
    · refine ⟨fun ha => ?_, fun hb => ?_, fun he => ?_⟩
      · rw [live_of m (.inl ha)] at hd; cases hd
      · rw [live_of m (.inr hb)] at hd; cases hd
      · rw [he, h.live] at hd; cases hd
  refine ⟨hinv, hlive, hname.trans h.name, hvalue.trans h.value, hnodes, ?_, ?_, ?_, h.mine, ?_⟩
  · intro k hk
    simp only [List.mem_append] at hk
    rcases hk with (hk | hk) | hk
    · refine (h.holds k (by simp [hk])).agrees fun m hm => ?_
      have hmA : m ∈ A.flatMap Held.ids := List.mem_flatMap.mpr ⟨k, hk, hm⟩
      exact hframe m (live_of m (.inl hmA)) (fun he => htA (he ▸ hmA)) (apartA m hmA)
    · exact hholds k hk
    · refine (h.holds k (by simp [hk])).agrees fun m hm => ?_
      have hmB : m ∈ B.flatMap Held.ids := List.mem_flatMap.mpr ⟨k, hk, hm⟩
      exact hframe m (live_of m (.inr hmB)) (fun he => htB (he ▸ hmB)) (apartB m hmB)
  · simp only [List.flatMap_append, List.nodup_cons, List.nodup_append, List.mem_append, not_or]
    refine ⟨⟨⟨htA, fun hm => (new_apart this hm).2.2 rfl⟩, htB⟩, ⟨hA, hnd, ?_⟩, hB, ?_⟩
    · rintro m hm _ hk rfl
      exact (new_apart m hk).1 hm
    · rintro m (hm | hm) _ hb rfl
      · exact hAKB m (.inl hm) m hb rfl
      · exact (new_apart m hm).2.1 hb
  · intro k hk m hm
    simp only [List.mem_append] at hk
    rcases hk with (hk | hk) | hk
    · exact h.own k (by simp [hk]) m hm
    · rcases hown m (List.mem_flatMap.mpr ⟨k, hk, hm⟩) with hK | hd
      · obtain ⟨k₀, hk₀, hm₀⟩ := List.mem_flatMap.mp hK
        exact h.own k₀ (by simp [hk₀]) m hm₀
      · by_cases hT : m ∈ T
        · exact .inl hT
        · cases hl : f₀.live m with
          | false => exact .inr rfl
          | true =>
            rw [(h.only m hl hT).live, hl] at hd
            cases hd
    · exact h.own k (by simp [hk]) m hm
  · intro m hl hT
    have ha := h.only m hl hT
    have hforeign := h.foreign hl hT
    simp only [List.flatMap_append, List.mem_append, not_or] at hforeign
    exact ha.trans (hframe m (ha.live.trans hl) (fun he => hT (he ▸ h.mine)) hforeign.1.2)

/-- The step rule for a call that rewrites one child. -/
theorem Level.becomes {k k' : Held} (h : Level f₀ f T this (A ++ k :: B)) (hb : Becomes f f' k k') :
    Level f₀ f' T this (A ++ k' :: B) := by
  have h' : Level f₀ f T this (A ++ [k] ++ B) := by simpa using h
  have hthis : Agrees f f' this := by
    refine hb.frame this h.live fun hm => ?_
    have := h.nodup
    simp only [List.nodup_cons, List.flatMap_append, List.flatMap_cons, List.mem_append, not_or] at this
    exact this.1.2.1 hm
  have hres := h'.replace (L := [k']) hb.inv (hthis.live.trans h.live) hthis.name hthis.value
    (by rw [hthis.nodes, h.nodes]; simp [hb.id]) (by simpa using hb.holds)
    (by simpa using hb.nodup) (by simpa using hb.own) (fun m hl _ hm => hb.frame m hl (by simpa using hm))
  simpa using hres

end Level

/-! ## Inserting a fresh node -/

section Fresh

variable {f : Forest} {this : Id} {X Y : List Id}

theorem childList_eq (f : Forest) (this : Id) : f.childList this = f.nodes this := by
  simp only [childList]
  split
  · rename_i hch; rw [nodes_of_none hch]
  · rename_i ch hch; rw [nodes, kids_of_some hch]

theorem count_eq (f : Forest) (this : Id) : f.count this = (f.nodes this).length := by
  simp only [count]
  split
  · rename_i hch; rw [nodes_of_none hch]; rfl
  · rename_i ch hch; rw [nodes, kids_of_some hch]

/-- Before the anchor, which is the first of `Y`, or at the end. -/
theorem pendingIndex_eq (h : Inv f) {a : Option Id} (hn : f.nodes this = X ++ Y)
    (ha : a = Y.head?) : f.pendingIndex this a = X.length := by
  subst ha
  cases Y with
  | nil => simp [pendingIndex, count_eq, hn]
  | cons m Y =>
    have hnd := h.nodup this
    have hX : m ∉ X := fun hm => by
      rw [hn, List.nodup_append] at hnd
      exact hnd.2.2 m hm m (by simp) rfl
    have hidx : f.indexOf this (some m) (-1) = X.length := by
      rw [indexOf_eq h, hn, Scan.indexOf, if_pos (by simp), idxOf_middle hX]
    simp only [pendingIndex, List.head?_cons, hidx]
    rw [if_neg (by omega)]

theorem insertFresh_spec (h : Inv f) (ht : f.live this = true) (nm : Str) {a : Option Id}
    (hn : f.nodes this = X ++ Y) (ha : a = Y.head?) :
    (f.insertFresh this nm a).2 = true ∧ Inv (f.insertFresh this nm a).1 ∧
      (f.insertFresh this nm a).1.nodes this = X ++ f.next :: Y ∧
      Holds (f.insertFresh this nm a).1 (.node f.next nm .none []) ∧
      (f.insertFresh this nm a).1.live this = true ∧
      (f.insertFresh this nm a).1.name this = f.name this ∧
      (f.insertFresh this nm a).1.value this = f.value this ∧
      ∀ m, f.live m = true → m ≠ this → Agrees f (f.insertFresh this nm a).1 m := by
  let f₁ := (f.newNode nm).1
  have hne : ∀ m, f.live m = true → m ≠ f.next := fun m hm he => by
    rw [he, h.next_dead] at hm
    cases hm
  have hinv₁ : Inv f₁ := newNode_spec h nm
  have hn₁ : f₁.nodes this = X ++ Y := by simp [f₁, hne this ht, hn]
  have hpos := pendingIndex_eq hinv₁ hn₁ ha
  have hroot : f₁.links.up f.next = none := by simp [f₁]
  have hat : f₁.insertAt this [f.next] X.length = some (X.length : Int) := by
    have hun : f₁.links.unlinkAll [f.next] = f₁.links := hinv₁.linked.unlink_root hroot
    have hneg : ¬ ((X.length : Int) < 0) := by omega
    rw [insertAt, hun, links_down, hn₁, resolveIndex]
    simp only [hneg, if_false, List.length_append, Nat.cast_add, false_or]
    rw [if_neg (by omega)]
  have hres : f.insertFresh this nm a = f₁.insert this (some f.next) X.length := by
    simp only [insertFresh]
    rw [← hpos]
  obtain ⟨hok, hr, hinv⟩ := insert_ok hinv₁ (by simp [f₁, ht]) (by simp [f₁]) hat
  rw [hinv₁.linked.unlink_root hroot] at hr
  rw [hres]
  have hnext : f.next ≠ this := (hne this ht).symm
  have hnodes : ∀ m, (f₁.insert this (some f.next) X.length).1.nodes m =
      if m = this then X ++ f.next :: Y else f₁.nodes m := by
    intro m
    rw [congrFun hr.nodes m, Links.link_down]
    by_cases hm : m = this
    · subst hm; simp [hn₁]
    · simp [hm]
  refine ⟨hok, hinv, ?_, ?_, ?_, ?_, ?_, fun m hm hmt => ⟨?_, ?_, ?_, ?_⟩⟩
  · simp [hnodes]
  · refine holds_iff.mpr ⟨?_, ?_, ?_, ?_, by simp [Held.kids]⟩
    · rw [hr.live]; simp [f₁, Held.id]
    · rw [hr.name]; simp [f₁, Held.id, Held.name]
    · rw [hr.value]; simp [f₁, Held.id, Held.value]
    · rw [hnodes]
      simp [f₁, Held.id, Held.kids, hnext]
  · rw [hr.live]; simp [f₁, ht]
  · rw [hr.name]; simp [f₁, hne this ht]
  · rw [hr.value]; simp [f₁, hne this ht]
  · rw [hr.live]; simp [f₁, hne m hm]
  · rw [hr.name]; simp [f₁, hne m hm]
  · rw [hr.value]; simp [f₁, hne m hm]
  · rw [hnodes, if_neg hmt]; simp [f₁, hne m hm]

end Fresh

/-! ## Removing a held child -/

section Remove

/-- Nothing that a tree says changes at `m` when its record and its liveness stay. -/
theorem Agrees.of_node {f f' : Forest} {m : Id} (hn : f'.node m = f.node m)
    (hl : f'.live m = f.live m) : Agrees f f' m :=
  ⟨hl, by simp only [Forest.name, hn], by simp only [Forest.value, hn],
    by simp only [Forest.nodes, kids, hn]⟩

theorem agrees_setParent (f : Forest) (c : Id) (p : Option Id) (m : Id) :
    Agrees f (f.setParent c p) m :=
  ⟨rfl, by simp, by simp, by simp⟩

/-- Deleting a held tree ends, and leaves every other record alone. -/
theorem deleteNode_total (t : Held) :
    ∀ (k : Nat) (f : Forest), Holds f t → t.ids.Nodup → t.height ≤ k →
      ∃ f', f.deleteNode k t.id = some f' ∧
        ∀ m, m ∉ t.ids → f'.node m = f.node m ∧ f'.live m = f.live m := by
  induction t using Held.ind with
  | h t ih =>
    intro k f ht hnd hk
    obtain ⟨k, rfl⟩ : ∃ j, k = j + 1 := ⟨k - 1, by have := t.height_pos; omega⟩
    obtain ⟨hlive, -, -, hnodes, hkids⟩ := holds_iff.mp ht
    rw [Held.ids_eq, List.nodup_cons] at hnd
    -- the children, one after another
    have hloop : ∀ (ks : List Held) (f : Forest), (∀ c ∈ ks, c ∈ t.kids) → (∀ c ∈ ks, Holds f c) →
        (ks.flatMap Held.ids).Nodup →
        ∃ f', (ks.map Held.id).foldlM (fun f c => deleteNode k (f.setParent c none) c) f = some f' ∧
          ∀ m, m ∉ ks.flatMap Held.ids → f'.node m = f.node m ∧ f'.live m = f.live m := by
      intro ks
      induction ks with
      | nil => intro f _ _ _; exact ⟨f, rfl, fun m _ => ⟨rfl, rfl⟩⟩
      | cons c ks ihks =>
        intro f hsub hh hnd
        simp only [List.flatMap_cons, List.nodup_append] at hnd
        obtain ⟨hc, hks, hdisj⟩ := hnd
        have hheight := Held.height_kid (hsub c (by simp))
        obtain ⟨f₁, hdel, hframe₁⟩ := ih c (hsub c (by simp)) k (f.setParent c.id none)
          ((hh c (by simp)).agrees fun m _ => agrees_setParent f _ _ m) hc (by omega)
        have hframe : ∀ m, m ∉ c.ids → f₁.node m = f.node m ∧ f₁.live m = f.live m := fun m hm => by
          obtain ⟨h1, h2⟩ := hframe₁ m hm
          have hmc : m ≠ c.id := fun he => hm (he ▸ c.id_mem_ids)
          simp only [setParent, setNode_node, hmc, if_false] at h1
          exact ⟨h1, h2⟩
        obtain ⟨f₂, hrun, hframe₂⟩ := ihks f₁ (fun d hd => hsub d (by simp [hd])) (fun d hd =>
          (hh d (by simp [hd])).agrees fun m hm =>
            have hmc : m ∉ c.ids := fun hmc =>
              hdisj m hmc m (List.mem_flatMap.mpr ⟨d, hd, hm⟩) rfl
            Agrees.of_node (hframe m hmc).1 (hframe m hmc).2) hks
        refine ⟨f₂, by simp [List.foldlM_cons, hdel, hrun], fun m hm => ?_⟩
        simp only [List.flatMap_cons, List.mem_append, not_or] at hm
        obtain ⟨h1, h2⟩ := hframe₂ m hm.2
        obtain ⟨h3, h4⟩ := hframe m hm.1
        exact ⟨h1.trans h3, h2.trans h4⟩
    obtain ⟨g, hg, hframe⟩ : ∃ g, clearChildren (deleteNode k) f t.id true = some g ∧
        ∀ m, m ∉ t.ids → g.node m = f.node m ∧ g.live m = f.live m := by
      cases hch : (f.node t.id).children with
      | none => exact ⟨f, by simp [clearChildren, hch], fun m _ => ⟨rfl, rfl⟩⟩
      | some ch =>
        have hns : ch.nodes = t.kids.map Held.id := by rw [← hnodes, nodes, kids_of_some hch]
        obtain ⟨g, hg, hframe⟩ := hloop t.kids f (fun _ h => h) hkids hnd.2
        refine ⟨g.setChildren t.id none, by simp [clearChildren, hch, hns, hg], fun m hm => ?_⟩
        rw [Held.ids_eq, List.mem_cons, not_or] at hm
        simpa [setChildren, hm.1] using hframe m hm.2
    refine ⟨g.free t.id, by simp [deleteNode, hlive, hg], fun m hm => ?_⟩
    have hmt : m ≠ t.id := fun he => hm (he ▸ t.id_mem_ids)
    simpa [hmt] using hframe m hm

theorem remove_total {f₀ f : Forest} {T : List Id} {this : Id} {A B : List Held} {k : Held}
    (h : Level f₀ f T this (A ++ k :: B)) {fuel : Nat} (hfuel : k.height ≤ fuel) :
    ∃ f', f.remove fuel this (some k.id) = some (f', true) ∧ Level f₀ f' T this (A ++ B) := by
  have h' : Level f₀ f T this (A ++ [k] ++ B) := by simpa using h
  have hmem : k.id ∈ f.nodes this := by rw [h.nodes]; simp
  obtain ⟨htake, hr, hinv⟩ := take_spec h.inv hmem
  let f₁ := (f.take this (some k.id)).1
  have hparent : f.parent k.id = some this := h.inv.mem_iff.mpr hmem
  have hagree : ∀ m, m ≠ this → Agrees f f₁ m := fun m hm => by
    refine ⟨congrFun hr.live m, congrFun hr.name m, congrFun hr.value m, ?_⟩
    rw [congrFun hr.nodes m, Links.unlink_down, links_down]
    refine List.erase_of_not_mem fun hc => hm ?_
    have := h.inv.mem_iff.mpr hc
    rw [hparent] at this
    exact (Option.some.inj this).symm
  have hnd := h'.nodup
  simp only [List.flatMap_append, List.flatMap_cons, List.flatMap_nil, List.append_nil,
    List.nodup_cons, List.nodup_append, List.mem_append, not_or] at hnd
  have hthis : this ∉ k.ids := hnd.1.1.2
  have hk₁ : Holds f₁ k := (h.holds k (by simp)).agrees fun m hm =>
    hagree m fun he => hthis (he ▸ hm)
  obtain ⟨f', hdel, hframe⟩ := deleteNode_total k fuel f₁ hk₁ hnd.2.1.2.1 hfuel
  have hroot : f₁.parent k.id = none := by
    rw [hr.parent]
    simp
  obtain ⟨D, hD⟩ := deleteNode_deleted fuel hdel
  have hinv' : Inv f' := hinv.deleted hD (by simpa using hroot)
  have hself := Agrees.of_node (hframe this hthis).1 (hframe this hthis).2
  have hids : (A.map Held.id ++ k.id :: B.map Held.id).erase k.id = A.map Held.id ++ B.map Held.id := by
    have hA : k.id ∉ A.map Held.id := fun hm => by
      obtain ⟨a, ha, he⟩ := List.mem_map.mp hm
      exact hnd.2.1.2.2 a.id (List.mem_flatMap.mpr ⟨a, ha, a.id_mem_ids⟩) k.id k.id_mem_ids he
    simp [List.erase_append_right, hA]
  have hlive₁ : f₁.live = f.live := hr.live
  have hres := h'.replace (L := []) hinv' (by rw [hself.live, hlive₁]; exact h.live)
    (by rw [hself.name]; exact congrFun hr.name this) (by rw [hself.value]; exact congrFun hr.value this)
    (by
      rw [hself.nodes, congrFun hr.nodes this, Links.unlink_down, links_down, h.nodes]
      simpa using hids)
    (by simp) (by simp) (by simp) fun m _ hmt hmk =>
      (hagree m hmt).trans (Agrees.of_node (hframe m (by simpa using hmk)).1
        (hframe m (by simpa using hmk)).2)
  refine ⟨f', ?_, by simpa using hres⟩
  have hpair : f.take this (some k.id) = (f₁, some k.id) := Prod.ext rfl htake
  simp only [remove, hpair, hdel]
  rfl

end Remove

/-! ## The loops -/

section Loops

variable {copyInto : Forest → Id → Id → Option Forest} {fuel bound : Nat} {f₀ : Forest}
  {T : List Id} {this : Id} {ai ar au : Bool}

/-- `copyInto` copies the held tree `s` the way `copyTree` does, onto any tree it does not share a
node with, as long as the heights stay within the bound. -/
def Copies (copyInto : Forest → Id → Id → Option Forest) (fuel : Nat) (ai ar au : Bool) (s : Held) :
    Prop :=
  ∀ f d, Inv f → Holds f d → Holds f s → (∀ m ∈ d.ids, m ∉ s.ids) →
    d.height + s.height ≤ fuel → ∃ f' d', copyInto f d.id s.id = some f' ∧ Becomes f f' d d' ∧
      d'.tree = copyTree ai ar au s.tree d.tree

/-- What the loops need of a source child: it is held, outside the destination, and copied rightly
onto destinations of height up to `bound`. -/
structure Source (copyInto : Forest → Id → Id → Option Forest) (fuel bound : Nat) (f₀ : Forest)
    (T : List Id) (ai ar au : Bool) (s : Held) : Prop where
  holds : Holds f₀ s
  apart : ∀ m ∈ s.ids, m ∉ T
  fits : bound + s.height ≤ fuel
  copies : Copies copyInto fuel ai ar au s

/-- One child is copied onto. -/
theorem Level.copyChild {f : Forest} {A B : List Held} {d s : Held}
    (h : Level f₀ f T this (A ++ d :: B)) (hs : Source copyInto fuel bound f₀ T ai ar au s)
    (hd : d.height ≤ bound) : ∃ f' d', copyInto f d.id s.id = some f' ∧ d'.id = d.id ∧
      Level f₀ f' T this (A ++ d' :: B) ∧ d'.tree = copyTree ai ar au s.tree d.tree := by
  have hapart : ∀ m ∈ d.ids, m ∉ s.ids := fun m hm hms => by
    rcases h.own d (by simp) m hm with hT | hdead
    · exact hs.apart m hms hT
    · rw [hs.holds.live m hms] at hdead
      cases hdead
  obtain ⟨f', d', hrun, hb, htree⟩ := hs.copies f d h.inv (h.holds d (by simp))
    (h.holds_source hs.holds hs.apart) hapart (by have := hs.fits; omega)
  exact ⟨f', d', hrun, hb.id, h.becomes hb, htree⟩

theorem flushPending_spec (fuel : Nat) {B : List Held} (hbound : 0 < bound) (ps : List Held) :
    ∀ (f : Forest) (A : List Held), (∀ p ∈ ps, Source copyInto fuel bound f₀ T ai ar au p) →
      Level f₀ f T this (A ++ B) →
      ∃ f' cs, flushPending copyInto fuel this f (B.head?.map Held.id) (ps.map Held.id) = some f' ∧
        Level f₀ f' T this (A ++ cs ++ B) ∧
        cs.map Held.tree = ps.map fun p => copyTree ai ar au p.tree (Tree.blank p.name) := by
  induction ps with
  | nil => intro f A _ h; exact ⟨f, [], rfl, by simpa using h, rfl⟩
  | cons p ps ih =>
    intro f A hps h
    have hp := hps p (by simp)
    have hheld : Holds f p := h.holds_source hp.holds hp.apart
    obtain ⟨hplive, hpname, -, -, -⟩ := holds_iff.mp hheld
    obtain ⟨hok, hinv, hnodes, hfresh, hlive, hname, hvalue, hframe⟩ :=
      insertFresh_spec (X := A.map Held.id) (Y := B.map Held.id) (a := B.head?.map Held.id)
        h.inv h.live (f.name p.id) (by rw [h.nodes, List.map_append]) (List.head?_map ..).symm
    let g := (f.insertFresh this (f.name p.id) (B.head?.map Held.id)).1
    let c : Held := .node f.next (f.name p.id) .none []
    have hlevel : Level f₀ g T this (A ++ [c] ++ B) := by
      refine Level.replace (K := []) (by simpa using h) hinv hlive hname hvalue ?_ ?_ ?_ ?_ ?_
      · rw [hnodes]; simp [c, Held.id]
      · simpa [c] using hfresh
      · simp [c, Held.ids_eq, Held.kids]
      · intro m hm
        have : m = f.next := by simpa [c, Held.ids_eq, Held.id, Held.kids] using hm
        exact .inr (this ▸ h.inv.next_dead)
      · exact fun m hm hmt _ => hframe m hm hmt
    obtain ⟨f₁, c', hcopy, -, hlevel₁, htree⟩ := (show Level f₀ g T this (A ++ c :: B) by
      simpa using hlevel).copyChild hp (by simp [c, Held.height, Held.heights]; omega)
    obtain ⟨f₂, cs, hrun, hlevel₂, htrees⟩ := ih f₁ (A ++ [c']) (fun q hq => hps q (by simp [hq]))
      (by simpa using hlevel₁)
    refine ⟨f₂, c' :: cs, ?_, by simpa using hlevel₂, ?_⟩
    · simp only [List.map_cons, flushPending, hplive, h.live, Bool.and_self, if_true, hok]
      rw [show copyInto (f.insertFresh this (f.name p.id) (B.head?.map Held.id)).1 f.next p.id =
        some f₁ from hcopy]
      exact hrun
    · rw [List.map_cons, List.map_cons, htree, htrees]
      simp only [c, Held.tree_eq, Held.name, Held.value, Held.kids, List.map_nil, hpname, Tree.blank]

theorem removeUnmatched_spec (matched : List Id) (ks : List Held) :
    ∀ (f : Forest) (B : List Held), (∀ k ∈ ks, k.height ≤ fuel) →
      Level f₀ f T this (ks.reverse ++ B) →
      ∃ f', removeUnmatched fuel f this matched (ks.map Held.id) = some f' ∧
        Level f₀ f' T this (ks.reverse.filter (fun k => k.id ∈ matched) ++ B) := by
  induction ks with
  | nil => intro f B _ h; exact ⟨f, rfl, by simpa using h⟩
  | cons k ks ih =>
    intro f B hfuel h
    have h' : Level f₀ f T this (ks.reverse ++ k :: B) := by simpa using h
    have hrest : ∀ c ∈ ks, c.height ≤ fuel := fun c hc => hfuel c (by simp [hc])
    by_cases hk : k.id ∈ matched
    · obtain ⟨f', hrun, hlevel⟩ := ih f (k :: B) hrest h'
      exact ⟨f', by simpa [removeUnmatched, hk] using hrun, by simpa [hk] using hlevel⟩
    · obtain ⟨f₁, hremove, hlevel₁⟩ := remove_total h' (hfuel k (by simp))
      obtain ⟨f', hrun, hlevel⟩ := ih f₁ B hrest hlevel₁
      have hlive : f.live k.id = true := (h'.holds k (by simp)).live _ k.id_mem_ids
      refine ⟨f', ?_, by simpa [hk] using hlevel⟩
      simp only [List.map_cons, removeUnmatched, hk, if_false, hlive, h.live, hremove]
      simpa using hrun

/-- What a pending source child becomes. -/
def freshTree (ai ar au : Bool) (p : Held) : Tree := copyTree ai ar au p.tree (Tree.blank p.name)

/-- The main loop. Of the kept children `kd`, with their keys, `cells` says what stands in the place
of each; a child that no source was matched with yet stands in its place alone. -/
theorem copyChildren_spec (fuel : Nat) (name : Id → Str) {kd : List ((Str × Nat) × Held)}
    (hnd : (kd.map Prod.fst).Nodup) (hds : (kd.map fun q => q.2.id).Nodup)
    (hkeyed : keyed name (kd.map fun q => q.2.id) = kd.map fun q => (q.1, q.2.id))
    (hbound : 0 < bound) (hheight : ∀ q ∈ kd, q.2.height ≤ bound) (rest : List Held) :
    ∀ (f : Forest) (cells : (Str × Nat) × Held → List Held) (seen : List Str)
      (st : CopyMatchState) (pend : List Held),
      (∀ s ∈ rest, Source copyInto fuel bound f₀ T ai ar au s) →
      (∀ p ∈ pend, Source copyInto fuel bound f₀ T ai ar au p) →
      Matching name (kd.map fun q => q.2.id) seen st →
      (∀ q ∈ kd, seen.count q.1.1 ≤ q.1.2 → cells q = [q.2]) →
      Level f₀ f T this (kd.flatMap cells) →
      ∀ g, groups (fun key => (kd.lookup key).isSome) ai pend (keyedFrom Held.name seen rest) = g →
      ∃ f' cells', copyChildren copyInto fuel this ai f (rest.map Held.id) st (pend.map Held.id) =
          some (f', g.2.map Held.id) ∧ Level f₀ f' T this (kd.flatMap cells') ∧
        (∀ p ∈ g.2, Source copyInto fuel bound f₀ T ai ar au p) ∧
        ∀ q ∈ kd, (cells' q).map Held.tree = match g.1.lookup q.1 with
          | some (ps, s) => ps.map (freshTree ai ar au) ++ [copyTree ai ar au s.tree q.2.tree]
          | none => (cells q).map Held.tree := by
  induction rest with
  | nil =>
    rintro f cells seen st pend - hpend - - h g rfl
    exact ⟨f, cells, rfl, h, hpend, fun q _ => rfl⟩
  | cons s rest ih =>
    rintro f cells seen st pend hrest hpend hst hcells h g rfl
    have hs := hrest s (by simp)
    obtain ⟨hslive, hsname, -, -, -⟩ := holds_iff.mp (h.holds_source hs.holds hs.apart)
    obtain ⟨hmatch, hst'⟩ := takeCopyMatch_eq (g := f.name) (s := s.id) hds hst
    rw [hsname] at hst'
    rw [hkeyed, lookup_map (fun _ d => Held.id d), hsname] at hmatch
    have hrest' : ∀ t ∈ rest, Source copyInto fuel bound f₀ T ai ar au t := fun t ht =>
      hrest t (by simp [ht])
    have hcells' : ∀ q ∈ kd, (s.name :: seen).count q.1.1 ≤ q.1.2 →
        q.1 ≠ (s.name, seen.count s.name) ∧ cells q = [q.2] :=
      fun q hq hc => ⟨(ahead_cons hc).1, hcells q hq (ahead_cons hc).2⟩
    cases hlook : kd.lookup (s.name, seen.count s.name) with
    | none =>
      -- no partner: the source child waits, or is left out
      rw [hlook, Option.map_none] at hmatch
      obtain ⟨f', cells', hrun, hlevel, hsrc, hres⟩ := ih f cells (s.name :: seen)
        (takeCopyMatch f.name s.id st).2 (if ai then pend ++ [s] else pend) hrest' (by
          intro p hp
          split at hp
          · rcases List.mem_append.mp hp with hp | hp
            · exact hpend p hp
            · exact (List.mem_singleton.mp hp) ▸ hs
          · exact hpend p hp)
        hst' (fun q hq hc => (hcells' q hq hc).2) h _ rfl
      have hg : groups (fun key => (kd.lookup key).isSome) ai pend
          (keyedFrom Held.name seen (s :: rest)) = groups (fun key => (kd.lookup key).isSome) ai
            (if ai then pend ++ [s] else pend) (keyedFrom Held.name (s.name :: seen) rest) := by
        simp [keyedFrom, groups, hlook]
      rw [hg]
      refine ⟨f', cells', ?_, hlevel, hsrc, hres⟩
      have hpair : takeCopyMatch f.name s.id st = (none, (takeCopyMatch f.name s.id st).2) :=
        Prod.ext hmatch rfl
      have hpend' : (if ai then pend.map Held.id ++ [s.id] else pend.map Held.id) =
          (if ai then pend ++ [s] else pend).map Held.id := by split <;> simp
      rw [List.map_cons, copyChildren, hpair]
      simp only [hslive, Bool.not_true, Bool.false_eq_true, if_false, hpend']
      exact hrun
    | some d =>
      -- the pending ones go before the partner, then the partner is copied onto
      rw [hlook, Option.map_some] at hmatch
      obtain ⟨k₁, k₂, hsplit⟩ := List.append_of_mem (mem_of_lookup hlook)
      have hmem : ((s.name, seen.count s.name), d) ∈ kd := by rw [hsplit]; simp
      have hcell : cells ((s.name, seen.count s.name), d) = [d] := hcells _ hmem (Nat.le_refl _)
      have hne : ∀ q ∈ k₁ ++ k₂, q.1 ≠ (s.name, seen.count s.name) := fun q hq he => by
        rw [hsplit, List.map_append, List.map_cons, List.nodup_middle, List.nodup_cons,
          ← List.map_append] at hnd
        exact hnd.1 (List.mem_map.mpr ⟨q, hq, he⟩)
      have hflat : ∀ c : (Str × Nat) × Held → List Held, kd.flatMap c = k₁.flatMap c ++
          c ((s.name, seen.count s.name), d) ++ k₂.flatMap c := fun c => by rw [hsplit]; simp
      have hlevel₀ : Level f₀ f T this (k₁.flatMap cells ++ d :: k₂.flatMap cells) := by
        have := h
        rw [hflat, hcell] at this
        simpa using this
      obtain ⟨f₁, cs, hflush, hlevel₁, htrees⟩ := flushPending_spec fuel hbound pend f
        (k₁.flatMap cells) hpend hlevel₀
      obtain ⟨f₂, d', hcopy, -, hlevel₂, htree⟩ := hlevel₁.copyChild hs (hheight _ hmem)
      let cells₁ : (Str × Nat) × Held → List Held := fun q =>
        if q.1 = (s.name, seen.count s.name) then cs ++ [d'] else cells q
      have hsame : ∀ q ∈ k₁ ++ k₂, cells₁ q = cells q := fun q hq => if_neg (hne q hq)
      have hlevel₃ : Level f₀ f₂ T this (kd.flatMap cells₁) := by
        rw [hflat, List.flatMap_congr fun q hq => hsame q (List.mem_append_left _ hq),
          List.flatMap_congr fun q hq => hsame q (List.mem_append_right _ hq)]
        simpa [cells₁] using hlevel₂
      obtain ⟨f', cells', hrun, hlevel, hsrc, hres⟩ := ih f₂ cells₁ (s.name :: seen)
        (takeCopyMatch f.name s.id st).2 [] hrest' (by simp) hst'
        (fun q hq hc => (if_neg (hcells' q hq hc).1).trans (hcells' q hq hc).2) hlevel₃ _ rfl
      have hg : groups (fun key => (kd.lookup key).isSome) ai pend
          (keyedFrom Held.name seen (s :: rest)) =
          (((s.name, seen.count s.name), pend, s) :: (groups (fun key => (kd.lookup key).isSome) ai
            [] (keyedFrom Held.name (s.name :: seen) rest)).1,
            (groups (fun key => (kd.lookup key).isSome) ai [] (keyedFrom Held.name
              (s.name :: seen) rest)).2) := by
        simp [keyedFrom, groups, hlook]
      rw [hg]
      refine ⟨f', cells', ?_, hlevel, hsrc, fun q hq => ?_⟩
      · have hpair : takeCopyMatch f.name s.id st = (some d.id, (takeCopyMatch f.name s.id st).2) :=
          Prod.ext hmatch rfl
        rw [List.map_cons, copyChildren, hpair]
        simp only [hslive, Bool.not_true, Bool.false_eq_true, if_false]
        rw [show flushPending copyInto fuel this f (some d.id) (pend.map Held.id) = some f₁ from
          hflush, Option.bind_some, hcopy]
        exact hrun
      · by_cases hk : q.1 = (s.name, seen.count s.name)
        · have hq' : kd.lookup q.1 = some q.2 := lookup_of_mem hnd hq
          rw [hk, hlook] at hq'
          have hd : d = q.2 := Option.some.inj hq'
          have hnone : (groups (fun key => (kd.lookup key).isSome) ai []
              (keyedFrom Held.name (s.name :: seen) rest)).1.lookup q.1 = none := by
            rw [← Option.not_isSome_iff_eq_none, lookup_isSome, hk]
            exact fun hin => keyedFrom_key_notMem Held.name seen s rest (groups_key_mem hin)
          rw [hres q hq, hnone, hk, List.lookup_cons_self]
          simp only [cells₁, hk, if_true, List.map_append, htrees, List.map_cons, List.map_nil, htree,
            hd]
          rfl
        · have hb : (q.1 == (s.name, seen.count s.name)) = false := by simpa using hk
          rw [hres q hq, List.lookup_cons, hb]
          simp only [cells₁, hk, if_false]

/-- Removing what no source child is matched with leaves the kept children. -/
theorem kept_children {f : Forest} {ds ss : List Held} (hd : ∀ d ∈ ds, f.name d.id = d.name)
    (hs : ∀ s ∈ ss, f.name s.id = s.name) (hnd : (ds.map Held.id).Nodup) :
    ds.filter (fun k => k.id ∈ ((ss.map Held.id).foldl
        (fun st s => (takeCopyMatch f.name s st).2) (bucketChildren f.name (ds.map Held.id))).matched) =
      (keptOf true (keyed Held.name ds) (keyed Held.name ss)).map Prod.snd := by
  have hnames : (ss.map Held.id).map f.name = ss.map Held.name := by
    rw [List.map_map]
    exact List.map_congr_left hs
  have hkeyed : keyed f.name (ds.map Held.id) = (keyed Held.name ds).map fun p => (p.1, p.2.id) := by
    rw [keyed_map, keyed_congr (g := Held.name) hd]
  simp only [keptOf, if_true]
  conv_lhs => rw [← keyed_snd Held.name ds]
  rw [List.filter_map, keyed_snd]
  refine congrArg _ (List.filter_congr fun p hp => ?_)
  have hmem : (p.1, p.2.id) ∈ keyed f.name (ds.map Held.id) := by
    rw [hkeyed]
    exact List.mem_map.mpr ⟨p, hp, rfl⟩
  have := matched_all (g := f.name) hnd (ss.map Held.id) hmem
  rw [hnames, ← lookup_isSome_keyed] at this
  rw [Bool.eq_iff_iff, ← this]
  exact decide_eq_true_iff

/-- The keys of the kept children are their keys among themselves. -/
theorem keyed_kept (ar : Bool) (ds ss : List Held) :
    keyed Held.name ((keptOf ar (keyed Held.name ds) (keyed Held.name ss)).map Prod.snd) =
      keptOf ar (keyed Held.name ds) (keyed Held.name ss) := by
  cases ar with
  | false => simp [keptOf]
  | true =>
    have hsome : (fun p : (Str × Nat) × Held => ((keyed Held.name ss).lookup p.1).isSome) =
        fun p => decide (p.1.2 < (ss.map Held.name).count p.1.1) := by
      funext p
      rw [Bool.eq_iff_iff, decide_eq_true_iff]
      exact lookup_isSome_keyed Held.name ss p.1.1 p.1.2
    simp only [keptOf, if_true, hsome]
    exact keyed_filter Held.name (fun nm => (ss.map Held.name).count nm) ds

end Loops

/-! ## The refinement -/

section Refinement

variable {f₀ f : Forest} {d s : Held} {ai ar au : Bool}

theorem Level.start (h : Inv f) (hd : Holds f d) : Level f f d.ids d.id d.kids := by
  obtain ⟨h1, -, -, h4, h5⟩ := holds_iff.mp hd
  have hnd := hd.nodup h
  rw [Held.ids_eq] at hnd
  exact ⟨h, h1, rfl, rfl, h4, h5, hnd, fun k hk m hm => .inl (Held.kid_ids hk hm), d.id_mem_ids,
    fun m _ _ => Agrees.refl f m⟩

/-- The nodes of the children are distinct. -/
theorem Level.nodup_ids {T : List Id} {this : Id} {ks : List Held} (h : Level f₀ f T this ks) :
    (ks.map Held.id).Nodup := by
  rw [← h.nodes]
  exact h.inv.nodup this

/-- The last step: the value of the source is written, or found equal. -/
theorem Level.finish (au : Bool) {ks : List Held} {v : Var} {f' : Forest} (h : Level f₀ f d.ids d.id ks)
    (hd : Holds f₀ d) (hf : f' = if au then (f.update d.id v).1 else f.set d.id v) :
    Becomes f₀ f' d (.node d.id d.name (copyValue au d.value v) ks) := by
  obtain ⟨-, hname, hvalue, -, -⟩ := holds_iff.mp hd
  have hval : f.value d.id = d.value := h.value.trans hvalue
  -- the new forest differs from the old one in the value of the receiver only
  obtain ⟨hinv, hlive, hnm, hnodes, hv⟩ : Inv f' ∧ f'.live = f.live ∧ f'.name = f.name ∧
      f'.nodes = f.nodes ∧ ∀ m, f'.value m =
        if m = d.id then copyValue au d.value v else f.value m := by
    have hset : Inv (f.set d.id v) := (reaches_set h.live v).inv h.inv
    have hsetv : ∀ m, (f.set d.id v).value m = if m = d.id then v else f.value m := fun m => by
      simp [set]
    cases au with
    | false =>
      subst hf
      refine ⟨hset, rfl, by simp [set], by funext m; simp [set], fun m => ?_⟩
      simpa [copyValue] using hsetv m
    | true =>
      simp only [if_true, update, hval] at hf
      by_cases he : d.value.eqv v = true
      · rw [if_pos he] at hf
        subst hf
        refine ⟨h.inv, rfl, rfl, rfl, fun m => ?_⟩
        by_cases hm : m = d.id
        · subst hm; simp [copyValue, he, hval]
        · simp [hm]
      · rw [if_neg he] at hf
        subst hf
        refine ⟨hset, rfl, by simp [set], by funext m; simp [set], fun m => ?_⟩
        simpa [copyValue, he] using hsetv m
  have hagree : ∀ m, m ≠ d.id → Agrees f f' m := fun m hm =>
    ⟨by rw [hlive], by rw [hnm], by rw [hv, if_neg hm], by rw [hnodes]⟩
  have hnd := h.nodup
  have hout : ∀ k ∈ ks, ∀ m ∈ k.ids, m ≠ d.id := fun k hk m hm he => by
    rw [List.nodup_cons] at hnd
    exact hnd.1 (List.mem_flatMap.mpr ⟨k, hk, he ▸ hm⟩)
  refine ⟨hinv, holds_iff.mpr ⟨?_, ?_, ?_, ?_, ?_⟩, rfl, ?_, ?_, ?_⟩
  · rw [hlive]; exact h.live
  · rw [hnm]; exact h.name.trans hname
  · rw [hv]; exact if_pos rfl
  · rw [hnodes]; exact h.nodes
  · exact fun k hk => (h.holds k hk).agrees fun m hm => hagree m (hout k hk m hm)
  · rw [Held.ids_eq]; exact h.nodup
  · intro m hm
    rw [Held.ids_eq] at hm
    rcases List.mem_cons.mp hm with rfl | hm
    · exact .inl d.id_mem_ids
    · obtain ⟨k, hk, hm⟩ := List.mem_flatMap.mp hm
      exact h.own k hk m hm
  · exact fun m hl hm => (h.only m hl hm).trans (hagree m fun he => hm (he ▸ d.id_mem_ids))

/-- The children that the loops leave hold the arranged trees. -/
theorem arranged_trees {g : List ((Str × Nat) × List Held × Held)} {kd : List ((Str × Nat) × Held)}
    {cells : (Str × Nat) × Held → List Held}
    (h : ∀ q ∈ kd, (cells q).map Held.tree = match g.lookup q.1 with
      | some (ps, s) => ps.map (freshTree ai ar au) ++ [copyTree ai ar au s.tree q.2.tree]
      | none => [q.2].map Held.tree) :
    (kd.flatMap cells).map Held.tree =
      ((kd.flatMap (slotsAt g)).map (Slot.map Held.tree Held.tree)).map (copySlot ai ar au) := by
  rw [List.map_flatMap, List.map_flatMap, List.map_flatMap]
  refine List.flatMap_congr fun q hq => (h q hq).trans ?_
  simp only [slotsAt]
  cases g.lookup q.1 with
  | none => rfl
  | some x => simp [Slot.map, copySlot, freshTree, Function.comp_def]

/-- **`Node::copy` is `copyTree`**, on trees of any shape that share no node, when the bound on the
depth admits both. -/
theorem copy_spec (ai ar au : Bool) (s : Held) : ∀ fuel,
    Copies (fun f d s => copy fuel f d (some s) ai ar au) fuel ai ar au s := by
  induction s using Held.ind with
  | h s ih =>
    intro fuel f d hinv hd hs hapart hfuel
    obtain ⟨fuel, rfl⟩ : ∃ j, fuel = j + 1 := ⟨fuel - 1, by have := d.height_pos; omega⟩
    obtain ⟨hdlive, -, -, hdnodes, hdkids⟩ := holds_iff.mp hd
    obtain ⟨hslive, -, hsvalue, hsnodes, hskids⟩ := holds_iff.mp hs
    have hne : s.id ≠ d.id := fun he => hapart d.id d.id_mem_ids (he ▸ s.id_mem_ids)
    let copyInto := fun f d s => copy fuel f d (some s) ai ar au
    let kd := keptOf ar (keyed Held.name d.kids) (keyed Held.name s.kids)
    have hsource : ∀ k ∈ s.kids, Source copyInto fuel d.height f d.ids ai ar au k := fun k hk =>
      ⟨hskids k hk, fun m hm hmd => hapart m hmd (Held.kid_ids hk hm),
        by have := Held.height_kid hk; omega, ih k hk fuel⟩
    have hstart := Level.start hinv hd
    -- what no source child is matched with goes
    obtain ⟨f₁, hremove, hlevel₁⟩ : ∃ f₁, (if ar && !(f.childList d.id).isEmpty then
        f.removeUnmatched fuel d.id ((f.childList s.id).foldl
          (fun st s => (takeCopyMatch f.name s st).2)
          (bucketChildren f.name (f.childList d.id))).matched (f.childList d.id).reverse
        else some f) = some f₁ ∧ Level f f₁ d.ids d.id (kd.map Prod.snd) := by
      rw [childList_eq, childList_eq, hdnodes, hsnodes]
      cases har : ar with
      | false => exact ⟨f, by simp, by simpa [kd, har, keptOf] using hstart⟩
      | true =>
        by_cases hempty : d.kids = []
        · exact ⟨f, by simp [hempty], by
            simpa [kd, har, keptOf, hempty, keyed, keyedFrom] using hstart⟩
        · rw [← List.map_reverse]
          have hheight : ∀ k ∈ d.kids.reverse, k.height ≤ fuel := fun k hk => by
            have := Held.height_kid (List.mem_reverse.mp hk)
            have := s.height_pos
            omega
          obtain ⟨f₁, hrun, hlevel⟩ := removeUnmatched_spec _ d.kids.reverse f [] hheight
            (by simpa using hstart)
          refine ⟨f₁, by simpa [hempty] using hrun, ?_⟩
          rw [List.reverse_reverse, List.append_nil, kept_children
            (fun k hk => (holds_iff.mp (hdkids k hk)).2.1)
            (fun k hk => (holds_iff.mp (hskids k hk)).2.1) hstart.nodup_ids] at hlevel
          simpa [kd, har] using hlevel
    -- the sources, one after another
    have hkept : ∀ q ∈ kd, q.2 ∈ d.kids := fun q hq => by
      have hq' : q ∈ keyed Held.name d.kids := by
        simp only [kd, keptOf] at hq
        split at hq
        · exact (List.mem_filter.mp hq).1
        · exact hq
      exact mem_of_keyed hq'
    have hkdnd : (kd.map Prod.fst).Nodup := by
      rw [show kd = keyed Held.name (kd.map Prod.snd) from (keyed_kept ar d.kids s.kids).symm]
      exact keyed_nodup _ _
    have hids : kd.map (fun q => q.2.id) = (kd.map Prod.snd).map Held.id := by
      rw [List.map_map]
      rfl
    have hkeyed : keyed f₁.name (kd.map fun q => q.2.id) = kd.map fun q => (q.1, q.2.id) := by
      rw [hids, keyed_map, keyed_congr (g := Held.name) fun k hk =>
        (holds_iff.mp (hlevel₁.holds k hk)).2.1, keyed_kept]
    have hflat : kd.flatMap (fun q => [q.2]) = kd.map Prod.snd := (List.map_eq_flatMap ..).symm
    obtain ⟨f₂, cells, hcopy, hlevel₂, hsrc, hcells⟩ := copyChildren_spec fuel
      f₁.name hkdnd (hids ▸ hlevel₁.nodup_ids) hkeyed d.height_pos
      (fun q hq => Nat.le_of_lt (Held.height_kid (hkept q hq))) s.kids f₁ (fun q => [q.2]) []
      (bucketChildren f₁.name (f₁.childList d.id)) [] hsource (by simp)
      (by rw [childList_eq, hlevel₁.nodes, ← hids]; exact matching_bucketChildren _ _)
      (fun _ _ _ => rfl) (hflat ▸ hlevel₁) _ rfl
    obtain ⟨f₃, cs, hflush, hlevel₃, hcs⟩ := flushPending_spec fuel (B := [])
      d.height_pos _ f₂ (kd.flatMap cells) hsrc (by simpa using hlevel₂)
    have hlevel : Level f f₃ d.ids d.id (kd.flatMap cells ++ cs) := by simpa using hlevel₃
    have hs₃ := holds_iff.mp (hlevel.holds_source hs fun m hm hmd => hapart m hmd hm)
    refine ⟨_, _, ?_, hlevel.finish au (v := f₃.value s.id) hd rfl, ?_⟩
    · simp only [copy, hne, if_false, hdlive, hslive, Bool.not_true, Bool.or_self,
        Bool.false_eq_true]
      rw [hremove, Option.bind_some, childList_eq f s.id, hsnodes]
      rw [show copyChildren copyInto fuel d.id ai f₁ (s.kids.map Held.id)
        (bucketChildren f₁.name (f₁.childList d.id)) [] = _ from hcopy, Option.bind_some]
      rw [show flushPending copyInto fuel d.id f₂ none _ = some f₃ from hflush, Option.bind_some]
      simp only [hlevel.live, hs₃.1, Bool.and_self, if_true]
      cases au <;> rfl
    · rw [hs₃.2.2.1, copyTree_eq, Held.tree_eq]
      simp only [Held.name, Held.value, Held.kids, Held.tree_name, Held.tree_value, Held.tree_kids]
      congr 1
      rw [arrange_map Tree.name Tree.name ai ar Held.tree Held.tree]
      simp only [Held.tree_name]
      rw [List.map_append, arranged_trees hcells, hcs]
      simp only [arrange, List.map_append, List.map_map]
      refine congrArg₂ _ rfl (List.map_congr_left fun p _ => ?_)
      simp [Slot.map, copySlot]

end Refinement

end Forest

end VersatileEngine
