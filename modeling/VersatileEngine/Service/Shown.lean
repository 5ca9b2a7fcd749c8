import VersatileEngine.Node.Parts
import VersatileEngine.Node.Standing
import VersatileEngine.Service.Following
import VersatileEngine.Service.Integrity

/-!
# VersatileEngine.Service.Shown

The tree that a served forest shows, and what requests do to it.

* `Tree.app`         — the operations of the protocol on a tree: nodes are places, and nothing is a pointer.
* `Shows`, `Stands`  — a sane forest holds the tree below its root; a node stands at a place of it.
* `erase_held`, `plant_held`, `copy_held` — the operations that are not lookups.
* `forest_follows`   — the forest follows the tree in every operation.
* `servers_show`     — **a server over the forest sends what a server over the tree sends.**
-/

namespace VersatileEngine

open Filter Sessions Protocol

/-! ## The tree -/

namespace Tree

/-- A tree without the node at a place. -/
def removeAt (p : List Nat) (t : Tree) : Tree :=
  t.modifyAt (fun u => node u.name u.value (u.kids.eraseIdx (p.getLastD 0))) p.dropLast

/-- `erase(path)`: the root stays. -/
def erasePath (path : Str) (t : Tree) : Tree × Bool :=
  match findPath pathSep keySep path t with
  | none => (t, false)
  | some p => if p = [] then (t, false) else (t.removeAt p, true)

/-- The operations of the protocol on a tree. -/
def app {T : Type} (services : Forest.Services (Tree × T)) : App (Tree × T) (List Nat) where
  find s path := some (findPath pathSep keySep path s.1)
  ensure s path :=
    let r := ensurePath pathSep keySep path s.1
    some ((r.1, s.2), r.2)
  erase s path :=
    let r := erasePath path s.1
    some ((r.1, s.2), r.2)
  path s p := s.1.pathOf p
  parent _ p := if p = [] then none else some p.dropLast
  children s p := (List.range (s.1.nodeAt p).kids.length).map fun i => p ++ [i]
  tree s p := s.1.nodeAt p
  hasShadow _ _ := false
  set s p v := (s.1.modifyAt (fun u => u.set v) p, s.2)
  copy options s p t :=
    some (s.1.modifyAt (copyTree options.auto_insert options.auto_remove options.auto_update t) p, s.2)
  trigger s _ := s
  commands := services.commands
  start := services.start
  drop := services.drop
  attach := services.attach
  subscribe := services.subscribe
  unsubscribe := services.unsubscribe
  getSubscriberCount := services.getSubscriberCount

end Tree

namespace Forest

/-! ## A tree beside the forest -/

section Plant

variable {f g : Forest} {this n : Id}

/-- A root is put behind the children of a node. -/
theorem insert_last (hi : Inv f) (ht : f.live this = true) (hn : f.live n = true) (hroot : f.parent n = none) :
    Inv (f.insert this (some n) (-1)).1 ∧ (f.insert this (some n) (-1)).1.nodes this = f.nodes this ++ [n] ∧
      (∀ m, m ≠ n → (f.insert this (some n) (-1)).1.parent m = f.parent m) ∧
      (∀ m, (f.insert this (some n) (-1)).1.live m = f.live m) ∧
      (∀ m, (f.insert this (some n) (-1)).1.name m = f.name m) ∧
      (∀ m, (f.insert this (some n) (-1)).1.value m = f.value m) ∧
      ∀ m, m ≠ this → (f.insert this (some n) (-1)).1.nodes m = f.nodes m := by
  have hat := @insertAt_end f this [n] (List.forall_mem_singleton.mpr hroot) hi
  obtain ⟨-, hr, hinv⟩ := insert_ok hi ht hn hat
  rw [hi.linked.unlink_root hroot] at hr
  refine ⟨hinv, ?_, fun m hm => ?_, fun m => congrFun hr.live m, fun m => congrFun hr.name m,
    fun m => congrFun hr.value m, fun m hm => ?_⟩
  · rw [hr.nodes]
    simp [Links.link]
  · rw [hr.parent, Links.link_up]
    simp [hm]
  · rw [hr.nodes]
    simp [Links.link, hm]

/-- What holds after roots were put behind the children of a node, one after another. -/
structure Joined (g g' : Forest) (this : Id) (cs : List Id) : Prop where
  inv : Inv g'
  nodes : g'.nodes this = g.nodes this ++ cs
  parent : ∀ m, m ∉ cs → g'.parent m = g.parent m
  live : ∀ m, g'.live m = g.live m
  name : ∀ m, g'.name m = g.name m
  value : ∀ m, g'.value m = g.value m
  others : ∀ m, m ≠ this → g'.nodes m = g.nodes m

theorem Joined.agrees {g' : Forest} {cs : List Id} (h : Joined g g' this cs) {m : Id} (hm : m ≠ this) : Agrees g g' m :=
  ⟨h.live m, h.name m, h.value m, h.others m hm⟩

theorem joined_all {cs : List Id} : ∀ {g : Forest}, Inv g → g.live this = true → cs.Nodup →
    (∀ c ∈ cs, g.live c = true ∧ g.parent c = none) →
      Joined g (cs.foldl (fun g c => (g.insert this (some c) (-1)).1) g) this cs := by
  induction cs with
  | nil =>
    intro g hi _ _ _
    exact ⟨hi, (List.append_nil _).symm, fun _ _ => rfl, fun _ => rfl, fun _ => rfl, fun _ => rfl, fun _ _ => rfl⟩
  | cons c cs ih =>
    intro g hi ht hnd hcs
    obtain ⟨hc, hnd⟩ := List.nodup_cons.mp hnd
    obtain ⟨hlive, hroot⟩ := hcs c List.mem_cons_self
    obtain ⟨hinv, hnodes, hparent, hl, hn, hv, ho⟩ := insert_last hi ht hlive hroot
    have hrest := ih hinv ((hl this).trans ht) hnd fun d hd => by
      obtain ⟨hdlive, hdroot⟩ := hcs d (List.mem_cons_of_mem c hd)
      exact ⟨(hl d).trans hdlive, (hparent d fun he => hc (he ▸ hd)).trans hdroot⟩
    refine ⟨hrest.inv, ?_, fun m hm => ?_, fun m => (hrest.live m).trans (hl m), fun m => (hrest.name m).trans (hn m),
      fun m => (hrest.value m).trans (hv m), fun m hm => (hrest.others m hm).trans (ho m hm)⟩
    · rw [List.foldl_cons, hrest.nodes, hnodes, List.append_assoc]
      rfl
    · rw [List.mem_cons, not_or] at hm
      exact (hrest.parent m hm.2).trans (hparent m hm.1)

/-- Nodes were added beside those that were there. -/
structure Beside (f g : Forest) : Prop where
  inv : Inv g
  agrees : ∀ m, f.live m = true → Agrees f g m
  parent : ∀ m, f.live m = true → g.parent m = f.parent m

theorem Beside.live {m : Id} (h : Beside f g) (hm : f.live m = true) : g.live m = true := (h.agrees m hm).live.trans hm

theorem Beside.dead {m : Id} (h : Beside f g) (hm : g.live m = false) : f.live m = false := by
  by_contra hne
  rw [h.live (Bool.not_eq_false _ ▸ hne)] at hm
  cases hm

theorem Beside.refl (hi : Inv f) : Beside f f := ⟨hi, fun m _ => .refl f m, fun _ _ => rfl⟩

theorem Beside.trans {h : Forest} (h₁ : Beside f g) (h₂ : Beside g h) : Beside f h :=
  ⟨h₂.inv, fun m hm => (h₁.agrees m hm).trans (h₂.agrees m (h₁.live hm)),
    fun m hm => (h₂.parent m (h₁.live hm)).trans (h₁.parent m hm)⟩

/-- A tree that hangs on nothing, of nodes that were not there before. -/
structure Loose (f g : Forest) (s : Held) : Prop where
  holds : Holds g s
  root : g.parent s.id = none
  fresh : ∀ m ∈ s.ids, f.live m = false

theorem Loose.kept {h : Forest} {s : Held} (hs : Loose f g s) (hb : Beside g h) : Loose f h s where
  holds := hs.holds.agrees fun m hm => hb.agrees m (hs.holds.live m hm)
  root := (hb.parent s.id (hs.holds.live s.id s.id_mem_ids)).trans hs.root
  fresh := hs.fresh

/-- A new node above trees that hang on nothing. -/
theorem above_held (hb : Beside f g) {ss : List Held} (hss : ∀ s ∈ ss, Loose f g s) (hnd : (ss.map Held.id).Nodup)
    (nm : Str) (v : Var) : ∃ g',
      (ss.map Held.id).foldl (fun g' c => (g'.insert g.next (some c) (-1)).1) ((g.newNode nm).1.setValue g.next v) = g' ∧
        Beside f g' ∧ Loose f g' (.node g.next nm v ss) := by
  have hdead : g.live g.next = false := hb.inv.next_dead
  have hnew : ∀ m, g.live m = true → m ≠ g.next := fun m hm he => by
    rw [he, hdead] at hm
    cases hm
  have hinv : Inv ((g.newNode nm).1.setValue g.next v) :=
    (newNode_spec hb.inv nm).same (by funext m; simp) (by funext m; simp) (by simp) rfl rfl
  have hmade : Beside g ((g.newNode nm).1.setValue g.next v) := by
    refine ⟨hinv, fun m hm => ⟨?_, ?_, ?_, ?_⟩, fun m hm => ?_⟩ <;> simp [hm, hnew m hm, nodes]
  have hroots : ∀ c ∈ ss.map Held.id, g.live c = true ∧ g.parent c = none ∧ f.live c = false := fun c hc => by
    obtain ⟨s, hs, rfl⟩ := List.mem_map.mp hc
    exact ⟨(hss s hs).holds.live s.id s.id_mem_ids, (hss s hs).root, (hss s hs).fresh s.id s.id_mem_ids⟩
  have hj := @joined_all g.next _ _ hinv (by simp) hnd fun c hc => by
    obtain ⟨hlive, hroot, -⟩ := hroots c hc
    exact ⟨hmade.live hlive, (hmade.parent c hlive).trans hroot⟩
  have hagrees : ∀ m, g.live m = true → Agrees g _ m := fun m hm => (hmade.agrees m hm).trans (hj.agrees (hnew m hm))
  refine ⟨_, rfl, ⟨hj.inv, fun m hm => ?_, fun m hm => ?_⟩, ?_, ?_, ?_⟩
  · exact (hb.agrees m hm).trans (hagrees m (hb.live hm))
  · -- what was there is none of the roots
    have hout : m ∉ ss.map Held.id := fun hc => by
      rw [(hroots m hc).2.2] at hm
      cases hm
    exact (hj.parent m hout).trans ((hmade.parent m (hb.live hm)).trans (hb.parent m hm))
  · refine holds_iff.mpr ⟨?_, ?_, ?_, ?_, fun s hs => ?_⟩
    · rw [hj.live]
      simp [Held.id]
    · rw [hj.name]
      simp [Held.id, Held.name]
    · rw [hj.value]
      simp [Held.id, Held.value]
    · exact hj.nodes.trans (by simp [nodes, Held.kids, Children.empty])
    · exact (hss s hs).holds.agrees fun m hm => hagrees m ((hss s hs).holds.live m hm)
  · have hout : g.next ∉ ss.map Held.id := fun hc => hnew _ (hroots _ hc).1 rfl
    exact (hj.parent g.next hout).trans (by simp)
  · intro m hm
    rw [Held.ids_eq] at hm
    rcases List.mem_cons.mp hm with rfl | hm
    · by_contra hne
      exact hnew _ (hb.live (Bool.not_eq_false _ ▸ hne)) rfl
    · obtain ⟨s, hs, hm⟩ := List.mem_flatMap.mp hm
      exact (hss s hs).fresh m hm

/-- Trees planted one after another. -/
theorem plantAll_held {ts : List Tree} (ih : ∀ t ∈ ts, ∀ f, Inv f →
      Beside f (f.plant t).1 ∧ ∃ s, Loose f (f.plant t).1 s ∧ s.id = (f.plant t).2 ∧ s.tree = t) :
    ∀ f, Inv f → Beside f (f.plantAll ts).1 ∧ ∃ ss : List Held, (∀ s ∈ ss, Loose f (f.plantAll ts).1 s) ∧
      ss.map Held.id = (f.plantAll ts).2 ∧ ss.map Held.tree = ts ∧ (f.plantAll ts).2.Nodup := by
  induction ts with
  | nil => exact fun f hi => ⟨.refl hi, [], fun s hs => (by cases hs), rfl, rfl, List.nodup_nil⟩
  | cons t ts ihs =>
    intro f hi
    obtain ⟨hb, s, hs, hid, htree⟩ := ih t List.mem_cons_self f hi
    obtain ⟨hb', ss, hss, hids, htrees, hnd⟩ := ihs (fun u hu => ih u (List.mem_cons_of_mem t hu)) (f.plant t).1 hb.inv
    rw [plantAll_cons]
    refine ⟨hb.trans hb', s :: ss, fun u hu => ?_, ?_, ?_, List.nodup_cons.mpr ⟨fun hmem => ?_, hnd⟩⟩
    · rcases List.mem_cons.mp hu with rfl | hu
      · exact hs.kept hb'
      · exact ⟨(hss u hu).holds, (hss u hu).root, fun m hm => hb.dead ((hss u hu).fresh m hm)⟩
    · rw [List.map_cons, hid, hids]
    · rw [List.map_cons, htree, htrees]
    · -- the later trees are of nodes that were not there yet
      rw [← hids, ← hid] at hmem
      obtain ⟨u, hu, heq⟩ := List.mem_map.mp hmem
      have hdead := (hss u hu).fresh u.id u.id_mem_ids
      rw [heq, hs.holds.live s.id s.id_mem_ids] at hdead
      cases hdead

/-- **A planted tree is held**, beside everything that was there. -/
theorem plant_held (t : Tree) : ∀ f, Inv f →
    Beside f (f.plant t).1 ∧ ∃ s, Loose f (f.plant t).1 s ∧ s.id = (f.plant t).2 ∧ s.tree = t := by
  induction t using Tree.ind with
  | h t ih =>
    intro f hi
    obtain ⟨nm, v, ks⟩ := t
    obtain ⟨hb, ss, hss, hids, htrees, hnd⟩ := plantAll_held ih f hi
    obtain ⟨g, hg, hb', hloose⟩ := above_held hb hss (hids ▸ hnd) nm v
    rw [hids] at hg
    rw [plant]
    refine ⟨hg.symm ▸ hb', _, hg.symm ▸ hloose, rfl, ?_⟩
    rw [Held.tree_eq]
    exact congrArg (Tree.node nm v) htrees

end Plant

/-! ## Copying and erasing -/

section Changes

variable {f : Forest} {root : Id} {d e : Held} {p : List Nat}

/-- **A tree that is planted, copied onto a node and deleted again** leaves the copy. -/
theorem copy_held (h : Sane root f) (hd : Holds f d) (t : Tree) (ai ar au : Bool) : ∃ f' d',
    (∀ᶠ k in atTop, ((f.plant t).1.copy k d.id (some (f.plant t).2) ai ar au).bind
      (fun g => g.deleteNode k (f.plant t).2) = some f') ∧
      Sane root f' ∧ Becomes f f' d d' ∧ d'.tree = copyTree ai ar au t d.tree := by
  have hlive : ∀ m ∈ d.ids, f.live m = true := fun m hm => hd.live m hm
  obtain ⟨hb, s, hs, hid, htree⟩ := plant_held t f h.secure.inv
  have hapart : ∀ m, f.live m = true → m ∉ s.ids := fun m hm hms => by
    rw [hs.fresh m hms] at hm
    cases hm
  obtain ⟨g, d', hcopy, hbec, hdtree⟩ := copy_spec ai ar au s (d.height + s.height) (f.plant t).1 d hb.inv
    (hd.agrees fun m hm => hb.agrees m (hlive m hm)) hs.holds (fun m hm => hapart m (hlive m hm)) (Nat.le_refl _)
  have hsg : Holds g s := hs.holds.agrees fun m hm => hbec.frame m (hs.holds.live m hm) fun hmd => hapart m (hlive m hmd) hm
  obtain ⟨f', hdelete, hframe⟩ := deleteNode_total s s.height g hsg (hsg.nodup hbec.inv) (Nat.le_refl _)
  have hrun : ∀ k, d.height + s.height ≤ k → ((f.plant t).1.copy k d.id (some (f.plant t).2) ai ar au).bind
      (fun g => g.deleteNode k (f.plant t).2) = some f' := fun k hk => by
    rw [← hid, copy_more hk hcopy, Option.bind_some]
    exact deleteNode_more (by omega) hdelete
  obtain ⟨hsane, -⟩ := h.copied (hlive d.id d.id_mem_ids) t (hrun _ (Nat.le_refl _))
  have hkeep : ∀ m, m ∉ s.ids → Agrees g f' m := fun m hm => .of_node (hframe m hm).1 (hframe m hm).2
  refine ⟨f', d', (eventually_ge_atTop _).mono hrun, hsane, ⟨hsane.secure.inv, ?_, hbec.id, hbec.nodup, ?_, ?_⟩,
    hdtree.trans (by rw [htree])⟩
  · refine hbec.holds.agrees fun m hm => hkeep m fun hms => ?_
    rcases hbec.own m hm with hmd | hdead
    · exact hapart m (hlive m hmd) hms
    · rw [hs.holds.live m hms] at hdead
      cases hdead
  · exact fun m hm => (hbec.own m hm).imp_right hb.dead
  · exact fun m hm hmd => (hb.agrees m hm).trans ((hbec.frame m (hb.live hm) hmd).trans (hkeep m (hapart m hm)))

/-- The tree that is read below a node. -/
theorem read_held (d : Held) : ∀ k, Holds f d → d.height ≤ k → f.read k d.id = d.tree := by
  induction d using Held.ind with
  | h d ih =>
    intro k h hk
    obtain ⟨k, rfl⟩ : ∃ j, k = j + 1 := ⟨k - 1, by have := d.height_pos; omega⟩
    obtain ⟨-, hname, hvalue, hnodes, hkids⟩ := holds_iff.mp h
    rw [read, hname, hvalue, hnodes, Held.tree_eq, List.map_map]
    refine congrArg (Tree.node d.name d.value) (List.map_congr_left fun c hc => ?_)
    have := Held.height_kid hc
    exact ih c hc k (hkids c hc) (by omega)

/-- The node at a place of the tree. -/
theorem held_at {k : Tree} (hk : d.tree.sub p = some k) : ∃ e, d.sub p = some e ∧ e.tree = k := by
  rw [Held.tree_sub] at hk
  exact Option.map_eq_some_iff.mp hk

/-- What stands at a place that is not the root is a child of what stands above it. -/
theorem held_above {i : Nat} (he : d.sub (p ++ [i]) = some e) : ∃ u, d.sub p = some u ∧ u.kids[i]? = some e := by
  rw [Held.sub_append] at he
  obtain ⟨u, hu, he⟩ := Option.bind_eq_some_iff.mp he
  obtain ⟨c, hc, he⟩ := Option.bind_eq_some_iff.mp he
  cases he
  exact ⟨u, hu, hc⟩

/-- A node is looked up, taken from its parent and deleted. -/
theorem erase_held (h : Sane root f) (hd : Holds f d) (hid : d.id = root) (path : Str) : ∃ f' d',
    (∀ᶠ k in atTop, f.erase k root path = some (f', (Tree.erasePath path d.tree).2)) ∧
      Becomes f f' d d' ∧ d'.tree = (Tree.erasePath path d.tree).1 := by
  have hi := h.secure.inv
  subst hid
  have hat := fun k => atPath_held hi h.shadow hd h.top k path false
  -- the root stays where it is
  have hstays : ∀ t, (∀ k, f.atPath (k + 1) d.id path false = some t) → (t = none ∨ t = some d.id) →
      ∀ᶠ k in atTop, f.erase k d.id path = some (f, false) := by
    intro t ht hor
    filter_upwards [eventually_ge_atTop 1] with k hk
    obtain ⟨k, rfl⟩ : ∃ j, k = j + 1 := ⟨k - 1, by omega⟩
    rw [erase, ht]
    rcases hor with rfl | rfl
    · rfl
    · simp only [Option.bind_some, h.top]
  rw [Tree.erasePath]
  cases hfind : Tree.findPath pathSep keySep path d.tree with
  | none =>
    exact ⟨f, d, hstays none (fun k => by rw [hat, hfind, Option.bind_none]) (.inl rfl), .refl hi hd, rfl⟩
  | some p =>
    dsimp only
    by_cases hp : p = []
    · rw [if_pos hp]
      exact ⟨f, d, hstays (some d.id) (fun k => by rw [hat, hfind, hp]; rfl) (.inr rfl), .refl hi hd, rfl⟩
    · rw [if_neg hp]
      obtain ⟨q, i, rfl⟩ : ∃ q i, p = q ++ [i] := ⟨_, _, (List.dropLast_append_getLast hp).symm⟩
      obtain ⟨k, hk⟩ := Tree.findSegments_sub _ hfind
      obtain ⟨e, he, -⟩ := held_at hk
      obtain ⟨u, hu, hc⟩ := held_above he
      have hparent := (hd.sub hu).parent_kid hi (List.mem_of_getElem? hc)
      obtain ⟨f', hrun, hb⟩ := remove_held hi (hd.sub hu) hc
      refine ⟨f', _, ?_, hb.put hi hd hu, ?_⟩
      · filter_upwards [eventually_ge_atTop 1, eventually_ge_atTop e.height] with k hk hle
        obtain ⟨k, rfl⟩ : ∃ j, k = j + 1 := ⟨k - 1, by omega⟩
        rw [erase, hat, hfind, Option.bind_some, Option.bind_some, he]
        simp only [Option.map_some, hparent]
        exact hrun _ hle
      · have hsub : d.tree.sub q = some u.tree := by rw [Held.tree_sub, hu]; rfl
        rw [Held.tree_put, Tree.removeAt, List.dropLast_concat, List.getLastD_concat]
        refine Tree.modifyAt_congr hsub ?_
        rw [Held.tree_eq, Held.tree_name, Held.tree_value, Held.tree_kids, List.eraseIdx_map]
        rfl

end Changes

/-! ## What a forest shows -/

section Shows

variable {T : Type} {root n : Id} {s : Forest × T} {t : Tree × T} {p : List Nat} {f' : Forest} {d d' e e' : Held}

/-- The sane forest holds the tree below the root, beside the same services. -/
structure Shows (root : Id) (s : Forest × T) (t : Tree × T) : Prop where
  sane : Sane root s.1
  services : s.2 = t.2
  held : ∃ d, Holds s.1 d ∧ d.id = root ∧ d.tree = t.1

/-- The node stands at a place below the root. -/
def Stands (root : Id) (s : Forest × T) (_ : Tree × T) (n : Id) (p : List Nat) : Prop :=
  ∃ d e, Holds s.1 d ∧ d.id = root ∧ d.sub p = some e ∧ e.id = n

theorem Shows.place (h : Shows root s t) (hn : Stands root s t n p) : ∃ d e, Holds s.1 d ∧ d.id = root ∧
    d.tree = t.1 ∧ d.sub p = some e ∧ e.id = n ∧ t.1.sub p = some e.tree := by
  obtain ⟨d, e, hd, hid, he, hen⟩ := hn
  obtain ⟨d', hd', hid', htree⟩ := h.held
  obtain rfl := hd.unique hd' (hid'.trans hid.symm)
  refine ⟨d', e, hd, hid, htree, he, hen, ?_⟩
  rw [← htree, Held.tree_sub, he]
  rfl

/-- After a change of what is held. -/
theorem Shows.becomes {u : Tree} (h : Shows root s t) (hsane : Sane root f') (hb : Becomes s.1 f' d d') (hid : d.id = root)
    (hu : d'.tree = u) : Shows root (f', s.2) (u, t.2) :=
  ⟨hsane, h.services, d', hb.holds, hb.id.trans hid, hu⟩

/-- After a change of the node at a place, which is still there. -/
theorem Shows.changed {f : Tree → Tree} (h : Shows root s t) (hsane : Sane root f') (hd : Holds s.1 d) (hid : d.id = root)
    (htree : d.tree = t.1) (he : d.sub p = some e) (hb : Becomes s.1 f' e e') (hf : e'.tree = f e.tree) :
    Shows root (f', s.2) (t.1.modifyAt f p, t.2) ∧ Stands root (f', s.2) (t.1.modifyAt f p, t.2) e.id p := by
  have hput := hb.put h.sane.secure.inv hd he
  have hsub : t.1.sub p = some e.tree := by
    rw [← htree, Held.tree_sub, he]
    rfl
  refine ⟨h.becomes hsane hput hid ?_, .put e' p d, e', hput.holds, hput.id.trans hid, ?_, hb.id⟩
  · rw [Held.tree_put, htree]
    exact Tree.modifyAt_congr hsub hf
  · have := @Held.sub_put _ e' [] _ _ he
    rwa [List.append_nil] at this

/-! ## The forest follows the tree -/

/-- The services on both sides do the same. -/
structure Services.Follows {S U : Type} (a : Nat → Services S) (b : Services U) (R : S → U → Prop) : Prop where
  keys : ∀ {s t}, R s t → ∀ k, (a k).commands.keys s = b.commands.keys t
  help : ∀ {s t}, R s t → ∀ k key, (a k).commands.help s key = b.commands.help t key
  command : ∀ {s t}, R s t → ∀ k name, (a k).commands.find s name = b.commands.find t name
  drive : ∀ {s t}, R s t → ∀ key input, Settled (Option.Rel (Replies R)) (fun k => (a k).commands.drive s key input)
    (b.commands.drive t key input)
  start : ∀ {s t}, R s t → ∀ key input, Settled (Option.Rel (Replies R)) (fun k => (a k).start s key input)
    (b.start t key input)
  drop : ∀ {s t}, R s t → Settled R (fun k => (a k).drop s) (b.drop t)
  attach : ∀ {s t}, R s t → ∀ name id, Settled (Replies R) (fun k => (a k).attach s name id) (b.attach t name id)
  subscribe : ∀ {s t}, R s t → ∀ path bubble tree,
    Settled R (fun k => (a k).subscribe s path bubble tree) (b.subscribe t path bubble tree)
  unsubscribe : ∀ {s t}, R s t → ∀ path, Settled R (fun k => (a k).unsubscribe s path) (b.unsubscribe t path)
  count : ∀ {s t}, R s t → ∀ k path, (a k).getSubscriberCount s path = b.getSubscriberCount t path

theorem find_follows (h : Shows root s t) (path : Str) : Settled (Option.Rel (Option.Rel (Stands root s t)))
    (fun k => s.1.atPath k root path true) (some (Tree.findPath pathSep keySep path t.1)) := by
  obtain ⟨d, hd, rfl, htree⟩ := h.held
  refine .of_eventually (x := some ((Tree.findPath pathSep keySep path d.tree).bind fun p => (d.sub p).map Held.id)) ?_ ?_
  · filter_upwards [eventually_ge_atTop 1] with k hk
    obtain ⟨k, rfl⟩ : ∃ j, k = j + 1 := ⟨k - 1, by omega⟩
    exact atPath_held h.sane.secure.inv h.sane.shadow hd h.sane.top k path true
  · rw [htree]
    refine .some ?_
    cases hfind : Tree.findPath pathSep keySep path t.1 with
    | none => exact .none
    | some p =>
      obtain ⟨k, hk⟩ := Tree.findSegments_sub _ hfind
      obtain ⟨e, he, -⟩ := held_at (htree ▸ hk)
      rw [Option.bind_some, he]
      exact .some ⟨d, e, hd, rfl, he, rfl⟩

theorem ensure_follows (h : Shows root s t) (path : Str) :
    Settled (Option.Rel fun x y => Shows root x.1 y.1 ∧ Option.Rel (Stands root x.1 y.1) x.2 y.2)
      (fun k => (s.1.ensurePath k root path true).map fun r => ((r.1, s.2), r.2))
      (some (((Tree.ensurePath pathSep keySep path t.1).1, t.2), (Tree.ensurePath pathSep keySep path t.1).2)) := by
  obtain ⟨d, hd, rfl, htree⟩ := h.held
  obtain ⟨f', d', hrun, hb, -, hd'⟩ := ensurePath_held h.sane.secure.inv h.sane.shadow hd h.sane.top path true
  rw [htree] at hrun hd'
  refine .of_eventually (x := some ((f', s.2), (Tree.ensurePath pathSep keySep path t.1).2.bind
    fun p => (d'.sub p).map Held.id)) ?_ (.some ⟨h.becomes (h.sane.ensured (hrun 0)).1 hb rfl hd', ?_⟩)
  · filter_upwards [eventually_ge_atTop 1] with k hk
    obtain ⟨k, rfl⟩ : ∃ j, k = j + 1 := ⟨k - 1, by omega⟩
    rw [hrun, Option.map_some]
  · dsimp only
    generalize hmade : Tree.ensurePath pathSep keySep path t.1 = made at hd' ⊢
    obtain ⟨t', q⟩ := made
    cases q with
    | none => exact .none
    | some p =>
      obtain ⟨k, hk⟩ := (Tree.ensurePath_again (fun _ => rfl) hmade (f := id)).1
      dsimp only at hd'
      rw [← hd'] at hk
      obtain ⟨e, he, -⟩ := held_at hk
      rw [Option.bind_some, he]
      exact .some ⟨d', e, hb.holds, hb.id, he, rfl⟩

theorem children_follow (h : Shows root s t) (hn : Stands root s t n p) : List.Forall₂ (Stands root s t) (s.1.nodes n)
    ((List.range (t.1.nodeAt p).kids.length).map fun i => p ++ [i]) := by
  obtain ⟨d, e, hd, hid, -, he, rfl, hsub⟩ := h.place hn
  have hlen : (t.1.nodeAt p).kids.length = e.kids.length := by
    rw [Tree.nodeAt, hsub, Option.getD_some, Held.tree_kids, List.length_map]
  rw [(holds_iff.mp (hd.sub he)).2.2.2.1, hlen]
  refine List.forall₂_iff_get.mpr ⟨by simp, fun i hi hi' => ?_⟩
  have hlt : i < e.kids.length := by simpa using hi
  refine ⟨d, e.kids[i], hd, hid, ?_, by simp⟩
  rw [List.get_eq_getElem, List.getElem_map, List.getElem_range, Held.sub_append, he, Option.bind_some, Held.sub_cons,
    List.getElem?_eq_getElem hlt]
  rfl

/-- **The forest follows the tree in every operation**, as deep as the bounds have to be. -/
theorem forest_follows {sv : Nat → Services (Forest × T)} {tv : Services (Tree × T)}
    (hs : Services.Follows sv tv (Shows root)) :
    App.Follows (fun k => app k root (sv k)) (Tree.app tv) (Shows root) (Stands root) where
  find h path := find_follows h path
  ensure h path := ensure_follows h path
  erase {s t} h path := by
    obtain ⟨d, hd, hid, htree⟩ := h.held
    obtain ⟨f', d', hrun, hb, hd'⟩ := erase_held h.sane hd hid path
    rw [htree] at hrun hd'
    obtain ⟨k, hk⟩ := hrun.exists
    refine .of_eventually (x := some ((f', s.2), (Tree.erasePath path t.1).2)) ?_
      (.some ⟨h.becomes (h.sane.erased hk) hb hid hd', rfl⟩)
    exact hrun.mono fun k hk => by simp only [app, hk, Option.map_some]
  path {s t n m} h hn := by
    obtain ⟨d, e, hd, rfl, htree, he, rfl, -⟩ := h.place hn
    filter_upwards [eventually_gt_atTop m.length] with k hk
    simp only [app, Tree.app]
    rw [path_held h.sane.secure.inv hd m he hk, htree]
    rfl
  parent {s t n m} h hn := by
    obtain ⟨d, e, hd, rfl, -, he, rfl, -⟩ := h.place hn
    simp only [app, Tree.app]
    refine .const ?_
    split_ifs with hm
    · subst hm
      cases he
      rw [h.sane.top]
      exact .none
    · obtain ⟨q, i, rfl⟩ : ∃ q i, m = q ++ [i] := ⟨_, _, (List.dropLast_append_getLast hm).symm⟩
      obtain ⟨u, hu, hc⟩ := held_above he
      rw [(hd.sub hu).parent_kid h.sane.secure.inv (List.mem_of_getElem? hc), List.dropLast_concat]
      exact .some ⟨d, u, hd, rfl, hu, rfl⟩
  children h hn := .const (children_follow h hn)
  tree {s t n m} h hn := by
    obtain ⟨d, e, hd, -, -, he, rfl, hsub⟩ := h.place hn
    filter_upwards [eventually_ge_atTop e.height] with k hk
    simp only [app, Tree.app]
    rw [read_held e k (hd.sub he) hk, Tree.nodeAt, hsub, Option.getD_some]
  hasShadow {s t n m} h hn k := by
    obtain ⟨d, e, hd, -, -, he, rfl, -⟩ := h.place hn
    simp only [app, Tree.app]
    rw [h.sane.shadow e.id (holds_iff.mp (hd.sub he)).1]
    rfl
  set {s t n m} h hn v := by
    obtain ⟨d, e, hd, hid, htree, he, rfl, -⟩ := h.place hn
    have hlive := (holds_iff.mp (hd.sub he)).1
    refine .const (h.changed (h.sane.set hlive v) hd hid htree he (set_held h.sane.secure.inv (hd.sub he) v) ?_)
    rw [Held.tree_eq, Held.tree_eq]
    rfl
  copy {s t n m} h hn options tree := by
    obtain ⟨d, e, hd, hid, htree, he, rfl, -⟩ := h.place hn
    obtain ⟨f', e', hrun, hsane, hb, he'⟩ := copy_held h.sane (hd.sub he) tree options.auto_insert options.auto_remove
      options.auto_update
    refine .of_eventually (x := some (f', s.2)) ?_ (.some (h.changed hsane hd hid htree he hb he'))
    exact hrun.mono fun k hk => by simp only [app, hk, Option.map_some]
  trigger {s t n m} h hn := by
    obtain ⟨d, e, hd, hid, htree, he, rfl, -⟩ := h.place hn
    have hb := (Becomes.refl h.sane.secure.inv hd).emit e.id (.changed .none .none)
    exact .const ⟨h.becomes (h.sane.emit _ _) hb hid htree, d, e, hb.holds, hid, he, rfl⟩
  keys := hs.keys
  help := hs.help
  command := hs.command
  drive := hs.drive
  start := hs.start
  drop := hs.drop
  attach := hs.attach
  subscribe := hs.subscribe
  unsubscribe := hs.unsubscribe
  count := hs.count

end Shows

end Forest

/-! ## Servers -/

section Servers

variable {T : Type} {root : Id}

/-- **A server over a forest of nodes sends what a server over the tree sends**, for lines of JSON and for binary
frames: from some bound on, whatever arrives on however many connections, one answers exactly when the other does, with
the same bytes to the same connections, and the forest still holds the tree. -/
theorem servers_show (ctx : Context) (sv : Nat → SessionKey → Forest.Services (Forest × T))
    (tv : SessionKey → Forest.Services (Tree × T)) (leave : SessionKey → Forest × T → Forest × T)
    (leave' : SessionKey → Tree × T → Tree × T) {es : List (Traffic SessionKey UInt8 (Forest × T))}
    {es' : List (Traffic SessionKey UInt8 (Tree × T))} {s : Forest × T} {t : Tree × T}
    (hservices : ∀ key, Forest.Services.Follows (fun k => sv k key) (tv key) (Forest.Shows root))
    (hleave : ∀ {s t}, Forest.Shows root s t → ∀ key, Forest.Shows root (leave key s) (leave' key t))
    (he : List.Forall₂ (Traffic.Rel (Forest.Shows root)) es es') (hs : Forest.Shows root s t) :
    Settled (Option.Rel (Server.Alike (Forest.Shows root)))
        (fun k => NodeTcpServer.run (fun key => Forest.app k root (sv k key)) ctx leave s es)
        (NodeTcpServer.run (fun key => Tree.app (tv key)) ctx leave' t es') ∧
      Settled (Option.Rel (Server.Alike (Forest.Shows root)))
        (fun k => BinTcpServer.run (fun key => Forest.app k root (sv k key)) ctx leave s es)
        (BinTcpServer.run (fun key => Tree.app (tv key)) ctx leave' t es') := by
  have happ := fun key => Forest.forest_follows (hservices key)
  exact ⟨lines_follow ctx happ hleave he hs, frames_follow ctx happ hleave he hs⟩

/-- No services beside a tree either. -/
def noTreeServices : Forest.Services (Tree × Unit) where
  commands := ⟨fun _ => [], fun _ _ => [], fun _ _ => none, fun _ _ _ => none⟩
  start _ _ _ := none
  drop s := s
  attach s _ _ := (s, [])
  subscribe s _ _ _ := s
  unsubscribe s _ := s
  getSubscriberCount _ _ := 0

theorem noServices_follow (R : Forest × Unit → Tree × Unit → Prop) :
    Forest.Services.Follows (fun _ => noServices) noTreeServices R where
  keys _ _ := rfl
  help _ _ _ := rfl
  command _ _ _ := rfl
  drive _ _ _ := .const .none
  start _ _ _ := .const .none
  drop h := .const h
  attach h _ _ := .const ⟨h, rfl⟩
  subscribe h _ _ _ := .const h
  unsubscribe h _ := .const h
  count _ _ _ := rfl

theorem shows_emptyRoot : Forest.Shows 0 emptyRoot (Tree.blank [], ()) where
  sane := sane_emptyRoot
  services := rfl
  held := ⟨.node 0 [] .none [], Forest.holds_iff.mpr ⟨rfl, rfl, rfl, rfl, fun _ hk => (by cases hk)⟩, rfl, rfl⟩

theorem sample_alike {S U : Type} (R : S → U → Prop) : List.Forall₂ (Traffic.Rel R) sampleTraffic sampleTraffic :=
  .cons (.opened 1) (.cons (.received 1 _) (.cons (.received 1 _) (.cons (.closed 1) .nil)))

theorem servers_show_sample : ∃ w, NodeTcpServer.run (fun _ => Tree.app noTreeServices) plainContext (fun _ s => s)
    (Tree.blank [], ()) sampleTraffic = some w ∧ w.sent.length = 2 ∧ ∀ᶠ k in atTop, ∃ v,
      NodeTcpServer.run (fun _ => Forest.app k 0 noServices) plainContext (fun _ s => s) emptyRoot sampleTraffic = some v ∧
        v.sent = w.sent := by
  have hsome : ((NodeTcpServer.run (fun _ => Tree.app noTreeServices) plainContext (fun _ s => s) (Tree.blank [], ())
      sampleTraffic).map fun w => w.sent.length) = some 2 := by decide +kernel
  obtain ⟨w, hw, hlen⟩ := Option.map_eq_some_iff.mp hsome
  obtain ⟨v, hv, hrun⟩ := (servers_show plainContext (fun _ _ => noServices) (fun _ => noTreeServices) (fun _ s => s)
    (fun _ s => s) (fun _ => noServices_follow _) (fun h _ => h) (sample_alike _) shows_emptyRoot).1
  rw [hw] at hv
  cases hv with
  | some hv => exact ⟨w, hw, hlen, hrun.mono fun k hk => ⟨_, hk, hv.sent⟩⟩

end Servers

end VersatileEngine
