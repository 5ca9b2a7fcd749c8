import Mathlib.Data.List.Pairwise
import VersatileEngine.Node.Mirror

/-!
# VersatileEngine.Node.Keeping

What a copy that removes nothing, `dst.copy(src, .., auto_remove = false, ..)`, leaves alone.

* `Met`   — the nodes of the destination that are copied onto: the root, and below a node that is
  copied onto the children that have a counterpart, by name and number.
* `Keeps` — what such a copy does to a forest: the old children of every old node stay, in their order,
  and a node that is not met is as it was.

Each loop of `copy` is a step of `Keeps` (`keeps_flushPending`, `keeps_copyChildren`), and `Keeps`
composes (`Keeps.trans`), so the recursion is an induction on its depth.
-/

namespace VersatileEngine

namespace Forest

/-- The nodes of `d` that copying `s` onto it copies onto. -/
inductive Met : Held → Held → Id → Prop
  | root (d s : Held) : Met d s d.id
  | kid {d s x y : Held} {key : Str × Nat} {m : Id} (hx : (key, x) ∈ keyed Held.name d.kids)
      (hy : (key, y) ∈ keyed Held.name s.kids) (hm : Met x y m) : Met d s m

/-- From `f` to `f'` nothing goes away, and only nodes of `T` change. -/
structure Keeps (f f' : Forest) (T : Id → Prop) : Prop where
  inv : Inv f'
  live : ∀ m, f.live m = true → f'.live m = true
  name : ∀ m, f.live m = true → f'.name m = f.name m
  kids : ∀ m, f.live m = true → (f'.nodes m).filter f.live = f.nodes m
  frame : ∀ m, f.live m = true → ¬ T m → Agrees f f' m

section Keeps

variable {f g f' : Forest} {S T : Id → Prop} {d s : Held} {this : Id}

theorem Inv.filter_live (h : Inv f) (m : Id) : (f.nodes m).filter f.live = f.nodes m :=
  List.filter_eq_self.mpr fun _ hc => (h.live hc).2

theorem Keeps.refl (h : Inv f) (T : Id → Prop) : Keeps f f T :=
  ⟨h, fun _ hm => hm, fun _ _ => rfl, fun m _ => h.filter_live m, fun m _ _ => Agrees.refl f m⟩

theorem Keeps.mono (h : Keeps f f' S) (hST : ∀ m, f.live m = true → S m → T m) : Keeps f f' T :=
  { h with frame := fun m hl hT => h.frame m hl fun hS => hT (hST m hl hS) }

/-- The second part may change what the first has added. -/
theorem Keeps.trans (h₁ : Keeps f g T) (h₂ : Keeps g f' S) (hST : ∀ m, f.live m = true → S m → T m) :
    Keeps f f' T where
  inv := h₂.inv
  live m hm := h₂.live m (h₁.live m hm)
  name m hm := (h₂.name m (h₁.live m hm)).trans (h₁.name m hm)
  kids m hm := by
    rw [← h₁.kids m hm, ← h₂.kids m (h₁.live m hm), List.filter_filter]
    refine List.filter_congr fun c _ => ?_
    cases hc : f.live c with
    | false => rfl
    | true => simp [h₁.live c hc]
  frame m hm hT := (h₁.frame m hm hT).trans (h₂.frame m (h₁.live m hm) fun hS => hT (hST m hm hS))

/-- What is nowhere met stays held. -/
theorem Keeps.holds (h : Keeps f f' T) {t : Held} (ht : Holds f t) (hT : ∀ m ∈ t.ids, ¬ T m) :
    Holds f' t :=
  ht.agrees fun m hm => h.frame m (ht.live m hm) (hT m hm)

/-- An old node stays attached to its parent. -/
theorem Keeps.parent (h : Keeps f f' T) (hi : Inv f) {m p : Id} (hp : f.parent m = some p) :
    f'.parent m = some p := by
  have hmem := hi.mem_iff.mp hp
  rw [← h.kids p (hi.live hmem).1] at hmem
  exact h.inv.mem_iff.mpr (List.mem_filter.mp hmem).1

theorem Met.mem_ids {m : Id} (h : Met d s m) : m ∈ d.ids := by
  induction h with
  | root d s => exact d.id_mem_ids
  | @kid d s x y key m hx hy hm ih =>
    exact Held.kid_ids (mem_of_keyed hx) ih

/-! ## The steps -/

/-- A new child, put before a child or at the end. -/
theorem keeps_insertFresh (h : Inv f) (ht : f.live this = true) (nm : Str) {anchor : Option Id}
    (ha : ∀ c, anchor = some c → c ∈ f.nodes this) :
    (f.insertFresh this nm anchor).2 = true ∧
      Holds (f.insertFresh this nm anchor).1 (.node f.next nm .none []) ∧
      Keeps f (f.insertFresh this nm anchor).1 (fun m => m = this) := by
  obtain ⟨X, Y, hn, hY⟩ : ∃ X Y, f.nodes this = X ++ Y ∧ anchor = Y.head? := by
    cases anchor with
    | none => exact ⟨f.nodes this, [], by simp, rfl⟩
    | some c =>
      obtain ⟨X, Y, hn⟩ := List.append_of_mem (ha c rfl)
      exact ⟨X, c :: Y, hn, rfl⟩
  obtain ⟨hok, hinv, hnodes, hfresh, hlive, hname, hvalue, hframe⟩ := insertFresh_spec h ht nm hn hY
  have hdead := h.next_dead
  refine ⟨hok, hfresh, hinv, fun m hm => ?_, fun m hm => ?_, fun m hm => ?_,
    fun m hm hne => hframe m hm hne⟩
  · by_cases he : m = this
    · exact he ▸ hlive
    · exact (hframe m hm he).live.trans hm
  · by_cases he : m = this
    · exact he ▸ hname
    · exact (hframe m hm he).name
  · by_cases he : m = this
    · subst he
      rw [hnodes, List.filter_append, List.filter_cons_of_neg (by simp [hdead]), ← List.filter_append,
        ← hn, h.filter_live]
    · rw [(hframe m hm he).nodes, h.filter_live]

section Loops

variable {copyInto : Forest → Id → Id → Option Forest} {fuel : Nat} {ai : Bool}

/-- `copyInto` keeps what a copy that removes nothing keeps. -/
def CopyKeeps (copyInto : Forest → Id → Id → Option Forest) : Prop :=
  ∀ {f f' : Forest} {d s : Held}, Inv f → Holds f d → Holds f s → (∀ m ∈ d.ids, m ∉ s.ids) →
    copyInto f d.id s.id = some f' → Keeps f f' (Met d s)

theorem keeps_flushPending (hcopy : CopyKeeps copyInto) {anchor : Option Id} (ps : List Held) :
    ∀ {f f' : Forest}, Inv f → f.live this = true → (∀ c, anchor = some c → c ∈ f.nodes this) →
      (∀ p ∈ ps, Holds f p ∧ this ∉ p.ids) →
      f.flushPending copyInto fuel this anchor (ps.map Held.id) = some f' →
      Keeps f f' (fun m => m = this) := by
  induction ps with
  | nil =>
    intro f f' h _ _ _ hrun
    cases hrun
    exact .refl h _
  | cons p ps ih =>
    intro f f' h ht ha hps hrun
    obtain ⟨hp, hpt⟩ := hps p (by simp)
    obtain ⟨hok, hfresh, hins⟩ := keeps_insertFresh h ht (f.name p.id) ha
    simp only [List.map_cons, flushPending, hp.live p.id p.id_mem_ids, ht, Bool.and_self, if_true,
      hok] at hrun
    obtain ⟨g, hg, hrun⟩ := Option.bind_eq_some_iff.mp hrun
    have hnext : ∀ m, f.live m = true → m ≠ f.next := fun m hm he => by
      rw [he, h.next_dead] at hm
      cases hm
    have hp' := hins.holds hp fun m hm he => hpt (he ▸ hm)
    have hcp := hcopy hins.inv hfresh hp' (fun m hm hmp => by
      have he : m = f.next := by simpa [Held.ids_eq, Held.id, Held.kids] using hm
      exact hnext m (hp.live m hmp) he) hg
    -- the new node is copied onto: no old node is
    have hnew := hins.trans hcp fun m hm hmet => by
      have he : m = f.next := by simpa [Held.ids_eq, Held.id, Held.kids] using hmet.mem_ids
      exact absurd he (hnext m hm)
    refine hnew.trans (ih hnew.inv (hnew.live this ht) (fun c hc => ?_) (fun q hq => ?_) hrun)
      fun _ _ he => he
    · have hmem := ha c hc
      rw [← hnew.kids this ht] at hmem
      exact (List.mem_filter.mp hmem).1
    · obtain ⟨hq', hqt⟩ := hps q (by simp [hq])
      exact ⟨hnew.holds hq' fun m hm he => hqt (he ▸ hm), hqt⟩

/-- Of two children under different keys the nodes are different. -/
theorem keyed_apart (hnd : d.ids.Nodup) {p q : (Str × Nat) × Held} (hp : p ∈ keyed Held.name d.kids)
    (hq : q ∈ keyed Held.name d.kids) (hne : p.1 ≠ q.1) : ∀ m ∈ p.2.ids, m ∉ q.2.ids := by
  rw [Held.ids_eq, List.nodup_cons, List.nodup_flatMap] at hnd
  have hpair := hnd.2.2
  rw [← keyed_snd Held.name d.kids, List.pairwise_map] at hpair
  have hsymm : Std.Symm fun a b : (Str × Nat) × Held => Function.onFun List.Disjoint Held.ids a.2 b.2 :=
    ⟨fun _ _ hab _ hb ha => hab ha hb⟩
  exact fun m hm hm' => hpair.forall hp hq (fun he => hne (he ▸ rfl)) hm hm'

theorem root_apart (hnd : d.ids.Nodup) {k : Held} (hk : k ∈ d.kids) : d.id ∉ k.ids := by
  intro hm
  rw [Held.ids_eq, List.nodup_cons] at hnd
  exact hnd.1 (List.mem_flatMap.mpr ⟨_, hk, hm⟩)

/-- A child of the source is matched with the child of the destination under the same key. -/
theorem match_held {name : Id → Str} {x : Held} {e : List Str} {st : CopyMatchState} (hnd : d.ids.Nodup)
    (hname : ∀ k ∈ d.kids, name k.id = k.name) (hx : Holds f x) (hst : Matching name (d.kids.map Held.id) e st) :
    (takeCopyMatch f.name x.id st).1 =
        ((keyed Held.name d.kids).lookup (x.name, e.count x.name)).map Held.id ∧
      Matching name (d.kids.map Held.id) (x.name :: e) (takeCopyMatch f.name x.id st).2 := by
  have hids : (d.kids.map Held.id).Nodup := by
    rw [Held.ids_eq, List.nodup_cons, List.nodup_flatMap] at hnd
    rw [List.Nodup, List.pairwise_map]
    refine hnd.2.2.imp fun {a b} hdisj he => hdisj a.id_mem_ids ?_
    rw [he]
    exact b.id_mem_ids
  obtain ⟨hmatch, hst'⟩ := takeCopyMatch_eq (g := f.name) (s := x.id) hids hst
  have hxname : f.name x.id = x.name := (holds_iff.mp hx).2.1
  have hkeyed : keyed name (d.kids.map Held.id) =
      (keyed Held.name d.kids).map fun p => (p.1, p.2.id) := by
    rw [keyed_map, keyed_congr (g := Held.name) hname]
  rw [hkeyed, lookup_map (fun _ k => Held.id k), hxname] at hmatch
  rw [hxname] at hst'
  exact ⟨hmatch, hst'⟩

/-- The main loop. Children of the destination that no source was matched with yet are as they were. -/
theorem keeps_copyChildren (hcopy : CopyKeeps copyInto) {name : Id → Str} (hnd : d.ids.Nodup)
    (hname : ∀ k ∈ d.kids, name k.id = k.name) (rest : List Held) :
    ∀ {f f' : Forest} {e : List Str} {st : CopyMatchState} {w : List Held} {ps : List Id}, Inv f →
      f.live d.id = true → (∀ k ∈ d.kids, k.id ∈ f.nodes d.id) →
      (∀ x ∈ rest ++ w, Holds f x ∧ ∀ m ∈ d.ids, m ∉ x.ids) →
      Matching name (d.kids.map Held.id) e st →
      (∀ q ∈ keyedFrom Held.name e rest, q ∈ keyed Held.name s.kids) →
      (∀ q ∈ keyed Held.name d.kids, e.count q.1.1 ≤ q.1.2 → Holds f q.2) →
      copyChildren copyInto fuel d.id ai f (rest.map Held.id) st (w.map Held.id) = some (f', ps) →
      Keeps f f' (Met d s) ∧ ∃ late : List Held, ps = late.map Held.id ∧ ∀ x ∈ late, x ∈ rest ++ w := by
  induction rest with
  | nil =>
    intro f f' seen st pend ps h _ _ _ _ _ _ hrun
    cases hrun
    exact ⟨.refl h _, pend, rfl, fun x hx => by simpa using hx⟩
  | cons x rest ih =>
    intro f f' seen st pend ps h hlive hkids hsrc hst hseen hunmet hrun
    obtain ⟨hx, hxd⟩ := hsrc x (by simp)
    obtain ⟨hmatch, hst'⟩ := match_held hnd hname hx hst
    have hkey : ((x.name, seen.count x.name), x) ∈ keyed Held.name s.kids :=
      hseen _ (by simp [keyedFrom])
    have hseen' : ∀ q ∈ keyedFrom Held.name (x.name :: seen) rest, q ∈ keyed Held.name s.kids :=
      fun q hq => hseen q (by simp [keyedFrom, hq])
    rw [List.map_cons, copyChildren] at hrun
    simp only [hx.live x.id x.id_mem_ids, Bool.not_true, Bool.false_eq_true, if_false] at hrun
    cases hlook : (keyed Held.name d.kids).lookup (x.name, seen.count x.name) with
    | none =>
      have hpair : takeCopyMatch f.name x.id st = (none, (takeCopyMatch f.name x.id st).2) :=
        Prod.ext (by rw [hmatch, hlook]; rfl) rfl
      rw [hpair] at hrun
      have hpend : (if ai then pend.map Held.id ++ [x.id] else pend.map Held.id) =
          (if ai then pend ++ [x] else pend).map Held.id := by split <;> simp
      simp only [hpend] at hrun
      have hsub : ∀ y ∈ rest ++ (if ai then pend ++ [x] else pend), y ∈ x :: rest ++ pend := by
        intro y hy
        split at hy <;> simp only [List.mem_append, List.mem_cons] at hy ⊢ <;> tauto
      obtain ⟨hkeep, late, hps, hlate⟩ := ih h hlive hkids (fun y hy => hsrc y (hsub y hy)) hst' hseen'
        (fun q hq hc => hunmet q hq (ahead_cons hc).2) hrun
      exact ⟨hkeep, late, hps, fun y hy => hsub y (hlate y hy)⟩
    | some y =>
      have hmem := mem_of_lookup hlook
      have hyd : y ∈ d.kids := mem_of_keyed hmem
      have hpair : takeCopyMatch f.name x.id st = (some y.id, (takeCopyMatch f.name x.id st).2) :=
        Prod.ext (by rw [hmatch, hlook]; rfl) rfl
      rw [hpair] at hrun
      obtain ⟨f₁, hflush, hrun⟩ := Option.bind_eq_some_iff.mp hrun
      obtain ⟨f₂, hcp, hrun⟩ := Option.bind_eq_some_iff.mp hrun
      -- the waiting sources first: only the receiver changes
      have hk₁ := keeps_flushPending hcopy pend h hlive
        (fun c hc => by cases hc; exact hkids y hyd)
        (fun p hp => ⟨(hsrc p (by simp [hp])).1, (hsrc p (by simp [hp])).2 d.id d.id_mem_ids⟩) hflush
      have hsrc₁ : ∀ {t : Held}, Holds f t → d.id ∉ t.ids → Holds f₁ t := fun ht hd =>
        hk₁.holds ht fun m hm he => hd (he ▸ hm)
      -- then the counterpart
      have hk₂ := hcopy hk₁.inv (hsrc₁ (hunmet _ hmem (Nat.le_refl _)) (root_apart hnd hyd))
        (hsrc₁ hx (hxd d.id d.id_mem_ids)) (fun m hm => hxd m (Held.kid_ids hyd hm)) hcp
      have hmet : ∀ m, Met y x m → Met d s m := fun m hm => .kid hmem hkey hm
      have hk := (hk₁.mono (T := Met d s) fun m _ he => he ▸ .root d s).trans hk₂ fun m _ hm => hmet m hm
      have hlive₂ := hk.live d.id hlive
      obtain ⟨hkeep, late, hps, hlate⟩ := ih (w := []) hk.inv hlive₂
        (fun k hkd => by
          have hmem := hkids k hkd
          rw [← hk.kids d.id hlive] at hmem
          exact (List.mem_filter.mp hmem).1)
        (fun z hz => by
          obtain ⟨hz', hzd⟩ := hsrc z (by
            simp only [List.append_nil] at hz
            simp [hz])
          exact ⟨hk.holds hz' fun m hm hmet => hzd m hmet.mem_ids hm, hzd⟩)
        hst' hseen'
        (fun q hq hc => by
          obtain ⟨hne, hc'⟩ := ahead_cons hc
          exact hk₂.holds (hsrc₁ (hunmet q hq hc') (root_apart hnd (mem_of_keyed hq))) fun m hm hmet =>
            keyed_apart hnd hq hmem hne m hm hmet.mem_ids) hrun
      refine ⟨hk.trans hkeep fun m _ hm => hm, late, hps, fun z hz => ?_⟩
      have := hlate z hz
      simp only [List.append_nil] at this
      simp [this]

end Loops

/-! ## The call -/

theorem keeps_set (h : Inv f) (ht : f.live this = true) (v : Var) :
    Keeps f (f.set this v) (fun m => m = this) :=
  ⟨(reaches_set ht v).inv h, fun m hm => by simpa [set] using hm, fun m _ => by simp [set],
    fun m _ => by simpa [set] using h.filter_live m, fun m _ hm => by
      refine ⟨?_, ?_, ?_, ?_⟩ <;> simp [set, hm]⟩

theorem keeps_update (h : Inv f) (ht : f.live this = true) (v : Var) :
    Keeps f (f.update this v).1 (fun m => m = this) := by
  rw [update]
  split
  · exact .refl h _
  · exact keeps_set h ht v

theorem keeps_copy (ai au : Bool) : ∀ fuel, CopyKeeps fun f d s => copy fuel f d (some s) ai false au := by
  intro fuel
  induction fuel with
  | zero => intro f f' d s _ _ _ _ hrun; cases hrun
  | succ fuel ih =>
    intro f f' d s h hd hs hapart hrun
    obtain ⟨hdlive, -, -, hdnodes, hdkids⟩ := holds_iff.mp hd
    obtain ⟨hslive, -, -, hsnodes, hskids⟩ := holds_iff.mp hs
    have hne : s.id ≠ d.id := fun he => hapart d.id d.id_mem_ids (he ▸ s.id_mem_ids)
    simp only [copy, hne, if_false, hdlive, hslive, Bool.not_true, Bool.or_self, Bool.false_eq_true,
      Bool.false_and, Option.bind_some] at hrun
    obtain ⟨⟨f₁, ps⟩, hcopy, hrest⟩ := Option.bind_eq_some_iff.mp hrun
    obtain ⟨f₂, hflush, hlast⟩ := Option.bind_eq_some_iff.mp hrest
    rw [childList_eq, childList_eq, hsnodes, hdnodes] at hcopy
    obtain ⟨hk₁, late, hps, hlate⟩ := keeps_copyChildren (s := s) (w := []) (e := []) ih
      (hd.nodup h) (fun k hk => (holds_iff.mp (hdkids k hk)).2.1) s.kids h hdlive
      (fun k hk => hdnodes ▸ List.mem_map.mpr ⟨k, hk, rfl⟩)
      (fun x hx => by
        have hxs : x ∈ s.kids := by simpa using hx
        exact ⟨hskids x hxs, fun m hm hmx => hapart m hm (Held.kid_ids hxs hmx)⟩)
      (matching_bucketChildren _ _) (fun q hq => hq)
      (fun q hq _ => hdkids q.2 (mem_of_keyed hq)) hcopy
    simp only [hps] at hflush
    have hk₂ := keeps_flushPending ih late hk₁.inv (hk₁.live d.id hdlive) (fun c hc => by cases hc)
      (fun p hp => by
        have hps : p ∈ s.kids := by simpa using hlate p hp
        exact ⟨hk₁.holds (hskids p hps) fun m hm hmet => hapart m hmet.mem_ids (Held.kid_ids hps hm),
          fun hm => hapart d.id d.id_mem_ids (Held.kid_ids hps hm)⟩) hflush
    have hk := hk₁.trans hk₂ fun m _ he => he ▸ .root d s
    have hlive := hk.live d.id hdlive
    split at hlast
    · split at hlast
      · cases hlast
        exact hk.trans (keeps_update hk.inv hlive _) fun m _ he => he ▸ .root d s
      · cases hlast
        exact hk.trans (keeps_set hk.inv hlive _) fun m _ he => he ▸ .root d s
    · cases hlast

theorem Holds.child (h : Holds f d) {m c : Id} (hm : m ∈ d.ids) (hc : c ∈ f.nodes m) : c ∈ d.ids := by
  induction d using Held.ind with
  | h d ih =>
    obtain ⟨-, -, -, hnodes, hkids⟩ := holds_iff.mp h
    rw [Held.ids_eq] at hm
    rcases List.mem_cons.mp hm with rfl | hm
    · rw [hnodes] at hc
      obtain ⟨k, hk, rfl⟩ := List.mem_map.mp hc
      exact Held.kid_ids hk k.id_mem_ids
    · obtain ⟨k, hk, hm⟩ := List.mem_flatMap.mp hm
      exact Held.kid_ids hk (ih k hk (hkids k hk) hm)

/-- Above a node that is met all nodes of the destination are. -/
theorem Met.parent (hi : Inv f) {m : Id} (h : Met d s m) (hd : Holds f d) {p : Id} (hm : m ≠ d.id)
    (hp : f.parent m = some p) : Met d s p := by
  induction h with
  | root d s => exact absurd rfl hm
  | @kid d s x y key m hx hy hmet ih =>
    have hxd := mem_of_keyed hx
    by_cases he : m = x.id
    · rw [he, hd.parent_kid hi hxd] at hp
      cases hp
      exact .root d s
    · exact .kid hx hy (ih ((holds_iff.mp hd).2.2.2.2 x hxd) he hp)

/-- Below a node that is not met none is. -/
theorem not_met_below (hi : Inv f) (hd : Holds f d) {t : Held} (ht : Holds f t) (htd : t.id ∈ d.ids)
    (hnot : ¬ Met d s t.id) : ∀ m ∈ t.ids, ¬ Met d s m := by
  induction t using Held.ind with
  | h t ih =>
    intro m hm
    rw [Held.ids_eq] at hm
    rcases List.mem_cons.mp hm with rfl | hm
    · exact hnot
    · obtain ⟨k, hk, hm⟩ := List.mem_flatMap.mp hm
      have hkh := (holds_iff.mp ht).2.2.2.2 k hk
      have hparent := ht.parent_kid hi hk
      have hkd : k.id ≠ d.id := fun he => ht.above hk (hkh.unique hd he.symm ▸ htd)
      exact ih k hk hkh (hd.child htd (hi.mem_iff.mp hparent))
        (fun hmet => hnot (hmet.parent hi hd hkd hparent)) m hm

/-! ## Without insertion -/

theorem copyChildren_live {copyInto : Forest → Id → Id → Option Forest} {fuel : Nat}
    (hcopy : ∀ {f f' d s}, copyInto f d s = some f' → f'.live = f.live) (ss : List Id) :
    ∀ {f f' : Forest} {st : CopyMatchState} {ps : List Id},
      copyChildren copyInto fuel this false f ss st [] = some (f', ps) → f'.live = f.live ∧ ps = [] := by
  induction ss with
  | nil =>
    intro f f' st ps hrun
    cases hrun
    exact ⟨rfl, rfl⟩
  | cons s ss ih =>
    intro f f' st ps hrun
    simp only [copyChildren, Bool.false_eq_true, if_false] at hrun
    split at hrun
    · cases hrun
    split at hrun
    · exact ih hrun
    · simp only [flushPending, Option.bind_some] at hrun
      obtain ⟨f₁, hcp, hrest⟩ := Option.bind_eq_some_iff.mp hrun
      obtain ⟨hlive, hps⟩ := ih hrest
      exact ⟨hlive.trans (hcopy hcp), hps⟩

/-- A copy that neither removes nor inserts has the same nodes before and after. -/
theorem copy_live (au : Bool) : ∀ fuel {f f' : Forest} {this : Id} {other : Option Id},
    f.copy fuel this other false false au = some f' → f'.live = f.live := by
  intro fuel
  induction fuel with
  | zero => intro f f' this other hrun; cases hrun
  | succ fuel ih =>
    intro f f' this other hrun
    simp only [copy, Bool.false_and, Bool.false_eq_true, if_false, Option.bind_some] at hrun
    split at hrun
    · cases hrun; rfl
    split at hrun
    · cases hrun; rfl
    split at hrun
    · cases hrun
    obtain ⟨⟨f₁, ps⟩, hcopy, hrest⟩ := Option.bind_eq_some_iff.mp hrun
    obtain ⟨hlive, hps⟩ := copyChildren_live (fun hc => ih hc) _ hcopy
    simp only [hps, flushPending, Option.bind_some] at hrest
    split at hrest
    · split at hrest
      · cases hrest
        refine Eq.trans ?_ hlive
        rw [update]
        split <;> rfl
      · cases hrest
        exact hlive
    · cases hrest

/-- **A copy that removes nothing is a frame**: every old node keeps its place, its parent and the
order of its old children, an old node without counterpart keeps the whole tree below it, and without
insertion no node is added. -/
theorem copy_keeps (h : Inv f) (hd : Holds f d) (hs : Holds f s) (hapart : ∀ m ∈ d.ids, m ∉ s.ids)
    (ai au : Bool) {fuel : Nat} (hfuel : d.height + s.height ≤ fuel) :
    ∃ f', f.copy fuel d.id (some s.id) ai false au = some f' ∧
      (∀ m ∈ d.ids, f'.live m = true ∧ (∀ p, f.parent m = some p → f'.parent m = some p) ∧
        (f'.nodes m).filter f.live = f.nodes m) ∧
      (∀ m ∈ d.ids, ¬ Met d s m → ∃ t, t.id = m ∧ Holds f t ∧ Holds f' t) ∧
      (ai = false → f'.live = f.live ∧ f'.nodes = f.nodes) := by
  obtain ⟨f', -, hrun, -, -⟩ := copy_spec ai false au s fuel f d h hd hs hapart hfuel
  have hk := keeps_copy ai au fuel h hd hs hapart hrun
  refine ⟨f', hrun, fun m hm => ?_, fun m hm hnot => ?_, fun hai => ?_⟩
  · exact ⟨hk.live m (hd.live m hm), fun p hp => hk.parent h hp, hk.kids m (hd.live m hm)⟩
  · obtain ⟨t, ht, rfl, -⟩ := hd.part hm
    exact ⟨t, rfl, ht, hk.holds ht (not_met_below h hd ht hm hnot)⟩
  · subst hai
    have hlive := copy_live au fuel hrun
    refine ⟨hlive, funext fun m => ?_⟩
    cases hm : f.live m with
    | true => rw [← hk.kids m hm, ← hlive, hk.inv.filter_live]
    | false => rw [(h.isolated hm).2, (hk.inv.isolated (by rw [hlive, hm])).2]

theorem copy_keeps_sample : ∃ f', misplaced.copy 4 0 (some 3) true false false = some f' ∧
    (∀ m ∈ misplacedDst.ids, f'.live m = true ∧
      (∀ p, misplaced.parent m = some p → f'.parent m = some p) ∧
      (f'.nodes m).filter misplaced.live = misplaced.nodes m) ∧
    (∀ m ∈ misplacedDst.ids, ¬ Met misplacedDst misplacedSrc m →
      ∃ t, t.id = m ∧ Holds misplaced t ∧ Holds f' t) ∧
    (true = false → f'.live = misplaced.live ∧ f'.nodes = misplaced.nodes) :=
  copy_keeps misplaced_inv misplaced_dst misplaced_src (by decide) true false (by decide)

end Keeps

end Forest

end VersatileEngine
