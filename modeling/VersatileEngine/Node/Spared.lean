import VersatileEngine.Node.Below
import VersatileEngine.Node.Keeping

/-!
# VersatileEngine.Node.Spared

A copy that removes, on trees that share no node.

* `deleteNode_mono`, `removeUnmatched_le` — a larger bound on the depth changes no result.
* `Spares f f' T G` — from `f` to `f'` only nodes of `T` change, and only nodes of `G` go.
* `spares_copy`     — what is copied onto stays, and all else of the destination goes.
-/

namespace VersatileEngine

namespace Forest

/-! ## The bound on the depth -/

section Bound

variable {f f' : Forest} {fuel : Nat} {this n : Id}

theorem foldlM_mono {σ α : Type} {step step' : σ → α → Option σ}
    (h : ∀ s a s', step s a = some s' → step' s a = some s') (l : List α) :
    ∀ {s s' : σ}, l.foldlM step s = some s' → l.foldlM step' s = some s' := by
  induction l with
  | nil => exact fun h => h
  | cons a l ih =>
    intro s s' hrun
    rw [List.foldlM_cons] at hrun ⊢
    obtain ⟨s₁, h₁, hrun⟩ := Option.bind_eq_some_iff.mp hrun
    exact Option.bind_eq_some_iff.mpr ⟨s₁, h _ _ _ h₁, ih hrun⟩

theorem deleteNode_mono (k : Nat) : ∀ {f f' : Forest} {n : Id}, f.deleteNode k n = some f' →
    f.deleteNode (k + 1) n = some f' := by
  induction k with
  | zero => intro f f' n h; cases h
  | succ k ih =>
    intro f f' n h
    rw [deleteNode] at h ⊢
    split_ifs at h ⊢
    obtain ⟨g, hg, rfl⟩ := Option.map_eq_some_iff.mp h
    refine Option.map_eq_some_iff.mpr ⟨g, ?_, rfl⟩
    rw [clearChildren] at hg ⊢
    split at hg
    · exact hg
    · obtain ⟨g', hg', rfl⟩ := Option.map_eq_some_iff.mp hg
      refine Option.map_eq_some_iff.mpr ⟨g', foldlM_mono (fun s a s' hs => ?_) _ hg', rfl⟩
      exact ih hs

theorem deleteNode_le {k k' : Nat} (hk : k ≤ k') (h : f.deleteNode k n = some f') :
    f.deleteNode k' n = some f' := by
  induction hk with
  | refl => exact h
  | step _ ih => exact deleteNode_mono _ ih

theorem remove_le {k k' : Nat} {child : Option Id} {r : Forest × Bool} (hk : k ≤ k')
    (h : f.remove k this child = some r) : f.remove k' this child = some r := by
  simp only [remove] at h ⊢
  split at h
  · obtain ⟨g, hg, rfl⟩ := Option.map_eq_some_iff.mp h
    exact Option.map_eq_some_iff.mpr ⟨g, deleteNode_le hk hg, rfl⟩
  · exact h

theorem removeUnmatched_le {k k' : Nat} {matched : List Id} (hk : k ≤ k') (cs : List Id) :
    ∀ {f : Forest}, f.removeUnmatched k this matched cs = some f' →
      f.removeUnmatched k' this matched cs = some f' := by
  induction cs with
  | nil => exact fun h => h
  | cons c cs ih =>
    intro f h
    rw [removeUnmatched] at h ⊢
    split_ifs at h ⊢
    · exact ih h
    · obtain ⟨r, hr, h⟩ := Option.bind_eq_some_iff.mp h
      exact Option.bind_eq_some_iff.mpr ⟨r, remove_le hk hr, ih h⟩

end Bound

/-! ## What is spared -/

/-- From `f` to `f'` only nodes of `T` change, only nodes of `G` go, and a child that stays keeps its
place below a node that stays. -/
structure Spares (f f' : Forest) (T G : Id → Prop) : Prop where
  inv : Inv f'
  live : ∀ m, f.live m = true → ¬ G m → f'.live m = true
  kids : ∀ m c, f.live m = true → ¬ G m → c ∈ f.nodes m → ¬ G c → c ∈ f'.nodes m
  frame : ∀ m, f.live m = true → ¬ T m → Agrees f f' m

section Spares

variable {f g f' : Forest} {S T G H : Id → Prop} {d s : Held} {this : Id}

theorem Keeps.spares (h : Keeps f f' T) : Spares f f' T (fun _ => False) where
  inv := h.inv
  live m hm _ := h.live m hm
  kids m c hm _ hc _ := by
    rw [← h.kids m hm] at hc
    exact (List.mem_filter.mp hc).1
  frame := h.frame

theorem Spares.mono (h : Spares f f' S H) (hST : ∀ m, f.live m = true → S m → T m)
    (hHG : ∀ m, f.live m = true → H m → G m) (hi : Inv f) : Spares f f' T G where
  inv := h.inv
  live m hm hG := h.live m hm fun hH => hG (hHG m hm hH)
  kids m c hm hG hc hGc := h.kids m c hm (fun hH => hG (hHG m hm hH)) hc fun hH =>
    hGc (hHG c (hi.live hc).2 hH)
  frame m hm hT := h.frame m hm fun hS => hT (hST m hm hS)

theorem Spares.trans (h₁ : Spares f g T G) (h₂ : Spares g f' S H) (hi : Inv f)
    (hST : ∀ m, f.live m = true → S m → T m) (hHG : ∀ m, f.live m = true → H m → G m) :
    Spares f f' T G where
  inv := h₂.inv
  live m hm hG := h₂.live m (h₁.live m hm hG) fun hH => hG (hHG m hm hH)
  kids m c hm hG hc hGc := h₂.kids m c (h₁.live m hm hG) (fun hH => hG (hHG m hm hH))
    (h₁.kids m c hm hG hc hGc) fun hH => hGc (hHG c (hi.live hc).2 hH)
  frame m hm hT := by
    have hag := h₁.frame m hm hT
    exact hag.trans (h₂.frame m (hag.live.trans hm) fun hS => hT (hST m hm hS))

theorem Spares.holds (h : Spares f f' T G) {t : Held} (ht : Holds f t) (hT : ∀ m ∈ t.ids, ¬ T m) :
    Holds f' t :=
  ht.agrees fun m hm => h.frame m (ht.live m hm) (hT m hm)

/-- A node of a child that is met, is met by copying onto this child. -/
theorem Met.kid_of (h : ∀ p ∈ keyed Held.name d.kids, ∀ q ∈ keyed Held.name d.kids, p.1 ≠ q.1 →
      ∀ m ∈ p.2.ids, m ∉ q.2.ids) (hroot : ∀ k ∈ d.kids, d.id ∉ k.ids) {x y : Held} {key : Str × Nat} {m : Id}
    (hx : (key, x) ∈ keyed Held.name d.kids) (hy : (key, y) ∈ keyed Held.name s.kids) (hm : m ∈ x.ids)
    (hmet : Met d s m) : Met x y m := by
  cases hmet with
  | root => exact absurd hm (hroot x (mem_of_keyed hx))
  | @kid _ _ x' y' key' _ hx' hy' hm' =>
    by_cases hkey : key' = key
    · subst hkey
      have hxx := lookup_of_mem (keyed_nodup Held.name d.kids) hx
      rw [lookup_of_mem (keyed_nodup Held.name d.kids) hx'] at hxx
      have hyy := lookup_of_mem (keyed_nodup Held.name s.kids) hy
      rw [lookup_of_mem (keyed_nodup Held.name s.kids) hy'] at hyy
      obtain rfl := Option.some.inj hxx
      obtain rfl := Option.some.inj hyy
      exact hm'
    · exact absurd hm (h _ hx' _ hx hkey m hm'.mem_ids)

/-! ## The steps -/

section Loops

variable {copyInto : Forest → Id → Id → Option Forest} {fuel : Nat} {ai : Bool}

/-- `copyInto` spares what a copy that removes spares, and nothing else of the destination. -/
def CopySpares (copyInto : Forest → Id → Id → Option Forest) : Prop :=
  ∀ {f f' : Forest} {d s : Held}, Inv f → Holds f d → Holds f s → (∀ m ∈ d.ids, m ∉ s.ids) →
    copyInto f d.id s.id = some f' → Spares f f' (· ∈ d.ids) (fun m => m ∈ d.ids ∧ ¬ Met d s m) ∧
      ∀ m ∈ d.ids, ¬ Met d s m → f'.live m = false

theorem spares_flushPending (hcopy : CopySpares copyInto) {anchor : Option Id} (ps : List Held) :
    ∀ {f f' : Forest}, Inv f → f.live this = true → (∀ c, anchor = some c → c ∈ f.nodes this) →
      (∀ p ∈ ps, Holds f p ∧ this ∉ p.ids) →
      f.flushPending copyInto fuel this anchor (ps.map Held.id) = some f' →
      Spares f f' (fun m => m = this) (fun _ => False) := by
  induction ps with
  | nil =>
    intro f f' h _ _ _ hrun
    cases hrun
    exact (Keeps.refl h _).spares
  | cons p ps ih =>
    intro f f' h ht ha hps hrun
    obtain ⟨hp, hpt⟩ := hps p (by simp)
    obtain ⟨hok, hfresh, hkeep⟩ := keeps_insertFresh h ht (f.name p.id) ha
    have hins := hkeep.spares
    simp only [List.map_cons, flushPending, hp.live p.id p.id_mem_ids, ht, Bool.and_self, if_true,
      hok] at hrun
    obtain ⟨g, hg, hrun⟩ := Option.bind_eq_some_iff.mp hrun
    -- the new node is copied onto: no old node is
    have hnew : ∀ m, f.live m = true → m ∉ (Held.node f.next (f.name p.id) .none []).ids := fun m hm he => by
      have : m = f.next := by simpa [Held.ids_eq, Held.id, Held.kids] using he
      rw [this, h.next_dead] at hm
      cases hm
    have hcp := (hcopy hins.inv hfresh (hins.holds hp fun m hm he => hpt (he ▸ hm))
      (fun m hm hmp => hnew m (hp.live m hmp) hm) hg).1
    have hone := hins.trans hcp h (fun m hm hmem => absurd hmem (hnew m hm))
      (fun m hm hG => hnew m hm hG.1)
    refine hone.trans (ih hone.inv (hone.live this ht (fun hF => hF)) (fun c hc => ?_) (fun q hq => ?_) hrun) h
      (fun _ _ he => he) (fun _ _ hF => hF)
    · exact hone.kids this c ht (fun hF => hF) (ha c hc) (fun hF => hF)
    · obtain ⟨hq', hqt⟩ := hps q (by simp [hq])
      exact ⟨hone.holds hq' fun m hm he => hqt (he ▸ hm), hqt⟩

/-- The main loop, on the children that are left: all of them are met. -/
theorem spares_copyChildren (hcopy : CopySpares copyInto)
    (hshed : ∀ {f f' d s}, Inv f → copyInto f d s = some f' → Sheds f f' (BelowOnly true f d))
    {name : Id → Str} {L : List Id} (hnd : d.ids.Nodup)
    (hname : ∀ k ∈ d.kids, name k.id = k.name) (hall : ∀ k ∈ d.kids, Met d s k.id) (rest : List Held) :
    ∀ {f f' : Forest} {e : List Str} {st : CopyMatchState} {w : List Held} {ps : List Id}, Inv f →
      f.live d.id = true → (∀ k ∈ d.kids, k.id ∈ f.nodes d.id) →
      (∀ x ∈ rest ++ w, Holds f x ∧ ∀ m ∈ d.ids, m ∉ x.ids) →
      Matching name (d.kids.map Held.id) e st → Within st L →
      (∀ q ∈ keyedFrom Held.name e rest, q ∈ keyed Held.name s.kids) →
      (∀ q ∈ keyed Held.name d.kids, e.count q.1.1 ≤ q.1.2 → Holds f q.2) →
      copyChildren copyInto fuel d.id ai f (rest.map Held.id) st (w.map Held.id) = some (f', ps) →
      Spares f f' (· ∈ d.ids) (fun m => m ∈ d.ids ∧ ¬ Met d s m) ∧
        (∀ p ∈ keyedFrom Held.name e rest, ∀ y, (p.1, y) ∈ keyed Held.name d.kids → ∀ m ∈ y.ids,
          ¬ Met y p.2 m → f'.live m = false) ∧
        ∃ late : List Held, ps = late.map Held.id ∧ ∀ x ∈ late, x ∈ rest ++ w := by
  induction rest with
  | nil =>
    intro f f' seen st pend ps h _ _ _ _ _ _ _ hrun
    cases hrun
    exact ⟨(Keeps.refl h _).spares.mono (fun _ _ hm => hm) (fun _ _ hm => hm.elim) h,
      fun p hp => (by cases hp), pend, rfl, fun x hx => by simpa using hx⟩
  | cons x rest ih =>
    intro f f' seen st pend ps h hlive hkids hsrc hst hwithin hseen hunmet hrun
    obtain ⟨hx, hxd⟩ := hsrc x (by simp)
    have hwithin' := (@takeCopyMatch_within f.name x.id st L hwithin).2
    obtain ⟨hmatch, hst'⟩ := match_held hnd hname hx hst
    have hkey : ((x.name, seen.count x.name), x) ∈ keyed Held.name s.kids :=
      hseen _ (by simp [keyedFrom])
    have hseen' : ∀ q ∈ keyedFrom Held.name (x.name :: seen) rest, q ∈ keyed Held.name s.kids :=
      fun q hq => hseen q (by simp [keyedFrom, hq])
    rw [List.map_cons, copyChildren] at hrun
    simp only [hx.live x.id x.id_mem_ids, Bool.not_true, Bool.false_eq_true, if_false] at hrun
    cases hlook : (keyed Held.name d.kids).lookup (x.name, seen.count x.name) with
    | none =>
      have hpair : takeCopyMatch f.name x.id st = (none, (takeCopyMatch f.name x.id st).2) :=
        Prod.ext (by rw [hmatch, hlook]; rfl) rfl
      rw [hpair] at hrun
      have hpend : (if ai then pend.map Held.id ++ [x.id] else pend.map Held.id) =
          (if ai then pend ++ [x] else pend).map Held.id := by split <;> simp
      simp only [hpend] at hrun
      have hsub : ∀ y ∈ rest ++ (if ai then pend ++ [x] else pend), y ∈ x :: rest ++ pend := by
        intro y hy
        split at hy <;> simp only [List.mem_append, List.mem_cons] at hy ⊢ <;> tauto
      obtain ⟨hspare, hgone, late, hps, hlate⟩ := ih h hlive hkids (fun y hy => hsrc y (hsub y hy)) hst'
        hwithin' hseen' (fun q hq hc => hunmet q hq (ahead_cons hc).2) hrun
      refine ⟨hspare, fun p hp y hy => ?_, late, hps, fun y hy => hsub y (hlate y hy)⟩
      rcases List.mem_cons.mp hp with rfl | hp
      · rw [lookup_of_mem (keyed_nodup Held.name d.kids) hy] at hlook
        cases hlook
      · exact hgone p hp y hy
    | some y =>
      have hmem := mem_of_lookup hlook
      have hyd : y ∈ d.kids := mem_of_keyed hmem
      have hpair : takeCopyMatch f.name x.id st = (some y.id, (takeCopyMatch f.name x.id st).2) :=
        Prod.ext (by rw [hmatch, hlook]; rfl) rfl
      rw [hpair] at hrun
      obtain ⟨f₁, hflush, hrest⟩ := Option.bind_eq_some_iff.mp hrun
      obtain ⟨f₂, hcp, hlast⟩ := Option.bind_eq_some_iff.mp hrest
      -- the waiting sources first: only the receiver changes
      have hk₁ := spares_flushPending hcopy pend h hlive
        (fun c hc => by cases hc; exact hkids y hyd)
        (fun p hp => ⟨(hsrc p (by simp [hp])).1, (hsrc p (by simp [hp])).2 d.id d.id_mem_ids⟩) hflush
      have hsrc₁ : ∀ {t : Held}, Holds f t → d.id ∉ t.ids → Holds f₁ t := fun ht hd =>
        hk₁.holds ht fun m hm he => hd (he ▸ hm)
      -- then the counterpart: of its nodes only those that are not met go
      have hy₁ := hsrc₁ (hunmet _ hmem (Nat.le_refl _)) (root_apart hnd hyd)
      obtain ⟨hk₂, hgone₂⟩ := hcopy hk₁.inv hy₁ (hsrc₁ hx (hxd d.id d.id_mem_ids))
        (fun m hm => hxd m (Held.kid_ids hyd hm)) hcp
      have hback : ∀ m ∈ y.ids, Met d s m → Met y x m := fun m hm hmet =>
        Met.kid_of (fun p hp q hq hne m hm => keyed_apart hnd hp hq hne m hm) (fun k hk => root_apart hnd hk)
          hmem hkey hm hmet
      have hk : Spares f f₂ (· ∈ d.ids) (fun m => m ∈ d.ids ∧ ¬ Met d s m) :=
        (hk₁.mono (fun m _ he => he ▸ d.id_mem_ids) (fun _ _ hF => hF.elim) h).trans hk₂ h
          (fun m _ hm => Held.kid_ids hyd hm)
          (fun m _ hG => ⟨Held.kid_ids hyd hG.1, fun hmet => hG.2 (hback m hG.1 hmet)⟩)
      have hmine : ¬ (d.id ∈ d.ids ∧ ¬ Met d s d.id) := fun hG => hG.2 (.root d s)
      obtain ⟨hspare, hgone, late, hps, hlate⟩ := ih (w := []) hk.inv (hk.live d.id hlive hmine)
        (fun k hkd => hk.kids d.id k.id hlive hmine (hkids k hkd) fun hG => hG.2 (hall k hkd))
        (fun z hz => by
          obtain ⟨hz', hzd⟩ := hsrc z (by
            simp only [List.append_nil] at hz
            simp [hz])
          exact ⟨hk.holds hz' fun m hm hmd => hzd m hmd hm, hzd⟩)
        hst' hwithin' hseen'
        (fun q hq hc => by
          obtain ⟨hne, hc'⟩ := ahead_cons hc
          exact hk₂.holds (hsrc₁ (hunmet q hq hc') (root_apart hnd (mem_of_keyed hq))) fun m hm hmy =>
            keyed_apart hnd hq hmem hne m hm hmy) hlast
      refine ⟨hk.trans hspare h (fun m _ hm => hm) (fun m _ hG => hG), fun p hp y' hy' m hm hmet => ?_,
        late, hps, fun z hz => ?_⟩
      · rcases List.mem_cons.mp hp with rfl | hp
        · -- what went with the counterpart stays away
          rw [lookup_of_mem (keyed_nodup Held.name d.kids) hy'] at hlook
          obtain rfl := Option.some.inj hlook
          have hlt := Nat.lt_of_lt_of_le (hk₁.inv.bound (hy₁.live m hm)) (hshed hk₁.inv hcp).next
          exact (sheds_copyChildren hshed _ hk₂.inv hwithin' hlast).dead hlt (hgone₂ m hm hmet)
        · exact hgone p hp y' hy' m hm hmet
      · have := hlate z hz
        simp only [List.append_nil] at this
        simp [this]

end Loops

/-! ## The call -/

/-- The children with a counterpart, which a copy that removes leaves. -/
def Held.left (d s : Held) : List Held :=
  (keptOf true (keyed Held.name d.kids) (keyed Held.name s.kids)).map Prod.snd

theorem keyed_left (d s : Held) : keyed Held.name (Held.left d s) =
    keptOf true (keyed Held.name d.kids) (keyed Held.name s.kids) :=
  keyed_kept true d.kids s.kids

theorem mem_left {k : Held} (hk : k ∈ Held.left d s) : k ∈ d.kids := by
  obtain ⟨q, hq, rfl⟩ := List.mem_map.mp hk
  rw [keptOf, if_pos rfl] at hq
  exact mem_of_keyed (List.mem_filter.mp hq).1

/-- What is met, is met among the children that are left. -/
theorem Met.left {m : Id} (h : Met d s m) : Met (.node d.id d.name d.value (Held.left d s)) s m := by
  cases h with
  | root => exact .root (.node d.id d.name d.value (Held.left d s)) s
  | @kid _ _ x y key _ hx hy hm =>
    refine @Met.kid _ _ x y key _ ?_ hy hm
    show (key, x) ∈ keyed Held.name (Held.left d s)
    rw [keyed_left, keptOf, if_pos rfl]
    exact List.mem_filter.mpr ⟨hx, by rw [lookup_of_mem (keyed_nodup Held.name s.kids) hy]; rfl⟩

theorem Holds.same (h : Holds f d) (h' : Holds f' d) : ∀ m ∈ d.ids, Agrees f f' m := by
  induction d using Held.ind with
  | h d ih =>
    obtain ⟨h1, h2, h3, h4, h5⟩ := holds_iff.mp h
    obtain ⟨h1', h2', h3', h4', h5'⟩ := holds_iff.mp h'
    intro m hm
    rw [Held.ids_eq] at hm
    rcases List.mem_cons.mp hm with rfl | hm
    · exact ⟨h1'.trans h1.symm, h2'.trans h2.symm, h3'.trans h3.symm, h4'.trans h4.symm⟩
    · obtain ⟨k, hk, hm⟩ := List.mem_flatMap.mp hm
      exact ih k hk (h5 k hk) (h5' k hk) m hm

/-- The first loop of a copy that removes. -/
theorem Level.spares (h : Inv f) (hd : Holds f d) (hl : Level f g d.ids d.id (Held.left d s)) :
    Spares f g (· ∈ d.ids) (fun m => m ∈ d.ids ∧ ¬ Met d s m) := by
  have hkids := (holds_iff.mp hd).2.2.2.2
  -- a node that is met is the receiver, or of a child that is left
  have hmet : ∀ m, m ∈ d.ids → ¬ (m ∈ d.ids ∧ ¬ Met d s m) →
      m = d.id ∨ ∃ k ∈ Held.left d s, m ∈ k.ids := by
    intro m hm hG
    have hmem := (by_contra fun hn => hG ⟨hm, hn⟩ : Met d s m).left.mem_ids
    rw [Held.ids_eq] at hmem
    rcases List.mem_cons.mp hmem with he | hmem
    · exact .inl he
    · exact .inr (List.mem_flatMap.mp hmem)
  refine ⟨hl.inv, fun m hm hG => ?_, fun m c hm hG hc hGc => ?_, hl.only⟩
  · by_cases hmd : m ∈ d.ids
    · rcases hmet m hmd hG with rfl | hk
      · exact hl.live
      · obtain ⟨k, hk, hmk⟩ := hk
        exact (hl.holds k hk).live m hmk
    · exact (hl.only m hm hmd).live.trans hm
  · by_cases hmd : m ∈ d.ids
    · rcases hmet m hmd hG with rfl | hk
      · rcases hmet c (hd.child hmd hc) hGc with he | hk
        · rw [he] at hc
          obtain ⟨k, hk, he⟩ := List.mem_map.mp ((holds_iff.mp hd).2.2.2.1 ▸ hc)
          exact absurd (he ▸ k.id_mem_ids) (hd.above hk)
        · obtain ⟨k, hk, hck⟩ := hk
          have hkd := mem_left hk
          obtain rfl : c = k.id := by
            by_contra hne
            exact hd.above hkd ((hkids k hkd).climb h hck hne (h.mem_iff.mpr hc))
          rw [hl.nodes]
          exact List.mem_map.mpr ⟨k, hk, rfl⟩
      · obtain ⟨k, hk, hmk⟩ := hk
        rw [((hkids k (mem_left hk)).same (hl.holds k hk) m hmk).nodes]
        exact hc
    · rw [(hl.only m hm hmd).nodes]
      exact hc

/-- A node of a held tree is below its root. -/
theorem Holds.reach (h : Holds f d) {m : Id} (hm : m ∈ d.ids) : Below f d.id m := by
  induction d using Held.ind with
  | h d ih =>
    obtain ⟨-, -, -, hnodes, hkids⟩ := holds_iff.mp h
    rw [Held.ids_eq] at hm
    rcases List.mem_cons.mp hm with rfl | hm
    · exact .refl
    · obtain ⟨k, hk, hm⟩ := List.mem_flatMap.mp hm
      have hkd : k.id ∈ f.nodes d.id := by
        rw [hnodes]
        exact List.mem_map.mpr ⟨k, hk, rfl⟩
      exact Below.trans (.step .refl hkd) (ih k hk (hkids k hk) hm)

/-- Removing what no source child is matched with, whatever the bound on the depth. -/
theorem removeUnmatched_left {fuel : Nat} (h : Inv f) (hd : Holds f d) (hs : Holds f s)
    (hrun : f.removeUnmatched fuel d.id (((s.kids.map Held.id).foldl
        (fun st s => (takeCopyMatch f.name s st).2)
        (bucketChildren f.name (d.kids.map Held.id))).matched) (d.kids.map Held.id).reverse = some f') :
    Level f f' d.ids d.id (Held.left d s) ∧ f.next ≤ f'.next ∧
      ∀ k ∈ d.kids, k ∉ Held.left d s → ∀ m ∈ k.ids, f'.live m = false := by
  have hstart := Level.start h hd
  obtain ⟨htight, hdead⟩ := gone_removeUnmatched _ h hrun
  have hnext := (sheds_removeUnmatched _ h hrun).next
  have hleft := kept_children
    (fun k hk => (holds_iff.mp ((holds_iff.mp hd).2.2.2.2 k hk)).2.1)
    (fun k hk => (holds_iff.mp ((holds_iff.mp hs).2.2.2.2 k hk)).2.1) hstart.nodup_ids
  rw [← List.map_reverse] at hrun
  have hheight : ∀ k ∈ d.kids.reverse, k.height ≤ max fuel d.height := fun k hk =>
    Nat.le_trans (Nat.le_of_lt (Held.height_kid (List.mem_reverse.mp hk))) (Nat.le_max_right ..)
  obtain ⟨g, hg, hlevel⟩ := removeUnmatched_spec _ d.kids.reverse f [] hheight (by simpa using hstart)
  rw [removeUnmatched_le (Nat.le_max_left fuel d.height) _ hrun] at hg
  obtain rfl := Option.some.inj hg
  rw [List.reverse_reverse, List.append_nil, hleft] at hlevel
  refine ⟨hlevel, hnext, fun k hk hnot m hm => ?_⟩
  have hmatched : k.id ∉ ((s.kids.map Held.id).foldl (fun st s => (takeCopyMatch f.name s st).2)
      (bucketChildren f.name (d.kids.map Held.id))).matched := fun hmem => hnot (by
    rw [Held.left, ← hleft]
    exact List.mem_filter.mpr ⟨hk, by simpa using hmem⟩)
  have hmem : k.id ∈ f.nodes d.id := by
    rw [(holds_iff.mp hd).2.2.2.1]
    exact List.mem_map.mpr ⟨k, hk, rfl⟩
  have hkdead := hdead k.id (by
    rw [List.mem_reverse]
    exact List.mem_map.mpr ⟨k, hk, rfl⟩) hmatched hmem
  exact htight.gone hlevel.inv hkdead (((holds_iff.mp hd).2.2.2.2 k hk).reach hm)

/-- **A copy that removes spares what it copies onto**, and frees the rest of the destination. -/
theorem spares_copy (ai au : Bool) : ∀ fuel, CopySpares fun f d s => copy fuel f d (some s) ai true au := by
  intro fuel
  induction fuel with
  | zero => intro f f' d s _ _ _ _ hrun; cases hrun
  | succ fuel ih =>
    intro f f' d s h hd hs hapart hrun
    obtain ⟨hdlive, -, -, hdnodes, hdkids⟩ := holds_iff.mp hd
    obtain ⟨hslive, -, -, hsnodes, hskids⟩ := holds_iff.mp hs
    have hne : s.id ≠ d.id := fun he => hapart d.id d.id_mem_ids (he ▸ s.id_mem_ids)
    simp only [copy, hne, if_false, hdlive, hslive, Bool.not_true, Bool.or_self, Bool.false_eq_true,
      Bool.true_and] at hrun
    obtain ⟨f₁, hremove, hrun⟩ := Option.bind_eq_some_iff.mp hrun
    obtain ⟨⟨f₂, ps⟩, hcopy, hrest⟩ := Option.bind_eq_some_iff.mp hrun
    obtain ⟨f₃, hflush, hlast⟩ := Option.bind_eq_some_iff.mp hrest
    rw [childList_eq, childList_eq, hdnodes, hsnodes] at hremove
    obtain ⟨hlevel, hnext, hremoved⟩ : Level f f₁ d.ids d.id (Held.left d s) ∧ f.next ≤ f₁.next ∧
        ∀ k ∈ d.kids, k ∉ Held.left d s → ∀ m ∈ k.ids, f₁.live m = false := by
      split at hremove
      · exact removeUnmatched_left h hd hs hremove
      · rename_i hempty
        cases hremove
        have hnil : d.kids = [] := by simpa using hempty
        have hstart := Level.start h hd
        rw [hnil] at hstart
        refine ⟨by simpa [Held.left, keptOf, hnil, keyed, keyedFrom] using hstart, Nat.le_refl _, fun k hk => ?_⟩
        rw [hnil] at hk
        cases hk
    have hk₁ := hlevel.spares h hd
    -- the receiver with the children that are left
    let d₁ : Held := .node d.id d.name d.value (Held.left d s)
    have hd₁ : Holds f₁ d₁ := holds_iff.mpr ⟨hlevel.live, hlevel.name.trans (holds_iff.mp hd).2.1,
      hlevel.value.trans (holds_iff.mp hd).2.2.1, hlevel.nodes, hlevel.holds⟩
    have hsub : ∀ m ∈ d₁.ids, m ∈ d.ids := by
      intro m hm
      rw [Held.ids_eq] at hm
      rcases List.mem_cons.mp hm with rfl | hm
      · exact d.id_mem_ids
      · obtain ⟨k, hk, hm⟩ := List.mem_flatMap.mp hm
        exact Held.kid_ids (mem_left hk) hm
    have hs₁ : Holds f₁ s := hk₁.holds hs fun m hm hmd => hapart m hmd hm
    obtain ⟨-, -, -, -, hskids₁⟩ := holds_iff.mp hs₁
    have hall : ∀ k ∈ d₁.kids, Met d₁ s k.id := by
      intro k hk
      obtain ⟨q, hq, rfl⟩ := List.mem_map.mp hk
      have hq' : (q.1, q.2) ∈ keyed Held.name d₁.kids := (keyed_left d s).symm ▸ hq
      rw [keptOf, if_pos rfl] at hq
      obtain ⟨y, hy⟩ := Option.isSome_iff_exists.mp (List.mem_filter.mp hq).2
      exact .kid hq' (mem_of_lookup hy) (.root q.2 y)
    rw [childList_eq, childList_eq, hsnodes, hlevel.nodes] at hcopy
    have hshed : ∀ {f f' : Forest} {d s : Id}, Inv f → copy fuel f d (some s) ai true au = some f' →
        Sheds f f' (BelowOnly true f d) := fun h hc => sheds_copy ai au fuel h hc
    have hwithin := within_bucketChildren f₁.name ((Held.left d s).map Held.id)
    obtain ⟨hk₂, hgone, late, hps, hlate⟩ := spares_copyChildren (d := d₁) (s := s) (w := []) (e := []) ih hshed
      (hd₁.nodup hlevel.inv) (fun k hk => (holds_iff.mp (hlevel.holds k hk)).2.1) hall s.kids hlevel.inv
      hlevel.live (fun k hk => hlevel.nodes ▸ List.mem_map.mpr ⟨k, hk, rfl⟩)
      (fun x hx => by
        have hxs : x ∈ s.kids := by simpa using hx
        exact ⟨hskids₁ x hxs, fun m hm hmx => hapart m (hsub m hm) (Held.kid_ids hxs hmx)⟩)
      (matching_bucketChildren _ _) hwithin (fun q hq => hq)
      (fun q hq _ => hlevel.holds q.2 (mem_of_keyed hq)) hcopy
    have hk := hk₁.trans hk₂ h (fun m _ hm => hsub m hm) fun m _ hG =>
      ⟨hsub m hG.1, fun hmet => hG.2 hmet.left⟩
    have hmine : ¬ (d.id ∈ d.ids ∧ ¬ Met d s d.id) := fun hG => hG.2 (.root d s)
    simp only [hps] at hflush
    have hk₃ := spares_flushPending ih late hk.inv (hk.live d.id hdlive hmine) (fun c hc => by cases hc)
      (fun p hp => by
        have hps : p ∈ s.kids := by simpa using hlate p hp
        exact ⟨hk.holds (hskids p hps) fun m hm hmd => hapart m hmd (Held.kid_ids hps hm),
          fun hm => hapart d.id d.id_mem_ids (Held.kid_ids hps hm)⟩) hflush
    have hk' := hk.trans hk₃ h (fun m _ he => he ▸ d.id_mem_ids) fun _ _ hF => hF.elim
    have hlive := hk'.live d.id hdlive hmine
    -- the value is written last
    obtain ⟨hend, hsame⟩ : Spares f f' (· ∈ d.ids) (fun m => m ∈ d.ids ∧ ¬ Met d s m) ∧ f'.live = f₃.live := by
      split at hlast
      · split at hlast
        · cases hlast
          refine ⟨hk'.trans (keeps_update hk'.inv hlive _).spares h (fun m _ he => he ▸ d.id_mem_ids)
            fun _ _ hF => hF.elim, ?_⟩
          rw [update]
          split <;> rfl
        · cases hlast
          exact ⟨hk'.trans (keeps_set hk'.inv hlive _).spares h (fun m _ he => he ▸ d.id_mem_ids)
            fun _ _ hF => hF.elim, rfl⟩
      · cases hlast
    refine ⟨hend, fun m hm hmet => ?_⟩
    rw [hsame]
    have hs₂ := sheds_copyChildren hshed _ hlevel.inv hwithin hcopy
    have hs₃ := sheds_flushPending hshed _ hk.inv hflush
    rw [Held.ids_eq] at hm
    rcases List.mem_cons.mp hm with rfl | hm
    · exact absurd (.root d s) hmet
    obtain ⟨k, hk, hmk⟩ := List.mem_flatMap.mp hm
    have hlt : m < f₁.next := Nat.lt_of_lt_of_le (h.bound ((hdkids k hk).live m hmk)) hnext
    refine hs₃.dead (Nat.lt_of_lt_of_le hlt hs₂.next) ?_
    by_cases hleft : k ∈ Held.left d s
    · -- of a child that is left, what is not met below it goes
      obtain ⟨q, hq, rfl⟩ := List.mem_map.mp hleft
      have hq' : (q.1, q.2) ∈ keyed Held.name d₁.kids := (keyed_left d s).symm ▸ hq
      rw [keptOf, if_pos rfl] at hq
      obtain ⟨y, hy⟩ := Option.isSome_iff_exists.mp (List.mem_filter.mp hq).2
      have hqd : (q.1, q.2) ∈ keyed Held.name d.kids := (List.mem_filter.mp hq).1
      exact hgone (q.1, y) (mem_of_lookup hy) q.2 hq' m hmk fun hm' => hmet (.kid hqd (mem_of_lookup hy) hm')
    · exact hs₂.dead hlt (hremoved k hk hleft m hmk)

end Spares

end Forest

end VersatileEngine
