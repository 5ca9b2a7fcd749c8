import VersatileEngine.Lib.Merging

/-!
# VersatileEngine.Lib.Rearrange

What is arranged a second time.

* `Arranged`         — whatever must go has gone, and whatever must come is there.
* `arranged_arrange` — **one arrangement arranges**, for all flags.
* `arrange_arranged` — then every element stays where it is, joined with the element of its key.
-/

set_option linter.unusedSectionVars false

namespace VersatileEngine

section Keyed

variable {α κ : Type} [BEq κ] [LawfulBEq κ]

/-- Elements that keep their names keep their keys. -/
theorem keyedFrom_rename (name : α → κ) (g : (κ × Nat) × α → α) (l : List α)
    (hg : ∀ key, ∀ a ∈ l, name (g (key, a)) = name a) :
    ∀ seen, keyedFrom name seen ((keyedFrom name seen l).map g) = (keyedFrom name seen l).map fun p => (p.1, g p) := by
  induction l with
  | nil => exact fun _ => rfl
  | cons a l ih =>
    intro seen
    have hname := hg (name a, seen.count (name a)) a List.mem_cons_self
    rw [keyedFrom, List.map_cons, keyedFrom, hname, ih fun key b hb => hg key b (List.mem_cons_of_mem a hb)]
    rfl

theorem keyed_rename (name : α → κ) (g : (κ × Nat) × α → α) {l : List α}
    (hg : ∀ key, ∀ a ∈ l, name (g (key, a)) = name a) :
    keyed name ((keyed name l).map g) = (keyed name l).map fun p => (p.1, g p) :=
  keyedFrom_rename name g l hg []

end Keyed

section Groups

variable {σ κ : Type}

/-- Without elements to wait for, a group is its head alone. -/
theorem groups_joined (has : κ → Bool) (ai : Bool) (ks : List (κ × σ))
    (h : ai = true → ∀ p ∈ ks, has p.1 = true) :
    groups has ai [] ks = ((ks.filter fun p => has p.1).map fun p => (p.1, [], p.2), []) := by
  induction ks with
  | nil => rfl
  | cons p ks ih =>
    obtain ⟨key, s⟩ := p
    have hrest := ih fun hai q hq => h hai q (List.mem_cons_of_mem _ hq)
    by_cases hk : has key = true
    · simp [groups, hk, hrest]
    · have hai : ai = false := Bool.eq_false_iff.mpr fun hai => hk (h hai (key, s) List.mem_cons_self)
      simp [groups, hk, hai, ← hrest]

/-- Put back together, the groups and the rest are part of the list. -/
theorem groups_sublist (has : κ → Bool) (ai : Bool) (ks : List (κ × σ)) :
    ∀ pend, ((groups has ai pend ks).1.flatMap (fun q => q.2.1 ++ [q.2.2]) ++ (groups has ai pend ks).2).Sublist
      (pend ++ ks.map Prod.snd) := by
  induction ks with
  | nil => exact fun pend => by simp [groups]
  | cons p ks ih =>
    intro pend
    obtain ⟨key, s⟩ := p
    by_cases hk : has key = true
    · have hrest := ih []
      simp only [List.nil_append] at hrest
      simpa [groups, hk] using hrest
    · have hrest := ih (if ai then pend ++ [s] else pend)
      simp only [groups, hk, Bool.false_eq_true, if_false, List.map_cons]
      refine hrest.trans ?_
      cases ai with
      | true => simp
      | false => simp

end Groups

section Lookups

variable {κ β γ : Type} [BEq κ] [LawfulBEq κ]

/-- What is looked up under all keys of a list is what stands under these keys. -/
theorem lookups_perm (h : β → List γ) {L : List κ} {G : List (κ × β)} (hL : L.Nodup) (hG : (G.map Prod.fst).Nodup)
    (hsub : ∀ k ∈ G.map Prod.fst, k ∈ L) :
    (L.flatMap fun k => ((G.lookup k).map h).getD []).Perm (G.flatMap fun q => h q.2) := by
  have hdrop : (L.flatMap fun k => ((G.lookup k).map h).getD []) =
      (L.filter fun k => (G.lookup k).isSome).flatMap fun k => ((G.lookup k).map h).getD [] := by
    clear hL hsub
    induction L with
    | nil => rfl
    | cons k L ih =>
      rw [List.flatMap_cons, List.filter_cons, ih]
      cases hk : G.lookup k with
      | none => rfl
      | some b => simp [hk]
  have hkeys : (L.filter fun k => (G.lookup k).isSome).Perm (G.map Prod.fst) := by
    refine (List.perm_ext_iff_of_nodup (hL.filter _) hG).mpr fun k => ?_
    rw [List.mem_filter, lookup_isSome]
    exact ⟨fun hk => hk.2, fun hk => ⟨hsub k hk, hk⟩⟩
  rw [hdrop]
  refine (hkeys.flatMap_right _).trans (List.Perm.of_eq ?_)
  rw [List.flatMap_map]
  refine List.flatMap_congr fun q hq => ?_
  rw [lookup_of_mem hG hq]
  rfl

end Lookups

section Arrange

variable {δ σ κ : Type} [BEq κ] [LawfulBEq κ] (dname : δ → κ) (sname : σ → κ) (ai ar : Bool)
  (ds : List δ) (ss : List σ)

/-- No name has too many elements when elements go, and none too few when elements come. -/
def Arranged : Prop :=
  (ar = true → ∀ nm, (ds.map dname).count nm ≤ (ss.map sname).count nm) ∧
    (ai = true → ∀ nm, (ss.map sname).count nm ≤ (ds.map dname).count nm)

/-- The groups of an arrangement. -/
def arrangeGroups : List ((κ × Nat) × List σ × σ) × List σ :=
  groups (fun key => ((keptOf ar (keyed dname ds) (keyed sname ss)).lookup key).isSome) ai [] (keyed sname ss)

theorem arrange_groups : arrange dname sname ai ar ds ss =
    (keptOf ar (keyed dname ds) (keyed sname ss)).flatMap (slotsAt (arrangeGroups dname sname ai ar ds ss).1) ++
      (arrangeGroups dname sname ai ar ds ss).2.map .fresh := rfl

theorem kept_sublist : (keptOf ar (keyed dname ds) (keyed sname ss)).Sublist (keyed dname ds) := by
  rw [keptOf]
  split
  · exact List.filter_sublist
  · exact .refl _

theorem kept_nodup : ((keptOf ar (keyed dname ds) (keyed sname ss)).map Prod.fst).Nodup :=
  (keyed_nodup dname ds).sublist ((kept_sublist dname sname ar ds ss).map _)

variable {dname sname ai ar ds ss}

/-- A group has its head from the second list, and its key from the first one. -/
theorem arrangeGroups_mem {key : κ × Nat} {pend : List σ} {s : σ}
    (h : (key, pend, s) ∈ (arrangeGroups dname sname ai ar ds ss).1) :
    (key, s) ∈ keyed sname ss ∧ key ∈ (keptOf ar (keyed dname ds) (keyed sname ss)).map Prod.fst := by
  have hmem : (key, s) ∈ (arrangeGroups dname sname ai ar ds ss).1.map fun q => (q.1, q.2.2) :=
    List.mem_map.mpr ⟨_, h, rfl⟩
  rw [arrangeGroups, groups_keys] at hmem
  obtain ⟨hmem, hhas⟩ := List.mem_filter.mp hmem
  exact ⟨hmem, lookup_isSome.mp hhas⟩

theorem arrangeGroups_nodup : ((arrangeGroups dname sname ai ar ds ss).1.map Prod.fst).Nodup := by
  have hkeys := congrArg (List.map Prod.fst) (groups_keys
    (fun key => ((keptOf ar (keyed dname ds) (keyed sname ss)).lookup key).isSome) ai (keyed sname ss) [])
  rw [List.map_map] at hkeys
  exact hkeys ▸ (keyed_nodup sname ss).sublist (List.filter_sublist.map _)

/-- What is joined has one name. -/
theorem joined_name {d : δ} {s : σ} (h : .joined d s ∈ arrange dname sname ai ar ds ss) : dname d = sname s := by
  rw [arrange_groups, List.mem_append] at h
  rcases h with h | h
  · obtain ⟨p, hp, hslot⟩ := List.mem_flatMap.mp h
    rw [slotsAt] at hslot
    cases hl : (arrangeGroups dname sname ai ar ds ss).1.lookup p.1 with
    | none =>
      rw [hl] at hslot
      simp at hslot
    | some q =>
      rw [hl] at hslot
      obtain ⟨pend, s'⟩ := q
      obtain ⟨rfl, rfl⟩ : d = p.2 ∧ s = s' := by simpa using hslot
      have hd := (mem_keyedFrom ((kept_sublist dname sname ar ds ss).subset hp)).1
      have hs := (mem_keyedFrom (arrangeGroups_mem (mem_of_lookup hl)).1).1
      exact hd.trans hs.symm
  · simp at h

/-- The elements of the second list in an arrangement. -/
theorem sources_perm : ((arrange dname sname ai ar ds ss).flatMap Slot.source).Perm
    ((arrangeGroups dname sname ai ar ds ss).1.flatMap (fun q => q.2.1 ++ [q.2.2]) ++
      (arrangeGroups dname sname ai ar ds ss).2) := by
  have hslots : ∀ p : (κ × Nat) × δ, (slotsAt (arrangeGroups dname sname ai ar ds ss).1 p).flatMap Slot.source =
      (((arrangeGroups dname sname ai ar ds ss).1.lookup p.1).map fun q => q.1 ++ [q.2]).getD [] := fun p => by
    rw [slotsAt]
    cases (arrangeGroups dname sname ai ar ds ss).1.lookup p.1 with
    | none => rfl
    | some q => simp [Slot.source, List.flatMap_map]
  rw [arrange_groups, List.flatMap_append, List.flatMap_assoc]
  refine List.Perm.append ?_ (List.Perm.of_eq (by simp [Slot.source, List.flatMap_map]))
  have hperm := lookups_perm (fun q : List σ × σ => q.1 ++ [q.2]) (kept_nodup dname sname ar ds ss)
    (@arrangeGroups_nodup _ _ _ _ _ dname sname ai ar ds ss) fun k hk => by
      obtain ⟨⟨key, pend, s⟩, hq, rfl⟩ := List.mem_map.mp hk
      exact (arrangeGroups_mem hq).2
  refine (List.Perm.of_eq ?_).trans hperm
  rw [List.flatMap_map]
  exact List.flatMap_congr fun p _ => hslots p

/-- Where elements go, none is left without its partner. -/
theorem not_old (har : ar = true) (d : δ) : .old d ∉ arrange dname sname ai ar ds ss := by
  intro h
  rw [arrange_groups, List.mem_append] at h
  rcases h with h | h
  · obtain ⟨p, hp, hslot⟩ := List.mem_flatMap.mp h
    have hkey : p.1 ∈ (arrangeGroups dname sname ai ar ds ss).1.map Prod.fst := by
      have hkeys := congrArg (List.map Prod.fst) (groups_keys
        (fun key => ((keptOf ar (keyed dname ds) (keyed sname ss)).lookup key).isSome) ai (keyed sname ss) [])
      rw [List.map_map] at hkeys
      refine hkeys ▸ ?_
      have hlook : ((keyed sname ss).lookup p.1).isSome = true := by
        rw [keptOf, if_pos har] at hp
        exact (List.mem_filter.mp hp).2
      obtain ⟨s, hs⟩ := Option.isSome_iff_exists.mp hlook
      refine List.mem_map.mpr ⟨(p.1, s), List.mem_filter.mpr ⟨mem_of_lookup hs, ?_⟩, rfl⟩
      exact lookup_isSome.mpr (List.mem_map.mpr ⟨p, hp, rfl⟩)
    obtain ⟨q, hq⟩ := Option.isSome_iff_exists.mp (lookup_isSome.mpr hkey)
    rw [slotsAt, hq] at hslot
    simp at hslot
  · simp at h

/-- **One arrangement settles.** -/
theorem arranged_arrange : Arranged (Slot.name dname sname) sname ai ar (arrange dname sname ai ar ds ss) ss := by
  have hsame : ∀ x ∈ arrange dname sname ai ar ds ss, ∀ s ∈ x.source,
      sname s = x.name dname sname := fun x hx s hs => by
    cases x with
    | old d => cases hs
    | joined d s' =>
      obtain rfl := List.mem_singleton.mp hs
      exact (joined_name hx).symm
    | fresh s' =>
      obtain rfl := List.mem_singleton.mp hs
      rfl
  refine ⟨fun har nm => ?_, fun hai nm => ?_⟩
  · -- every slot has a source
    have hall : (arrange dname sname ai ar ds ss).map (Slot.name dname sname) =
        ((arrange dname sname ai ar ds ss).flatMap Slot.source).map sname := by
      rw [List.map_flatMap, List.map_eq_flatMap]
      refine List.flatMap_congr fun x hx => ?_
      cases x with
      | old d => exact absurd hx (not_old har d)
      | joined d s => rw [Slot.name, joined_name hx]; rfl
      | fresh s => rfl
    have hle := groups_sublist (fun key => ((keptOf ar (keyed dname ds) (keyed sname ss)).lookup key).isSome) ai
      (keyed sname ss) []
    rw [List.nil_append, keyed_snd] at hle
    rw [hall, (sources_perm.map sname).count_eq]
    exact (hle.map sname).count_le nm
  · -- every source has a slot
    subst hai
    have hflat := groups_flatten (fun key => ((keptOf ar (keyed dname ds) (keyed sname ss)).lookup key).isSome)
      (keyed sname ss) []
    rw [List.nil_append, keyed_snd] at hflat
    have hperm := sources_perm.trans (List.Perm.of_eq hflat)
    rw [← (hperm.map sname).count_eq]
    refine List.Sublist.count_le nm ?_
    generalize arrange dname sname true ar ds ss = out at hsame ⊢
    induction out with
    | nil => exact .slnil
    | cons x out ih =>
      rw [List.flatMap_cons, List.map_append, List.map_cons]
      have hrest := ih fun y hy => hsame y (List.mem_cons_of_mem x hy)
      cases x with
      | old d => exact hrest.cons _
      | joined d s =>
        have := hsame _ List.mem_cons_self s (List.mem_singleton_self s)
        simpa [Slot.source, this] using hrest
      | fresh s => simpa [Slot.source, Slot.name] using hrest

/-- **What is arranged stays as it is.** -/
theorem arrange_arranged (h : Arranged dname sname ai ar ds ss) : arrange dname sname ai ar ds ss =
    (keyed dname ds).map fun p =>
      match (keyed sname ss).lookup p.1 with
      | some s => .joined p.2 s
      | none => .old p.2 := by
  have hkept : keptOf ar (keyed dname ds) (keyed sname ss) = keyed dname ds := by
    rw [keptOf]
    split
    · rename_i har
      refine List.filter_eq_self.mpr fun p hp => ?_
      have hin := lookup_isSome.mpr (List.mem_map.mpr ⟨p, hp, rfl⟩)
      obtain ⟨⟨nm, j⟩, d⟩ := p
      rw [lookup_isSome_keyed] at hin ⊢
      exact Nat.lt_of_lt_of_le hin (h.1 har nm)
    · rfl
  have hgroups := groups_joined (fun key => ((keyed dname ds).lookup key).isSome) ai (keyed sname ss) fun hai p hp => by
    have hin := lookup_isSome.mpr (List.mem_map.mpr ⟨p, hp, rfl⟩)
    obtain ⟨⟨nm, j⟩, s⟩ := p
    rw [lookup_isSome_keyed] at hin ⊢
    exact Nat.lt_of_lt_of_le hin (h.2 hai nm)
  rw [arrange_groups, arrangeGroups, hkept, hgroups, List.map_nil, List.append_nil]
  refine Eq.trans (List.flatMap_congr fun p hp => ?_) List.map_eq_flatMap.symm
  -- the key of an element of the first list satisfies the filter
  have hin := lookup_isSome.mpr (List.mem_map.mpr ⟨p, hp, rfl⟩)
  have hfilter : ((keyed sname ss).filter fun q => ((keyed dname ds).lookup q.1).isSome).lookup p.1 =
      (keyed sname ss).lookup p.1 := by
    cases hl : (keyed sname ss).lookup p.1 with
    | some s =>
      refine lookup_of_mem ((keyed_nodup sname ss).sublist (List.filter_sublist.map _)) ?_
      exact List.mem_filter.mpr ⟨mem_of_lookup hl, hin⟩
    | none =>
      by_contra hne
      obtain ⟨s, hs⟩ := Option.ne_none_iff_exists'.mp hne
      have hmem := (List.mem_filter.mp (mem_of_lookup hs)).1
      rw [lookup_of_mem (keyed_nodup sname ss) hmem] at hl
      cases hl
  rw [slotsAt, lookup_map fun _ s => (([] : List σ), s), hfilter]
  cases (keyed sname ss).lookup p.1 <;> rfl

end Arrange

end VersatileEngine
