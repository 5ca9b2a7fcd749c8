import Mathlib.Data.List.TakeWhile
import VersatileEngine.Lib.Arrange

/-!
# VersatileEngine.Lib.Landing

Where the elements of the second list land when `arrange` leaves nothing out.

* `anchor`   — of an element of the second list: the place, in the first list, of the partner of the
  next element that has one, itself included; the end when there is none.
* `landed`   — the second list in the order of its places in the arrangement: each element exactly
  once (`landed_perm`), by anchor first and by its own order second (`landed_pairwise`).
* `landing`  — among the elements of one name, the number of those that go before.

`landed_landing` says that the `k`-th element of a name is found at number `landing k` among the
arranged elements of that name. Elements of a name that stands last keep their order
(`anchor_last_mono`).
-/

set_option linter.unusedSectionVars false

namespace VersatileEngine

section NextKey

variable {κ σ : Type}

/-- The first key, from here on, that satisfies `has`. -/
def nextKey (has : κ → Bool) (ks : List (κ × σ)) : Option κ :=
  (ks.find? fun p => has p.1).map Prod.fst

/-- Every element with the next key. -/
def tagged (has : κ → Bool) : List (κ × σ) → List (Option κ × κ × σ)
  | [] => []
  | p :: ks => (nextKey has (p :: ks), p) :: tagged has ks

@[simp] theorem tagged_snd (has : κ → Bool) (ks : List (κ × σ)) :
    (tagged has ks).map Prod.snd = ks := by
  induction ks with
  | nil => rfl
  | cons p ks ih => simp [tagged, ih]

/-- The groups of a list are its elements under their next key. -/
theorem groups_tagged (has : κ → Bool) (ks : List (κ × σ)) :
    ∀ pend, (groups has true pend (ks.map fun p => (p.1, p))).1.flatMap
        (fun g => (g.2.1.map fun q => (some g.1, q)) ++ [(some g.1, g.2.2)]) ++
          (groups has true pend (ks.map fun p => (p.1, p))).2.map (fun q => (none, q)) =
      pend.map (fun q => (nextKey has ks, q)) ++ tagged has ks := by
  induction ks with
  | nil => intro pend; simp [groups, tagged, nextKey]
  | cons p ks ih =>
    intro pend
    by_cases hp : has p.1 = true
    · have hnext : nextKey has (p :: ks) = some p.1 := by simp [nextKey, hp]
      have hrec := ih []
      simp only [List.map_nil, List.nil_append] at hrec
      simp only [List.map_cons, groups, hp, if_true, List.flatMap_cons, List.append_assoc,
        List.cons_append, List.nil_append, hrec, tagged, hnext]
    · have hnext : nextKey has (p :: ks) = nextKey has ks := by simp [nextKey, hp]
      simp only [List.map_cons, groups, hp, Bool.false_eq_true, if_false, if_true, ih, tagged, hnext,
        List.map_append, List.map_nil, List.append_assoc, List.singleton_append]

/-- What waits in a group has no key of its own. -/
theorem groups_pend (has : κ → Bool) (ks : List (κ × σ)) :
    ∀ pend, (∀ p ∈ pend, has p.1 = false) →
      (∀ g ∈ (groups has true pend (ks.map fun p => (p.1, p))).1, ∀ p ∈ g.2.1, has p.1 = false) ∧
        ∀ p ∈ (groups has true pend (ks.map fun p => (p.1, p))).2, has p.1 = false := by
  induction ks with
  | nil => intro pend h; simpa [groups] using h
  | cons q ks ih =>
    intro pend h
    by_cases hq : has q.1 = true
    · obtain ⟨h1, h2⟩ := ih [] (by simp)
      simp only [List.map_cons, groups, hq, if_true, List.forall_mem_cons]
      exact ⟨⟨h, h1⟩, h2⟩
    · simp only [List.map_cons, groups, hq, Bool.false_eq_true, if_false, if_true]
      refine ih (pend ++ [q]) fun p hp => ?_
      rcases List.mem_append.mp hp with hp | hp
      · exact h p hp
      · rw [List.mem_singleton.mp hp]
        simpa using hq

theorem groups_congr {τ : Type} {has has' : κ → Bool} {ks : List (κ × τ)}
    (h : ∀ p ∈ ks, has p.1 = has' p.1) : ∀ pend, groups has true pend ks = groups has' true pend ks := by
  induction ks with
  | nil => intro pend; rfl
  | cons p ks ih =>
    intro pend
    have ih' := ih fun q hq => h q (by simp [hq])
    simp only [groups, h p (by simp), ih']

variable [BEq κ] [LawfulBEq κ]

theorem tagged_mem {has : κ → Bool} {ks : List (κ × σ)} (hk : (ks.map Prod.fst).Nodup)
    {o : Option κ} {q : κ × σ} (h : (o, q) ∈ tagged has ks) :
    o = nextKey has (ks.dropWhile fun p => p.1 != q.1) := by
  induction ks with
  | nil => cases h
  | cons p ks ih =>
    simp only [List.map_cons, List.nodup_cons] at hk
    rcases List.mem_cons.mp h with he | hm
    · cases he
      simp
    · have hq : q ∈ ks := by
        rw [← tagged_snd has ks]
        exact List.mem_map.mpr ⟨(o, q), hm, rfl⟩
      have hne : p.1 ≠ q.1 := fun he => hk.1 (List.mem_map.mpr ⟨q, hq, he.symm⟩)
      rw [ih hk.2 hm, List.dropWhile_cons_of_pos (by simpa using hne)]

end NextKey

/-! ## The order of landing -/

section Landed

variable {δ σ κ : Type} [BEq κ] [LawfulBEq κ] (dname : δ → κ) (sname : σ → κ) (ds : List δ)
  (ss : List σ)

/-- Whether the first list has an element of that key. -/
def hasKey (key : κ × Nat) : Bool := ((keyed dname ds).lookup key).isSome

/-- The second list by key, cut behind each element with a partner. -/
def keyedGroups : List ((κ × Nat) × List ((κ × Nat) × σ) × (κ × Nat) × σ) × List ((κ × Nat) × σ) :=
  groups (hasKey dname ds) true [] ((keyed sname ss).map fun p => (p.1, p))

/-- The elements of the first list with a partner. -/
def partnered : List ((κ × Nat) × δ) := keptOf true (keyed dname ds) (keyed sname ss)

/-- The elements that land at an element of the first list. -/
def blockAt (key : κ × Nat) : List ((κ × Nat) × σ) :=
  match (keyedGroups dname sname ds ss).1.lookup key with
  | some (pend, s) => pend ++ [s]
  | none => []

/-- The second list, by key, in the order of its places in the arrangement. -/
def landed : List ((κ × Nat) × σ) :=
  ((partnered dname sname ds ss).map Prod.fst).flatMap (blockAt dname sname ds ss) ++
    (keyedGroups dname sname ds ss).2

/-- The slot of an element of the second list: joined with its partner, or alone. -/
def slotOf (q : (κ × Nat) × σ) : Slot δ σ :=
  match (keyed dname ds).lookup q.1 with
  | some d => .joined d q.2
  | none => .fresh q.2

theorem partnered_nodup : ((partnered dname sname ds ss).map Prod.fst).Nodup :=
  (keyed_nodup dname ds).sublist (List.filter_sublist.map _)

theorem keyedGroups_keys : (keyedGroups dname sname ds ss).1.map (fun g => (g.1, g.2.2)) =
    ((keyed sname ss).filter fun p => hasKey dname ds p.1).map fun p => (p.1, p) := by
  rw [keyedGroups, groups_keys, List.filter_map]
  rfl

theorem keyedGroups_fst : (keyedGroups dname sname ds ss).1.map Prod.fst =
    ((keyed sname ss).filter fun p => hasKey dname ds p.1).map Prod.fst := by
  have := congrArg (List.map Prod.fst) (keyedGroups_keys dname sname ds ss)
  simpa [List.map_map, Function.comp_def] using this

theorem keyedGroups_nodup : ((keyedGroups dname sname ds ss).1.map Prod.fst).Nodup := by
  rw [keyedGroups_fst]
  exact (keyed_nodup sname ss).sublist (List.filter_sublist.map _)

/-- The head of a group is the element of its key. -/
theorem keyedGroups_head {g : (κ × Nat) × List ((κ × Nat) × σ) × (κ × Nat) × σ}
    (h : g ∈ (keyedGroups dname sname ds ss).1) : g.2.2.1 = g.1 := by
  have hmem : (g.1, g.2.2) ∈ ((keyed sname ss).filter fun p => hasKey dname ds p.1).map fun p =>
      (p.1, p) := by
    rw [← keyedGroups_keys]
    exact List.mem_map.mpr ⟨g, h, rfl⟩
  obtain ⟨p, -, he⟩ := List.mem_map.mp hmem
  rw [← congrArg Prod.fst he, ← congrArg Prod.snd he]

/-- Exactly the elements with a partner have a group. -/
theorem keyedGroups_perm : ((partnered dname sname ds ss).map Prod.fst).Perm
    ((keyedGroups dname sname ds ss).1.map Prod.fst) := by
  refine (List.perm_ext_iff_of_nodup (partnered_nodup dname sname ds ss)
    (keyedGroups_nodup dname sname ds ss)).mpr fun key => ?_
  rw [keyedGroups_fst]
  constructor
  · intro h
    obtain ⟨p, hp, rfl⟩ := List.mem_map.mp h
    obtain ⟨hp, hs⟩ := List.mem_filter.mp hp
    obtain ⟨s, hs⟩ := Option.isSome_iff_exists.mp hs
    refine List.mem_map.mpr ⟨(p.1, s), List.mem_filter.mpr ⟨mem_of_lookup hs, ?_⟩, rfl⟩
    exact lookup_isSome.mpr (List.mem_map.mpr ⟨p, hp, rfl⟩)
  · intro h
    obtain ⟨p, hp, rfl⟩ := List.mem_map.mp h
    obtain ⟨hp, hd⟩ := List.mem_filter.mp hp
    obtain ⟨d, hd⟩ := Option.isSome_iff_exists.mp hd
    refine List.mem_map.mpr ⟨(p.1, d), List.mem_filter.mpr ⟨mem_of_lookup hd, ?_⟩, rfl⟩
    exact lookup_isSome.mpr (List.mem_map.mpr ⟨p, hp, rfl⟩)

theorem blockAt_of_mem {g : (κ × Nat) × List ((κ × Nat) × σ) × (κ × Nat) × σ}
    (h : g ∈ (keyedGroups dname sname ds ss).1) :
    blockAt dname sname ds ss g.1 = g.2.1 ++ [g.2.2] := by
  have hl : (keyedGroups dname sname ds ss).1.lookup g.1 = some g.2 :=
    lookup_of_mem (keyedGroups_nodup dname sname ds ss) h
  simp only [blockAt, hl]

theorem exists_group {p : (κ × Nat) × δ} (hp : p ∈ partnered dname sname ds ss) :
    ∃ g ∈ (keyedGroups dname sname ds ss).1, g.1 = p.1 := by
  have := (keyedGroups_perm dname sname ds ss).mem_iff.mp (List.mem_map.mpr ⟨p, hp, rfl⟩)
  exact List.mem_map.mp this

/-- **Every element of the second list lands exactly once.** -/
theorem landed_perm : (landed dname sname ds ss).Perm (keyed sname ss) := by
  have hflat := groups_flatten (hasKey dname ds) ((keyed sname ss).map fun p => (p.1, p)) []
  simp only [List.map_map, List.nil_append] at hflat
  refine (((keyedGroups_perm dname sname ds ss).flatMap_right _).append_right _).trans ?_
  rw [List.flatMap_map, List.flatMap_congr fun g hg => blockAt_of_mem dname sname ds ss hg]
  refine List.Perm.of_eq (hflat.trans ?_)
  exact List.map_id _

/-- **Where the elements with a partner come in one order in both lists, all land in their order.** -/
theorem landed_in_order (h : (partnered dname sname ds ss).map Prod.fst =
    ((keyed sname ss).filter fun p => hasKey dname ds p.1).map Prod.fst) :
    landed dname sname ds ss = keyed sname ss := by
  have hflat := groups_flatten (hasKey dname ds) ((keyed sname ss).map fun p => (p.1, p)) []
  simp only [List.map_map, List.nil_append] at hflat
  rw [landed, h, ← keyedGroups_fst, List.flatMap_map,
    List.flatMap_congr fun g hg => blockAt_of_mem dname sname ds ss hg]
  exact hflat.trans (List.map_id _)

/-- A key of the second list is one of the partnered elements where the first list has it. -/
theorem partnered_hasKey : ∀ p ∈ keyed sname ss,
    ((partnered dname sname ds ss).lookup p.1).isSome = hasKey dname ds p.1 := fun p hp => by
  rw [Bool.eq_iff_iff, lookup_isSome, hasKey, lookup_isSome]
  constructor
  · exact fun h => (List.filter_sublist.map _).subset h
  · intro h
    obtain ⟨d, hd, he⟩ := List.mem_map.mp h
    refine List.mem_map.mpr ⟨d, List.mem_filter.mpr ⟨hd, ?_⟩, he⟩
    rw [he]
    exact lookup_isSome.mpr (List.mem_map.mpr ⟨p, hp, rfl⟩)

/-- **The arrangement is the slots of the landed elements.** -/
theorem arrange_landed : arrange dname sname true true ds ss =
    (landed dname sname ds ss).map (slotOf dname ds) := by
  have hhas := partnered_hasKey dname sname ds ss
  have hgroups : groups (fun key => ((partnered dname sname ds ss).lookup key).isSome) true []
      (keyed sname ss) = ((keyedGroups dname sname ds ss).1.map fun q =>
        (q.1, q.2.1.map Prod.snd, q.2.2.2), (keyedGroups dname sname ds ss).2.map Prod.snd) := by
    have := groups_map (hasKey dname ds) true Prod.snd ((keyed sname ss).map fun p => (p.1, p)) []
    simp only [List.map_nil, List.map_map] at this
    rw [groups_congr hhas, keyedGroups, ← this]
    exact congrArg _ (List.map_id _).symm
  obtain ⟨hpend, hrest⟩ := groups_pend (hasKey dname ds) (keyed sname ss) [] (by simp)
  -- what has no partner is alone in its slot
  have halone : ∀ l : List ((κ × Nat) × σ), (∀ p ∈ l, hasKey dname ds p.1 = false) →
      l.map (slotOf dname ds) = (l.map Prod.snd).map .fresh := fun l hl => by
    rw [List.map_map]
    refine List.map_congr_left fun p hp => ?_
    have := hl p hp
    rw [hasKey, Option.isSome_eq_false_iff, Option.isNone_iff_eq_none] at this
    simp [slotOf, this]
  have hslots : ∀ p ∈ partnered dname sname ds ss,
      slotsAt ((keyedGroups dname sname ds ss).1.map fun q => (q.1, q.2.1.map Prod.snd, q.2.2.2)) p =
        (blockAt dname sname ds ss p.1).map (slotOf dname ds) := fun p hp => by
    obtain ⟨g, hg, he⟩ := exists_group dname sname ds ss hp
    have hl : (keyedGroups dname sname ds ss).1.lookup p.1 = some g.2 := by
      rw [← he]
      exact lookup_of_mem (keyedGroups_nodup dname sname ds ss) hg
    have hd : (keyed dname ds).lookup g.2.2.1 = some p.2 := by
      rw [keyedGroups_head dname sname ds ss hg, he]
      exact lookup_of_mem (keyed_nodup dname ds) (List.mem_filter.mp hp).1
    rw [slotsAt, lookup_map (fun _ (q : List ((κ × Nat) × σ) × (κ × Nat) × σ) =>
      (q.1.map Prod.snd, q.2.2)), hl]
    simp only [Option.map_some, ← he, blockAt_of_mem dname sname ds ss hg, List.map_append,
      halone _ (hpend g hg), List.map_cons, List.map_nil, slotOf, hd]
  have hdef : arrange dname sname true true ds ss = (partnered dname sname ds ss).flatMap
      (slotsAt (groups (fun key => ((partnered dname sname ds ss).lookup key).isSome) true []
        (keyed sname ss)).1) ++ (groups (fun key =>
          ((partnered dname sname ds ss).lookup key).isSome) true [] (keyed sname ss)).2.map .fresh :=
    rfl
  have hlast : (keyedGroups dname sname ds ss).2.map (slotOf dname ds) =
      ((keyedGroups dname sname ds ss).2.map Prod.snd).map .fresh := halone _ hrest
  rw [hdef, hgroups, landed, List.map_append, List.map_flatMap, List.flatMap_map,
    List.flatMap_congr hslots, hlast]

/-- Where an element of the second list goes: the place of its anchor in the first list. -/
def anchor (key : κ × Nat) : Nat :=
  match nextKey (hasKey dname ds) ((keyed sname ss).dropWhile fun p => p.1 != key) with
  | some k => ((keyed dname ds).map Prod.fst).idxOf k
  | none => ds.length

/-- Among elements of one name: the first goes before the second. -/
def goesBefore (a b : κ × Nat) : Prop :=
  anchor dname sname ds ss a < anchor dname sname ds ss b ∨
    anchor dname sname ds ss a = anchor dname sname ds ss b ∧ a.2 < b.2

instance (a b : κ × Nat) : Decidable (goesBefore dname sname ds ss a b) :=
  inferInstanceAs (Decidable (_ ∨ _))

/-- How many elements of the name go before the `k`-th. -/
def landing (nm : κ) (k : Nat) : Nat :=
  (List.range ((ss.map sname).count nm)).countP fun j =>
    goesBefore dname sname ds ss (nm, j) (nm, k)

/-- Elements of one name stand in the order of their numbers. -/
theorem keyedFrom_pairwise (name : σ → κ) (l : List σ) : ∀ seen,
    (keyedFrom name seen l).Pairwise fun p q => p.1.1 = q.1.1 → p.1.2 < q.1.2 := by
  induction l with
  | nil => intro seen; exact .nil
  | cons a l ih =>
    intro seen
    refine List.pairwise_cons.mpr ⟨fun q hq hn => ?_, ih _⟩
    have hcount := (mem_keyedFrom (show (q.1, q.2) ∈ keyedFrom name (name a :: seen) l from hq)).2.1
    simp only at hn
    rw [← hn, List.count_cons_self] at hcount
    exact hcount

theorem idxOf_pairwise {α : Type} [BEq α] [LawfulBEq α] {l : List α} (h : l.Nodup) :
    l.Pairwise fun a b => l.idxOf a < l.idxOf b := by
  rw [List.pairwise_iff_getElem]
  intro i j hi hj hij
  rw [h.idxOf_getElem, h.idxOf_getElem]
  exact hij

/-- The anchor of what lands in a group is the head of the group. -/
theorem anchor_group {g : (κ × Nat) × List ((κ × Nat) × σ) × (κ × Nat) × σ} {q : (κ × Nat) × σ}
    (hg : g ∈ (keyedGroups dname sname ds ss).1) (hq : q ∈ g.2.1 ++ [g.2.2]) :
    anchor dname sname ds ss q.1 = ((keyed dname ds).map Prod.fst).idxOf g.1 := by
  have htag := groups_tagged (hasKey dname ds) (keyed sname ss) []
  simp only [List.map_nil, List.nil_append] at htag
  have hmem : (some g.1, q) ∈ tagged (hasKey dname ds) (keyed sname ss) := by
    rw [← htag]
    refine List.mem_append_left _ (List.mem_flatMap.mpr ⟨g, hg, ?_⟩)
    simpa using hq
  rw [anchor, ← tagged_mem (keyed_nodup sname ss) hmem]

theorem anchor_rest {q : (κ × Nat) × σ} (hq : q ∈ (keyedGroups dname sname ds ss).2) :
    anchor dname sname ds ss q.1 = ds.length := by
  have htag := groups_tagged (hasKey dname ds) (keyed sname ss) []
  simp only [List.map_nil, List.nil_append] at htag
  have hmem : (none, q) ∈ tagged (hasKey dname ds) (keyed sname ss) := by
    rw [← htag]
    exact List.mem_append_right _ (List.mem_map.mpr ⟨q, hq, rfl⟩)
  rw [anchor, ← tagged_mem (keyed_nodup sname ss) hmem]

/-- **By anchor first, by the own order second.** -/
theorem landed_pairwise : (landed dname sname ds ss).Pairwise fun p q =>
    p.1.1 = q.1.1 → goesBefore dname sname ds ss p.1 q.1 := by
  have hflat := groups_flatten (hasKey dname ds) ((keyed sname ss).map fun p => (p.1, p)) []
  simp only [List.map_map, List.nil_append] at hflat
  have hown := keyedFrom_pairwise sname ss []
  rw [show keyedFrom sname [] ss = (keyed sname ss).map (Prod.snd ∘ fun p => (p.1, p)) from
    (List.map_id _).symm, ← hflat, List.pairwise_append, List.pairwise_flatMap] at hown
  obtain ⟨⟨hblock, -⟩, hrest, -⟩ := hown
  rw [landed, List.pairwise_append, List.pairwise_flatMap]
  -- the elements of the first list with a partner stand in its order
  have hkeys : ((partnered dname sname ds ss).map Prod.fst).Pairwise fun a b =>
      ((keyed dname ds).map Prod.fst).idxOf a < ((keyed dname ds).map Prod.fst).idxOf b :=
    (idxOf_pairwise (keyed_nodup dname ds)).sublist (List.filter_sublist.map _)
  have hat : ∀ key ∈ (partnered dname sname ds ss).map Prod.fst,
      ∃ g ∈ (keyedGroups dname sname ds ss).1, g.1 = key ∧
        blockAt dname sname ds ss key = g.2.1 ++ [g.2.2] := fun key hkey => by
    obtain ⟨p, hp, rfl⟩ := List.mem_map.mp hkey
    obtain ⟨g, hg, he⟩ := exists_group dname sname ds ss hp
    exact ⟨g, hg, he, he ▸ blockAt_of_mem dname sname ds ss hg⟩
  have hanchor : ∀ key ∈ (partnered dname sname ds ss).map Prod.fst,
      ∀ q ∈ blockAt dname sname ds ss key,
        anchor dname sname ds ss q.1 = ((keyed dname ds).map Prod.fst).idxOf key := by
    intro key hkey q hq
    obtain ⟨g, hg, rfl, hb⟩ := hat key hkey
    exact anchor_group dname sname ds ss hg (hb ▸ hq)
  refine ⟨⟨fun key hkey => ?_, ?_⟩, ?_, ?_⟩
  · obtain ⟨g, hg, rfl, hb⟩ := hat key hkey
    rw [hb]
    refine (hblock g hg).imp_of_mem fun {p q} hp hq hlt hn => .inr ⟨?_, hlt hn⟩
    rw [anchor_group dname sname ds ss hg hp, anchor_group dname sname ds ss hg hq]
  · refine hkeys.imp_of_mem fun {a b} ha hb hlt p hp q hq _ => .inl ?_
    rw [hanchor a ha p hp, hanchor b hb q hq]
    exact hlt
  · refine hrest.imp_of_mem fun {p q} hp hq hlt hn => .inr ⟨?_, hlt hn⟩
    rw [anchor_rest dname sname ds ss hp, anchor_rest dname sname ds ss hq]
  · intro p hp q hq _
    obtain ⟨key, hkey, hp⟩ := List.mem_flatMap.mp hp
    refine .inl ?_
    rw [hanchor key hkey p hp, anchor_rest dname sname ds ss hq]
    have hlen : (keyed dname ds).length = ds.length := by
      rw [← List.length_map (f := Prod.snd), keyed_snd]
    rw [← hlen, ← List.length_map (f := Prod.fst)]
    exact List.idxOf_lt_length_iff.mpr ((List.filter_sublist.map _).subset hkey)

/-- The keys of the elements of one name. -/
theorem keyedFrom_named (name : σ → κ) (nm : κ) (l : List σ) : ∀ seen,
    ((keyedFrom name seen l).filter fun q => q.1.1 == nm).map Prod.fst =
      (List.range' (seen.count nm) ((l.map name).count nm)).map fun j => (nm, j) := by
  induction l with
  | nil => intro seen; rfl
  | cons a l ih =>
    intro seen
    by_cases hn : name a = nm
    · subst hn
      simp only [keyedFrom, BEq.rfl, List.filter_cons_of_pos, List.map_cons, ih,
        List.count_cons_self, List.range'_succ]
    · have hb : (name a == nm) = false := by simpa using hn
      simp only [keyedFrom, hb, Bool.false_eq_true, not_false_eq_true, List.filter_cons_of_neg,
        List.map_cons, ih, List.count_cons_of_ne hn]

/-- In a list ordered by `R` an element has its place number of elements before it. -/
theorem countP_pairwise {α : Type} {R : α → α → Prop} [DecidableRel R]
    (hasymm : ∀ a b, R a b → ¬ R b a) {l : List α} (h : l.Pairwise R) {q : α} {i : Nat}
    (hi : l[i]? = some q) : l.countP (fun p => R p q) = i := by
  induction l generalizing i with
  | nil => cases hi
  | cons a l ih =>
    obtain ⟨ha, hl⟩ := List.pairwise_cons.mp h
    cases i with
    | zero =>
      have hq : a = q := by simpa using hi
      subst hq
      refine List.countP_eq_zero.mpr fun b hb => ?_
      rcases List.mem_cons.mp hb with rfl | hb
      · simpa using fun hr => hasymm b b hr hr
      · simpa using hasymm a b (ha b hb)
    | succ i =>
      have hi' : l[i]? = some q := by simpa using hi
      rw [List.countP_cons_of_pos (by simpa using ha q (List.mem_of_getElem? hi')), ih hl hi']

/-- **The `k`-th element of a name lands at number `landing k` of that name.** -/
theorem landed_landing {nm : κ} {k : Nat} {s : σ} (hq : ((nm, k), s) ∈ keyed sname ss) :
    ((landed dname sname ds ss).filter fun q => q.1.1 == nm)[landing dname sname ds ss nm k]? =
      some ((nm, k), s) := by
  let R : (κ × Nat) × σ → (κ × Nat) × σ → Prop := fun p q => goesBefore dname sname ds ss p.1 q.1
  let hdec : DecidableRel R := fun p q =>
    inferInstanceAs (Decidable (goesBefore dname sname ds ss p.1 q.1))
  have hasymm : ∀ p q, R p q → ¬ R q p := fun p q h => by
    simp only [R, goesBefore] at h ⊢
    omega
  have hpair : ((landed dname sname ds ss).filter fun q => q.1.1 == nm).Pairwise R := by
    refine ((landed_pairwise dname sname ds ss).sublist List.filter_sublist).imp_of_mem
      fun {p q} hp hq h => h ?_
    have hp' : p.1.1 = nm := by simpa using (List.mem_filter.mp hp).2
    have hq' : q.1.1 = nm := by simpa using (List.mem_filter.mp hq).2
    rw [hp', hq']
  have hmem : ((nm, k), s) ∈ (landed dname sname ds ss).filter fun q => q.1.1 == nm :=
    List.mem_filter.mpr ⟨(landed_perm dname sname ds ss).mem_iff.mpr hq, by simp⟩
  obtain ⟨i, hi⟩ := List.getElem?_of_mem hmem
  have hcount := countP_pairwise hasymm hpair hi
  have hkeys : ((keyed sname ss).filter fun q => q.1.1 == nm).map Prod.fst =
      (List.range ((ss.map sname).count nm)).map fun j => (nm, j) := by
    rw [keyed, keyedFrom_named, List.count_nil, List.range_eq_range']
  rw [((landed_perm dname sname ds ss).filter _).countP_eq] at hcount
  have hrank : ((keyed sname ss).filter fun q => q.1.1 == nm).countP (fun p => R p ((nm, k), s)) =
      landing dname sname ds ss nm k := by
    have := congrArg (List.countP fun key => goesBefore dname sname ds ss key (nm, k)) hkeys
    rw [List.countP_map, List.countP_map] at this
    exact this
  rw [← hrank, hcount]
  exact hi

/-- Anchors that do not cross leave the `k`-th element of a name at number `k`. -/
theorem landing_uncrossed {nm : κ} {k : Nat} (hk : k < (ss.map sname).count nm)
    (h : ∀ j, j < k → anchor dname sname ds ss (nm, j) ≤ anchor dname sname ds ss (nm, k))
    (h' : ∀ j, k < j → j < (ss.map sname).count nm →
      anchor dname sname ds ss (nm, k) ≤ anchor dname sname ds ss (nm, j)) :
    landing dname sname ds ss nm k = k := by
  rw [landing]
  have hsplit : List.range ((ss.map sname).count nm) = List.range k ++
      List.range' k ((ss.map sname).count nm - k) := by
    have := List.range'_append_1 (s := 0) (m := k) (n := (ss.map sname).count nm - k)
    rw [Nat.zero_add, Nat.add_sub_cancel' (Nat.le_of_lt hk)] at this
    rw [List.range_eq_range', List.range_eq_range', this]
  have hbefore : (List.range k).countP (fun j =>
      goesBefore dname sname ds ss (nm, j) (nm, k)) = k := by
    rw [List.countP_eq_length.mpr, List.length_range]
    intro j hj
    have hjk := List.mem_range.mp hj
    refine decide_eq_true ?_
    rcases Nat.lt_or_eq_of_le (h j hjk) with hlt | heq
    · exact .inl hlt
    · exact .inr ⟨heq, hjk⟩
  have hafter : (List.range' k ((ss.map sname).count nm - k)).countP (fun j =>
      goesBefore dname sname ds ss (nm, j) (nm, k)) = 0 := by
    refine List.countP_eq_zero.mpr fun j hj => ?_
    obtain ⟨hkj, hjn⟩ := List.mem_range'_1.mp hj
    rw [decide_eq_true_eq]
    rintro (hlt | ⟨-, hlt⟩)
    · rcases Nat.lt_or_eq_of_le hkj with hkj | rfl
      · exact Nat.not_lt.mpr (h' j hkj (by omega)) hlt
      · exact Nat.lt_irrefl _ hlt
    · exact Nat.not_lt.mpr hkj hlt
  rw [hsplit, List.countP_append, hbefore, hafter, Nat.add_zero]

/-- As many elements of a name land as there are. -/
theorem landed_named_length (nm : κ) :
    ((landed dname sname ds ss).filter fun q => q.1.1 == nm).length = (ss.map sname).count nm := by
  have hkeys := keyedFrom_named sname nm ss []
  have := congrArg List.length hkeys
  simp only [List.length_map, List.length_range'] at this
  rw [((landed_perm dname sname ds ss).filter _).length_eq]
  exact this

/-- Into an empty list everything lands in its own order. -/
theorem landed_nil : landed dname sname [] ss = keyed sname ss := by
  have hgroups := groups_none (hasKey dname []) ((keyed sname ss).map fun p => (p.1, p))
    (fun _ _ => rfl) []
  have hpart : partnered dname sname [] ss = [] := rfl
  rw [landed, keyedGroups, hgroups, hpart, List.nil_append, List.map_map]
  exact List.map_id _

/-! ## A name that stands last -/

theorem anchor_le (key : κ × Nat) : anchor dname sname ds ss key ≤ ds.length := by
  rw [anchor]
  split
  · refine Nat.le_trans List.idxOf_le_length (Nat.le_of_eq ?_)
    rw [List.length_map, ← List.length_map (f := Prod.snd), keyed_snd]
  · exact Nat.le_refl _

/-- An element of the second list with everything behind it. -/
theorem keyed_dropWhile {nm : κ} {k : Nat} (hk : k < (ss.map sname).count nm) :
    ∃ (s : σ) (rest : List ((κ × Nat) × σ)),
      ((keyed sname ss).dropWhile fun p => p.1 != (nm, k)) = ((nm, k), s) :: rest := by
  obtain ⟨s, hs⟩ := Option.isSome_iff_exists.mp ((lookup_isSome_keyed sname ss nm k).mpr hk)
  cases hd : (keyed sname ss).dropWhile fun p => p.1 != (nm, k) with
  | nil =>
    have hall := List.dropWhile_eq_nil_iff.mp hd _ (mem_of_lookup hs)
    simp at hall
  | cons q rest =>
    have hhead := List.head?_dropWhile_not (fun p => p.1 != (nm, k)) (keyed sname ss)
    rw [hd] at hhead
    have hq : q.1 = (nm, k) := by simpa using hhead
    exact ⟨q.2, rest, by rw [← hq]⟩

/-- An element with a partner is its own anchor. -/
theorem anchor_own {nm : κ} {k : Nat} (hk : k < (ss.map sname).count nm)
    (hd : hasKey dname ds (nm, k) = true) :
    anchor dname sname ds ss (nm, k) = ((keyed dname ds).map Prod.fst).idxOf (nm, k) := by
  obtain ⟨s, rest, hdrop⟩ := keyed_dropWhile sname ss hk
  rw [anchor, hdrop]
  simp [nextKey, hd]

theorem idxOf_keyed_lt {nm : κ} {j k : Nat} (hjk : j < k) (hk : hasKey dname ds (nm, k) = true) :
    ((keyed dname ds).map Prod.fst).idxOf (nm, j) <
      ((keyed dname ds).map Prod.fst).idxOf (nm, k) := by
  have hmem : ∀ i, i ≤ k → (nm, i) ∈ (keyed dname ds).map Prod.fst := fun i hi => by
    rw [hasKey, lookup_isSome_keyed] at hk
    rw [← lookup_isSome, lookup_isSome_keyed]
    omega
  have hj := List.idxOf_lt_length_iff.mpr (hmem j (by omega))
  have hk' := List.idxOf_lt_length_iff.mpr (hmem k (Nat.le_refl _))
  refine Nat.lt_of_not_le fun hle => ?_
  have hpair : ((keyed dname ds).map Prod.fst).Pairwise fun p q => p.1 = q.1 → p.2 < q.2 :=
    List.pairwise_map.mpr (keyedFrom_pairwise dname ds [])
  rcases Nat.lt_or_eq_of_le hle with hlt | heq
  · have hlt' := List.pairwise_iff_getElem.mp hpair _ _ hk' hj hlt
    rw [List.getElem_idxOf, List.getElem_idxOf] at hlt'
    exact Nat.lt_asymm hjk (hlt' rfl)
  · have h1 := List.getElem_idxOf hk'
    simp only [heq, List.getElem_idxOf hj, Prod.mk.injEq, true_and] at h1
    omega

variable {dname sname ds ss}

theorem keyed_names : (keyed sname ss).map (fun p => p.1.1) = ss.map sname := by
  have hname : (keyed sname ss).map (fun p => p.1.1) = (keyed sname ss).map (sname ∘ Prod.snd) :=
    List.map_congr_left fun p hp => (mem_keyedFrom hp).1.symm
  rw [hname, ← List.map_map, keyed_snd]

/-- Behind an element of the last name there are only later elements of that name. -/
theorem keyed_dropWhile_last {nm : κ} (hlast : ss.Pairwise fun a b => sname a = nm → sname b = nm)
    {k : Nat} (hk : k < (ss.map sname).count nm) {p : (κ × Nat) × σ}
    (hp : p ∈ (keyed sname ss).dropWhile fun p => p.1 != (nm, k)) : p.1.1 = nm ∧ k ≤ p.1.2 := by
  obtain ⟨s, rest, hdrop⟩ := keyed_dropWhile sname ss hk
  have hnames : (keyed sname ss).Pairwise fun p q => p.1.1 = nm → q.1.1 = nm := by
    have hmap : (ss.map sname).Pairwise fun a b => a = nm → b = nm := List.pairwise_map.mpr hlast
    rw [← keyed_names] at hmap
    exact List.pairwise_map.mp hmap
  have hsub := List.dropWhile_sublist (l := keyed sname ss) fun p => p.1 != (nm, k)
  have h1 := hnames.sublist hsub
  have h2 := (keyedFrom_pairwise sname ss []).sublist hsub
  rw [hdrop, List.pairwise_cons] at h1 h2
  rw [hdrop] at hp
  rcases List.mem_cons.mp hp with rfl | hp
  · exact ⟨rfl, Nat.le_refl _⟩
  · have hn := h1.1 p hp rfl
    exact ⟨hn, Nat.le_of_lt (h2.1 p hp hn.symm)⟩

/-- Without a partner, such an element goes to the end. -/
theorem anchor_last {nm : κ} (hlast : ss.Pairwise fun a b => sname a = nm → sname b = nm) {k : Nat}
    (hk : k < (ss.map sname).count nm) (hd : hasKey dname ds (nm, k) = false) :
    anchor dname sname ds ss (nm, k) = ds.length := by
  have hnone : nextKey (hasKey dname ds) ((keyed sname ss).dropWhile fun p => p.1 != (nm, k)) =
      none := by
    rw [nextKey, Option.map_eq_none_iff, List.find?_eq_none]
    intro p hp hkey
    obtain ⟨hn, hle⟩ := keyed_dropWhile_last hlast hk hp
    rw [← Bool.not_eq_true, hasKey, lookup_isSome_keyed] at hd
    obtain ⟨⟨nm', i⟩, x⟩ := p
    simp only at hn hle hkey
    rw [hn, hasKey, lookup_isSome_keyed] at hkey
    omega
  rw [anchor, hnone]

/-- **The elements of the last name keep their order.** -/
theorem anchor_last_mono {nm : κ} (hlast : ss.Pairwise fun a b => sname a = nm → sname b = nm)
    {j k : Nat} (hjk : j < k) (hk : k < (ss.map sname).count nm) :
    anchor dname sname ds ss (nm, j) ≤ anchor dname sname ds ss (nm, k) := by
  by_cases hd : hasKey dname ds (nm, k) = true
  · have hdj : hasKey dname ds (nm, j) = true := by
      rw [hasKey, lookup_isSome_keyed] at hd ⊢
      omega
    rw [anchor_own dname sname ds ss hk hd, anchor_own dname sname ds ss (by omega) hdj]
    exact Nat.le_of_lt (idxOf_keyed_lt dname ds hjk hd)
  · rw [anchor_last hlast hk (Bool.eq_false_iff.mpr hd)]
    exact anchor_le dname sname ds ss _

end Landed

end VersatileEngine
