import VersatileEngine.Lib.Landing

/-!
# VersatileEngine.Lib.Merging

What the arrangement of two lists has of each name when the elements of the first one stay.

* `arrange_not_old`   — without the elements that have no partner it is the arrangement that leaves them out.
* `arrange_not_fresh` — without the elements that are new it is the first list, in order.
* `Orderly`           — a name occurs once, or only that name follows it.
* `arrange_named`     — **the elements of an orderly name keep their numbers**: the `k`-th of the first list is
  joined with the `k`-th of the second.
-/

set_option linter.unusedSectionVars false

namespace VersatileEngine

namespace Slot

variable {δ σ κ : Type}

def isOld : Slot δ σ → Bool
  | old _ => true
  | _ => false

def isFresh : Slot δ σ → Bool
  | fresh _ => true
  | _ => false

/-- The name of a slot; the two elements of a joined one have the same. -/
def name (dname : δ → κ) (sname : σ → κ) : Slot δ σ → κ
  | old d => dname d
  | joined d _ => dname d
  | fresh s => sname s

/-- The slot of what there is of a key in each list. -/
def both : Option δ → Option σ → Option (Slot δ σ)
  | some d, some s => some (joined d s)
  | some d, none => some (old d)
  | none, some s => some (fresh s)
  | none, none => none

end Slot

section Merging

variable {δ σ κ : Type} [BEq κ] [LawfulBEq κ]

/-- The group of a key ends with the element of the key. -/
theorem groups_lookup {has : κ → Bool} {key : κ} (hkey : has key = true) (ai : Bool) (ks : List (κ × σ)) :
    ∀ pend, ((groups has ai pend ks).1.lookup key).map Prod.snd = ks.lookup key := by
  induction ks with
  | nil => exact fun pend => rfl
  | cons p ks ih =>
    intro pend
    obtain ⟨k, s⟩ := p
    rw [groups]
    split_ifs with hk
    · rw [List.lookup_cons, List.lookup_cons]
      cases key == k with
      | true => rfl
      | false => exact ih []
    all_goals
      have hne : (key == k) = false := by
        rw [beq_eq_false_iff_ne]
        rintro rfl
        exact hk hkey
      rw [List.lookup_cons, hne]
      exact ih _

theorem flatMap_filter {α τ : Type} {q : α → Bool} {f g : α → List τ} (l : List α)
    (h : ∀ a ∈ l, g a = if q a then f a else []) : (l.filter q).flatMap f = l.flatMap g := by
  induction l with
  | nil => rfl
  | cons a l ih =>
    rw [List.forall_mem_cons] at h
    rw [List.flatMap_cons, h.1, ← ih h.2]
    by_cases hq : q a = true
    · rw [if_pos hq, List.filter_cons_of_pos hq, List.flatMap_cons]
    · rw [if_neg hq, List.filter_cons_of_neg hq, List.nil_append]

variable (dname : δ → κ) (sname : σ → κ) (ds : List δ) (ss : List σ)

/-- The groups of the second list at the keys of the first. -/
def mergedGroups : List ((κ × Nat) × List σ × σ) × List σ := groups (hasKey dname ds) true [] (keyed sname ss)

theorem arrange_merged : arrange dname sname true false ds ss =
    (keyed dname ds).flatMap (slotsAt (mergedGroups dname sname ds ss).1) ++
      (mergedGroups dname sname ds ss).2.map .fresh := rfl

/-- The slots at an element of the first list: what is inserted in front of it, and its own. -/
theorem slotsAt_merged {p : (κ × Nat) × δ} (hp : p ∈ keyed dname ds) : ∃ pend : List σ,
    (((keyed sname ss).lookup p.1 = none ∧ slotsAt (mergedGroups dname sname ds ss).1 p = [.old p.2]) ∨
      ∃ s, (keyed sname ss).lookup p.1 = some s ∧
        slotsAt (mergedGroups dname sname ds ss).1 p = pend.map .fresh ++ [.joined p.2 s]) := by
  have hkey : hasKey dname ds p.1 = true := by
    rw [hasKey, lookup_isSome]
    exact List.mem_map_of_mem hp
  have hlook := groups_lookup hkey true (keyed sname ss) []
  rw [slotsAt, mergedGroups]
  cases hg : (groups (hasKey dname ds) true [] (keyed sname ss)).1.lookup p.1 with
  | none =>
    rw [hg] at hlook
    exact ⟨[], .inl ⟨hlook.symm, rfl⟩⟩
  | some g =>
    rw [hg] at hlook
    exact ⟨g.1, .inr ⟨g.2, hlook.symm, rfl⟩⟩

/-- **Without the old elements** that have no partner. -/
theorem arrange_not_old : (arrange dname sname true false ds ss).filter (fun x => !x.isOld) =
    arrange dname sname true true ds ss := by
  have hhas : ∀ p ∈ keyed sname ss,
      ((partnered dname sname ds ss).lookup p.1).isSome = hasKey dname ds p.1 := partnered_hasKey dname sname ds ss
  have hgroups : groups (fun key => ((partnered dname sname ds ss).lookup key).isSome) true []
      (keyed sname ss) = mergedGroups dname sname ds ss := groups_congr hhas []
  have hdef : arrange dname sname true true ds ss =
      (partnered dname sname ds ss).flatMap (slotsAt (mergedGroups dname sname ds ss).1) ++
        (mergedGroups dname sname ds ss).2.map .fresh := by
    rw [← hgroups]
    rfl
  have hfresh : ∀ l : List σ, (l.map (Slot.fresh (δ := δ))).filter (fun x => !x.isOld) = l.map .fresh :=
    fun l => List.filter_eq_self.mpr (List.forall_mem_map.mpr fun _ _ => rfl)
  rw [hdef, arrange_merged, List.filter_append, List.filter_flatMap, hfresh]
  refine congrArg (· ++ _) (flatMap_filter _ fun p hp => ?_).symm
  obtain ⟨pend, ⟨hnone, hslots⟩ | ⟨s, hsome, hslots⟩⟩ := slotsAt_merged dname sname ds ss hp
  · rw [hslots, hnone]
    rfl
  · rw [hslots, hsome, List.filter_append, hfresh]
    rfl

/-- The slot of an element of the first list: joined with its partner, or alone. -/
def ownSlot (p : (κ × Nat) × δ) : Slot δ σ :=
  match (keyed sname ss).lookup p.1 with
  | some s => .joined p.2 s
  | none => .old p.2

/-- **Without the new elements** it is the first list, each element with its partner. -/
theorem arrange_not_fresh : (arrange dname sname true false ds ss).filter (fun x => !x.isFresh) =
    (keyed dname ds).map (ownSlot sname ss) := by
  have hfresh : ∀ l : List σ, (l.map (Slot.fresh (δ := δ))).filter (fun x => !x.isFresh) = [] :=
    fun l => List.filter_eq_nil_iff.mpr (List.forall_mem_map.mpr fun _ _ => by simp [Slot.isFresh])
  rw [arrange_merged, List.filter_append, List.filter_flatMap, hfresh, List.append_nil, List.map_eq_flatMap]
  refine List.flatMap_congr fun p hp => ?_
  obtain ⟨pend, ⟨hnone, hslots⟩ | ⟨s, hsome, hslots⟩⟩ := slotsAt_merged dname sname ds ss hp
  · rw [hslots, ownSlot, hnone]
    rfl
  · rw [hslots, ownSlot, hsome, List.filter_append, hfresh]
    rfl

/-- A new element has no partner. -/
theorem mem_arrange_fresh {s : σ} (h : .fresh s ∈ arrange dname sname true false ds ss) :
    ∃ key, (key, s) ∈ keyed sname ss ∧ (keyed dname ds).lookup key = none := by
  have hmem : .fresh s ∈ (arrange dname sname true false ds ss).filter (fun x => !x.isOld) :=
    List.mem_filter.mpr ⟨h, rfl⟩
  rw [arrange_not_old, arrange_landed] at hmem
  obtain ⟨q, hq, hslot⟩ := List.mem_map.mp hmem
  have hq := (landed_perm dname sname ds ss).mem_iff.mp hq
  rw [slotOf] at hslot
  cases hd : (keyed dname ds).lookup q.1 with
  | none =>
    rw [hd] at hslot
    obtain rfl := Slot.fresh.inj hslot
    exact ⟨q.1, hq, hd⟩
  | some d =>
    rw [hd] at hslot
    cases hslot

/-- A name occurs at most once, or only that name follows it. -/
def Orderly (nm : κ) : Prop := (ss.map sname).count nm ≤ 1 ∨ ss.Pairwise fun a b => sname a = nm → sname b = nm

theorem landing_orderly {nm : κ} (h : Orderly sname ss nm) {k : Nat} (hk : k < (ss.map sname).count nm) :
    landing dname sname ds ss nm k = k := by
  rcases h with hone | hlast
  · refine landing_uncrossed dname sname ds ss hk (fun j hj => ?_) fun j hj hlt => ?_
    all_goals omega
  · exact landing_uncrossed dname sname ds ss hk (fun j hj => anchor_last_mono hlast hj hk)
      fun j hj hlt => anchor_last_mono hlast hj hlt

/-- The `k`-th element of a name, with its key. -/
theorem keyed_filter_get (nm : κ) (k : Nat) : ((keyed dname ds).filter fun p => p.1.1 == nm)[k]? =
    ((keyed dname ds).lookup (nm, k)).map fun d => ((nm, k), d) := by
  have hkeys := keyedFrom_named dname nm ds []
  have hfst := congrArg (·[k]?) hkeys
  rw [List.count_nil] at hfst
  simp only [List.getElem?_map] at hfst
  change (((keyed dname ds).filter fun p => p.1.1 == nm)[k]?).map Prod.fst = _ at hfst
  cases hget : ((keyed dname ds).filter fun p => p.1.1 == nm)[k]? with
  | none =>
    have hout : (keyed dname ds).lookup (nm, k) = none := by
      have hlen := congrArg List.length hkeys
      rw [List.length_map, List.length_map, List.length_range'] at hlen
      have hk := List.getElem?_eq_none_iff.mp hget
      rw [← Option.not_isSome_iff_eq_none, lookup_isSome_keyed]
      change ((keyed dname ds).filter fun p => p.1.1 == nm).length = _ at hlen
      omega
    rw [hout, Option.map_none]
  | some p =>
    rw [hget] at hfst
    obtain ⟨j, hj, hkey⟩ := Option.map_eq_some_iff.mp hfst.symm
    have hjk : j = k := by
      obtain ⟨hlt, hrange⟩ := List.getElem?_eq_some_iff.mp hj
      rw [List.getElem_range'] at hrange
      omega
    subst hjk
    obtain ⟨key, d⟩ := p
    have hkey : (nm, j) = key := hkey
    subst hkey
    have hmem := (List.mem_filter.mp (List.mem_of_getElem? hget)).1
    rw [lookup_of_mem (keyed_nodup dname ds) hmem, Option.map_some]

/-- **The elements of an orderly name keep their numbers.** -/
theorem arrange_named {nm : κ} (h : Orderly sname ss nm) (k : Nat) :
    ((arrange dname sname true false ds ss).filter fun x => x.name dname sname == nm)[k]? =
      Slot.both ((keyed dname ds).lookup (nm, k)) ((keyed sname ss).lookup (nm, k)) := by
  by_cases hcount : (ss.map sname).count nm ≤ (ds.map dname).count nm
  · -- no element of the name is new
    have hnone : (arrange dname sname true false ds ss).filter (fun x => x.name dname sname == nm) =
        ((arrange dname sname true false ds ss).filter fun x => !x.isFresh).filter
          fun x => x.name dname sname == nm := by
      rw [List.filter_filter]
      refine List.filter_congr fun x hx => ?_
      cases x with
      | fresh s =>
        obtain ⟨⟨nm', j⟩, hs, hd⟩ := mem_arrange_fresh dname sname ds ss hx
        obtain ⟨hname, -, -⟩ := mem_keyedFrom hs
        rw [Slot.isFresh, Bool.not_true, Bool.and_false, Slot.name, hname, beq_eq_false_iff_ne]
        rintro rfl
        have hin := lookup_isSome.mpr (List.mem_map_of_mem (f := Prod.fst) hs)
        rw [lookup_isSome_keyed] at hin
        have hout : ((keyed dname ds).lookup (nm', j)).isSome = true := by
          rw [lookup_isSome_keyed]
          exact Nat.lt_of_lt_of_le hin hcount
        rw [hd] at hout
        cases hout
      | _ => simp [Slot.isFresh]
    have hname : ∀ p ∈ keyed dname ds, (ownSlot sname ss p).name dname sname = p.1.1 := by
      intro p hp
      rw [← (mem_keyedFrom hp).1, ownSlot]
      cases (keyed sname ss).lookup p.1 <;> rfl
    rw [hnone, arrange_not_fresh, List.filter_map, List.getElem?_map]
    rw [List.filter_congr fun p hp => by rw [Function.comp_apply, hname p hp], keyed_filter_get, Option.map_map]
    cases hd : (keyed dname ds).lookup (nm, k) with
    | some d =>
      rw [Option.map_some, Function.comp_apply, ownSlot]
      cases (keyed sname ss).lookup (nm, k) <;> rfl
    | none =>
      have hs : (keyed sname ss).lookup (nm, k) = none := by
        rw [← Option.not_isSome_iff_eq_none, lookup_isSome_keyed] at hd ⊢
        omega
      rw [hs]
      rfl
  · -- no element of the name is old
    have hnone : (arrange dname sname true false ds ss).filter (fun x => x.name dname sname == nm) =
        ((arrange dname sname true false ds ss).filter fun x => !x.isOld).filter
          fun x => x.name dname sname == nm := by
      rw [List.filter_filter]
      refine List.filter_congr fun x hx => ?_
      cases x with
      | old d =>
        have hmem : .old d ∈ (arrange dname sname true false ds ss).filter (fun x => !x.isFresh) :=
          List.mem_filter.mpr ⟨hx, rfl⟩
        rw [arrange_not_fresh] at hmem
        obtain ⟨⟨⟨nm', j⟩, d'⟩, hd, hslot⟩ := List.mem_map.mp hmem
        rw [ownSlot] at hslot
        cases hs : (keyed sname ss).lookup (nm', j) with
        | some s =>
          rw [hs] at hslot
          cases hslot
        | none =>
          rw [hs] at hslot
          obtain rfl := Slot.old.inj hslot
          obtain ⟨hname, -, -⟩ := mem_keyedFrom hd
          rw [Slot.isOld, Bool.not_true, Bool.and_false, Slot.name, hname, beq_eq_false_iff_ne]
          rintro rfl
          have hin := lookup_isSome.mpr (List.mem_map_of_mem (f := Prod.fst) hd)
          rw [lookup_isSome_keyed] at hin
          rw [← Option.not_isSome_iff_eq_none, lookup_isSome_keyed] at hs
          dsimp only at hcount
          omega
      | _ => simp [Slot.isOld]
    have hname : ∀ q ∈ landed dname sname ds ss, (slotOf dname ds q).name dname sname = q.1.1 := by
      intro q hq
      rw [slotOf]
      cases hd : (keyed dname ds).lookup q.1 with
      | none => exact (mem_keyedFrom ((landed_perm dname sname ds ss).mem_iff.mp hq)).1
      | some d => exact (mem_keyedFrom (mem_of_lookup hd)).1
    rw [hnone, arrange_not_old, arrange_landed, List.filter_map, List.getElem?_map]
    rw [List.filter_congr fun q hq => by rw [Function.comp_apply, hname q hq]]
    cases hs : (keyed sname ss).lookup (nm, k) with
    | some s =>
      have hk : ((keyed sname ss).lookup (nm, k)).isSome = true := by rw [hs]; rfl
      rw [lookup_isSome_keyed] at hk
      have hland := landed_landing dname sname ds ss (mem_of_lookup hs)
      rw [landing_orderly dname sname ds ss h hk] at hland
      rw [hland, Option.map_some, slotOf]
      cases (keyed dname ds).lookup (nm, k) <;> rfl
    | none =>
      rw [← Option.not_isSome_iff_eq_none, lookup_isSome_keyed] at hs
      have hd : (keyed dname ds).lookup (nm, k) = none := by
        rw [← Option.not_isSome_iff_eq_none, lookup_isSome_keyed]
        omega
      have hout : ((landed dname sname ds ss).filter fun q => q.1.1 == nm)[k]? = none := by
        rw [List.getElem?_eq_none_iff, landed_named_length]
        exact Nat.not_lt.mp hs
      rw [hout, hd]
      rfl

end Merging

end VersatileEngine
