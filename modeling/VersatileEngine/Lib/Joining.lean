import Mathlib.Tactic
import VersatileEngine.Lib.Arrange

/-!
# VersatileEngine.Lib.Joining

How long the arrangement of two lists is when the elements of the first one stay.

* `arrange_behind`  — without a name on both sides the second list goes behind the first.
* `waiting`         — how many elements of the second list go before the partner of a key.
* `arrange_shorter` — a name on both sides makes the arrangement shorter than the two lists together.
-/

set_option linter.unusedSectionVars false

namespace VersatileEngine

section Joining

variable {α δ σ κ : Type} [BEq κ] [LawfulBEq κ]

/-- A name that occurs occurs a first time. -/
theorem keyed_zero {name : α → κ} {l : List α} {a : α} (h : a ∈ l) :
    ((keyed name l).lookup (name a, 0)).isSome = true := by
  rw [lookup_isSome_keyed]
  exact List.count_pos_iff.mpr (List.mem_map.mpr ⟨a, h, rfl⟩)

/-- When no name stands on both sides the new elements go behind the old ones. -/
theorem arrange_behind (dname : δ → κ) (sname : σ → κ) {ds : List δ} {ss : List σ}
    (h : ∀ d ∈ ds, ∀ s ∈ ss, sname s ≠ dname d) :
    arrange dname sname true false ds ss = ds.map .old ++ ss.map .fresh := by
  have hapart : ∀ p ∈ keyed sname ss, ((keyed dname ds).lookup p.1).isSome = false := by
    rintro ⟨key, s⟩ hs
    obtain ⟨hname, -, hmem⟩ := mem_keyedFrom hs
    rw [Bool.eq_false_iff, Ne, lookup_isSome_keyed, ← hname]
    intro hlt
    obtain ⟨d, hd, he⟩ := List.mem_map.mp (List.count_pos_iff.mp (Nat.zero_lt_of_lt hlt))
    exact h d hd s hmem he.symm
  have hslots : ∀ p ∈ keyed dname ds, slotsAt ([] : List ((κ × Nat) × List σ × σ)) p = [.old p.2] :=
    fun _ _ => rfl
  simp only [arrange, keptOf, Bool.false_eq_true, if_false]
  rw [groups_none _ _ hapart, List.flatMap_congr hslots, ← List.map_eq_flatMap, List.nil_append, keyed_snd]
  exact congrArg (· ++ _) ((List.map_map ..).symm.trans (by rw [keyed_snd]))

/-- The elements of the second list that wait at a key. -/
def waiting (gs : List ((κ × Nat) × List σ × σ)) (key : κ × Nat) : Nat :=
  match gs.lookup key with
  | some (pend, _) => pend.length
  | none => 0

theorem length_slotsAt (gs : List ((κ × Nat) × List σ × σ)) (p : (κ × Nat) × δ) :
    (slotsAt gs p).length = waiting gs p.1 + 1 := by
  rw [slotsAt, waiting]
  cases gs.lookup p.1 <;> simp

/-- A group is waited for at most once. -/
theorem sum_waiting_cons (q : (κ × Nat) × List σ × σ) (gs : List ((κ × Nat) × List σ × σ))
    {keys : List (κ × Nat)} (h : keys.Nodup) :
    (keys.map (waiting (q :: gs))).sum ≤ q.2.1.length + (keys.map (waiting gs)).sum := by
  induction keys with
  | nil => exact Nat.zero_le _
  | cons key keys ih =>
    obtain ⟨hnot, h⟩ := List.nodup_cons.mp h
    have hother : ∀ k : κ × Nat, k ≠ q.1 → waiting (q :: gs) k = waiting gs k := by
      intro k hk
      have hb : (k == q.1) = false := by simpa using hk
      rw [waiting, waiting, List.lookup_cons, hb]
    rw [List.map_cons, List.map_cons, List.sum_cons, List.sum_cons]
    by_cases hk : key = q.1
    · subst hk
      have hrest : keys.map (waiting (q :: gs)) = keys.map (waiting gs) :=
        List.map_congr_left fun k hk => hother k (ne_of_mem_of_not_mem hk hnot)
      have hown : waiting (q :: gs) q.1 = q.2.1.length := by
        rw [waiting, List.lookup_cons_self]
      rw [hrest, hown]
      omega
    · rw [hother key hk]
      have := ih h
      omega

theorem sum_waiting (gs : List ((κ × Nat) × List σ × σ)) {keys : List (κ × Nat)} (h : keys.Nodup) :
    (keys.map (waiting gs)).sum ≤ (gs.map fun q => q.2.1.length).sum := by
  induction gs with
  | nil =>
    refine Nat.le_of_eq (List.sum_eq_zero fun n hn => ?_)
    obtain ⟨k, -, rfl⟩ := List.mem_map.mp hn
    rfl
  | cons q gs ih => exact Nat.le_trans (sum_waiting_cons q gs h) (Nat.add_le_add_left ih _)

/-- Pieces of which each has one element more than is counted. -/
theorem length_flatMap_succ {τ : Type} (f : α → List τ) (g : α → Nat) (h : ∀ a, (f a).length = g a + 1)
    (l : List α) : (l.flatMap f).length = (l.map g).sum + l.length := by
  induction l with
  | nil => rfl
  | cons a l ih =>
    rw [List.flatMap_cons, List.length_append, h, ih, List.map_cons, List.sum_cons, List.length_cons]
    omega

/-- A name on both sides makes the arrangement shorter than the two lists together. -/
theorem arrange_shorter (dname : δ → κ) (sname : σ → κ) {ds : List δ} {ss : List σ} {d : δ} {s : σ}
    (hd : d ∈ ds) (hs : s ∈ ss) (hname : sname s = dname d) :
    (arrange dname sname true false ds ss).length < ds.length + ss.length := by
  let g := groups (fun key => ((keyed dname ds).lookup key).isSome) true [] (keyed sname ss)
  -- the first element of the name has a group of its own
  have hfirst : ((keyed sname ss).lookup (sname s, 0)).isSome = true := keyed_zero hs
  obtain ⟨s', hs'⟩ := Option.isSome_iff_exists.mp hfirst
  have hgroup : ((sname s, 0), s') ∈ g.1.map fun q => (q.1, q.2.2) := by
    rw [groups_keys]
    refine List.mem_filter.mpr ⟨mem_of_lookup hs', ?_⟩
    rw [hname]
    exact keyed_zero hd
  have hsome : 0 < g.1.length := by
    rw [← List.length_map (f := fun q => (q.1, q.2.2))]
    exact List.length_pos_of_mem hgroup
  have hflat := congrArg List.length
    (groups_flatten (fun key => ((keyed dname ds).lookup key).isSome) (keyed sname ss) [])
  have hwait : ((keyed dname ds).map fun p => waiting g.1 p.1).sum ≤ (g.1.map fun q => q.2.1.length).sum := by
    have := sum_waiting g.1 (keyed_nodup dname ds)
    rwa [List.map_map] at this
  have hkept : (keyed dname ds).length = ds.length := by
    rw [← List.length_map (f := Prod.snd), keyed_snd]
  have hslots := length_flatMap_succ (slotsAt g.1) (fun p : (κ × Nat) × δ => waiting g.1 p.1)
    (length_slotsAt g.1) (keyed dname ds)
  have hrest : (g.1.map fun q => q.2.1.length).sum + g.1.length + g.2.length = ss.length := by
    rw [keyed_snd, List.nil_append, List.length_append,
      length_flatMap_succ _ (fun q => q.2.1.length) fun q => List.length_append] at hflat
    exact hflat
  have harrange : (arrange dname sname true false ds ss).length =
      ((keyed dname ds).flatMap (slotsAt g.1)).length + g.2.length := by
    simp only [arrange, keptOf, Bool.false_eq_true, if_false, List.length_append, List.length_map]
    rfl
  omega

end Joining

end VersatileEngine
