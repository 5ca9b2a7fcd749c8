import VersatileEngine.Core.OrderedHashMap
import VersatileEngine.Lib.RobinHood

/-!
# VersatileEngine.Core.HashSlots

The loops of `InsertionOrderedHashMap` over its slots keep Robin Hood order.

* `table`, `occupied` — the slots as a table, and what is in them.
* `Sound idx slots`   — the table has the size with index `idx` and is in Robin Hood order.
* `insertElement_spec`, `rehash_spec`, `shiftBack_spec` — each loop ends and keeps it, with one entry more,
  with all of them or with one less.
-/

namespace VersatileEngine

namespace InsertionOrderedHashMap

open RobinHood

/-- The entries. -/
def occupied (slots : List HashSlot) : List HashSlot := slots.filter fun s => s.hash ≠ emptyHash

/-- The entry at an index. -/
def table (slots : List HashSlot) (i : Nat) : Option HashSlot := (slots[i]?).filter fun s => s.hash ≠ emptyHash

def homeOf (capacity : Nat) (s : HashSlot) : Nat := s.hash % capacity

structure Sound (idx : Nat) (slots : List HashSlot) : Prop where
  length : slots.length = capacityAt idx
  ordered : RobinHood.Ordered (capacityAt idx) (homeOf (capacityAt idx)) (table slots)
  hash_lt : ∀ s ∈ slots, s.hash < 2 ^ 32

/-! ### Entries -/

section Entries

variable {slots : List HashSlot} {i j : Nat} {s x : HashSlot}

theorem table_some : table slots i = some s ↔ slots[i]? = some s ∧ s.hash ≠ emptyHash := by
  simp [table, Option.filter_eq_some_iff]

theorem table_of_getElem (hs : slots[i]? = some s) (h : s.hash ≠ emptyHash) : table slots i = some s :=
  table_some.mpr ⟨hs, h⟩

theorem table_empty (hs : slots[i]? = some s) (h : s.hash = emptyHash) : table slots i = none := by
  rw [table, hs]
  simp [h]

theorem table_set (hi : i < slots.length) (hx : x.hash ≠ emptyHash) :
    table (slots.set i x) = Function.update (table slots) i (some x) := by
  funext k
  by_cases hk : k = i
  · subst hk
    rw [Function.update_self]
    exact table_of_getElem (by rw [List.getElem?_set_self hi]) hx
  · rw [Function.update_of_ne hk, table, table, List.getElem?_set_ne (Ne.symm hk)]

theorem table_clear (hi : i < slots.length) (hx : x.hash = emptyHash) :
    table (slots.set i x) = Function.update (table slots) i none := by
  funext k
  by_cases hk : k = i
  · subst hk
    rw [Function.update_self]
    exact table_empty (by rw [List.getElem?_set_self hi]) hx
  · rw [Function.update_of_ne hk, table, table, List.getElem?_set_ne (Ne.symm hk)]

theorem mem_occupied : s ∈ occupied slots ↔ ∃ i, table slots i = some s := by
  rw [occupied, List.mem_filter, List.mem_iff_getElem?]
  simp [table_some]

/-- The entries before and behind a slot. -/
theorem occupied_split (hs : slots[i]? = some s) (x : HashSlot) : ∃ a b,
    occupied slots = a ++ (occupied [s] ++ b) ∧ occupied (slots.set i x) = a ++ (occupied [x] ++ b) := by
  obtain ⟨hi, hget⟩ := List.getElem?_eq_some_iff.mp hs
  have hold : slots = slots.take i ++ ([s] ++ slots.drop (i + 1)) := by
    rw [← hget, List.singleton_append, List.getElem_cons_drop hi, List.take_append_drop]
  have hnew : slots.set i x = slots.take i ++ ([x] ++ slots.drop (i + 1)) :=
    List.set_eq_take_append_cons_drop.trans (if_pos hi)
  refine ⟨occupied (slots.take i), occupied (slots.drop (i + 1)), ?_, ?_⟩
  · conv_lhs => rw [hold]
    rw [occupied, List.filter_append, List.filter_append]
    rfl
  · rw [hnew, occupied, List.filter_append, List.filter_append]
    rfl

theorem occupied_single (h : s.hash ≠ emptyHash) : occupied [s] = [s] := by simp [occupied, h]

theorem occupied_single_empty (h : s.hash = emptyHash) : occupied [s] = [] := by simp [occupied, h]

/-- What an entry is exchanged for takes its place among the entries. -/
theorem occupied_set (hs : slots[i]? = some s) (hne : s.hash ≠ emptyHash) (hx : x.hash ≠ emptyHash) :
    (s :: occupied (slots.set i x)).Perm (x :: occupied slots) := by
  obtain ⟨a, b, ho, hn⟩ := occupied_split hs x
  rw [ho, hn, occupied_single hne, occupied_single hx]
  refine (List.perm_middle.cons s).trans ((List.Perm.swap _ _ _).trans ?_)
  exact (List.perm_middle.symm).cons x

theorem occupied_fill (hs : slots[i]? = some s) (he : s.hash = emptyHash) (hx : x.hash ≠ emptyHash) :
    (occupied (slots.set i x)).Perm (x :: occupied slots) := by
  obtain ⟨a, b, ho, hn⟩ := occupied_split hs x
  rw [ho, hn, occupied_single_empty he, occupied_single hx]
  exact List.perm_middle

theorem occupied_clear (hs : slots[i]? = some s) (hne : s.hash ≠ emptyHash) (hx : x.hash = emptyHash) :
    (occupied slots).Perm (s :: occupied (slots.set i x)) := by
  obtain ⟨a, b, ho, hn⟩ := occupied_split hs x
  rw [ho, hn, occupied_single hne, occupied_single_empty hx]
  exact List.perm_middle

/-- With fewer entries than slots there is an empty one. -/
theorem exists_empty (h : (occupied slots).length < slots.length) : ∃ i < slots.length, table slots i = none := by
  by_contra hno
  simp only [not_exists, not_and] at hno
  have hall : ∀ s ∈ slots, decide (s.hash ≠ emptyHash) = true := by
    intro s hs
    obtain ⟨i, hi⟩ := List.mem_iff_getElem?.mp hs
    have hlt := (List.getElem?_eq_some_iff.mp hi).1
    rw [decide_eq_true_eq]
    exact fun he => hno i hlt (table_empty hi he)
  rw [occupied, List.filter_eq_self.mpr hall] at h
  exact absurd h (Nat.lt_irrefl _)

end Entries

/-! ### Insertion -/

section Loops

variable {idx : Nat} {slots : List HashSlot} {x s : HashSlot} {i j d m : Nat}

theorem homeOf_lt (hidx : idx < hashTableSizeMax) (s : HashSlot) : homeOf (capacityAt idx) s < capacityAt idx := by
  have h5 := (capacity_facts idx hidx).1
  exact Nat.mod_lt _ (by omega)

theorem getProbeLength_eq (hidx : idx < hashTableSizeMax) (hi : i < capacityAt idx) (hs : s.hash < 2 ^ 32) :
    getProbeLength idx i s.hash = probe (capacityAt idx) (homeOf (capacityAt idx)) i s := by
  have hcap := (capacity_facts idx hidx).2.1
  have hhome := homeOf_lt hidx s
  simp only [getProbeLength]
  rw [fastmod_eq hidx hs, ← homeOf, probe,
    show i + 2 ^ 32 - homeOf (capacityAt idx) s + capacityAt idx =
      i + capacityAt idx - homeOf (capacityAt idx) s + 2 ^ 32 by omega,
    Nat.add_mod_right, Nat.mod_eq_of_lt (by omega)]
  split_ifs with hle
  · rw [Nat.mod_eq_sub_mod hle, Nat.mod_eq_of_lt (by omega)]
  · rw [Nat.mod_eq_of_lt (by omega)]

theorem incrementMod_eq {capacity : Nat} (hcap : 0 < capacity) (j : Nat) :
    incrementMod (j % capacity) capacity = (j + 1) % capacity := by
  have hlt := Nat.mod_lt j hcap
  have hsucc : (j + 1) % capacity = (j % capacity + 1) % capacity := (Nat.mod_add_mod j capacity 1).symm
  rw [incrementMod, hsucc]
  split_ifs with h
  · rw [h, Nat.mod_self]
  · exact (Nat.mod_eq_of_lt (by omega)).symm

theorem Sound.lt (h : Sound idx slots) (hidx : idx < hashTableSizeMax) (j : Nat) :
    j % capacityAt idx < slots.length := by
  have h5 := (capacity_facts idx hidx).1
  rw [h.length]
  exact Nat.mod_lt _ (by omega)

theorem Sound.getElem (h : Sound idx slots) (hidx : idx < hashTableSizeMax) (j : Nat) :
    ∃ s, slots[j % capacityAt idx]? = some s := ⟨_, List.getElem?_eq_getElem (h.lt hidx j)⟩

/-- The entry in hand takes a slot. -/
theorem Sound.set (h : Sound idx slots) (hidx : idx < hashTableSizeMax) (hx : x.hash ≠ emptyHash)
    (hx' : x.hash < 2 ^ 32) (hj : (j + 1) % capacityAt idx = (homeOf (capacityAt idx) x + d) % capacityAt idx)
    (hd : d < capacityAt idx)
    (hle : rank (capacityAt idx) (homeOf (capacityAt idx)) (table slots) (j + 1) ≤ d)
    (hprev : d ≤ rank (capacityAt idx) (homeOf (capacityAt idx)) (table slots) j) :
    Sound idx (slots.set ((j + 1) % capacityAt idx) x) := by
  have h5 := (capacity_facts idx hidx).1
  refine ⟨by rw [List.length_set, h.length], ?_, fun s hs => ?_⟩
  · rw [table_set (h.lt hidx _) hx]
    refine h.ordered.put (by omega) ?_ hle hprev
    rw [hj, probe_of_add (homeOf_lt hidx x) hd]
  · rcases List.mem_or_eq_of_mem_set hs with hs | rfl
    · exact h.hash_lt s hs
    · exact hx'

/-- The loop ends at the latest at the empty slot, `m` slots ahead. -/
theorem insertLoop_spec (hidx : idx < hashTableSizeMax) (turns : Nat) : ∀ (slots : List HashSlot) (x : HashSlot) (j d m : Nat),
    Sound idx slots → x.hash ≠ emptyHash → x.hash < 2 ^ 32 →
    (j + 1) % capacityAt idx = (homeOf (capacityAt idx) x + d) % capacityAt idx →
    d ≤ rank (capacityAt idx) (homeOf (capacityAt idx)) (table slots) j →
    m < turns → d + m < capacityAt idx → table slots ((j + 1 + m) % capacityAt idx) = none →
    ∃ slots', insertLoop idx turns slots x ((j + 1) % capacityAt idx) d = some slots' ∧ Sound idx slots' ∧
      (occupied slots').Perm (x :: occupied slots) := by
  have h5 := (capacity_facts idx hidx).1
  have hpos : 0 < capacityAt idx := by omega
  induction turns with
  | zero => exact fun _ _ _ _ _ _ _ _ _ _ hm => absurd hm (Nat.not_lt_zero _)
  | succ turns ih =>
    intro slots x j d m h hx hx' hj hprev hm hdm hempty
    obtain ⟨s, hs⟩ := h.getElem hidx (j + 1)
    have hs' := h.hash_lt s (List.mem_of_getElem? hs)
    rw [insertLoop, hs]
    simp only []
    by_cases he : s.hash = emptyHash
    · rw [if_pos he]
      refine ⟨_, rfl, h.set hidx hx hx' hj (by omega) ?_ hprev, occupied_fill hs he hx⟩
      rw [rank_none (table_empty hs he)]
      exact Nat.zero_le _
    · have ht : table slots ((j + 1) % capacityAt idx) = some s := table_of_getElem hs he
      have hrank : rank (capacityAt idx) (homeOf (capacityAt idx)) (table slots) (j + 1) = _ := rank_some ht
      rw [if_neg he, getProbeLength_eq hidx (Nat.mod_lt _ hpos) hs', incrementMod_eq hpos]
      obtain ⟨m, rfl⟩ : ∃ m', m = m' + 1 := by
        cases m with
        | zero => rw [Nat.add_zero, ht] at hempty; cases hempty
        | succ m => exact ⟨m, rfl⟩
      have hnext : (j + 1 + (m + 1)) % capacityAt idx = (j + 1 + 1 + m) % capacityAt idx := by
        rw [show j + 1 + (m + 1) = j + 1 + 1 + m by omega]
      rw [hnext] at hempty
      by_cases hlt : probe (capacityAt idx) (homeOf (capacityAt idx)) ((j + 1) % capacityAt idx) s < d
      · -- the entry in hand is farther from its home: it stays, and the other one goes on
        rw [if_pos hlt]
        have hset := h.set hidx hx hx' hj (by omega) (by omega) hprev
        have hne : (j + 1 + 1 + m) % capacityAt idx ≠ (j + 1) % capacityAt idx :=
          (ne_of_between (by omega) (by omega)).symm
        have htable := table_set (x := x) (h.lt hidx (j + 1)) hx
        have hfilled : table (slots.set ((j + 1) % capacityAt idx) x) ((j + 1) % capacityAt idx) = some x := by
          rw [htable, Function.update_self]
        have hplaced : rank (capacityAt idx) (homeOf (capacityAt idx)) _ (j + 1) = _ := rank_some hfilled
        rw [hj, probe_of_add (homeOf_lt hidx x) (by omega), ← hj] at hplaced
        obtain ⟨slots', hl, hsound, hperm⟩ := ih (slots.set ((j + 1) % capacityAt idx) x) s (j + 1)
          (probe (capacityAt idx) (homeOf (capacityAt idx)) ((j + 1) % capacityAt idx) s + 1) m hset he hs'
          (mod_add_congr (home_add_probe (Nat.mod_lt _ hpos) (homeOf_lt hidx s)).symm 1) (by omega) (by omega)
          (by omega) (by rw [htable, Function.update_of_ne hne]; exact hempty)
        exact ⟨slots', hl, hsound, hperm.trans (occupied_set hs he hx)⟩
      · rw [if_neg hlt]
        exact ih slots x (j + 1) (d + 1) m h hx hx'
          (by rw [← Nat.add_assoc]; exact mod_add_congr hj 1) (by omega) (by omega) (by omega) hempty

theorem insertElement_spec (h : Sound idx slots) (hidx : idx < hashTableSizeMax) (hx : x.hash ≠ emptyHash)
    (hx' : x.hash < 2 ^ 32) (hroom : (occupied slots).length < capacityAt idx) :
    ∃ slots', insertElement idx slots x = some slots' ∧ Sound idx slots' ∧
      (occupied slots').Perm (x :: occupied slots) := by
  have h5 := (capacity_facts idx hidx).1
  obtain ⟨i, hi, hempty⟩ := exists_empty (by rw [h.length]; exact hroom)
  rw [h.length] at hi
  -- the walk begins at the home slot, which is the one after this position
  have hstart : (homeOf (capacityAt idx) x + capacityAt idx - 1 + 1) % capacityAt idx = homeOf (capacityAt idx) x := by
    rw [Nat.sub_add_cancel (by omega), Nat.add_mod_right, Nat.mod_eq_of_lt (homeOf_lt hidx x)]
  obtain ⟨m, hm, hahead⟩ := exists_ahead hi
    (homeOf (capacityAt idx) x + capacityAt idx - 1 + 1)
  have hloop := insertLoop_spec hidx (capacityAt idx) slots x (homeOf (capacityAt idx) x + capacityAt idx - 1) 0 m h
    hx hx' (by rw [hstart, Nat.add_zero, Nat.mod_eq_of_lt (homeOf_lt hidx x)]) (Nat.zero_le _) hm (by omega)
    (by rw [hahead, hempty])
  rw [hstart] at hloop
  rw [insertElement, fastmod_eq hidx hx']
  exact hloop

theorem sound_empty (idx : Nat) :
    Sound idx (List.replicate (capacityAt idx) emptySlot) ∧
      occupied (List.replicate (capacityAt idx) emptySlot) = [] := by
  have hmem : ∀ s ∈ List.replicate (capacityAt idx) emptySlot, s.hash = emptyHash := fun s hs => by
    rw [List.eq_of_mem_replicate hs]
    rfl
  refine ⟨⟨List.length_replicate, ordered_empty fun i => ?_, fun s hs => by rw [hmem s hs]; decide⟩, ?_⟩
  · cases hi : (List.replicate (capacityAt idx) emptySlot)[i]? with
    | none => rw [table, hi]; rfl
    | some s => exact table_empty hi (hmem s (List.mem_of_getElem? hi))
  · exact List.filter_eq_nil_iff.mpr fun s hs => by simpa using hmem s hs

/-- A table of another size takes all entries. -/
theorem rehash_spec (hidx : idx < hashTableSizeMax) : ∀ (old : List HashSlot) (table : List HashSlot × Nat),
    (∀ s ∈ old, s.hash < 2 ^ 32) → Sound idx table.1 → (occupied table.1).length = table.2 →
    table.2 + (occupied old).length < capacityAt idx →
    ∃ table', old.foldlM (rehash idx) table = some table' ∧ Sound idx table'.1 ∧
      (occupied table'.1).Perm (occupied old ++ occupied table.1) ∧
      table'.2 = (occupied table'.1).length := by
  intro old
  induction old with
  | nil => exact fun table _ h hlen _ => ⟨table, rfl, h, List.Perm.refl _, hlen.symm⟩
  | cons s old ih =>
    intro table hold h hlen hroom
    rw [List.foldlM_cons]
    by_cases hs : s.hash = emptyHash
    · have ho : occupied (s :: old) = occupied old := List.filter_cons_of_neg (by simpa using hs)
      rw [ho] at hroom ⊢
      rw [rehash, if_pos hs]
      exact ih table (fun s hs => hold s (List.mem_cons_of_mem _ hs)) h hlen hroom
    · have ho : occupied (s :: old) = s :: occupied old := List.filter_cons_of_pos (by simpa using hs)
      rw [ho, List.length_cons] at hroom
      obtain ⟨slots, hslots, hsound, hperm⟩ := insertElement_spec h hidx hs (hold s (by simp)) (by omega)
      have hcount := hperm.length_eq
      rw [List.length_cons] at hcount
      obtain ⟨table', ht, hsound', hperm', hlen'⟩ := ih (slots, table.2 + 1)
        (fun s hs => hold s (List.mem_cons_of_mem _ hs)) hsound (by rw [hcount, hlen]) (by simp only; omega)
      refine ⟨table', ?_, hsound', ?_, hlen'⟩
      · rw [rehash, if_neg hs, hslots]
        exact ht
      · rw [ho]
        exact hperm'.trans ((hperm.append_left _).trans List.perm_middle)

/-! ### Erasure -/

/-- The entry at `idx` moves on until the one behind it is in its home slot or there is none; then the slots
without it are in order. -/
theorem shiftBack_spec (hidx : idx < hashTableSizeMax) (turns : Nat) : ∀ (slots : List HashSlot) (x : HashSlot) (j m : Nat),
    slots.length = capacityAt idx → (∀ s ∈ slots, s.hash < 2 ^ 32) →
    slots[(j + 1) % capacityAt idx]? = some x → x.hash ≠ emptyHash →
    Gap (capacityAt idx) (homeOf (capacityAt idx))
      (Function.update (table slots) ((j + 1) % capacityAt idx) none) j →
    m < turns → m + 1 < capacityAt idx → table slots ((j + 2 + m) % capacityAt idx) = none →
    ∃ slots' i, shiftBack idx turns slots ((j + 1) % capacityAt idx) ((j + 2) % capacityAt idx) = some (slots', i) ∧
      slots'[i]? = some x ∧ (occupied slots').Perm (occupied slots) ∧
      ∀ y : HashSlot, y.hash = emptyHash → Sound idx (slots'.set i y) := by
  have h5 := (capacity_facts idx hidx).1
  have hpos : 0 < capacityAt idx := by omega
  induction turns with
  | zero => exact fun _ _ _ _ _ _ _ _ _ hm => absurd hm (Nat.not_lt_zero _)
  | succ turns ih =>
    intro slots x j m hlen hlt hx hne hgap hm hmc hempty
    have hin : ∀ j : Nat, j % capacityAt idx < slots.length := fun j => by
      rw [hlen]
      exact Nat.mod_lt _ hpos
    obtain ⟨s, hs⟩ : ∃ s, slots[(j + 2) % capacityAt idx]? = some s := ⟨_, List.getElem?_eq_getElem (hin _)⟩
    have h12 : (j + 1) % capacityAt idx ≠ (j + 2) % capacityAt idx := ne_of_between (by omega) (by omega)
    have hs' := hlt s (List.mem_of_getElem? hs)
    rw [shiftBack, hx, hs]
    simp only [getProbeLength_eq hidx (Nat.mod_lt _ hpos) hs', incrementMod_eq hpos]
    have hbehind : Function.update (table slots) ((j + 1) % capacityAt idx) none ((j + 2) % capacityAt idx) =
        table slots ((j + 2) % capacityAt idx) := Function.update_of_ne h12.symm _ _
    split_ifs with hmove
    · -- the entry behind moves back
      obtain ⟨he, hp⟩ := hmove
      have ht : table slots ((j + 2) % capacityAt idx) = some s := table_of_getElem hs he
      obtain ⟨m, rfl⟩ : ∃ m', m = m' + 1 := by
        cases m with
        | zero => rw [Nat.add_zero, ht] at hempty; cases hempty
        | succ m => exact ⟨m, rfl⟩
      set slots₁ := (slots.set ((j + 2) % capacityAt idx) x).set ((j + 1) % capacityAt idx) s with hslots₁
      have htable : table slots₁ = Function.update (Function.update (table slots) ((j + 2) % capacityAt idx) (some x))
          ((j + 1) % capacityAt idx) (some s) := by
        rw [hslots₁, table_set (by rw [List.length_set]; exact hin _) he, table_set (hin _) hne]
      have hgap' := hgap.shift (by omega) (hbehind.trans ht) (homeOf_lt hidx s) hp
      have hswapped : Function.update (Function.update (Function.update (table slots)
          ((j + 1) % capacityAt idx) none) ((j + 1) % capacityAt idx) (some s)) ((j + 2) % capacityAt idx) none =
          Function.update (table slots₁) ((j + 2) % capacityAt idx) none := by
        rw [htable, Function.update_idem, Function.update_comm h12.symm, Function.update_idem]
      rw [hswapped] at hgap'
      have hx₁ : slots₁[(j + 1 + 1) % capacityAt idx]? = some x := by
        rw [hslots₁, List.getElem?_set_ne h12, List.getElem?_set_self (hin _)]
      have hperm : (occupied slots₁).Perm (occupied slots) := by
        have h1 := occupied_set hs he hne
        have hget : (slots.set ((j + 2) % capacityAt idx) x)[(j + 1) % capacityAt idx]? = some x := by
          rw [List.getElem?_set_ne h12.symm, hx]
        have h2 := occupied_set hget hne he
        exact List.Perm.cons_inv (h2.trans h1)
      have hahead : (j + 2 + (m + 1)) % capacityAt idx = (j + 1 + 2 + m) % capacityAt idx := by
        rw [show j + 2 + (m + 1) = j + 1 + 2 + m by omega]
      rw [hahead] at hempty
      obtain ⟨slots', i, hrun, hi, hp', hsound⟩ := ih slots₁ x (j + 1) m
        (by rw [hslots₁, List.length_set, List.length_set, hlen])
        (fun y hy => by
          rcases List.mem_or_eq_of_mem_set hy with hy | rfl
          · rcases List.mem_or_eq_of_mem_set hy with hy | rfl
            · exact hlt y hy
            · exact hlt y (List.mem_of_getElem? hx)
          · exact hs')
        hx₁ hne hgap' (by omega) (by omega)
        (by rw [htable, Function.update_of_ne (ne_of_between (by omega) (by omega)).symm,
              Function.update_of_ne (ne_of_between (by omega) (by omega)).symm, hempty])
      exact ⟨slots', i, hrun, hi, hp'.trans hperm, hsound⟩
    · refine ⟨slots, _, rfl, hx, List.Perm.refl _, fun y hy => ⟨by rw [List.length_set, hlen], ?_, fun z hz => ?_⟩⟩
      · rw [table_clear (hin _) hy]
        refine hgap.close ?_
        by_cases he : s.hash = emptyHash
        · rw [rank_none (hbehind.trans (table_empty hs he))]
          exact Nat.zero_le _
        · have hp : probe (capacityAt idx) (homeOf (capacityAt idx)) ((j + 2) % capacityAt idx) s = 0 := by
            by_contra hp
            exact hmove ⟨he, hp⟩
          rw [rank_some (hbehind.trans (table_of_getElem hs he)), hp]
      · rcases List.mem_or_eq_of_mem_set hz with hz | rfl
        · exact hlt z hz
        · rw [hy]
          decide

end Loops

end InsertionOrderedHashMap

end VersatileEngine
