import VersatileEngine.Core.HashSlots
import VersatileEngine.Lib.Dict
import VersatileEngine.Lib.Runs

/-!
# VersatileEngine.Core.HashMapOrder

`InsertionOrderedHashMap` is an insertion-ordered association list.

* `Represents m es` — the elements `es`, by address and in order, are what `m` holds.
* `Represents.lookup`, `insertNew`, `erase`, `grow`, … — each function on a map that represents elements.
* `onList`          — a call on an association list.
* `ordered_hashmap_refines` — in every run from an empty map below the largest size, every call returns what
  it returns on the list, the iteration is the list, and every element is reached from its home slot.
-/

namespace VersatileEngine

namespace InsertionOrderedHashMap

open RobinHood

variable {K V : Type} (hasher : K → UInt32)

/-- The slot of an element. -/
def slotOf (e : Nat × K × V) : HashSlot := ⟨hashOf hasher e.2.1, e.1⟩

structure Represents (m : InsertionOrderedHashMap K V) (es : List (Nat × K × V)) : Prop where
  minIdx : minCapacityIndex ≤ m.capacityIdx
  idx : m.capacityIdx < hashTableSizeMax
  linked : Segment m.heap none es none
  head : m.headElement = firstOf es none
  tail : m.tailElement = lastOf none es
  addresses : (es.map Prod.fst).Nodup
  alive : ∀ p ∉ es.map Prod.fst, m.heap p = none
  fresh : ∀ p ∈ es.map Prod.fst, p < m.fresh
  keys : (es.map fun e => e.2.1).Nodup
  size : m.size = es.length
  room : es.length < capacityAt m.capacityIdx
  slots : ∀ slots, m.slots = some slots →
    Sound m.capacityIdx slots ∧ (occupied slots).Perm (es.map (slotOf hasher))
  unallocated : m.slots = none → es = []

variable {hasher} {m : InsertionOrderedHashMap K V} {es : List (Nat × K × V)} {e : Nat × K × V} {key : K}

theorem hashOf_ne (key : K) : hashOf hasher key ≠ emptyHash := by
  simp only [hashOf]
  split_ifs with h
  · exact Nat.succ_ne_zero _
  · exact h

theorem hashOf_lt (key : K) : hashOf hasher key < 2 ^ 32 := by
  have h := (hasher key).toNat_lt
  simp only [hashOf]
  split_ifs
  · decide
  · exact h

theorem Represents.data (h : Represents hasher m es) (he : e ∈ es) : ∃ n, m.heap e.1 = some n ∧ n.data = e.2 :=
  h.linked.alive he

theorem Represents.entry (h : Represents hasher m es) {slots : List HashSlot} (hs : m.slots = some slots) {i : Nat}
    {s : HashSlot} (ht : table slots i = some s) : ∃ e ∈ es, s = slotOf hasher e := by
  have hmem := (h.slots slots hs).2.subset (mem_occupied.mpr ⟨i, ht⟩)
  obtain ⟨e, he, rfl⟩ := List.mem_map.mp hmem
  exact ⟨e, he, rfl⟩

/-! ### Lookup -/

variable [DecidableEq K]

/-- A slot holds the key when its element has it. -/
theorem Represents.holds (h : Represents hasher m es) (he : e ∈ es) (key : K) :
    m.holds (slotOf hasher e) key (hashOf hasher key) = some (decide (e.2.1 = key)) := by
  rw [InsertionOrderedHashMap.holds, slotOf]
  split_ifs with hhash
  · obtain ⟨n, hn, hd⟩ := h.data he
    rw [hn, Option.map_some, hd]
  · have hne : e.2.1 ≠ key := fun hk => hhash (by rw [hk])
    rw [decide_eq_false hne]

/-- The walk from the home slot ends, and where the key is it finds it. -/
theorem Represents.lookupLoop (h : Represents hasher m es) {slots : List HashSlot} (hs : m.slots = some slots) (key : K)
    (turns : Nat) : ∀ d m', m' < turns →
    table slots ((hashOf hasher key % capacityAt m.capacityIdx + d + m') % capacityAt m.capacityIdx) = none →
    ∃ r, m.lookupIdxUnchecked slots key (hashOf hasher key) turns
        ((hashOf hasher key % capacityAt m.capacityIdx + d) % capacityAt m.capacityIdx) d = some r ∧
      (∀ i, r = some i → ∃ e ∈ es, e.2.1 = key ∧ slots[i]? = some (slotOf hasher e)) ∧
      ∀ e i, e ∈ es → e.2.1 = key → table slots i = some (slotOf hasher e) →
        d ≤ probe (capacityAt m.capacityIdx) (homeOf (capacityAt m.capacityIdx)) i (slotOf hasher e) → r ≠ none := by
  obtain ⟨hsound, hperm⟩ := h.slots slots hs
  have h5 := (capacity_facts _ h.idx).1
  have hpos : 0 < capacityAt m.capacityIdx := by omega
  -- an entry with the key is behind only entries that let the walk go on
  have hreach : ∀ {e : Nat × K × V} {i d : Nat}, e.2.1 = key → table slots i = some (slotOf hasher e) →
      d ≤ probe (capacityAt m.capacityIdx) (homeOf (capacityAt m.capacityIdx)) i (slotOf hasher e) →
      d < rank (capacityAt m.capacityIdx) (homeOf (capacityAt m.capacityIdx)) (table slots)
        (hashOf hasher key % capacityAt m.capacityIdx + d) := by
    intro e i d hk ht hd
    have hi : i < capacityAt m.capacityIdx := by
      rw [← hsound.length]
      exact (List.getElem?_eq_some_iff.mp (table_some.mp ht).1).1
    have := hsound.ordered.reach hi ht (homeOf_lt h.idx _) hd
    rwa [homeOf, slotOf, hk] at this
  induction turns with
  | zero => exact fun _ _ hm => absurd hm (Nat.not_lt_zero _)
  | succ turns ih =>
    intro d m' hm hempty
    obtain ⟨s, hget⟩ := hsound.getElem h.idx (hashOf hasher key % capacityAt m.capacityIdx + d)
    have hlt := hsound.hash_lt s (List.mem_of_getElem? hget)
    rw [lookupIdxUnchecked, hget]
    simp only []
    by_cases he : s.hash = emptyHash
    · rw [if_pos he]
      refine ⟨none, rfl, fun i hi => (by cases hi), fun e i _ hk ht hd => ?_⟩
      have := hreach hk ht hd
      rw [rank_none (table_empty hget he)] at this
      exact absurd this (Nat.not_lt_zero _)
    · have ht := table_of_getElem hget he
      rw [if_neg he, getProbeLength_eq h.idx (Nat.mod_lt _ hpos) hlt]
      split_ifs with hdist
      · refine ⟨none, rfl, fun i hi => (by cases hi), fun e i _ hk hte hd => ?_⟩
        have := hreach hk hte hd
        rw [rank_some ht] at this
        omega
      · obtain ⟨e, hmem, rfl⟩ := h.entry hs ht
        rw [h.holds hmem]
        by_cases hk : e.2.1 = key
        · rw [decide_eq_true hk]
          refine ⟨_, rfl, fun i hi => ⟨e, hmem, hk, ?_⟩, fun _ _ _ _ _ _ => Option.some_ne_none _⟩
          cases hi
          exact hget
        · rw [decide_eq_false hk]
          simp only [incrementMod_eq hpos]
          obtain ⟨m', rfl⟩ : ∃ n, m' = n + 1 := by
            cases m' with
            | zero => rw [Nat.add_zero, ht] at hempty; cases hempty
            | succ n => exact ⟨n, rfl⟩
          obtain ⟨r, hr, hfound, hall⟩ := ih (d + 1) m' (by omega) (by
            rw [show hashOf hasher key % capacityAt m.capacityIdx + (d + 1) + m' =
              hashOf hasher key % capacityAt m.capacityIdx + d + (m' + 1) by omega]
            exact hempty)
          refine ⟨r, hr, hfound, fun e' i he' hk' ht' hd => hall e' i he' hk' ht' ?_⟩
          rcases Nat.lt_or_eq_of_le hd with hd | hd
          · exact hd
          · -- at its own distance the walk is at the slot of the entry
            have hi : i < capacityAt m.capacityIdx := by
              rw [← hsound.length]
              exact (List.getElem?_eq_some_iff.mp (table_some.mp ht').1).1
            have hpos' := home_add_probe hi (homeOf_lt h.idx (slotOf hasher e'))
            rw [← hd, homeOf, slotOf, hk'] at hpos'
            rw [hpos', ht'] at ht
            have haddr : e'.1 = e.1 := congrArg HashSlot.element (Option.some.inj ht)
            obtain ⟨n, hn, hd⟩ := h.data hmem
            obtain ⟨n', hn', hd'⟩ := h.data he'
            rw [haddr, hn] at hn'
            cases hn'
            rw [hd] at hd'
            exact absurd (hd'.symm ▸ hk') hk

/-- A key that is there is found in its slot, another one is not found. -/
theorem Represents.lookup (h : Represents hasher m es) (key : K) :
    (∃ e ∈ es, e.2.1 = key ∧ ∃ slots i, m.slots = some slots ∧ slots[i]? = some (slotOf hasher e) ∧
      m.lookupIdx hasher key = some (some i)) ∨
    ((∀ e ∈ es, e.2.1 ≠ key) ∧ m.lookupIdx hasher key = some none) := by
  rw [lookupIdx]
  cases hs : m.slots with
  | none =>
    refine .inr ⟨fun e he => ?_, rfl⟩
    rw [h.unallocated hs] at he
    cases he
  | some slots =>
    obtain ⟨hsound, hperm⟩ := h.slots slots hs
    simp only []
    by_cases h0 : m.size = 0
    · rw [if_pos h0]
      refine .inr ⟨fun e he => ?_, rfl⟩
      rw [h.size] at h0
      rw [List.eq_nil_of_length_eq_zero h0] at he
      cases he
    · rw [if_neg h0, fastmod_eq h.idx (hashOf_lt key)]
      have hcount : (occupied slots).length < slots.length := by
        rw [hperm.length_eq, List.length_map, hsound.length]
        exact h.room
      obtain ⟨i, hi, hempty⟩ := exists_empty hcount
      rw [hsound.length] at hi
      obtain ⟨m', hm', hahead⟩ := exists_ahead hi (hashOf hasher key % capacityAt m.capacityIdx)
      obtain ⟨r, hr, hfound, hall⟩ := h.lookupLoop hs key (capacityAt m.capacityIdx) 0 m' hm'
        (by rw [Nat.add_zero, hahead, hempty])
      rw [Nat.add_zero, Nat.mod_mod] at hr
      rw [hr]
      cases hr' : r with
      | some i =>
        obtain ⟨e, he, hk, hget⟩ := hfound i hr'
        exact .inl ⟨e, he, hk, slots, i, rfl, hget, rfl⟩
      | none =>
        refine .inr ⟨fun e he hk => ?_, rfl⟩
        have hmem : slotOf hasher e ∈ occupied slots := hperm.symm.subset (List.mem_map_of_mem he)
        obtain ⟨i, hi⟩ := mem_occupied.mp hmem
        exact hall e i he hk hi (Nat.zero_le _) hr'

/-! ### Insertion -/

omit [DecidableEq K] in
/-- A table of a larger size represents the same elements. -/
theorem Represents.grow (h : Represents hasher m es) {slots : List HashSlot} (hs : m.slots = some slots) {n : Nat}
    (hn : m.capacityIdx < n) (hmax : n < hashTableSizeMax) :
    ∃ m', m.resizeAndRehash slots n = some m' ∧ Represents hasher m' es ∧ m'.capacityIdx = n ∧
      m'.slots.isSome := by
  obtain ⟨hsound, hperm⟩ := h.slots slots hs
  have hcap := capacity_strict hn hmax
  have hidx : (if minCapacityIndex < n then n else minCapacityIndex) = n :=
    if_pos (Nat.lt_of_le_of_lt h.minIdx hn)
  obtain ⟨hempty, hnone⟩ := sound_empty n
  have hcount : (occupied slots).length = es.length := by rw [hperm.length_eq, List.length_map]
  have hroom := h.room
  obtain ⟨table, ht, hsound', hperm', hsize⟩ := rehash_spec hmax slots
    (List.replicate (capacityAt n) emptySlot, 0) hsound.hash_lt hempty (by rw [hnone]; rfl)
    (by rw [hcount]; simp only; omega)
  rw [hnone, List.append_nil] at hperm'
  refine ⟨{ m with capacityIdx := n, slots := some table.1, size := table.2 }, ?_, ?_, rfl, rfl⟩
  · rw [resizeAndRehash, hidx, ht]
    rfl
  · exact
      { h with
        minIdx := h.minIdx.trans (Nat.le_of_lt hn)
        idx := hmax
        size := by rw [hsize, hperm'.length_eq, hcount]
        room := h.room.trans hcap
        slots := fun slots hslots => by
          cases hslots
          exact ⟨hsound', hperm'.trans hperm⟩
        unallocated := fun hslots => by cases hslots }

omit [DecidableEq K] in
/-- There is room for one element more. -/
theorem Represents.makeRoom (h : Represents hasher m es)
    (hgrow : overloaded m.size (capacityAt m.capacityIdx) → m.capacityIdx + 1 < hashTableSizeMax) :
    ∃ m', m.makeRoom = some m' ∧ Represents hasher m' es ∧ es.length + 1 < capacityAt m'.capacityIdx ∧
      m'.slots.isSome ∧ m'.capacityIdx =
        if overloaded m.size (capacityAt m.capacityIdx) then m.capacityIdx + 1 else m.capacityIdx := by
  set slots := m.slots.getD (List.replicate (capacityAt m.capacityIdx) emptySlot) with hslots
  have halloc : Represents hasher { m with slots := some slots } es := by
    refine { h with slots := fun slots' hs' => ?_, unallocated := fun hs => (by cases hs) }
    cases hs'
    cases hs : m.slots with
    | none =>
      obtain ⟨hsound, hnone⟩ := sound_empty m.capacityIdx
      rw [hslots, hs, h.unallocated hs, Option.getD_none, hnone]
      exact ⟨hsound, List.Perm.refl _⟩
    | some old =>
      rw [hslots, hs]
      exact h.slots old hs
  rw [InsertionOrderedHashMap.makeRoom]
  by_cases hover : overloaded m.size (capacityAt m.capacityIdx)
  · have hmax := hgrow hover
    simp only [if_pos hover, if_pos hmax]
    obtain ⟨m', hm', hrep, hidx, hsome⟩ := halloc.grow rfl (Nat.lt_add_one m.capacityIdx) hmax
    have hcap := capacity_lt_succ hmax
    have hroom := h.room
    exact ⟨m', hm', hrep, by rw [hidx]; omega, hsome, hidx⟩
  · simp only [if_neg hover]
    refine ⟨_, rfl, halloc, ?_, rfl, rfl⟩
    rw [← h.size]
    exact lt_of_not_overloaded hover

omit [DecidableEq K] in
/-- The new element is the last one. -/
theorem Represents.linkElement (h : Represents hasher m es) (key : K) (value : V) :
    ∃ heap, m.linkElement key value false = some { m with
        heap := heap
        fresh := m.fresh + 1
        headElement := firstOf (es ++ [(m.fresh, key, value)]) none
        tailElement := some m.fresh } ∧
      Segment heap none (es ++ [(m.fresh, key, value)]) none ∧
      ∀ q ∉ (es ++ [(m.fresh, key, value)]).map Prod.fst, heap q = m.heap q := by
  have hnew : m.fresh ∉ es.map Prod.fst := fun hp => Nat.lt_irrefl _ (h.fresh _ hp)
  obtain ⟨s, hs, hseg, hframe⟩ := h.linked.push h.addresses hnew (key, value)
  refine ⟨_, ?_, hseg, fun q hq => ?_⟩
  · rw [InsertionOrderedHashMap.linkElement, h.tail]
    cases es with
    | nil =>
      cases hs
      rfl
    | cons e es =>
      obtain ⟨t, ht⟩ : ∃ t, lastOf none (e :: es) = some t := by
        obtain ⟨l, x, hl⟩ := (List.eq_nil_or_concat (e :: es)).resolve_left (List.cons_ne_nil _ _)
        rw [hl, List.concat_eq_append]
        exact ⟨x.1, lastOf_concat⟩
      rw [ht] at hs ⊢
      simp only [Bool.false_eq_true, if_false]
      rw [hs, h.head]
      rfl
  · rw [List.map_append, List.mem_append, not_or] at hq
    rw [Function.update_of_ne fun hp => hq.2 (by simp [hp]), hframe q hq.1]

omit [DecidableEq K] in
/-- A new key goes to the end. -/
theorem Represents.insertNew (h : Represents hasher m es) {key : K} (hkey : ∀ e ∈ es, e.2.1 ≠ key) (value : V)
    (hgrow : overloaded m.size (capacityAt m.capacityIdx) → m.capacityIdx + 1 < hashTableSizeMax) :
    ∃ p m', m.insertNew key value (hashOf hasher key) false = some (p, m') ∧
      Represents hasher m' (es ++ [(p, key, value)]) ∧ m'.capacityIdx =
        if overloaded m.size (capacityAt m.capacityIdx) then m.capacityIdx + 1 else m.capacityIdx := by
  obtain ⟨m₂, hm₂, h₂, hroom, hsome, hidx⟩ := h.makeRoom hgrow
  obtain ⟨slots, hslots⟩ := Option.isSome_iff_exists.mp hsome
  obtain ⟨heap, hlink, hseg, hframe⟩ := h₂.linkElement key value
  obtain ⟨hsound, hperm⟩ := h₂.slots slots hslots
  have hcount : (occupied slots).length = es.length := by rw [hperm.length_eq, List.length_map]
  obtain ⟨slots', hins, hsound', hperm'⟩ := insertElement_spec (x := ⟨hashOf hasher key, m₂.fresh⟩) hsound h₂.idx
    (hashOf_ne key) (hashOf_lt key) (by omega)
  have hnew : m₂.fresh ∉ es.map Prod.fst := fun hp => Nat.lt_irrefl _ (h₂.fresh _ hp)
  have hmem : ∀ {p : Nat}, p ∈ (es ++ [(m₂.fresh, key, value)]).map Prod.fst ↔
      p ∈ es.map Prod.fst ∨ p = m₂.fresh := by
    intro p
    rw [List.map_append, List.mem_append, List.map_singleton, List.mem_singleton]
  refine ⟨m₂.fresh, { m₂ with
      heap := heap
      fresh := m₂.fresh + 1
      headElement := firstOf (es ++ [(m₂.fresh, key, value)]) none
      tailElement := some m₂.fresh
      slots := some slots'
      size := m₂.size + 1 }, ?_, ?_, hidx⟩
  · rw [InsertionOrderedHashMap.insertNew, hm₂]
    simp only [Option.bind_eq_bind, Option.bind_some, hlink, hslots, Option.getD_some, hins]
  · exact
      { minIdx := h₂.minIdx
        idx := h₂.idx
        linked := hseg
        head := rfl
        tail := lastOf_concat.symm
        addresses := by
          rw [List.map_append, List.nodup_append]
          refine ⟨h₂.addresses, List.nodup_singleton _, fun p hp q hq he => hnew ?_⟩
          have hq' : q = m₂.fresh := List.mem_singleton.mp hq
          rwa [← hq', ← he]
        alive := fun p hp => by
          refine (hframe p hp).trans ?_
          exact h₂.alive p fun hq => hp (hmem.mpr (.inl hq))
        fresh := fun p hp => by
          rcases hmem.mp hp with hp | rfl
          · exact (h₂.fresh p hp).trans (Nat.lt_succ_self _)
          · exact Nat.lt_succ_self _
        keys := by
          rw [List.map_append, List.nodup_append]
          refine ⟨h₂.keys, List.nodup_singleton _, fun k hk k' hk' he => ?_⟩
          obtain ⟨e, hmem, rfl⟩ := List.mem_map.mp hk
          exact hkey e hmem (he.trans (List.mem_singleton.mp hk'))
        size := by rw [List.length_append, List.length_singleton, ← h₂.size]
        room := by rw [List.length_append, List.length_singleton]; exact hroom
        slots := fun slots hs => by
          cases hs
          refine ⟨hsound', hperm'.trans ?_⟩
          rw [List.map_append]
          exact (hperm.cons _).trans (List.perm_append_singleton _ _).symm
        unallocated := fun hs => by cases hs }

omit [DecidableEq K] in
/-- An element keeps its place when its value changes. -/
theorem Represents.setSecond {a b : List (Nat × K × V)} {p : Nat} {v : V}
    (h : Represents hasher m (a ++ (p, key, v) :: b)) (w : V) :
    ∃ m', m.setSecond p w = some m' ∧ Represents hasher m' (a ++ (p, key, w) :: b) := by
  have hmap : ∀ {β : Type} (f : Nat × K × V → β), f (p, key, w) = f (p, key, v) →
      (a ++ (p, key, w) :: b).map f = (a ++ (p, key, v) :: b).map f := by
    intro β f hf
    rw [List.map_append, List.map_append, List.map_cons, List.map_cons, hf]
  have haddr := hmap Prod.fst rfl
  obtain ⟨n, hn, hd⟩ := h.data (e := (p, key, v)) (by simp)
  have hseg := h.linked.setData (key, w) h.addresses
  rw [hn] at hseg
  refine ⟨{ m with heap := Function.update m.heap p (some { n with data := (key, w) }) }, ?_, ?_⟩
  · rw [InsertionOrderedHashMap.setSecond, hn, Option.map_some, hd]
  · exact
      { h with
        linked := hseg
        head := by rw [h.head, firstOf_append, firstOf_append]; rfl
        tail := by rw [h.tail, lastOf_append, lastOf_append]; rfl
        addresses := by rw [haddr]; exact h.addresses
        alive := fun q hq => by
          rw [haddr] at hq
          refine (Function.update_of_ne ?_ _ _).trans (h.alive q hq)
          rintro rfl
          exact hq (by simp)
        fresh := by rw [haddr]; exact h.fresh
        keys := by rw [hmap (fun e => e.2.1) rfl]; exact h.keys
        size := by rw [h.size, List.length_append, List.length_append]; rfl
        room := by
          have := h.room
          rwa [List.length_append] at this ⊢
        slots := fun slots hs => by
          rw [hmap (slotOf hasher) rfl]
          exact h.slots slots hs
        unallocated := fun hs => absurd (h.unallocated hs) (by simp) }

/-! ### Erasure -/

omit [DecidableEq K] in
/-- The element leaves the list, and its slot was cleared. -/
theorem Represents.deleteElement {a b : List (Nat × K × V)} {e : Nat × K × V} {slots : List HashSlot}
    (h : Represents hasher m (a ++ e :: b)) (hsound : Sound m.capacityIdx slots)
    (hperm : (occupied slots).Perm ((a ++ b).map (slotOf hasher))) :
    ∃ m', { m with slots := some slots }.deleteElement e.1 = some m' ∧
      Represents hasher { m' with size := m'.size - 1 } (a ++ b) := by
  obtain ⟨p, key, v⟩ := e
  have hnd := h.addresses
  rw [List.map_append, List.map_cons, List.nodup_append, List.nodup_cons] at hnd
  obtain ⟨hnda, ⟨hpb, hndb⟩, hdis⟩ := hnd
  have hpa : p ∉ a.map Prod.fst := fun hp => hdis p hp p List.mem_cons_self rfl
  obtain ⟨-, hp, -⟩ := segment_append.mp h.linked
  obtain ⟨s₁, s₂, hs₁, hs₂, hseg, hframe⟩ := h.linked.unlink h.addresses
  have hout : p ∉ (a ++ b).map Prod.fst := by
    rw [List.map_append, List.mem_append, not_or]
    exact ⟨hpa, hpb⟩
  have hsub : (a ++ b).Sublist (a ++ (p, key, v) :: b) := (List.sublist_cons_self _ _).append_left a
  refine ⟨{ m with
      slots := some slots
      headElement := if m.headElement = some p then firstOf b none else m.headElement
      tailElement := if m.tailElement = some p then lastOf none a else m.tailElement
      heap := Function.update s₂ p none }, ?_, ?_⟩
  · simp only [InsertionOrderedHashMap.deleteElement, Option.bind_eq_bind, hp, Option.bind_some, hs₁, hs₂]
  · exact
      { minIdx := h.minIdx
        idx := h.idx
        linked := hseg.congr fun q hq => by
          refine Function.update_of_ne ?_ _ _
          rintro rfl
          exact hout hq
        head := by
          rw [h.head]
          exact firstOf_unlink hpa
        tail := by
          rw [h.tail]
          exact lastOf_unlink hpb
        addresses := h.addresses.sublist (hsub.map _)
        alive := fun q hq => by
          by_cases hqp : q = p
          · rw [hqp]
            exact Function.update_self _ _ _
          · refine (Function.update_of_ne hqp _ _).trans ((hframe q hq).trans (h.alive q fun hmem => ?_))
            rw [List.map_append, List.mem_append, not_or] at hq
            rw [List.map_append, List.map_cons, List.mem_append, List.mem_cons] at hmem
            exact hmem.elim hq.1 fun hm => hm.elim hqp hq.2
        fresh := fun q hq => h.fresh q ((hsub.map Prod.fst).subset hq)
        keys := h.keys.sublist (hsub.map _)
        size := by
          show m.size - 1 = _
          rw [h.size, List.length_append, List.length_append, List.length_cons]
          omega
        room := (hsub.length_le).trans_lt h.room
        slots := fun slots' hs' => by
          cases hs'
          exact ⟨hsound, hperm⟩
        unallocated := fun hs => by cases hs }

/-- The key goes, and with it its element. -/
theorem Represents.erase (h : Represents hasher m es) (key : K) :
    (∃ a e b m', es = a ++ e :: b ∧ e.2.1 = key ∧ m.erase hasher key = some (true, m') ∧
      Represents hasher m' (a ++ b)) ∨
    ((∀ e ∈ es, e.2.1 ≠ key) ∧ m.erase hasher key = some (false, m)) := by
  rw [InsertionOrderedHashMap.erase]
  rcases h.lookup key with ⟨e, he, hk, slots, i, hs, hget, hlook⟩ | ⟨hno, hlook⟩
  · left
    obtain ⟨a, b, rfl⟩ := List.append_of_mem he
    obtain ⟨hsound, hperm⟩ := h.slots slots hs
    obtain ⟨h5, h31, -⟩ := capacity_facts _ h.idx
    have hi : i < capacityAt m.capacityIdx := by
      rw [← hsound.length]
      exact (List.getElem?_eq_some_iff.mp hget).1
    have ht : table slots i = some (slotOf hasher e) := table_of_getElem hget (hashOf_ne _)
    -- the gap is the slot behind this position
    have hgap : (i + capacityAt m.capacityIdx - 1 + 1) % capacityAt m.capacityIdx = i := by
      rw [Nat.sub_add_cancel (by omega), Nat.add_mod_right, Nat.mod_eq_of_lt hi]
    have hnext : (i + capacityAt m.capacityIdx - 1 + 2) % capacityAt m.capacityIdx =
        (i + 1) % capacityAt m.capacityIdx := by
      rw [show i + capacityAt m.capacityIdx - 1 + 2 = i + 1 + capacityAt m.capacityIdx by omega, Nat.add_mod_right]
    have hcount : (occupied slots).length < slots.length := by
      rw [hperm.length_eq, List.length_map, hsound.length]
      exact h.room
    obtain ⟨k, hk', hempty⟩ := exists_empty hcount
    rw [hsound.length] at hk'
    obtain ⟨n, hn, hahead⟩ := exists_ahead hk' (i + capacityAt m.capacityIdx - 1 + 1)
    obtain ⟨n, rfl⟩ : ∃ n', n = n' + 1 := by
      cases n with
      | zero =>
        rw [Nat.add_zero, hgap] at hahead
        rw [← hahead, ht] at hempty
        cases hempty
      | succ n => exact ⟨n, rfl⟩
    obtain ⟨slots', i', hshift, hget', hperm', hsound'⟩ := shiftBack_spec h.idx (capacityAt m.capacityIdx) slots
      (slotOf hasher e) (i + capacityAt m.capacityIdx - 1) n hsound.length hsound.hash_lt (by rw [hgap, hget])
      (hashOf_ne _) (by rw [hgap]; have := hsound.ordered.gap (by omega) (i + capacityAt m.capacityIdx - 1); rwa [hgap] at this)
      (by omega) (by omega)
      (by rw [show i + capacityAt m.capacityIdx - 1 + 2 + n = i + capacityAt m.capacityIdx - 1 + 1 + (n + 1) by omega,
            hahead, hempty])
    rw [hgap, hnext] at hshift
    have hcleared : (occupied (slots'.set i' ⟨emptyHash, e.1⟩)).Perm ((a ++ b).map (slotOf hasher)) := by
      have h1 := occupied_clear (x := ⟨emptyHash, e.1⟩) hget' (hashOf_ne _) rfl
      have h2 := h1.symm.trans (hperm'.trans hperm)
      rw [List.map_append, List.map_cons] at h2
      rw [List.map_append]
      exact List.Perm.cons_inv (h2.trans List.perm_middle)
    obtain ⟨m', hm', hrep⟩ := h.deleteElement (hsound' ⟨emptyHash, e.1⟩ rfl) hcleared
    refine ⟨a, e, b, _, rfl, hk, ?_, hrep⟩
    simp only [hlook, Option.bind_eq_bind, Option.bind_some, hs, Option.getD_some,
      fastmod_eq h.idx (show i + 1 < 2 ^ 32 by omega), hshift, hget']
    rw [slotOf, hm']
    rfl
  · exact .inr ⟨hno, by rw [hlook]; rfl⟩

/-! ### Calls -/

/-- The association list of the elements. -/
def listOf (es : List (Nat × K × V)) : List (K × V) := es.map Prod.snd

omit [DecidableEq K] in
theorem Represents.listOf_nodup (h : Represents hasher m es) : ((listOf es).map Prod.fst).Nodup := by
  rw [listOf, List.map_map]
  exact h.keys

omit [DecidableEq K] in
theorem not_mem_listOf (h : ∀ e ∈ es, e.2.1 ≠ key) : key ∉ (listOf es).map Prod.fst := by
  rw [listOf, List.map_map]
  intro hk
  obtain ⟨e, he, hke⟩ := List.mem_map.mp hk
  exact h e he hke

theorem lookup_listOf_none (h : ∀ e ∈ es, e.2.1 ≠ key) : (listOf es).lookup key = none := by
  rw [List.lookup_eq_none_iff]
  intro p hp
  obtain ⟨e, he, rfl⟩ := List.mem_map.mp hp
  exact bne_iff_ne.mpr (Ne.symm (h e he))

section Middle

variable {a b : List (Nat × K × V)} {v : V} {p : Nat}

omit [DecidableEq K] in
theorem Represents.not_before (h : Represents hasher m (a ++ (p, key, v) :: b)) : ∀ e ∈ a ++ b, e.2.1 ≠ key := by
  have hk := h.keys
  rw [List.map_append, List.map_cons, List.nodup_append, List.nodup_cons] at hk
  intro e he hke
  rcases List.mem_append.mp he with he | he
  · exact hk.2.2 key (List.mem_map.mpr ⟨e, he, hke⟩) key List.mem_cons_self rfl
  · exact hk.2.1.1 (List.mem_map.mpr ⟨e, he, hke⟩)

theorem Represents.assign_listOf (h : Represents hasher m (a ++ (p, key, v) :: b)) (w : V) :
    assign (listOf (a ++ (p, key, v) :: b)) key w = listOf (a ++ (p, key, w) :: b) := by
  have hno : key ∉ (listOf a).map Prod.fst := not_mem_listOf fun e he => h.not_before e (List.mem_append_left _ he)
  rw [listOf, listOf, List.map_append, List.map_append]
  exact assign_middle v w hno

theorem Represents.lookup_listOf (h : Represents hasher m (a ++ (p, key, v) :: b)) :
    (listOf (a ++ (p, key, v) :: b)).lookup key = some v := by
  rw [← h.assign_listOf v, lookup_assign, if_pos rfl]

theorem Represents.unassign_listOf (h : Represents hasher m (a ++ (p, key, v) :: b)) :
    unassign (listOf (a ++ (p, key, v) :: b)) key = listOf (a ++ b) := by
  have hno := not_mem_listOf h.not_before
  have hall : ∀ q ∈ listOf (a ++ b), decide (q.1 ≠ key) = true := fun q hq =>
    decide_eq_true fun hk => hno (hk ▸ List.mem_map_of_mem hq)
  rw [← List.filter_eq_self.mpr hall, unassign, listOf, listOf, List.map_append, List.map_append,
    List.filter_append, List.filter_append, List.map_cons, List.filter_cons_of_neg (by simp)]

end Middle

omit [DecidableEq K] in
theorem elementAt_eq {slots : List HashSlot} {i : Nat} (hs : m.slots = some slots)
    (hget : slots[i]? = some (slotOf hasher e)) : m.elementAt i = some e.1 := by
  rw [InsertionOrderedHashMap.elementAt, hs, Option.getD_some, hget]
  rfl

/-- `insert` assigns. -/
theorem Represents.insert (h : Represents hasher m es) (key : K) (value : V)
    (hgrow : overloaded m.size (capacityAt m.capacityIdx) → m.capacityIdx + 1 < hashTableSizeMax) :
    ∃ p m' es', m.insert hasher key value false = some (p, m') ∧ Represents hasher m' es' ∧
      (p, key, value) ∈ es' ∧ listOf es' = assign (listOf es) key value := by
  rw [InsertionOrderedHashMap.insert]
  rcases h.lookup key with ⟨⟨p, k, v⟩, he, hk, slots, i, hs, hget, hlook⟩ | ⟨hno, hlook⟩
  · obtain ⟨a, b, rfl⟩ := List.append_of_mem he
    cases hk
    obtain ⟨m', hm', hrep⟩ := h.setSecond value
    refine ⟨p, m', _, ?_, hrep, by simp, (h.assign_listOf value).symm⟩
    simp only [hlook, Option.bind_eq_bind, Option.bind_some, elementAt_eq hs hget, hm']
  · obtain ⟨p, m', hm', hrep, -⟩ := h.insertNew hno value hgrow
    refine ⟨p, m', _, ?_, hrep, by simp, ?_⟩
    · simp only [hlook, Option.bind_eq_bind, Option.bind_some, hm']
    · rw [assign_new _ (not_mem_listOf hno), listOf, List.map_append]
      rfl

/-- `operator[]` leads to the value, which is put there where there is none. -/
theorem Represents.index [Inhabited V] (h : Represents hasher m es) (key : K)
    (hgrow : overloaded m.size (capacityAt m.capacityIdx) → m.capacityIdx + 1 < hashTableSizeMax) :
    ∃ p m' es', m.index hasher key = some (p, m') ∧ Represents hasher m' es' ∧
      (p, key, ((listOf es).lookup key).getD default) ∈ es' ∧
      listOf es' = assign (listOf es) key (((listOf es).lookup key).getD default) := by
  rw [InsertionOrderedHashMap.index]
  rcases h.lookup key with ⟨⟨p, k, v⟩, he, hk, slots, i, hs, hget, hlook⟩ | ⟨hno, hlook⟩
  · obtain ⟨a, b, rfl⟩ := List.append_of_mem he
    cases hk
    rw [h.lookup_listOf, Option.getD_some]
    refine ⟨p, m, _, ?_, h, by simp, (h.assign_listOf v).symm⟩
    simp only [hlook, Option.bind_eq_bind, Option.bind_some, elementAt_eq hs hget, Option.map_some]
  · rw [lookup_listOf_none hno, Option.getD_none]
    obtain ⟨p, m', hm', hrep, -⟩ := h.insertNew hno default hgrow
    refine ⟨p, m', _, ?_, hrep, by simp, ?_⟩
    · simp only [hlook, Option.bind_eq_bind, Option.bind_some, hm']
    · rw [assign_new _ (not_mem_listOf hno), listOf, List.map_append]
      rfl

theorem Represents.find (h : Represents hasher m es) (key : K) :
    (∃ p v, m.find hasher key = some (some p) ∧ (p, key, v) ∈ es ∧ (listOf es).lookup key = some v) ∨
    (m.find hasher key = some none ∧ (listOf es).lookup key = none) := by
  rw [InsertionOrderedHashMap.find]
  rcases h.lookup key with ⟨⟨p, k, v⟩, he, hk, slots, i, hs, hget, hlook⟩ | ⟨hno, hlook⟩
  · obtain ⟨a, b, rfl⟩ := List.append_of_mem he
    cases hk
    refine .inl ⟨p, v, ?_, he, h.lookup_listOf⟩
    simp only [hlook, Option.bind_eq_bind, Option.bind_some, elementAt_eq hs hget, Option.map_some]
  · refine .inr ⟨?_, lookup_listOf_none hno⟩
    simp only [hlook, Option.bind_eq_bind, Option.bind_some]

omit [DecidableEq K] in
theorem Represents.clear (h : Represents hasher m es) : ∃ m', m.clear = some m' ∧ Represents hasher m' [] := by
  rw [InsertionOrderedHashMap.clear]
  cases hs : m.slots with
  | none =>
    obtain rfl := h.unallocated hs
    exact ⟨m, rfl, h⟩
  | some slots =>
    simp only []
    by_cases h0 : m.size = 0
    · rw [if_pos h0]
      obtain rfl := List.eq_nil_of_length_eq_zero (h.size.symm.trans h0)
      exact ⟨m, rfl, h⟩
    · rw [if_neg h0, h.tail]
      obtain ⟨s', hs', hfree⟩ := h.linked.release h.addresses (Nat.le_of_eq h.size.symm)
      have hmem : ∀ s ∈ slots.map fun s => (⟨emptyHash, s.element⟩ : HashSlot), s.hash = emptyHash := by
        intro s hmem
        obtain ⟨t, -, rfl⟩ := List.mem_map.mp hmem
        rfl
      refine ⟨_, by rw [hs']; rfl, ?_⟩
      exact
        { minIdx := h.minIdx
          idx := h.idx
          linked := trivial
          head := rfl
          tail := rfl
          addresses := List.nodup_nil
          alive := fun p _ => by
            refine (hfree p).trans ?_
            split_ifs with hp
            · rfl
            · exact h.alive p hp
          fresh := fun p hp => absurd hp List.not_mem_nil
          keys := List.nodup_nil
          size := rfl
          room := (Nat.zero_le _).trans_lt h.room
          slots := fun slots' hs' => by
            cases hs'
            have hnone : occupied (slots.map fun s => (⟨emptyHash, s.element⟩ : HashSlot)) = [] :=
              List.filter_eq_nil_iff.mpr fun s hs => by simpa using hmem s hs
            refine ⟨⟨by rw [List.length_map]; exact (h.slots slots hs).1.length, ordered_empty fun i => ?_,
              fun s hs => by rw [hmem s hs]; decide⟩, by rw [hnone]; exact List.Perm.refl _⟩
            cases hi : (slots.map fun s => (⟨emptyHash, s.element⟩ : HashSlot))[i]? with
            | none => rw [table, hi]; rfl
            | some s => exact table_empty hi (hmem s (List.mem_of_getElem? hi))
          unallocated := fun hs => by cases hs }

omit [DecidableEq K] in
theorem reserveIdx_spec {n : Nat} (hn : n ≤ capacityAt (hashTableSizeMax - 1)) (turns : Nat) : ∀ idx,
    idx < hashTableSizeMax → hashTableSizeMax ≤ turns + idx → ∃ j, reserveIdx n turns idx = some j ∧ idx ≤ j ∧
      j < hashTableSizeMax ∧ n ≤ capacityAt j ∧ ∀ i, idx ≤ i → i < j → capacityAt i < n := by
  induction turns with
  | zero => exact fun idx hidx ht => absurd hidx (by omega)
  | succ turns ih =>
    intro idx hidx ht
    rw [reserveIdx]
    by_cases hlt : capacityAt idx < n
    · have hmax : idx + 1 < hashTableSizeMax := by
        by_contra hge
        rw [show hashTableSizeMax - 1 = idx by omega] at hn
        omega
      rw [if_pos hlt, if_pos hmax]
      obtain ⟨j, hj, hle, hjmax, hcap, hbelow⟩ := ih (idx + 1) hmax (by omega)
      refine ⟨j, hj, by omega, hjmax, hcap, fun i hi hij => ?_⟩
      rcases Nat.lt_or_eq_of_le hi with hi | rfl
      · exact hbelow i hi hij
      · exact hlt
    · rw [if_neg hlt]
      exact ⟨idx, rfl, Nat.le_refl _, hidx, by omega, fun i hi hij => absurd hij (by omega)⟩

omit [DecidableEq K] in
/-- The map takes room for at least so many. -/
theorem Represents.reserve (h : Represents hasher m es) {n : Nat} (hn : n ≤ capacityAt (hashTableSizeMax - 1)) :
    ∃ m', m.reserve n = some m' ∧ Represents hasher m' es := by
  obtain ⟨j, hj, hle, hmax, -, -⟩ := reserveIdx_spec hn hashTableSizeMax m.capacityIdx h.idx (Nat.le_add_right _ _)
  simp only [InsertionOrderedHashMap.reserve, hj, Option.bind_eq_bind, Option.bind_some]
  by_cases he : j = m.capacityIdx
  · exact ⟨m, if_pos he, h⟩
  · have hlt : m.capacityIdx < j := by omega
    rw [if_neg he]
    cases hs : m.slots with
    | none =>
      exact ⟨_, rfl,
        { h with
          minIdx := h.minIdx.trans hle
          idx := hmax
          room := h.room.trans (capacity_strict hlt hmax)
          slots := fun slots hs' => (by cases hs')
          unallocated := fun _ => h.unallocated hs }⟩
    | some slots =>
      obtain ⟨m', hm', hrep, -, -⟩ := h.grow hs hlt hmax
      exact ⟨m', hm', hrep⟩

omit [DecidableEq K] in
theorem represents_create {idx : Nat} (hmin : minCapacityIndex ≤ idx) (hidx : idx < hashTableSizeMax) :
    Represents hasher (create idx : InsertionOrderedHashMap K V) [] where
  minIdx := hmin
  idx := hidx
  linked := trivial
  head := rfl
  tail := rfl
  addresses := List.nodup_nil
  alive := fun _ _ => rfl
  fresh := fun p hp => absurd hp List.not_mem_nil
  keys := List.nodup_nil
  size := rfl
  room := by
    have h5 := (capacity_facts idx hidx).1
    rw [List.length_nil]
    show 0 < capacityAt idx
    omega
  slots := fun _ hs => by cases hs
  unallocated := fun _ => rfl

omit [DecidableEq K] in
theorem Represents.items (h : Represents hasher m es) : m.items = some (listOf es) := by
  rw [InsertionOrderedHashMap.items, h.head, h.size]
  exact h.linked.walk (Nat.le_refl _)

omit [DecidableEq K] in
theorem Represents.itemsBack (h : Represents hasher m es) : m.itemsBack = some (listOf es).reverse := by
  rw [InsertionOrderedHashMap.itemsBack, h.tail, h.size]
  exact h.linked.walkBack (Nat.le_refl _)

/-- The loop of the copy constructor: the table grows at most once. -/
theorem Represents.insertAll {N : Nat} (hN : N + 1 < hashTableSizeMax) (l : List (K × V)) :
    ∀ {m : InsertionOrderedHashMap K V} {es : List (Nat × K × V)}, Represents hasher m es →
      m.capacityIdx = N ∨ m.capacityIdx = N + 1 → es.length + l.length < capacityAt N →
      (l.map Prod.fst).Nodup → (∀ p ∈ l, ∀ e ∈ es, e.2.1 ≠ p.1) →
      ∃ m' es', l.foldlM (fun m e => (m.insert hasher e.1 e.2 false).map Prod.snd) m = some m' ∧
        Represents hasher m' es' ∧ listOf es' = listOf es ++ l := by
  induction l with
  | nil => exact fun h _ _ _ _ => ⟨_, _, rfl, h, (List.append_nil _).symm⟩
  | cons x l ih =>
    intro m es h hidx hlen hnd hnew
    rw [List.length_cons] at hlen
    rw [List.map_cons, List.nodup_cons] at hnd
    have hover : m.capacityIdx = N + 1 → ¬ overloaded m.size (capacityAt m.capacityIdx) := by
      intro he
      rw [he, h.size]
      exact not_overloaded_succ hN (by omega)
    have hgrow : overloaded m.size (capacityAt m.capacityIdx) → m.capacityIdx + 1 < hashTableSizeMax := by
      intro ho
      rcases hidx with he | he
      · rwa [he]
      · exact absurd ho (hover he)
    have hno := hnew x List.mem_cons_self
    obtain ⟨p, m', hm', hrep, hidx'⟩ := h.insertNew hno x.2 hgrow
    have hins : m.insert hasher x.1 x.2 false = some (p, m') := by
      rcases h.lookup x.1 with ⟨e, he, hk, -⟩ | ⟨-, hlook⟩
      · exact absurd hk (hno e he)
      · simp only [InsertionOrderedHashMap.insert, hlook, Option.bind_eq_bind, Option.bind_some, hm']
    have hnext : m'.capacityIdx = N ∨ m'.capacityIdx = N + 1 := by
      rw [hidx']
      split_ifs with ho
      · rcases hidx with he | he
        · exact .inr (by rw [he])
        · exact absurd ho (hover he)
      · exact hidx
    obtain ⟨m'', es', hfold, hrep', hlist⟩ := ih hrep hnext
      (by rw [List.length_append, List.length_singleton]; omega) hnd.2 (fun q hq e he hk => by
        rcases List.mem_append.mp he with he | he
        · exact hnew q (List.mem_cons_of_mem _ hq) e he hk
        · obtain rfl := List.mem_singleton.mp he
          exact hnd.1 (List.mem_map.mpr ⟨q, hq, hk.symm⟩))
    refine ⟨m'', es', ?_, hrep', ?_⟩
    · rw [List.foldlM_cons, hins]
      exact hfold
    · rw [hlist, listOf, listOf, List.map_append, List.append_assoc]
      rfl

/-- The copy holds the same elements in the same order. -/
theorem Represents.copy (h : Represents hasher m es) (hN : m.capacityIdx + 1 < hashTableSizeMax) :
    ∃ m' es', m.copy hasher = some m' ∧ Represents hasher m' es' ∧ listOf es' = listOf es := by
  have hmin : capacityAt m.capacityIdx ≤ capacityAt (hashTableSizeMax - 1) :=
    capacity_mono (by omega) (by decide)
  obtain ⟨j, hj, -, hjmax, hcap, hbelow⟩ := reserveIdx_spec hmin hashTableSizeMax 0 (by decide) (Nat.le_refl _)
  have hjm : j = m.capacityIdx := by
    rcases Nat.lt_trichotomy j m.capacityIdx with hlt | rfl | hlt
    · exact absurd (capacity_strict hlt h.idx) (Nat.not_lt.mpr hcap)
    · rfl
    · exact absurd (hbelow _ (Nat.zero_le _) hlt) (Nat.lt_irrefl _)
  have hne : m.capacityIdx ≠ 0 := fun h0 => absurd (h0 ▸ h.minIdx) (by decide)
  have hres : (create 0 : InsertionOrderedHashMap K V).reserve (capacityAt m.capacityIdx) =
      some (create m.capacityIdx) := by
    rw [hjm] at hj
    simp only [InsertionOrderedHashMap.reserve, create, hj, Option.bind_eq_bind, Option.bind_some]
    exact if_neg hne
  have hfresh : Represents hasher (create m.capacityIdx : InsertionOrderedHashMap K V) [] :=
    represents_create h.minIdx h.idx
  rw [InsertionOrderedHashMap.copy, hres]
  simp only [Option.bind_eq_bind, Option.bind_some]
  by_cases h0 : m.size = 0
  · obtain rfl := List.eq_nil_of_length_eq_zero (h.size.symm.trans h0)
    exact ⟨_, [], if_pos h0, hfresh, rfl⟩
  · rw [if_neg h0, h.items]
    obtain ⟨m', es', hfold, hrep, hlist⟩ := hfresh.insertAll hN (listOf es) (.inl rfl)
      (by rw [List.length_nil, Nat.zero_add, listOf, List.length_map]; exact h.room) h.listOf_nodup
      (fun _ _ e he => absurd he List.not_mem_nil)
    exact ⟨m', es', hfold, hrep, hlist⟩

end InsertionOrderedHashMap

/-! ### Runs -/

namespace InsertionOrderedHashMap

open RobinHood

variable {K V : Type} [DecidableEq K] [Inhabited V] (hasher : K → UInt32)

/-- A call on an association list. -/
def onList (l : List (K × V)) : HashMapOp K V → HashMapReply K V × List (K × V)
  | .insert key value => (.element (some (key, value)), assign l key value)
  | .index key =>
    (.element (some (key, (l.lookup key).getD default)), assign l key ((l.lookup key).getD default))
  | .assign key value => (.element (some (key, value)), assign l key value)
  | .erase key => (.erased (decide (key ∈ l.map Prod.fst)), unassign l key)
  | .find key => (.element ((l.lookup key).map fun v => (key, v)), l)
  | .reserve _ => (.done, l)
  | .copy => (.done, l)
  | .clear => (.done, [])

/-- The map is below the largest size, so that it can grow as the call may need. -/
def Below (m : InsertionOrderedHashMap K V) : HashMapOp K V → Prop
  | .insert _ _ | .index _ | .assign _ _ | .copy => m.capacityIdx + 1 < hashTableSizeMax
  | .reserve newCapacity => newCapacity ≤ capacityAt (hashTableSizeMax - 1)
  | _ => True

def Step (m : InsertionOrderedHashMap K V) (op : HashMapOp K V) (m' : InsertionOrderedHashMap K V) : Prop :=
  ∃ reply, m.exec hasher op = some (reply, m')

/-- An element that is reached: from its home slot to its own there is no empty slot and none with a smaller
probe distance. -/
def Reached (m : InsertionOrderedHashMap K V) (elem : Nat) : Prop :=
  ∃ slots s i, m.slots = some slots ∧ slots[i]? = some s ∧ s.element = elem ∧ s.hash ≠ emptyHash ∧
    (s.hash + getProbeLength m.capacityIdx i s.hash) % capacityAt m.capacityIdx = i ∧
    ∀ d ≤ getProbeLength m.capacityIdx i s.hash, ∃ s',
      slots[(s.hash + d) % capacityAt m.capacityIdx]? = some s' ∧ s'.hash ≠ emptyHash ∧
      d ≤ getProbeLength m.capacityIdx ((s.hash + d) % capacityAt m.capacityIdx) s'.hash

variable {hasher} {m m' : InsertionOrderedHashMap K V} {es : List (Nat × K × V)}

omit [DecidableEq K] [Inhabited V] in
theorem Represents.reached (h : Represents hasher m es) {p : Nat} (hp : m.heap p ≠ none) : m.Reached p := by
  have hmem : p ∈ es.map Prod.fst := by
    by_contra hno
    exact hp (h.alive p hno)
  obtain ⟨e, he, rfl⟩ := List.mem_map.mp hmem
  cases hs : m.slots with
  | none =>
    rw [h.unallocated hs] at he
    cases he
  | some slots =>
    obtain ⟨hsound, hperm⟩ := h.slots slots hs
    have hpos := (Nat.zero_le _).trans_lt h.room
    obtain ⟨i, ht⟩ := mem_occupied.mp (hperm.symm.subset (List.mem_map_of_mem he))
    obtain ⟨hget, hne⟩ := table_some.mp ht
    have hi : i < capacityAt m.capacityIdx := by
      rw [← hsound.length]
      exact (List.getElem?_eq_some_iff.mp hget).1
    have hprobe := getProbeLength_eq (s := slotOf hasher e) h.idx hi (hashOf_lt _)
    refine ⟨slots, _, i, hs, hget, rfl, hne, ?_, fun d hd => ?_⟩
    · rw [hprobe, ← Nat.mod_add_mod]
      exact home_add_probe hi (homeOf_lt h.idx _)
    · rw [hprobe] at hd
      have hreach := hsound.ordered.reach hi ht (homeOf_lt h.idx _) hd
      rw [homeOf, rank_congr (Nat.mod_add_mod _ _ _)] at hreach
      cases ht' : table slots (((slotOf hasher e).hash + d) % capacityAt m.capacityIdx) with
      | none =>
        rw [rank_none ht'] at hreach
        exact absurd hreach (Nat.not_lt_zero _)
      | some s' =>
        obtain ⟨hget', hne'⟩ := table_some.mp ht'
        rw [rank_some ht'] at hreach
        refine ⟨s', hget', hne', ?_⟩
        rw [getProbeLength_eq h.idx (Nat.mod_lt _ hpos) (hsound.hash_lt s' (List.mem_of_getElem? hget'))]
        exact Nat.le_of_lt_succ hreach

omit [DecidableEq K] [Inhabited V] in
theorem Represents.read (h : Represents hasher m es) {p : Nat} {e : K × V} (he : (p, e) ∈ es) :
    m.read p = some (.element (some e)) := by
  obtain ⟨n, hn, hd⟩ := h.data he
  rw [InsertionOrderedHashMap.read, hn, Option.map_some, hd]

/-- **A call does on the map what it does on the list.** -/
theorem Represents.exec (h : Represents hasher m es) (op : HashMapOp K V) (hb : m.Below op) :
    ∃ m' es', m.exec hasher op = some ((onList (listOf es) op).1, m') ∧ Represents hasher m' es' ∧
      listOf es' = (onList (listOf es) op).2 := by
  cases op with
  | insert key value =>
    obtain ⟨p, m', es', hm', hrep, hmem, hlist⟩ := h.insert key value fun _ => hb
    refine ⟨m', es', ?_, hrep, hlist⟩
    simp only [InsertionOrderedHashMap.exec, hm', Option.bind_eq_bind, Option.bind_some, hrep.read hmem,
      onList]
  | index key =>
    obtain ⟨p, m', es', hm', hrep, hmem, hlist⟩ := h.index key fun _ => hb
    refine ⟨m', es', ?_, hrep, hlist⟩
    simp only [InsertionOrderedHashMap.exec, hm', Option.bind_eq_bind, Option.bind_some, hrep.read hmem,
      onList]
  | assign key value =>
    obtain ⟨p, m', es', hm', hrep, hmem, hlist⟩ := h.index key fun _ => hb
    obtain ⟨a, b, rfl⟩ := List.append_of_mem hmem
    obtain ⟨m'', hm'', hrep'⟩ := hrep.setSecond value
    refine ⟨m'', _, ?_, hrep', ?_⟩
    · simp only [InsertionOrderedHashMap.exec, hm', hm'', Option.bind_eq_bind, Option.bind_some,
        hrep'.read (List.mem_append_right a List.mem_cons_self), onList]
    · rw [← hrep.assign_listOf value, hlist, onList]
      exact assign_assign _ _ _ _
  | erase key =>
    rcases h.erase key with ⟨a, ⟨p, k, v⟩, b, m', rfl, hk, hm', hrep⟩ | ⟨hno, hm'⟩
    · cases hk
      refine ⟨m', _, ?_, hrep, h.unassign_listOf.symm⟩
      have hmem : k ∈ (listOf (a ++ (p, k, v) :: b)).map Prod.fst := by simp [listOf]
      simp only [InsertionOrderedHashMap.exec, hm', Option.map_some, onList, decide_eq_true hmem]
    · refine ⟨m, es, ?_, h, ?_⟩
      · simp only [InsertionOrderedHashMap.exec, hm', Option.map_some, onList,
          decide_eq_false (not_mem_listOf hno)]
      · have hall : ∀ q ∈ listOf es, decide (q.1 ≠ key) = true := fun q hq =>
          decide_eq_true fun hk => not_mem_listOf hno (hk ▸ List.mem_map_of_mem hq)
        exact (List.filter_eq_self.mpr hall).symm
  | find key =>
    rcases h.find key with ⟨p, v, hm', hmem, hlook⟩ | ⟨hm', hlook⟩
    · refine ⟨m, es, ?_, h, rfl⟩
      simp only [InsertionOrderedHashMap.exec, hm', Option.bind_eq_bind, Option.bind_some, h.read hmem,
        onList, hlook, Option.map_some]
    · refine ⟨m, es, ?_, h, rfl⟩
      simp only [InsertionOrderedHashMap.exec, hm', Option.bind_eq_bind, Option.bind_some, onList, hlook,
        Option.map_none]
  | reserve n =>
    obtain ⟨m', hm', hrep⟩ := h.reserve hb
    refine ⟨m', es, ?_, hrep, rfl⟩
    simp only [InsertionOrderedHashMap.exec, hm', Option.map_some, onList]
  | copy =>
    obtain ⟨m', es', hm', hrep, hlist⟩ := h.copy hb
    refine ⟨m', es', ?_, hrep, hlist⟩
    simp only [InsertionOrderedHashMap.exec, hm', Option.map_some, onList]
  | clear =>
    obtain ⟨m', hm', hrep⟩ := h.clear
    refine ⟨m', [], ?_, hrep, rfl⟩
    simp only [InsertionOrderedHashMap.exec, hm', Option.map_some, onList]

/-- The elements after these calls are what the calls make of the empty list. -/
def Follows (hasher : K → UInt32) (ops : List (HashMapOp K V)) (m : InsertionOrderedHashMap K V) : Prop :=
  ∃ es, Represents hasher m es ∧ listOf es = ops.foldl (fun l op => (onList l op).2) []

theorem Follows.step {ops : List (HashMapOp K V)} {op : HashMapOp K V} (h : Follows hasher ops m)
    (hs : Guarded Below (Step hasher) m op m') : Follows hasher (ops ++ [op]) m' := by
  obtain ⟨es, hrep, hlist⟩ := h
  obtain ⟨hb, reply, hstep⟩ := hs
  obtain ⟨m₁, es', hm₁, hrep', hlist'⟩ := hrep.exec op hb
  rw [hm₁] at hstep
  cases hstep
  refine ⟨es', hrep', ?_⟩
  rw [List.foldl_append, List.foldl_cons, List.foldl_nil, ← hlist, hlist']

/-- **A map below the largest size is an insertion-ordered association list**: after any calls its size and
its iteration are those of the list, the next call returns what it returns on the list, and every element
is reached from its home slot. -/
theorem ordered_hashmap_refines {ops : List (HashMapOp K V)}
    (hr : Runs (Guarded Below (Step hasher)) (create minCapacityIndex) ops m) :
    let l := ops.foldl (fun l op => (onList l op).2) []
    m.size = l.length ∧ m.items = some l ∧ m.itemsBack = some l.reverse ∧
      (∀ op, m.Below op → ∃ m', m.exec hasher op = some ((onList l op).1, m')) ∧
      ∀ p, m.heap p ≠ none → m.Reached p := by
  have hstart : Follows hasher ([] : List (HashMapOp K V)) (create minCapacityIndex) :=
    ⟨[], represents_create (Nat.le_refl _) (by decide), rfl⟩
  obtain ⟨es, h, hlist⟩ := Runs.along (I := Follows hasher) (fun hi hs => hi.step hs) hr hstart
  rw [List.nil_append] at hlist
  rw [← hlist]
  refine ⟨by rw [h.size, listOf, List.length_map], h.items, h.itemsBack, fun op hb => ?_, fun p hp => h.reached hp⟩
  obtain ⟨m', es', hm', -, -⟩ := h.exec op hb
  exact ⟨m', hm'⟩

/-- All keys have one hash. -/
theorem ordered_hashmap_sample : ∃ m : InsertionOrderedHashMap Nat Nat, m.size = 2 ∧
    m.items = some [(4, 40), (1, 30)] ∧
      ∃ m', m.exec (fun _ => 7) (.find 4) = some (.element (some (4, 40)), m') := by
  have hr : ∃ m, Runs (Guarded Below (Step fun _ => 7)) (create minCapacityIndex)
      [.insert 1 10, .insert 4 40, .erase 1, .insert 1 30] m :=
    ⟨_, .cons ⟨Nat.le_of_ble_eq_true rfl, _, rfl⟩ (.cons ⟨Nat.le_of_ble_eq_true rfl, _, rfl⟩
      (.cons ⟨trivial, _, rfl⟩ (.single ⟨Nat.le_of_ble_eq_true rfl, _, rfl⟩)))⟩
  obtain ⟨m, hr⟩ := hr
  obtain ⟨hs, hi, -, hc, -⟩ := ordered_hashmap_refines hr
  exact ⟨m, hs, hi, hc (.find 4) trivial⟩

end InsertionOrderedHashMap

end VersatileEngine
