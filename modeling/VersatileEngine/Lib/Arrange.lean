import Mathlib.Data.List.Basic
import Mathlib.Data.List.Nodup
import Mathlib.Data.List.Perm.Basic

/-!
# VersatileEngine.Lib.Arrange

Matching the elements of two lists by name and occurrence, and merging the second list into the
first.

* `keyed name l`  — each element with its key: its name, and how many of that name stand before it.
* `groups has`    — a keyed list cut behind each element whose key satisfies `has`.
* `arrange`       — the elements of the first list in their order, each joined with the element of
  the second list that has the same key. An element of the second list without partner goes
  directly before the partner of the next element that has one, or to the end.

Keys are distinct, so looking a key up is the same as scanning for the `k`-th element of that name
(`lookup_keyed`).
-/

set_option linter.unusedSectionVars false

namespace VersatileEngine

section Keyed

variable {α β κ : Type} [BEq κ] [LawfulBEq κ]

def keyedFrom (name : α → κ) : List κ → List α → List ((κ × Nat) × α)
  | _, [] => []
  | seen, a :: as => ((name a, seen.count (name a)), a) :: keyedFrom name (name a :: seen) as

/-- Every element with its name and the number of elements of that name before it. -/
def keyed (name : α → κ) (l : List α) : List ((κ × Nat) × α) := keyedFrom name [] l

theorem keyedFrom_map (name : β → κ) (g : α → β) (l : List α) :
    ∀ seen, keyedFrom name seen (l.map g) =
      (keyedFrom (fun a => name (g a)) seen l).map fun p => (p.1, g p.2) := by
  induction l with
  | nil => intro seen; rfl
  | cons a l ih => intro seen; simp [keyedFrom, ih]

theorem keyed_map (name : β → κ) (g : α → β) (l : List α) :
    keyed name (l.map g) = (keyed (fun a => name (g a)) l).map fun p => (p.1, g p.2) :=
  keyedFrom_map name g l []

@[simp] theorem keyedFrom_snd (name : α → κ) (l : List α) :
    ∀ seen, (keyedFrom name seen l).map Prod.snd = l := by
  induction l with
  | nil => intro seen; rfl
  | cons a l ih => intro seen; simp [keyedFrom, ih]

@[simp] theorem keyed_snd (name : α → κ) (l : List α) : (keyed name l).map Prod.snd = l :=
  keyedFrom_snd name l []

theorem mem_keyedFrom {name : α → κ} {l : List α} :
    ∀ {seen : List κ} {key : κ × Nat} {a : α}, (key, a) ∈ keyedFrom name seen l →
      name a = key.1 ∧ seen.count key.1 ≤ key.2 ∧ a ∈ l := by
  induction l with
  | nil => intro seen key a h; cases h
  | cons b l ih =>
    intro seen key a h
    rcases List.mem_cons.mp h with h | h
    · cases h
      exact ⟨rfl, Nat.le_refl _, by simp⟩
    · obtain ⟨h1, h2, h3⟩ := ih h
      refine ⟨h1, Nat.le_trans ?_ h2, List.mem_cons_of_mem _ h3⟩
      rw [List.count_cons]
      omega

theorem mem_of_keyed {name : α → κ} {l : List α} {key : κ × Nat} {a : α} (h : (key, a) ∈ keyed name l) : a ∈ l :=
  (mem_keyedFrom h).2.2

/-- A key that is ahead behind an element of that name was ahead before it, and is not its key. -/
theorem ahead_cons {nm : κ} {seen : List κ} {key : κ × Nat} (h : (nm :: seen).count key.1 ≤ key.2) :
    key ≠ (nm, seen.count nm) ∧ seen.count key.1 ≤ key.2 := by
  refine ⟨?_, Nat.le_trans (List.count_le_count_cons ..) h⟩
  rintro rfl
  simp only [List.count_cons_self] at h
  omega

theorem keyedFrom_key_notMem (name : α → κ) (seen : List κ) (a : α) (l : List α) :
    (name a, seen.count (name a)) ∉ (keyedFrom name (name a :: seen) l).map Prod.fst := fun h => by
  obtain ⟨⟨key, b⟩, hb, hk⟩ := List.mem_map.mp h
  exact (ahead_cons (mem_keyedFrom hb).2.1).1 hk

theorem keyedFrom_congr {name g : α → κ} {l : List α} (h : ∀ a ∈ l, name a = g a) :
    ∀ seen, keyedFrom name seen l = keyedFrom g seen l := by
  induction l with
  | nil => intro seen; rfl
  | cons a l ih =>
    intro seen
    rw [keyedFrom, keyedFrom, h a (by simp), ih fun b hb => h b (by simp [hb])]

theorem keyed_congr {name g : α → κ} {l : List α} (h : ∀ a ∈ l, name a = g a) :
    keyed name l = keyed g l :=
  keyedFrom_congr h []

theorem keyedFrom_nodup (name : α → κ) (l : List α) :
    ∀ seen, ((keyedFrom name seen l).map Prod.fst).Nodup := by
  induction l with
  | nil => intro seen; simp [keyedFrom]
  | cons a l ih =>
    intro seen
    simp only [keyedFrom, List.map_cons, List.nodup_cons]
    exact ⟨keyedFrom_key_notMem name seen a l, ih _⟩

theorem keyed_nodup (name : α → κ) (l : List α) : ((keyed name l).map Prod.fst).Nodup :=
  keyedFrom_nodup name l []

theorem lookup_keyedFrom (name : α → κ) (l : List α) :
    ∀ (seen : List κ) (nm : κ) (j : Nat), (keyedFrom name seen l).lookup (nm, j) =
      if j < seen.count nm then none else (l.filter fun a => name a == nm)[j - seen.count nm]? := by
  induction l with
  | nil => intro seen nm j; simp [keyedFrom]
  | cons a l ih =>
    intro seen nm j
    simp only [keyedFrom, List.lookup_cons, ih]
    by_cases hn : name a = nm
    · subst hn
      by_cases hj : j = seen.count (name a)
      · subst hj; simp
      · have hbeq : ((name a, j) == (name a, seen.count (name a))) = false := by simp [hj]
        rw [hbeq]
        simp only [List.count_cons_self]
        by_cases hlt : j < seen.count (name a)
        · simp [hlt, show j < seen.count (name a) + 1 by omega]
        · have e : j - seen.count (name a) = (j - (seen.count (name a) + 1)) + 1 := by omega
          simp [hlt, show ¬ j < seen.count (name a) + 1 by omega, e]
    · have hbeq : ((nm, j) == (name a, seen.count (name a))) = false := by simp [Ne.symm hn]
      rw [hbeq]
      simp [hn, List.count_cons_of_ne hn]

/-- Looking up a key finds the element of that name with that many of the name before it. -/
theorem lookup_keyed (name : α → κ) (l : List α) (nm : κ) (j : Nat) :
    (keyed name l).lookup (nm, j) = (l.filter fun a => name a == nm)[j]? := by
  simp [keyed, lookup_keyedFrom]

theorem lookup_isSome_keyed (name : α → κ) (l : List α) (nm : κ) (j : Nat) :
    ((keyed name l).lookup (nm, j)).isSome = true ↔ j < (l.map name).count nm := by
  rw [lookup_keyed, Option.isSome_iff_ne_none, Ne, List.getElem?_eq_none_iff, List.count,
    List.countP_map, List.countP_eq_length_filter, Nat.not_le]
  rfl

/-- Dropping, of every name, the elements from some number on keeps the keys of the others. -/
theorem keyedFrom_filter (name : α → κ) (most : κ → Nat) (l : List α) :
    ∀ seen seen' : List κ, (∀ nm, seen'.count nm = min (seen.count nm) (most nm)) →
      keyedFrom name seen' (((keyedFrom name seen l).filter fun p => p.1.2 < most p.1.1).map Prod.snd) =
        (keyedFrom name seen l).filter fun p => p.1.2 < most p.1.1 := by
  induction l with
  | nil => intro seen seen' _; rfl
  | cons a l ih =>
    intro seen seen' h
    simp only [keyedFrom]
    by_cases hlt : seen.count (name a) < most (name a)
    · have hcount : seen'.count (name a) = seen.count (name a) := by rw [h]; omega
      have hnext : ∀ nm, (name a :: seen').count nm = min ((name a :: seen).count nm) (most nm) := by
        intro nm
        by_cases hn : name a = nm
        · subst hn; simp only [List.count_cons_self]; omega
        · rw [List.count_cons_of_ne hn, List.count_cons_of_ne hn, h]
      simp only [hlt, decide_true, List.filter_cons_of_pos, List.map_cons, keyedFrom, hcount]
      rw [ih _ _ hnext]
    · have hnext : ∀ nm, seen'.count nm = min ((name a :: seen).count nm) (most nm) := by
        intro nm
        by_cases hn : name a = nm
        · subst hn; rw [h]; simp only [List.count_cons_self]; omega
        · rw [List.count_cons_of_ne hn, h]
      simp only [hlt, decide_false, Bool.false_eq_true, not_false_eq_true, List.filter_cons_of_neg]
      exact ih _ _ hnext

theorem keyed_filter (name : α → κ) (most : κ → Nat) (l : List α) :
    keyed name (((keyed name l).filter fun p => p.1.2 < most p.1.1).map Prod.snd) =
      (keyed name l).filter fun p => p.1.2 < most p.1.1 :=
  keyedFrom_filter name most l [] [] (by simp)

end Keyed

/-! ## Looking up -/

section Lookup

variable {α β κ : Type} [BEq κ] [LawfulBEq κ]

theorem lookup_map (g : κ → α → β) (l : List (κ × α)) (k : κ) :
    (l.map fun p => (p.1, g p.1 p.2)).lookup k = (l.lookup k).map (g k) := by
  induction l with
  | nil => rfl
  | cons p l ih =>
    obtain ⟨k', a⟩ := p
    by_cases hk : k = k'
    · subst hk; simp
    · have : (k == k') = false := by simpa using hk
      simp [List.lookup_cons, this, ih]

theorem mem_of_lookup {l : List (κ × α)} {k : κ} {a : α} (h : l.lookup k = some a) : (k, a) ∈ l := by
  induction l with
  | nil => cases h
  | cons p l ih =>
    obtain ⟨k', b⟩ := p
    by_cases hk : k = k'
    · subst hk
      rw [List.lookup_cons_self] at h
      cases h
      exact List.mem_cons_self
    · have : (k == k') = false := by simp [hk]
      simp only [List.lookup_cons, this] at h
      exact List.mem_cons_of_mem _ (ih h)

theorem lookup_of_mem {l : List (κ × α)} {k : κ} {a : α} (hl : (l.map Prod.fst).Nodup)
    (h : (k, a) ∈ l) : l.lookup k = some a := by
  induction l with
  | nil => cases h
  | cons p l ih =>
    obtain ⟨k', b⟩ := p
    simp only [List.map_cons, List.nodup_cons] at hl
    rcases List.mem_cons.mp h with he | hm
    · cases he; simp
    · have hne : k ≠ k' := fun he => hl.1 (List.mem_map.mpr ⟨(k, a), hm, he⟩)
      have hb : (k == k') = false := by simpa using hne
      simp [List.lookup_cons, hb, ih hl.2 hm]

theorem lookup_isSome {l : List (κ × α)} {k : κ} :
    (l.lookup k).isSome = true ↔ k ∈ l.map Prod.fst := by
  induction l with
  | nil => simp
  | cons p l ih =>
    obtain ⟨k', b⟩ := p
    by_cases hk : k = k'
    · subst hk; simp
    · have : (k == k') = false := by simp [hk]
      simp [List.lookup_cons, this, ih, hk]

end Lookup

/-! ## Groups -/

section Groups

variable {σ τ κ : Type}

/-- Each element whose key satisfies `has`, with the others since the last one, and the rest. -/
def groups (has : κ → Bool) (ai : Bool) :
    List σ → List (κ × σ) → List (κ × List σ × σ) × List σ
  | pend, [] => ([], pend)
  | pend, (key, s) :: rest =>
    if has key then ((key, pend, s) :: (groups has ai [] rest).1, (groups has ai [] rest).2)
    else groups has ai (if ai then pend ++ [s] else pend) rest

theorem groups_map (has : κ → Bool) (ai : Bool) (g : σ → τ) (ks : List (κ × σ)) :
    ∀ pend, groups has ai (pend.map g) (ks.map fun p => (p.1, g p.2)) =
      ((groups has ai pend ks).1.map fun q => (q.1, q.2.1.map g, g q.2.2),
        (groups has ai pend ks).2.map g) := by
  induction ks with
  | nil => intro pend; rfl
  | cons p ks ih =>
    intro pend
    obtain ⟨key, s⟩ := p
    have hnil := ih []
    simp only [List.map_nil] at hnil
    have hpend : (if ai then pend.map g ++ [g s] else pend.map g) =
        (if ai then pend ++ [s] else pend).map g := by split <;> simp
    by_cases hk : has key = true
    · simp [groups, hk, hnil]
    · simp only [List.map_cons, groups, hk, Bool.false_eq_true, if_false, hpend, ih]

/-- The heads of the groups are the keys that satisfy `has`, in order. -/
theorem groups_keys (has : κ → Bool) (ai : Bool) (ks : List (κ × σ)) :
    ∀ pend, (groups has ai pend ks).1.map (fun q => (q.1, q.2.2)) = ks.filter fun p => has p.1 := by
  induction ks with
  | nil => intro pend; rfl
  | cons p ks ih =>
    intro pend
    obtain ⟨key, s⟩ := p
    by_cases hk : has key = true
    · simp [groups, hk, ih]
    · simp [groups, hk, ih]

theorem groups_key_mem {has : κ → Bool} {ai : Bool} {ks : List (κ × σ)} {pend : List σ} {key : κ}
    (h : key ∈ (groups has ai pend ks).1.map Prod.fst) : key ∈ ks.map Prod.fst := by
  obtain ⟨⟨key, ps, s⟩, hq, rfl⟩ := List.mem_map.mp h
  have hmem : (key, s) ∈ ks.filter fun p => has p.1 := by
    rw [← groups_keys has ai ks pend]
    exact List.mem_map.mpr ⟨(key, ps, s), hq, rfl⟩
  exact List.mem_map.mpr ⟨(key, s), (List.mem_filter.mp hmem).1, rfl⟩

/-- Put back together, the groups and the rest are the list. -/
theorem groups_flatten (has : κ → Bool) (ks : List (κ × σ)) :
    ∀ pend, (groups has true pend ks).1.flatMap (fun q => q.2.1 ++ [q.2.2]) ++
      (groups has true pend ks).2 = pend ++ ks.map Prod.snd := by
  induction ks with
  | nil => intro pend; simp [groups]
  | cons p ks ih =>
    intro pend
    obtain ⟨key, s⟩ := p
    by_cases hk : has key = true
    · simp [groups, hk, ih]
    · simp [groups, hk, ih]

theorem groups_all (has : κ → Bool) (ai : Bool) (ks : List (κ × σ)) (h : ∀ p ∈ ks, has p.1 = true) :
    groups has ai [] ks = (ks.map fun p => (p.1, [], p.2), []) := by
  induction ks with
  | nil => rfl
  | cons p ks ih =>
    obtain ⟨key, s⟩ := p
    have hk : has key = true := h (key, s) (by simp)
    simp [groups, hk, ih fun q hq => h q (by simp [hq])]

theorem groups_none (has : κ → Bool) (ks : List (κ × σ)) (h : ∀ p ∈ ks, has p.1 = false) :
    ∀ pend, groups has true pend ks = ([], pend ++ ks.map Prod.snd) := by
  induction ks with
  | nil => intro pend; simp [groups]
  | cons p ks ih =>
    intro pend
    obtain ⟨key, s⟩ := p
    have hk : has key = false := h (key, s) (by simp)
    simp [groups, hk, ih fun q hq => h q (by simp [hq])]

end Groups

/-! ## Merging -/

/-- A place in the merged list: an element of the first list alone, one joined with its partner, or
an element of the second list without partner. -/
inductive Slot (δ σ : Type) where
  | old (d : δ)
  | joined (d : δ) (s : σ)
  | fresh (s : σ)
deriving DecidableEq, Repr

namespace Slot

variable {δ σ δ' σ' : Type}

def map (g : δ → δ') (h : σ → σ') : Slot δ σ → Slot δ' σ'
  | old d => old (g d)
  | joined d s => joined (g d) (h s)
  | fresh s => fresh (h s)

/-- The element of the second list. -/
def source : Slot δ σ → List σ
  | old _ => []
  | joined _ s => [s]
  | fresh s => [s]

end Slot

section Arrange

variable {δ σ δ' σ' κ : Type} [BEq κ] [LawfulBEq κ]

/-- The slots at an element of the first list. -/
def slotsAt (gs : List ((κ × Nat) × List σ × σ)) (p : (κ × Nat) × δ) : List (Slot δ σ) :=
  match gs.lookup p.1 with
  | some (pend, s) => pend.map .fresh ++ [.joined p.2 s]
  | none => [.old p.2]

/-- The elements of the first list that stay: all of them, or those with a partner. -/
def keptOf (ar : Bool) (kd : List ((κ × Nat) × δ)) (ks : List ((κ × Nat) × σ)) :
    List ((κ × Nat) × δ) :=
  if ar then kd.filter fun p => (ks.lookup p.1).isSome else kd

def arrange (dname : δ → κ) (sname : σ → κ) (ai ar : Bool) (ds : List δ) (ss : List σ) :
    List (Slot δ σ) :=
  let ks := keyed sname ss
  let kept := keptOf ar (keyed dname ds) ks
  let g := groups (fun key => (kept.lookup key).isSome) ai [] ks
  kept.flatMap (slotsAt g.1) ++ g.2.map .fresh

theorem slotsAt_map (g : δ → δ') (h : σ → σ') (gs : List ((κ × Nat) × List σ × σ))
    (p : (κ × Nat) × δ) :
    slotsAt (gs.map fun q => (q.1, q.2.1.map h, h q.2.2)) (p.1, g p.2) =
      (slotsAt gs p).map (Slot.map g h) := by
  have := lookup_map (fun _ (q : List σ × σ) => (q.1.map h, h q.2)) gs p.1
  simp only [slotsAt, this]
  cases gs.lookup p.1 with
  | none => rfl
  | some q => simp [Slot.map]

theorem keptOf_map (g : δ → δ') (h : σ → σ') (ar : Bool) (kd : List ((κ × Nat) × δ))
    (ks : List ((κ × Nat) × σ)) :
    keptOf ar (kd.map fun p => (p.1, g p.2)) (ks.map fun p => (p.1, h p.2)) =
      (keptOf ar kd ks).map fun p => (p.1, g p.2) := by
  have hl : ∀ k, ((ks.map fun p => (p.1, h p.2)).lookup k).isSome = (ks.lookup k).isSome := fun k => by
    rw [lookup_map (fun _ s => h s)]
    simp
  simp only [keptOf]
  split
  · simp [List.filter_map, hl, Function.comp_def]
  · rfl

/-- The arrangement depends on the names only. -/
theorem arrange_map (dname : δ' → κ) (sname : σ' → κ) (ai ar : Bool) (g : δ → δ') (h : σ → σ')
    (ds : List δ) (ss : List σ) : arrange dname sname ai ar (ds.map g) (ss.map h) =
      (arrange (fun d => dname (g d)) (fun s => sname (h s)) ai ar ds ss).map (Slot.map g h) := by
  have hkept : ∀ k, (((keptOf ar (keyed (fun d => dname (g d)) ds) (keyed (fun s => sname (h s)) ss)).map
      fun p => (p.1, g p.2)).lookup k).isSome =
      ((keptOf ar (keyed (fun d => dname (g d)) ds) (keyed (fun s => sname (h s)) ss)).lookup k).isSome :=
    fun k => by
      rw [lookup_map (fun _ d => g d)]
      simp
  have hg := groups_map (fun key => ((keptOf ar (keyed (fun d => dname (g d)) ds)
    (keyed (fun s => sname (h s)) ss)).lookup key).isSome) ai h (keyed (fun s => sname (h s)) ss) []
  simp only [List.map_nil] at hg
  simp only [arrange, keyed_map, keptOf_map, hkept, hg, List.map_append, List.map_map,
    List.map_flatMap, List.flatMap_map, slotsAt_map]
  rfl

/-- Into an empty list everything goes in its own order. -/
theorem arrange_nil (dname : δ → κ) (sname : σ → κ) (ar : Bool) (ss : List σ) :
    arrange dname sname true ar [] ss = ss.map .fresh := by
  have hkept : keptOf ar (keyed dname []) (keyed sname ss) = [] := by cases ar <;> rfl
  simp only [arrange, hkept]
  rw [groups_none _ _ (by simp)]
  simp

/-- When no name stands on both sides and the old elements go, only the new ones remain. -/
theorem arrange_apart (dname : δ → κ) (sname : σ → κ) {ds : List δ} {ss : List σ}
    (h : ∀ d ∈ ds, ∀ s ∈ ss, sname s ≠ dname d) : arrange dname sname true true ds ss = ss.map .fresh := by
  have hkept : keptOf true (keyed dname ds) (keyed sname ss) = [] := by
    rw [keptOf, if_pos rfl, List.filter_eq_nil_iff]
    rintro ⟨key, d⟩ hd hsome
    obtain ⟨hname, -, hmem⟩ := mem_keyedFrom hd
    rw [lookup_isSome_keyed, ← hname] at hsome
    obtain ⟨s, hs, he⟩ := List.mem_map.mp (List.count_pos_iff.mp (Nat.zero_lt_of_lt hsome))
    exact h d hmem s hs he
  simp only [arrange, hkept]
  rw [groups_none _ _ (by simp)]
  simp

/-- With as many elements of every name on both sides each element has its partner, and the order
stays. -/
theorem arrange_matched (dname : δ → κ) (sname : σ → κ) (ai ar : Bool) {ds : List δ} {ss : List σ}
    (h : ∀ nm, (ds.map dname).count nm = (ss.map sname).count nm) :
    arrange dname sname ai ar ds ss = (keyed dname ds).map fun p =>
      match (keyed sname ss).lookup p.1 with
      | some s => .joined p.2 s
      | none => .old p.2 := by
  have hsame : ∀ key : κ × Nat, ((keyed sname ss).lookup key).isSome =
      ((keyed dname ds).lookup key).isSome := fun key => by
    rw [Bool.eq_iff_iff, lookup_isSome_keyed sname ss key.1 key.2,
      lookup_isSome_keyed dname ds key.1 key.2, h]
  have hkept : keptOf ar (keyed dname ds) (keyed sname ss) = keyed dname ds := by
    simp only [keptOf]
    split
    · refine List.filter_eq_self.mpr fun p hp => ?_
      rw [hsame, lookup_isSome]
      exact List.mem_map.mpr ⟨p, hp, rfl⟩
    · rfl
  have hgroups := groups_all (fun key => ((keyed dname ds).lookup key).isSome) ai (keyed sname ss)
    fun p hp => by
      rw [← hsame, lookup_isSome]
      exact List.mem_map.mpr ⟨p, hp, rfl⟩
  simp only [arrange, hkept, hgroups, List.map_nil, List.append_nil]
  refine Eq.trans (List.flatMap_congr fun p _ => ?_) List.map_eq_flatMap.symm
  rw [slotsAt, lookup_map fun _ s => (([] : List σ), s)]
  cases (keyed sname ss).lookup p.1 <;> rfl

end Arrange

end VersatileEngine
