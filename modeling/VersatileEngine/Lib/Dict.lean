import Mathlib.Algebra.GroupWithZero.Nat
import VersatileEngine.Lib.Arrange

/-!
# VersatileEngine.Lib.Dict

Insertion-ordered dictionaries as association lists with distinct keys.

* `assign`      — `d[k] = v`: a known key keeps its place, a new one goes to the end.
* `assignAll`   — one assignment after another.
* `assignAll_new` — assignments to new, distinct keys append.
* `unassign`    — `d.erase(k)`.
* `total`       — a measure summed over the values, and what the two operations change of it.
-/

namespace VersatileEngine

variable {κ α β : Type} [DecidableEq κ]

/-- `d[k] = v`. -/
def assign : List (κ × α) → κ → α → List (κ × α)
  | [], k, v => [(k, v)]
  | (k', v') :: d, k, v => if k' = k then (k, v) :: d else (k', v') :: assign d k v

def assignAll (d : List (κ × α)) (kvs : List (κ × α)) : List (κ × α) :=
  kvs.foldl (fun d p => assign d p.1 p.2) d

theorem assign_new (v : α) {d : List (κ × α)} {k : κ} (h : k ∉ d.map Prod.fst) :
    assign d k v = d ++ [(k, v)] := by
  induction d with
  | nil => rfl
  | cons p d ih =>
    simp only [List.map_cons, List.mem_cons, not_or] at h
    rw [assign, if_neg (Ne.symm h.1), ih h.2]
    rfl

theorem length_assign_le (d : List (κ × α)) (k : κ) (v : α) :
    (assign d k v).length ≤ d.length + 1 := by
  induction d with
  | nil => simp [assign]
  | cons p d ih =>
    rw [assign]
    split_ifs
    · simp
    · simp only [List.length_cons]
      omega

/-- What is in a dictionary after an assignment was there before or is what was assigned. -/
theorem mem_assign {d : List (κ × α)} {k : κ} {v : α} {p : κ × α} (h : p ∈ assign d k v) :
    p = (k, v) ∨ p ∈ d := by
  induction d with
  | nil => exact .inl (List.mem_singleton.mp h)
  | cons q d ih =>
    rw [assign] at h
    split_ifs at h with hq
    · rcases List.mem_cons.mp h with rfl | h
      · exact .inl rfl
      · exact .inr (List.mem_cons_of_mem _ h)
    · rcases List.mem_cons.mp h with rfl | h
      · exact .inr (by simp)
      · exact (ih h).imp_right (List.mem_cons_of_mem _)

theorem lookup_assign [BEq κ] [LawfulBEq κ] (d : List (κ × α)) (k k' : κ) (v : α) :
    (assign d k v).lookup k' = if k' = k then some v else d.lookup k' := by
  have hne : ∀ {a b : κ}, ¬ a = b → (a == b) = false := fun h => by simpa using h
  induction d with
  | nil =>
    rw [assign, List.lookup_cons]
    by_cases h : k' = k
    · simp [h]
    · rw [if_neg h, hne h]
  | cons p d ih =>
    obtain ⟨k₀, v₀⟩ := p
    rw [assign]
    by_cases hk : k₀ = k
    · rw [if_pos hk, List.lookup_cons, List.lookup_cons, hk]
      by_cases h : k' = k
      · simp [h]
      · rw [if_neg h, hne h]
    · rw [if_neg hk, List.lookup_cons, List.lookup_cons, ih]
      by_cases h : k' = k₀
      · simp [h, hk]
      · rw [hne h]

theorem assign_keys (d : List (κ × α)) (k : κ) (v : α) :
    (assign d k v).map Prod.fst = if k ∈ d.map Prod.fst then d.map Prod.fst
      else d.map Prod.fst ++ [k] := by
  by_cases h : k ∈ d.map Prod.fst
  · rw [if_pos h]
    induction d with
    | nil => cases h
    | cons p d ih =>
      rw [assign]
      split_ifs with hp
      · rw [List.map_cons, List.map_cons, hp]
      · rw [List.map_cons, List.map_cons, ih]
        exact (List.mem_cons.mp h).resolve_left fun he => hp he.symm
  · rw [if_neg h, assign_new _ h, List.map_append]
    rfl

/-- A known key keeps its place. -/
theorem assign_middle {a b : List (κ × α)} {k : κ} (v w : α) (h : k ∉ a.map Prod.fst) :
    assign (a ++ (k, v) :: b) k w = a ++ (k, w) :: b := by
  induction a with
  | nil => rw [List.nil_append, assign, if_pos rfl]; rfl
  | cons p a ih =>
    rw [List.map_cons, List.mem_cons, not_or] at h
    rw [List.cons_append, assign, if_neg (Ne.symm h.1), ih h.2]
    rfl

theorem assign_nodup {d : List (κ × α)} {k : κ} {v : α} (h : (d.map Prod.fst).Nodup) :
    ((assign d k v).map Prod.fst).Nodup := by
  induction d with
  | nil => simp [assign]
  | cons q d ih =>
    rw [List.map_cons, List.nodup_cons] at h
    rw [assign]
    split_ifs with hq
    · rw [List.map_cons, List.nodup_cons]
      exact ⟨hq ▸ h.1, h.2⟩
    · rw [List.map_cons, List.nodup_cons]
      refine ⟨fun hm => ?_, ih h.2⟩
      obtain ⟨p, hp, he⟩ := List.mem_map.mp hm
      rcases mem_assign hp with rfl | hp
      · exact hq he.symm
      · exact h.1 (List.mem_map.mpr ⟨p, hp, he⟩)

theorem assign_assign (d : List (κ × α)) (k : κ) (v w : α) : assign (assign d k v) k w = assign d k w := by
  induction d with
  | nil => simp [assign]
  | cons p d ih =>
    rw [assign, assign]
    split_ifs with h
    · rw [assign, if_pos rfl]
    · rw [assign, if_neg h, ih]

theorem assignAll_cons (d : List (κ × α)) (p : κ × α) (kvs : List (κ × α)) :
    assignAll d (p :: kvs) = assignAll (assign d p.1 p.2) kvs := rfl

theorem assignAll_append (d : List (κ × α)) (kvs kvs' : List (κ × α)) :
    assignAll d (kvs ++ kvs') = assignAll (assignAll d kvs) kvs' := List.foldl_append

/-- Assignments to new and distinct keys append. -/
theorem assignAll_new {kvs : List (κ × α)} : ∀ {d : List (κ × α)}, (kvs.map Prod.fst).Nodup →
    (∀ p ∈ kvs, p.1 ∉ d.map Prod.fst) → assignAll d kvs = d ++ kvs := by
  induction kvs with
  | nil => intro d _ _; simp [assignAll]
  | cons p kvs ih =>
    intro d hnd hnew
    rw [List.map_cons, List.nodup_cons] at hnd
    rw [assignAll_cons, assign_new _ (hnew p (by simp)), ih hnd.2, List.append_assoc]
    · rfl
    · intro q hq hmem
      rw [List.map_append, List.mem_append] at hmem
      rcases hmem with hmem | hmem
      · exact hnew q (List.mem_cons_of_mem _ hq) hmem
      · have hk : q.1 = p.1 := by simpa using hmem
        exact hnd.1 (hk ▸ List.mem_map_of_mem hq)

theorem assignAll_nodup {kvs : List (κ × α)} : ∀ {d : List (κ × α)}, (d.map Prod.fst).Nodup →
    ((assignAll d kvs).map Prod.fst).Nodup := by
  induction kvs with
  | nil => exact fun h => h
  | cons p kvs ih => exact fun h => ih (assign_nodup h)

theorem mem_assignAll_keys {kvs : List (κ × α)} {k : κ} : ∀ {d : List (κ × α)},
    k ∈ (assignAll d kvs).map Prod.fst ↔ k ∈ d.map Prod.fst ∨ k ∈ kvs.map Prod.fst := by
  induction kvs with
  | nil => simp [assignAll]
  | cons p kvs ih =>
    intro d
    rw [assignAll_cons, ih, assign_keys, List.map_cons, List.mem_cons]
    split_ifs with h
    · constructor
      · rintro (h | h)
        · exact .inl h
        · exact .inr (.inr h)
      · rintro (h' | rfl | h')
        · exact .inl h'
        · exact .inl h
        · exact .inr h'
    · rw [List.mem_append, List.mem_singleton, or_assoc]

theorem mem_assignAll {kvs : List (κ × α)} {p : κ × α} : ∀ {d : List (κ × α)},
    p ∈ assignAll d kvs → p ∈ d ∨ p ∈ kvs := by
  induction kvs with
  | nil => exact fun h => .inl h
  | cons q kvs ih =>
    intro d h
    rcases ih h with h | h
    · rcases mem_assign h with rfl | h
      · exact .inr List.mem_cons_self
      · exact .inl h
    · exact .inr (List.mem_cons_of_mem _ h)

/-- A value that every assignment to its key repeats. -/
theorem lookup_assignAll_same [BEq κ] [LawfulBEq κ] {k : κ} {v : α} {kvs : List (κ × α)}
    (h : ∀ w, (k, w) ∈ kvs → w = v) : ∀ {d : List (κ × α)}, d.lookup k = some v →
      (assignAll d kvs).lookup k = some v := by
  induction kvs with
  | nil => exact fun hd => hd
  | cons p kvs ih =>
    intro d hd
    rw [assignAll_cons]
    refine ih (fun w hw => h w (List.mem_cons_of_mem _ hw)) ?_
    rw [lookup_assign]
    split_ifs with hk
    · rw [h p.2 (by rw [hk]; exact List.mem_cons_self)]
    · exact hd

/-- `d.erase(k)`. -/
def unassign (d : List (κ × α)) (k : κ) : List (κ × α) := d.filter fun p => p.1 ≠ k

theorem lookup_unassign [BEq κ] [LawfulBEq κ] (d : List (κ × α)) (k k' : κ) :
    (unassign d k).lookup k' = if k' = k then none else d.lookup k' := by
  induction d with
  | nil => simp [unassign]
  | cons p d ih =>
    rw [unassign, List.filter_cons]
    by_cases hk : p.1 = k
    · rw [if_neg (by simpa using hk), ← unassign, ih, List.lookup_cons]
      by_cases h : k' = k
      · rw [if_pos h, if_pos h]
      · rw [if_neg h, if_neg h, (beq_eq_false_iff_ne).mpr fun he => h (he.trans hk)]
    · rw [if_pos (by simpa using hk), ← unassign, List.lookup_cons, ih, List.lookup_cons]
      by_cases h : k' = p.1
      · have hne : ¬ k' = k := fun he => hk (h.symm.trans he)
        rw [beq_iff_eq.mpr h]
        exact (if_neg hne).symm
      · rw [(beq_eq_false_iff_ne).mpr h]

theorem unassign_nodup {d : List (κ × α)} (k : κ) (h : (d.map Prod.fst).Nodup) :
    ((unassign d k).map Prod.fst).Nodup :=
  h.sublist ((List.filter_sublist).map _)

/-- A measure of the values, summed over the dictionary. -/
def total (w : α → Nat) (d : List (κ × α)) : Nat := (d.map fun p => w p.2).sum

theorem total_assign [BEq κ] [LawfulBEq κ] (w : α → Nat) (d : List (κ × α)) (k : κ) (v : α) :
    total w (assign d k v) + ((d.lookup k).map w).getD 0 = total w d + w v := by
  induction d with
  | nil => simp [assign, total]
  | cons p d ih =>
    rw [assign, List.lookup_cons]
    by_cases h : p.1 = k
    · rw [if_pos h, beq_iff_eq.mpr h.symm]
      simp only [total, List.map_cons, List.sum_cons, Option.map_some, Option.getD_some]
      omega
    · rw [if_neg h, (beq_eq_false_iff_ne).mpr (Ne.symm h)]
      simp only [total, List.map_cons, List.sum_cons] at ih ⊢
      omega

theorem total_unassign [BEq κ] [LawfulBEq κ] (w : α → Nat) {d : List (κ × α)} (k : κ)
    (hnd : (d.map Prod.fst).Nodup) :
    total w (unassign d k) + ((d.lookup k).map w).getD 0 = total w d := by
  induction d with
  | nil => rfl
  | cons p d ih =>
    rw [List.map_cons, List.nodup_cons] at hnd
    rw [unassign, List.filter_cons, List.lookup_cons]
    by_cases h : p.1 = k
    · have hnot : ∀ q ∈ d, q.1 ≠ k := fun q hq he =>
        hnd.1 (h ▸ he ▸ List.mem_map_of_mem hq)
      rw [if_neg (by simpa using h), beq_iff_eq.mpr h.symm,
        List.filter_eq_self.mpr fun q hq => decide_eq_true (hnot q hq)]
      simp only [total, List.map_cons, List.sum_cons, Option.map_some, Option.getD_some]
      omega
    · have ih := ih hnd.2
      rw [if_pos (by simpa using h), ← unassign, (beq_eq_false_iff_ne).mpr (Ne.symm h)]
      simp only [total, List.map_cons, List.sum_cons] at ih ⊢
      omega

end VersatileEngine
