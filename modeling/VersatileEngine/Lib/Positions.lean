import Mathlib.Data.List.Basic
import Mathlib.Tactic.Ring

/-!
# VersatileEngine.Lib.Positions

The increasing list of the positions at which a predicate holds in a list, and how it changes
when elements are inserted into the list or removed from it.

* `positions p k l`     — the positions of the elements of `l` that satisfy `p`, counted from `k`.
* `shiftFrom from d is` — every recorded position from `from` on, moved by `d`.
* `lowerBound is v`     — the first place of the sorted list `is` whose element is not below `v`.

Positions are integers, so a shift by a negative distance is the same function as a shift by a
positive one.
-/

namespace VersatileEngine

variable {α : Type}

def positions (p : α → Bool) : Int → List α → List Int
  | _, [] => []
  | k, a :: as => if p a then k :: positions p (k + 1) as else positions p (k + 1) as

/-- Every position that is at least `start`, moved by `delta`. -/
def shiftFrom (start delta : Int) (is : List Int) : List Int :=
  is.map fun i => if start ≤ i then i + delta else i

/-- The number of leading elements below `v`: where `v` goes in a sorted list. -/
def lowerBound (is : List Int) (v : Int) : Nat := (is.takeWhile (· < v)).length

theorem positions_append (p : α → Bool) (l m : List α) :
    ∀ k : Int, positions p k (l ++ m) = positions p k l ++ positions p (k + l.length) m := by
  induction l with
  | nil => intro k; simp [positions]
  | cons a l ih =>
    intro k
    have e : k + 1 + (l.length : Int) = k + ((l.length : Int) + 1) := by ring
    by_cases h : p a <;> simp [positions, h, ih, e]

theorem mem_positions {p : α → Bool} {l : List α} :
    ∀ {k i : Int}, i ∈ positions p k l ↔ ∃ (j : Nat) (a : α), l[j]? = some a ∧ p a ∧ i = k + j := by
  induction l with
  | nil => intro k i; simp [positions]
  | cons b l ih =>
    intro k i
    have tail : i ∈ positions p (k + 1) l ↔
        ∃ (j : Nat) (a : α), (b :: l)[j + 1]? = some a ∧ p a ∧ i = k + (j + 1 : Nat) := by
      rw [ih]
      constructor
      · rintro ⟨j, a, hj, ha, rfl⟩; exact ⟨j, a, by simpa using hj, ha, by push_cast; ring⟩
      · rintro ⟨j, a, hj, ha, rfl⟩; exact ⟨j, a, by simpa using hj, ha, by push_cast; ring⟩
    constructor
    · intro h
      by_cases hb : p b
      · simp only [positions, hb, if_true, List.mem_cons] at h
        rcases h with rfl | h
        · exact ⟨0, b, by simp, hb, by simp⟩
        · obtain ⟨j, a, h⟩ := tail.mp h; exact ⟨j + 1, a, h⟩
      · simp only [positions, hb] at h
        obtain ⟨j, a, h⟩ := tail.mp h; exact ⟨j + 1, a, h⟩
    · rintro ⟨j, a, hj, ha, hi⟩
      cases j with
      | zero =>
        have : b = a := by simpa using hj
        subst this
        simp [positions, ha, hi]
      | succ j =>
        have h := tail.mpr ⟨j, a, hj, ha, hi⟩
        by_cases hb : p b <;> simp [positions, hb, h]

theorem positions_ge {p : α → Bool} {l : List α} {k i : Int} (h : i ∈ positions p k l) : k ≤ i := by
  obtain ⟨j, _, _, _, rfl⟩ := mem_positions.mp h
  omega

theorem positions_lt {p : α → Bool} {l : List α} {k i : Int} (h : i ∈ positions p k l) :
    i < k + l.length := by
  obtain ⟨j, a, hj, _, rfl⟩ := mem_positions.mp h
  have : j < l.length := (List.getElem?_eq_some_iff.mp hj).1
  omega

theorem positions_eq_nil {p : α → Bool} {l : List α} {k : Int} :
    positions p k l = [] ↔ ∀ a ∈ l, p a = false := by
  induction l generalizing k with
  | nil => simp [positions]
  | cons b l ih => by_cases h : p b <;> simp [positions, h, ih]

theorem length_positions (p : α → Bool) (l : List α) (k : Int) :
    (positions p k l).length = (l.filter p).length := by
  induction l generalizing k with
  | nil => simp [positions]
  | cons b l ih => by_cases h : p b <;> simp [positions, h, ih]

theorem positions_pairwise (p : α → Bool) (l : List α) (k : Int) :
    (positions p k l).Pairwise (· < ·) := by
  induction l generalizing k with
  | nil => simp [positions]
  | cons b l ih =>
    by_cases h : p b
    · simp only [positions, h, if_true, List.pairwise_cons]
      exact ⟨fun i hi => by have := positions_ge hi; omega, ih _⟩
    · simpa [positions, h] using ih _

/-- The `j`-th position is the position of the `j`-th element that satisfies `p`. -/
theorem getElem?_positions (p : α → Bool) (l : List α) :
    ∀ (k : Int) (j : Nat), (l.filter p)[j]? =
      ((positions p k l)[j]?).bind fun i => l[(i - k).toNat]? := by
  induction l with
  | nil => intro k j; simp [positions]
  | cons b l ih =>
    intro k j
    have drop : ∀ i ∈ positions p (k + 1) l, (b :: l)[(i - k).toNat]? = l[(i - (k + 1)).toNat]? := by
      intro i hi
      have hk := positions_ge hi
      have e : (i - k).toNat = (i - (k + 1)).toNat + 1 := by omega
      rw [e]; simp
    have bind_drop : ∀ j : Nat, ((positions p (k + 1) l)[j]?).bind (fun i => (b :: l)[(i - k).toNat]?) =
        ((positions p (k + 1) l)[j]?).bind fun i => l[(i - (k + 1)).toNat]? := by
      intro j
      cases h : (positions p (k + 1) l)[j]? with
      | none => rfl
      | some i => simpa using drop i (List.mem_of_getElem? h)
    by_cases hb : p b
    · cases j with
      | zero => simp [positions, hb]
      | succ j => simp only [positions, hb, if_true, List.filter_cons_of_pos, List.getElem?_cons_succ,
          bind_drop, ih (k + 1) j]
    · simp only [positions, hb, Bool.false_eq_true, if_false, bind_drop, ← ih (k + 1) j]
      simp [hb]

theorem positions_congr {p q : α → Bool} {l : List α} (h : ∀ a ∈ l, p a = q a) :
    ∀ k, positions p k l = positions q k l := by
  induction l with
  | nil => intro k; rfl
  | cons b l ih =>
    intro k
    simp only [positions, h b (by simp), ih (fun a ha => h a (by simp [ha]))]

/-! ## Shifting -/

theorem shiftFrom_below {start delta : Int} {is : List Int} (h : ∀ i ∈ is, i < start) :
    shiftFrom start delta is = is := by
  induction is with
  | nil => rfl
  | cons i is ih =>
    have hi := h i (by simp)
    have := ih fun j hj => h j (by simp [hj])
    simp only [shiftFrom, List.map_cons] at this ⊢
    rw [this, if_neg (by omega)]

theorem shiftFrom_positions (p : α → Bool) (l : List α) {start delta : Int} :
    ∀ {k : Int}, start ≤ k → shiftFrom start delta (positions p k l) = positions p (k + delta) l := by
  induction l with
  | nil => intro k _; rfl
  | cons b l ih =>
    intro k hk
    have := ih (k := k + 1) (by omega)
    have e : k + 1 + delta = k + delta + 1 := by ring
    rw [e] at this
    by_cases hb : p b
    · simp only [positions, hb, if_true, shiftFrom, List.map_cons] at this ⊢
      rw [this, if_pos hk]
    · simpa [positions, hb] using this

theorem shiftFrom_append (start delta : Int) (is js : List Int) :
    shiftFrom start delta (is ++ js) = shiftFrom start delta is ++ shiftFrom start delta js := by
  simp [shiftFrom]

/-- Opening a gap of `delta` places in front of `m` moves exactly the positions within `m`. -/
theorem shiftFrom_positions_append (p : α → Bool) (l m : List α) (delta : Int) :
    shiftFrom l.length delta (positions p 0 (l ++ m)) =
      positions p 0 l ++ positions p (l.length + delta) m := by
  rw [positions_append, shiftFrom_append,
    shiftFrom_below fun i hi => by simpa using positions_lt hi,
    shiftFrom_positions p m (by simp)]
  simp

/-! ## Sorted insertion -/

theorem lowerBound_append {is js : List Int} {v : Int} (hi : ∀ i ∈ is, i < v) (hj : ∀ j ∈ js, v ≤ j) :
    lowerBound (is ++ js) v = is.length := by
  have hw : (is ++ js).takeWhile (· < v) = is := by
    rw [List.takeWhile_append_of_pos (by simpa using hi)]
    cases js with
    | nil => simp
    | cons j js => simp [show ¬ j < v by have := hj j (by simp); omega]
  simp [lowerBound, hw]

theorem insertIdx_length_append (l m : List α) (a : α) :
    (l ++ m).insertIdx l.length a = l ++ a :: m := by
  induction l with
  | nil => simp
  | cons b l ih => simpa using ih

theorem insertIdx_eq_take_drop {i : Nat} (l : List α) (a : α) (hi : i ≤ l.length) :
    l.insertIdx i a = l.take i ++ a :: l.drop i := by
  have h := insertIdx_length_append (l.take i) (l.drop i) a
  rwa [List.take_append_drop, List.length_take_of_le hi] at h

theorem insertIdx_lowerBound {is js : List Int} {v : Int} (hi : ∀ i ∈ is, i < v)
    (hj : ∀ j ∈ js, v ≤ j) : (is ++ js).insertIdx (lowerBound (is ++ js) v) v = is ++ v :: js := by
  rw [lowerBound_append hi hj, insertIdx_length_append]

end VersatileEngine
