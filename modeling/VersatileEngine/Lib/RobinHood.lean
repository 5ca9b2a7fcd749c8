import Mathlib.Data.Nat.ModEq
import Mathlib.Logic.Function.Basic
import Mathlib.Tactic.Ring

/-!
# VersatileEngine.Lib.RobinHood

Robin Hood order of an open-addressing table with `cap` slots in a circle.

* `probe`   — how far an entry is behind its home slot.
* `rank`    — one more than the probe length of what is at a position, zero where nothing is. Positions
  are read around the circle.
* `Ordered` — a rank is at most one above the rank before it.
* `Ordered.reach` — from its home slot to its own an entry passes only entries with no smaller probe length.
* `Ordered.put`   — an insertion may take a slot whose rank is not above the distance walked.
* `Gap`     — what is left when an entry was taken out; `Gap.close` and `Gap.shift` end and go on with the
  backward shift.
-/

namespace VersatileEngine

namespace RobinHood

variable {α : Type} (cap : Nat) (home : α → Nat)

/-- The distance from the home slot of `x` to the slot `i`. -/
def probe (i : Nat) (x : α) : Nat := (i + cap - home x) % cap

/-- The rank at position `i`. -/
def rank (t : Nat → Option α) (i : Nat) : Nat :=
  (t (i % cap)).elim 0 fun x => probe cap home (i % cap) x + 1

def Ordered (t : Nat → Option α) : Prop := ∀ i, rank cap home t (i + 1) ≤ rank cap home t i + 1

section Positions

variable {cap home} {t t' : Nat → Option α} {x : α} {i j k : Nat}

theorem ne_of_between (hlt : i < j) (h : j < i + cap) : i % cap ≠ j % cap := by
  intro he
  obtain ⟨d, rfl⟩ := Nat.exists_eq_add_of_lt hlt
  have hd : (d + 1) % cap = 0 := by
    have : (i + (d + 1)) % cap = (i + 0) % cap := by
      rw [← Nat.add_assoc, ← he, Nat.add_zero]
    have := Nat.ModEq.add_left_cancel' i this
    rwa [Nat.ModEq, Nat.zero_mod] at this
  rw [Nat.mod_eq_of_lt (by omega)] at hd
  omega

theorem mod_add_congr (h : i % cap = j % cap) (k : Nat) : (i + k) % cap = (j + k) % cap :=
  Nat.ModEq.add_right k h

theorem mod_add_cancel (h : (i + k) % cap = (j + k) % cap) : i % cap = j % cap :=
  Nat.ModEq.add_right_cancel' k h

theorem probe_lt (hcap : 0 < cap) (i : Nat) (x : α) : probe cap home i x < cap := Nat.mod_lt _ hcap

/-- An entry stands its probe length behind its home slot. -/
theorem home_add_probe (hi : i < cap) (hx : home x < cap) : (home x + probe cap home i x) % cap = i := by
  rw [probe, Nat.add_mod_mod, show home x + (i + cap - home x) = i + cap by omega, Nat.add_mod_right,
    Nat.mod_eq_of_lt hi]

theorem probe_of_add (hx : home x < cap) (hk : k < cap) : probe cap home ((home x + k) % cap) x = k := by
  have hlt : (home x + k) % cap < cap := Nat.mod_lt _ (by omega)
  have h : (home x + probe cap home ((home x + k) % cap) x) % cap = (home x + k) % cap := home_add_probe hlt hx
  have hp : probe cap home ((home x + k) % cap) x < cap := probe_lt (Nat.zero_lt_of_lt hx) _ x
  have : probe cap home ((home x + k) % cap) x % cap = k % cap := by
    have h' : (probe cap home ((home x + k) % cap) x + home x) % cap = (k + home x) % cap := by
      rw [Nat.add_comm, h, Nat.add_comm k]
    exact mod_add_cancel h'
  rwa [Nat.mod_eq_of_lt hp, Nat.mod_eq_of_lt hk] at this

/-- Every slot is ahead, less than once around. -/
theorem exists_ahead (hj : j < cap) (i : Nat) : ∃ m < cap, (i + m) % cap = j := by
  have hcap : 0 < cap := Nat.zero_lt_of_lt hj
  refine ⟨probe cap (fun _ : Unit => i % cap) j (), probe_lt hcap _ _, ?_⟩
  rw [← Nat.mod_add_mod]
  exact @home_add_probe Unit cap (fun _ => i % cap) () j hj (Nat.mod_lt _ hcap)

theorem rank_congr (h : i % cap = j % cap) : rank cap home t i = rank cap home t j := by
  rw [rank, rank, h]

theorem rank_of_eq (h : t (i % cap) = t' (i % cap)) : rank cap home t i = rank cap home t' i := by
  rw [rank, rank, h]

theorem rank_none (h : t (i % cap) = none) : rank cap home t i = 0 := by rw [rank, h]; rfl

theorem rank_some (h : t (i % cap) = some x) : rank cap home t i = probe cap home (i % cap) x + 1 := by
  rw [rank, h]
  rfl

end Positions

section Order

variable {cap home} {t : Nat → Option α} {x y : α} {i j k d : Nat}

theorem Ordered.add (h : Ordered cap home t) (i k : Nat) :
    rank cap home t (i + k) ≤ rank cap home t i + k := by
  induction k with
  | zero => exact Nat.le_refl _
  | succ k ih =>
    have := h (i + k)
    rw [← Nat.add_assoc]
    omega

/-- **From its home slot an entry is reached** without crossing an empty slot or a smaller probe length. -/
theorem Ordered.reach (h : Ordered cap home t) (hi : i < cap) (ht : t i = some x) (hx : home x < cap)
    (hk : k ≤ probe cap home i x) : k < rank cap home t (home x + k) := by
  have hend := h.add (home x + k) (probe cap home i x - k)
  have hpos : home x + k + (probe cap home i x - k) = home x + probe cap home i x := by omega
  have hmod : (home x + probe cap home i x) % cap = i := home_add_probe hi hx
  have hr : rank cap home t (home x + probe cap home i x) = probe cap home i x + 1 := by
    rw [rank_some (x := x) (by rw [hmod]; exact ht), hmod]
  rw [hpos, hr] at hend
  omega

theorem ordered_empty (h : ∀ i, t i = none) : Ordered cap home t := by
  intro i
  rw [rank_none (h _)]
  exact Nat.zero_le _

/-- `x` takes the place after position `j`, at distance `d` from its home slot. -/
theorem Ordered.put (h : Ordered cap home t) (hcap : 1 < cap) (hp : probe cap home ((j + 1) % cap) x = d)
    (hle : rank cap home t (j + 1) ≤ d) (hprev : d ≤ rank cap home t j) :
    Ordered cap home (Function.update t ((j + 1) % cap) (some x)) := by
  intro i
  have hne : ∀ i : Nat, i % cap ≠ (i + 1) % cap := fun i => ne_of_between (Nat.lt_succ_self i) (by omega)
  have hother : ∀ {i : Nat}, i % cap ≠ (j + 1) % cap →
      rank cap home (Function.update t ((j + 1) % cap) (some x)) i = rank cap home t i :=
    fun hi => rank_of_eq (Function.update_of_ne hi _ _)
  have hplaced : ∀ {i : Nat}, i % cap = (j + 1) % cap →
      rank cap home (Function.update t ((j + 1) % cap) (some x)) i = d + 1 := by
    intro i hi
    rw [rank_some (x := x) (by rw [hi, Function.update_self]), hi, hp]
  have hi := h i
  by_cases h1 : (i + 1) % cap = (j + 1) % cap
  · have hij : i % cap = j % cap := mod_add_cancel h1
    rw [hplaced h1, hother fun he => hne i (he.trans h1.symm), rank_congr hij]
    omega
  · by_cases h0 : i % cap = (j + 1) % cap
    · rw [hplaced h0, hother h1]
      rw [rank_congr h0] at hi
      omega
    · rw [hother h1, hother h0]
      exact hi

/-! ### Taking out -/

/-- The table with nothing at the position after `j`, where an entry was. -/
structure Gap (cap : Nat) (home : α → Nat) (t : Nat → Option α) (j : Nat) : Prop where
  empty : t ((j + 1) % cap) = none
  others : ∀ i, i % cap ≠ (j + 1) % cap → rank cap home t (i + 1) ≤ rank cap home t i + 1
  next : rank cap home t (j + 2) ≤ rank cap home t j + 2

/-- Taking an entry out leaves a gap. -/
theorem Ordered.gap (h : Ordered cap home t) (hcap : 2 < cap) (j : Nat) :
    Gap cap home (Function.update t ((j + 1) % cap) none) j := by
  have hother : ∀ {i : Nat}, i % cap ≠ (j + 1) % cap →
      rank cap home (Function.update t ((j + 1) % cap) none) i = rank cap home t i :=
    fun hi => rank_of_eq (Function.update_of_ne hi _ _)
  refine ⟨Function.update_self _ _ _, fun i hi => ?_, ?_⟩
  · rw [hother hi]
    by_cases h1 : (i + 1) % cap = (j + 1) % cap
    · rw [rank_none (by rw [h1, Function.update_self])]
      exact Nat.zero_le _
    · rw [hother h1]
      exact h i
  · rw [hother (ne_of_between (by omega) (by omega)).symm, hother (ne_of_between (by omega) (by omega))]
    have := h.add j 2
    exact this

/-- A gap before an empty slot or an entry in its home slot is no gap. -/
theorem Gap.close (h : Gap cap home t j) (hnext : rank cap home t (j + 2) ≤ 1) : Ordered cap home t := by
  intro i
  by_cases hi : i % cap = (j + 1) % cap
  · rw [rank_congr (mod_add_congr hi 1)]
    exact hnext.trans (Nat.le_add_left _ _)
  · exact h.others i hi

/-- The entry behind the gap moves into it. -/
theorem Gap.shift (h : Gap cap home t j) (hcap : 2 < cap) (ht : t ((j + 2) % cap) = some y)
    (hy : home y < cap) (hp : probe cap home ((j + 2) % cap) y ≠ 0) :
    Gap cap home (Function.update (Function.update t ((j + 1) % cap) (some y)) ((j + 2) % cap) none)
      (j + 1) := by
  have hpos : 0 < cap := by omega
  have hlast : rank cap home t (j + 2) = probe cap home ((j + 2) % cap) y + 1 := rank_some ht
  have hmoved : probe cap home ((j + 2) % cap) y = probe cap home ((j + 1) % cap) y + 1 := by
    have hback : (home y + probe cap home ((j + 2) % cap) y) % cap = (j + 2) % cap :=
      home_add_probe (Nat.mod_lt (j + 2) hpos) hy
    have hlt : probe cap home ((j + 2) % cap) y < cap := probe_lt hpos _ y
    obtain ⟨p, hp'⟩ := Nat.exists_eq_succ_of_ne_zero hp
    have h1 : (j + 1) % cap = (home y + p) % cap := by
      refine mod_add_cancel (k := 1) ?_
      rw [hp'] at hback
      exact hback.symm
    rw [hp', h1, probe_of_add hy (by omega)]
  set t' := Function.update (Function.update t ((j + 1) % cap) (some y)) ((j + 2) % cap) none with ht'
  have h12 : (j + 1) % cap ≠ (j + 2) % cap := ne_of_between (by omega) (by omega)
  have hother : ∀ {i : Nat}, i % cap ≠ (j + 1) % cap → i % cap ≠ (j + 2) % cap →
      rank cap home t' i = rank cap home t i := by
    intro i h1 h2
    exact rank_of_eq (by rw [ht', Function.update_of_ne h2, Function.update_of_ne h1])
  have hgap : ∀ {i : Nat}, i % cap = (j + 2) % cap → rank cap home t' i = 0 := by
    intro i hi
    exact rank_none (by rw [ht', hi, Function.update_self])
  have hfilled : ∀ {i : Nat}, i % cap = (j + 1) % cap → rank cap home t' i + 1 = rank cap home t (j + 2) := by
    intro i hi
    rw [rank_some (x := y) (by rw [ht', hi, Function.update_of_ne h12, Function.update_self]), hi, hlast,
      hmoved]
  refine ⟨by rw [ht', Function.update_self], fun i hi => ?_, ?_⟩
  · by_cases h1 : i % cap = (j + 1) % cap
    · rw [hgap (mod_add_congr h1 1)]
      exact Nat.zero_le _
    · by_cases h0 : (i + 1) % cap = (j + 1) % cap
      · have hij : i % cap = j % cap := mod_add_cancel h0
        have hfill := hfilled h0
        have hnext := h.next
        rw [hother h1 hi, rank_congr hij]
        omega
      · by_cases h2 : (i + 1) % cap = (j + 2) % cap
        · exact absurd (mod_add_cancel h2) h1
        · rw [hother h0 h2, hother h1 hi]
          exact h.others i h1
  · have h3 := h.others (j + 2) h12.symm
    have hfill := hfilled (i := j + 1) rfl
    rw [hother (i := j + 3) (ne_of_between (by omega) (by omega)).symm
      (ne_of_between (by omega) (by omega)).symm]
    show rank cap home t (j + 2 + 1) ≤ _
    omega

end Order

end RobinHood

end VersatileEngine
