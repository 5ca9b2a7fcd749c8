import Mathlib.Logic.Function.Iterate
import VersatileEngine.Core.SmallVector

/-!
# VersatileEngine.Core.Growth

When the loop of `_grow` ends. The doubled capacity is a `uint32_t`, so it wraps around: a power of two
comes to zero and the loop begins again at four.

* `View.turn`      — one turn of the loop, and `growCap_iff`, the loop by its turns.
* `Wrapped`        — the capacities that are left when all bits of the first one are shifted out.
* `growth_iff`     — **the loop ends with enough room where at most 2^31 elements are asked for, or where the
  capacity has such bits that some shift of it is enough**.
-/

namespace VersatileEngine

namespace View

/-- One turn of the loop of `_grow`. -/
def turn (c : Nat) : Nat := if c < 4 then 4 else u32 (c * 2)

theorem growCap_succ (k c minCap : Nat) :
    growCap (k + 1) c minCap = if c < minCap then growCap k (turn c) minCap else some c := rfl

theorem growCap_iff {minCap : Nat} : ∀ {k c : Nat},
    (∃ r, growCap k c minCap = some r) ↔ ∃ i < k, minCap ≤ turn^[i] c := by
  intro k
  induction k with
  | zero => simp [growCap]
  | succ k ih =>
    intro c
    rw [growCap_succ]
    split_ifs with hlt
    · rw [ih]
      constructor
      · rintro ⟨i, hi, hle⟩
        exact ⟨i + 1, by omega, by rwa [Function.iterate_succ_apply]⟩
      · rintro ⟨i, hi, hle⟩
        obtain _ | i := i
        · exact absurd hlt (Nat.not_lt.2 hle)
        · exact ⟨i, by omega, by rwa [Function.iterate_succ_apply] at hle⟩
    · exact ⟨fun _ => ⟨0, by omega, Nat.not_lt.1 hlt⟩, fun _ => ⟨c, rfl⟩⟩

theorem growCap_room {minCap : Nat} : ∀ {k c r : Nat}, growCap k c minCap = some r → minCap ≤ r := by
  intro k
  induction k with
  | zero =>
    intro c r h
    cases h
  | succ k ih =>
    intro c r h
    rw [growCap_succ] at h
    split_ifs at h with hlt
    · exact ih h
    · cases h
      exact Nat.not_lt.1 hlt

/-- A power of two that is a `uint32_t`, or zero. -/
def Wrapped (c : Nat) : Prop := c = 0 ∨ ∃ j ≤ 31, c = 2 ^ j

theorem Wrapped.le {c : Nat} (h : Wrapped c) : c ≤ 2 ^ 31 := by
  obtain rfl | ⟨j, hj, rfl⟩ := h
  · exact Nat.zero_le _
  · exact Nat.pow_le_pow_right (by decide) hj

theorem wrapped_double {c : Nat} (h : Wrapped c) : Wrapped (u32 (c * 2)) := by
  obtain rfl | ⟨j, hj, rfl⟩ := h
  · exact .inl rfl
  · rw [← pow_succ, u32]
    by_cases hlast : j = 31
    · subst hlast
      exact .inl rfl
    · refine .inr ⟨j + 1, by omega, Nat.mod_eq_of_lt ?_⟩
      exact Nat.pow_lt_pow_right (by decide) (by omega)

theorem wrapped_turn {c : Nat} (h : Wrapped c) : Wrapped (turn c) := by
  rw [turn]
  split_ifs
  · exact .inr ⟨2, by decide, rfl⟩
  · exact wrapped_double h

theorem shift_succ (c i : Nat) : u32 (c * 2 ^ (i + 1)) = u32 (u32 (c * 2 ^ i) * 2) := by
  rw [u32, u32, u32, pow_succ, ← Nat.mul_assoc, Nat.mod_mul_mod]

/-- The turns shift the capacity, as long as a bit of it is left. -/
theorem turn_iterate {c : Nat} (h4 : 4 ≤ c) (hc : c < 2 ^ 32) (i : Nat) :
    turn^[i] c = u32 (c * 2 ^ i) ∨ Wrapped (turn^[i] c) ∧ Wrapped (u32 (c * 2 ^ i)) := by
  induction i with
  | zero => exact .inl (by rw [Function.iterate_zero_apply, pow_zero, Nat.mul_one, u32, Nat.mod_eq_of_lt hc])
  | succ i ih =>
    rw [Function.iterate_succ_apply', shift_succ]
    rcases ih with heq | ⟨hturn, hshift⟩
    · rw [heq]
      by_cases hsmall : u32 (c * 2 ^ i) < 4
      · -- the last bit is about to go
        have heven : u32 (c * 2 ^ i) = 0 ∨ u32 (c * 2 ^ i) = 2 := by
          obtain _ | i := i
          · rw [pow_zero, Nat.mul_one, u32, Nat.mod_eq_of_lt hc] at hsmall
            omega
          · rw [shift_succ, u32] at hsmall ⊢
            omega
        have hwrapped : Wrapped (u32 (c * 2 ^ i)) := by
          rcases heven with h0 | h2
          · exact .inl h0
          · exact .inr ⟨1, by decide, h2⟩
        exact .inr ⟨wrapped_turn hwrapped, wrapped_double hwrapped⟩
      · exact .inl (by rw [turn, if_neg hsmall])
    · exact .inr ⟨wrapped_turn hturn, wrapped_double hshift⟩

/-- A capacity that is enough, by the bits of the first one. -/
def Reaches (c minCap : Nat) : Prop := minCap ≤ 2 ^ 31 ∨ 4 ≤ c ∧ ∃ k < 32, minCap ≤ c * 2 ^ k % 2 ^ 32

theorem reaches_of_turn {c minCap i : Nat} (hc : c < 2 ^ 32) (h : minCap ≤ turn^[i] c) : Reaches c minCap := by
  by_cases hmin : minCap ≤ 2 ^ 31
  · exact .inl hmin
  by_cases h4 : 4 ≤ c
  · refine .inr ⟨h4, ?_⟩
    rcases turn_iterate h4 hc i with heq | ⟨hturn, -⟩
    · rw [heq, u32] at h
      by_cases hi : i < 32
      · exact ⟨i, hi, h⟩
      · have hzero : c * 2 ^ i % 2 ^ 32 = 0 := by
          obtain ⟨j, rfl⟩ := Nat.exists_eq_add_of_le (Nat.not_lt.1 hi)
          rw [pow_add, Nat.mul_left_comm, Nat.mul_mod_right]
        omega
    · exact absurd (h.trans hturn.le) hmin
  · exfalso
    obtain _ | i := i
    · rw [Function.iterate_zero_apply] at h
      omega
    · have hfour : turn c = 4 := by rw [turn, if_pos (by omega)]
      have hall : ∀ n, Wrapped (turn^[n] 4) := by
        intro n
        induction n with
        | zero => exact .inr ⟨2, by decide, rfl⟩
        | succ n ih =>
          rw [Function.iterate_succ_apply']
          exact wrapped_turn ih
      rw [Function.iterate_succ_apply, hfour] at h
      exact hmin (h.trans (hall i).le)

/-- The 33 turns of `View.grow` are enough, if any are. -/
theorem growCap_turns {c minCap : Nat} (hc : c < 2 ^ 32) (h : Reaches c minCap) :
    ∃ r, growCap 33 c minCap = some r ∧ minCap ≤ r := by
  have hends : ∃ r, growCap 33 c minCap = some r := by
    rcases h with hmin | ⟨h4, k, hk, hle⟩
    · by_cases hpos : 0 < c
      · obtain ⟨r, hr, -⟩ := growCap_enough hpos hc hmin
        exact ⟨r, hr⟩
      · obtain rfl : c = 0 := by omega
        by_cases hsome : 0 < minCap
        · obtain ⟨r, hr, -⟩ := growCap_spec hmin 31 4 (Nat.le_refl 4) (by omega) (by omega)
          exact ⟨r, by rw [growCap, if_pos hsome, if_pos (by omega), hr]⟩
        · exact ⟨0, by rw [growCap, if_neg hsome]⟩
    · rw [growCap_iff]
      rcases turn_iterate h4 hc k with heq | ⟨-, hshift⟩
      · exact ⟨k, by omega, by rw [heq]; exact hle⟩
      · have hmin : minCap ≤ 2 ^ 31 := hle.trans hshift.le
        obtain ⟨r, hr, -⟩ := growCap_enough (by omega) hc hmin
        exact growCap_iff.1 ⟨r, hr⟩
  obtain ⟨r, hr⟩ := hends
  exact ⟨r, hr, growCap_room hr⟩

theorem grows_iff {c minCap : Nat} (hc : c < 2 ^ 32) :
    (∃ k r, growCap k c minCap = some r ∧ minCap ≤ r) ↔ Reaches c minCap := by
  constructor
  · rintro ⟨k, r, hr, -⟩
    obtain ⟨i, -, hle⟩ := growCap_iff.1 ⟨r, hr⟩
    exact reaches_of_turn hc hle
  · intro h
    obtain ⟨r, hr⟩ := growCap_turns hc h
    exact ⟨33, r, hr⟩

/-- **The loop of `_grow` ends with enough room exactly where** at most 2^31 elements are asked for, or some
shift of the capacity, cut to 32 bits, is enough. -/
theorem growth_iff (capacity minCap : UInt32) :
    (∃ k r, growCap k capacity.toNat minCap.toNat = some r ∧ minCap.toNat ≤ r) ↔
      minCap.toNat ≤ 2 ^ 31 ∨ 4 ≤ capacity.toNat ∧ ∃ k < 32, minCap.toNat ≤ capacity.toNat * 2 ^ k % 2 ^ 32 :=
  grows_iff capacity.toNat_lt

/-- A vector of four elements that is to hold 2^31 + 1 of them never gets there. -/
theorem growth_runs_on : ¬ ∀ capacity minCap : UInt32,
    ∃ k r, growCap k capacity.toNat minCap.toNat = some r ∧ minCap.toNat ≤ r := by
  intro h
  have hreach : Reaches 4 (2 ^ 31 + 1) := (grows_iff (by decide)).1 (h 4 2147483649)
  rcases hreach with hle | ⟨-, k, hk, hle⟩
  · omega
  · interval_cases k <;> omega

end View

end VersatileEngine
