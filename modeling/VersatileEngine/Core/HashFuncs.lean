import Mathlib.Tactic.Linarith
import Mathlib.Tactic.Ring

/-!
# VersatileEngine.Core.HashFuncs

What the hash maps take from `hashfuncs.h`, and the conversion of a `uint32_t` to `float`.

* `fastmod`          — the remainder by a multiplication with the inverse.
* `fastmod_eq`       — it is the remainder for every size of the table.
* `toFloat`          — the nearest of 24 significant bits, ties to even.
* `overloaded`       — when a map grows.
* `capacity_facts`, `capacity_growth` — the table of sizes.
-/

namespace VersatileEngine

def hashTableSizeMax : Nat := 29

def hashTableSizePrimes : List Nat :=
  [5, 13, 23, 47, 97, 193, 389, 769, 1543, 3079,
    6151, 12289, 24593, 49157, 98317, 196613, 393241, 786433, 1572869, 3145739,
    6291469, 12582917, 25165843, 50331653, 100663319, 201326611, 402653189, 805306457, 1610612741]

def hashTableSizePrimesInv : List Nat :=
  [3689348814741910324, 1418980313362273202, 802032351030850071, 392483916461905354, 190172619316593316,
    95578984837873325, 47420935922132524, 23987963684927896, 11955116055547344, 5991147799191151,
    2998982941588287, 1501077717772769, 750081082979285, 375261795343686, 187625172388393,
    93822606204624, 46909513691883, 23456218233098, 11728086747027, 5864041509391,
    2932024948977, 1466014921160, 733007198436, 366503839517, 183251896093,
    91625960335, 45812983922, 22906489714, 11453246088]

/-- `hash_table_size_primes[idx]`. -/
def capacityAt (idx : Nat) : Nat := hashTableSizePrimes.getD idx 0

/-- `hash_table_size_primes_inv[idx]`. -/
def capacityInvAt (idx : Nat) : Nat := hashTableSizePrimesInv.getD idx 0

/-- In 64 bits the product with the inverse, of the product with the divisor the high 64 bits. -/
def fastmod (n c d : Nat) : Nat := (c * n % 2 ^ 64 * d / 2 ^ 64) % 2 ^ 32

/-- A `uint32_t` as a `float`, whose value is an integer. -/
def toFloat (n : Nat) : Nat :=
  let e := n.log2 - 23
  let q := n / 2 ^ e
  let r := n % 2 ^ e
  (if 2 ^ e < 2 * r ∨ (2 * r = 2 ^ e ∧ q % 2 = 1) then q + 1 else q) * 2 ^ e

/-- `_size + 1 > MAX_OCCUPANCY * capacity`, in `float`; both sides are taken four times. -/
def overloaded (size capacity : Nat) : Prop := toFloat (3 * toFloat capacity) < 4 * toFloat (size + 1)

instance (size capacity : Nat) : Decidable (overloaded size capacity) :=
  inferInstanceAs (Decidable (_ < _))

theorem fastmod_of_inv {n c d : Nat} (hc : c = (2 ^ 64 - 1) / d + 1) (hd : 0 < d) (hd' : d < 2 ^ 31)
    (hn : n < 2 ^ 32) : fastmod n c d = n % d := by
  -- the inverse is too large by less than one: `c * d = 2 ^ 64 + e` with `e < d`
  obtain ⟨e, he, hed⟩ : ∃ e, c * d = 2 ^ 64 + e ∧ e < d := by
    have hdiv := Nat.div_add_mod (2 ^ 64 - 1) d
    have hmod := Nat.mod_lt (2 ^ 64 - 1) hd
    have hcd : c * d = d * ((2 ^ 64 - 1) / d) + d := by rw [hc]; ring
    exact ⟨c * d - 2 ^ 64, by omega, by omega⟩
  set q := n / d
  set s := n % d with hs
  have hsd : s < d := Nat.mod_lt _ hd
  have hn' : d * q + s = n := Nat.div_add_mod n d
  have hcn : c * n = 2 ^ 64 * q + (e * q + c * s) := by
    calc c * n = c * d * q + c * s := by rw [← hn']; ring
      _ = 2 ^ 64 * q + (e * q + c * s) := by rw [he]; ring
  have hc33 : 2 ^ 33 < c := by
    by_contra hle
    have : c * d ≤ 2 ^ 33 * d := Nat.mul_le_mul_right d (Nat.le_of_not_lt hle)
    omega
  have hlow : e * q + c * s < 2 ^ 64 := by
    have h1 : e * q ≤ d * q := Nat.mul_le_mul_right q (Nat.le_of_lt hed)
    have h2 : c * s + c ≤ c * d := by
      calc c * s + c = c * (s + 1) := by ring
        _ ≤ c * d := Nat.mul_le_mul_left c hsd
    omega
  have hprod : (e * q + c * s) * d = 2 ^ 64 * s + e * n := by
    calc (e * q + c * s) * d = e * (d * q) + c * d * s := by ring
      _ = 2 ^ 64 * s + e * (d * q + s) := by rw [he]; ring
      _ = 2 ^ 64 * s + e * n := by rw [hn']
  have hen : e * n < 2 ^ 64 := by
    calc e * n ≤ 2 ^ 31 * 2 ^ 32 := Nat.mul_le_mul (by omega) (by omega)
      _ < 2 ^ 64 := by norm_num
  rw [fastmod, hcn, Nat.mul_add_mod, Nat.mod_eq_of_lt hlow, hprod, Nat.mul_add_div (by norm_num),
    Nat.div_eq_of_lt hen, Nat.add_zero, Nat.mod_eq_of_lt (by omega)]

/-! ### The table of sizes -/

theorem capacity_facts : ∀ idx < hashTableSizeMax, 5 ≤ capacityAt idx ∧ capacityAt idx < 2 ^ 31 ∧
    capacityInvAt idx = (2 ^ 64 - 1) / capacityAt idx + 1 := by
  decide +kernel

/-- Each size is well above the one before it. -/
theorem capacity_growth : ∀ idx, idx + 1 < hashTableSizeMax →
    1088 * capacityAt idx ≤ 675 * capacityAt (idx + 1) := by
  intro idx h
  have : ∀ idx < 28, 1088 * capacityAt idx ≤ 675 * capacityAt (idx + 1) := by decide +kernel
  exact this idx (Nat.lt_of_succ_lt_succ h)

theorem capacity_lt_succ {idx : Nat} (h : idx + 1 < hashTableSizeMax) :
    capacityAt idx < capacityAt (idx + 1) := by
  have hg := capacity_growth idx h
  have hp := (capacity_facts idx (Nat.lt_of_succ_lt h)).1
  omega

theorem capacity_mono {i j : Nat} (hij : i ≤ j) (hj : j < hashTableSizeMax) : capacityAt i ≤ capacityAt j := by
  induction j with
  | zero => rw [Nat.le_zero.mp hij]
  | succ j ih =>
    rcases Nat.lt_or_ge i (j + 1) with h | h
    · exact (ih (Nat.le_of_lt_succ h) (Nat.lt_of_succ_lt hj)).trans (Nat.le_of_lt (capacity_lt_succ hj))
    · rw [Nat.le_antisymm hij h]

theorem capacity_strict {i j : Nat} (hij : i < j) (hj : j < hashTableSizeMax) : capacityAt i < capacityAt j :=
  (capacity_lt_succ (Nat.lt_of_le_of_lt hij hj)).trans_le (capacity_mono hij hj)

/-- The remainder is right for every size of the table. -/
theorem fastmod_eq {idx n : Nat} (hidx : idx < hashTableSizeMax) (hn : n < 2 ^ 32) :
    fastmod n (capacityInvAt idx) (capacityAt idx) = n % capacityAt idx := by
  obtain ⟨h5, h31, hinv⟩ := capacity_facts idx hidx
  exact fastmod_of_inv hinv (by omega) h31 hn

/-! ### Rounding -/

theorem toFloat_bounds (n : Nat) : 15 * n ≤ 16 * toFloat n ∧ 16 * toFloat n ≤ 17 * n := by
  simp only [toFloat]
  set e := n.log2 - 23 with he
  have hdiv : 2 ^ e * (n / 2 ^ e) + n % 2 ^ e = n := Nat.div_add_mod n (2 ^ e)
  have hmod : n % 2 ^ e < 2 ^ e := Nat.mod_lt _ (Nat.two_pow_pos e)
  rcases Nat.eq_zero_or_pos e with h0 | hpos
  · rw [h0, Nat.pow_zero, Nat.mod_one, Nat.div_one, if_neg (by omega), Nat.mul_one]
    omega
  · have hlarge : 16 * 2 ^ e ≤ n := by
      have hn : n ≠ 0 := by
        rintro rfl
        simp [Nat.log2_zero] at he
        omega
      have hlog := Nat.log2_self_le hn
      rw [show n.log2 = e + 23 by omega, Nat.pow_add] at hlog
      omega
    split_ifs
    · rw [Nat.add_mul, Nat.one_mul, Nat.mul_comm (n / 2 ^ e)]
      omega
    · rw [Nat.mul_comm (n / 2 ^ e)]
      omega

/-- A table that takes one more without growing keeps an empty slot. -/
theorem lt_of_not_overloaded {size capacity : Nat} (h : ¬ overloaded size capacity) :
    size + 1 < capacity := by
  have h1 := toFloat_bounds capacity
  have h2 := toFloat_bounds (3 * toFloat capacity)
  have h3 := toFloat_bounds (size + 1)
  simp only [overloaded] at h
  omega

/-- What fits into one size is no overload for the next. -/
theorem not_overloaded_succ {size idx : Nat} (hidx : idx + 1 < hashTableSizeMax) (h : size < capacityAt idx) :
    ¬ overloaded size (capacityAt (idx + 1)) := by
  have hg := capacity_growth idx hidx
  have h1 := toFloat_bounds (capacityAt (idx + 1))
  have h2 := toFloat_bounds (3 * toFloat (capacityAt (idx + 1)))
  have h3 := toFloat_bounds (size + 1)
  simp only [overloaded]
  omega

end VersatileEngine
