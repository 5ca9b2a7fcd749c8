import Mathlib.Algebra.Order.Floor.Semifield
import Mathlib.Data.Int.Log
import Mathlib.Data.Rat.Floor
import Mathlib.Tactic.FieldSimp
import Mathlib.Tactic.Linarith
import Mathlib.Tactic.Positivity
import VersatileEngine.Lib.Binary64
import VersatileEngine.Lib.Decimal

/-!
# VersatileEngine.Lib.Decimal17

Finite binary64 numbers with 17 significant decimal digits, as `printf("%.17g")` writes them.
-/

namespace VersatileEngine

namespace Binary64

/-- The absolute value of a finite number is `num / den`. -/
def num (d : Binary64) : Nat :=
  if 1075 ≤ d.exponent then d.significand * 2 ^ (d.exponent - 1075) else d.significand

def den (d : Binary64) : Nat := if 1075 ≤ d.exponent then 1 else 2 ^ (1075 - d.exponent)

end Binary64

/-- The quotient, rounded to the nearest natural number, and to the even one of two. -/
def roundDiv (p q : Nat) : Nat :=
  if 2 * (p % q) < q then p / q
  else if q < 2 * (p % q) then p / q + 1
  else p / q + p / q % 2

/-- The power of ten of the first significant digit of `p / q`. -/
def leading (p q : Nat) : Int :=
  if q ≤ p then Nat.log 10 (p / q) else -(Nat.clog 10 ((q + p - 1) / p) : Int)

/-- The 17 significant digits of `p / q` as one number, and the power of ten of the first. -/
def digits17 (p q : Nat) : Nat × Int :=
  let k := leading p q
  let n := roundDiv (p * 10 ^ (16 - k).toNat) (q * 10 ^ (k - 16).toNat)
  if n = 10 ^ 17 then (10 ^ 16, k + 1) else (n, k)

def stripZeros (s : Str) : Str := (s.reverse.dropWhile fun c => c = 48).reverse

/-- A fraction without trailing zeros; no point without a fraction. -/
def pointed (frac : Str) : Str :=
  if stripZeros frac = [] then [] else 46 :: stripZeros frac

/-- An exponent: a sign and at least two digits. -/
def exponentText (x : Int) : Str :=
  101 :: (if x < 0 then 45 else 43) ::
    ((if x.natAbs < 10 then [48] else []) ++ natChars x.natAbs)

/-- `%.17g` of a positive number with these digits. -/
def textOf17 (digits : Str) (x : Int) : Str :=
  if x < -4 ∨ 17 ≤ x then digits.take 1 ++ pointed (digits.drop 1) ++ exponentText x
  else if x < 0 then 48 :: pointed (List.replicate (-x - 1).toNat 48 ++ digits)
  else digits.take (x.toNat + 1) ++ pointed (digits.drop (x.toNat + 1))

/-- `printf("%.17g")` of a finite number. -/
def format17g (d : Binary64) : Str :=
  (if d.negative then [45] else []) ++
    (if d.isZero then [48]
      else
        let p := digits17 d.num d.den
        textOf17 (natChars p.1) p.2)

/-! ## Rounding -/

theorem roundDiv_close (p : Nat) {q : Nat} (hq : 0 < q) :
    |(p : ℚ) / q - roundDiv p q| ≤ 1 / 2 := by
  have hq' : (0 : ℚ) < q := by exact_mod_cast hq
  have hsplit : (p : ℚ) / q = (p / q : Nat) + ((p % q : Nat) : ℚ) / q := by
    have h : (p : ℚ) = q * (p / q : Nat) + (p % q : Nat) := by
      exact_mod_cast (Nat.div_add_mod p q).symm
    have hcancel : ((q : ℚ) * (p / q : Nat) + (p % q : Nat)) / q =
        (p / q : Nat) + ((p % q : Nat) : ℚ) / q := by field_simp
    rw [← hcancel, ← h]
  have hr0 : (0 : ℚ) ≤ ((p % q : Nat) : ℚ) / q := by positivity
  have hr1 : ((p % q : Nat) : ℚ) / q < 1 := by
    rw [div_lt_one hq']
    exact_mod_cast Nat.mod_lt p hq
  have hhalf : 2 * (p % q) ≤ q → ((p % q : Nat) : ℚ) / q ≤ 1 / 2 := fun h => by
    have h : 2 * ((p % q : Nat) : ℚ) ≤ q := by exact_mod_cast h
    rw [div_le_iff₀ hq']
    linarith
  have hhalf' : q ≤ 2 * (p % q) → 1 / 2 ≤ ((p % q : Nat) : ℚ) / q := fun h => by
    have h : (q : ℚ) ≤ 2 * ((p % q : Nat) : ℚ) := by exact_mod_cast h
    rw [le_div_iff₀ hq']
    linarith
  rw [hsplit, abs_le, roundDiv]
  split_ifs with h1 h2
  · have := hhalf (by omega)
    constructor <;> linarith
  · have := hhalf' (by omega)
    push_cast
    constructor <;> linarith
  · have h := hhalf (by omega)
    have h' := hhalf' (by omega)
    have hle : ((p / q % 2 : Nat) : ℚ) ≤ 1 := by exact_mod_cast (by omega : p / q % 2 ≤ 1)
    have hge : (0 : ℚ) ≤ ((p / q % 2 : Nat) : ℚ) := by positivity
    push_cast
    constructor <;> linarith

theorem leading_eq {p q : Nat} (hp : 0 < p) (hq : 0 < q) : leading p q = Int.log 10 ((p : ℚ) / q) := by
  have hp' : (0 : ℚ) < p := by exact_mod_cast hp
  have hq' : (0 : ℚ) < q := by exact_mod_cast hq
  rw [leading]
  split_ifs with h
  · have hone : (1 : ℚ) ≤ (p : ℚ) / q := by
      rw [le_div_iff₀ hq', one_mul]
      exact_mod_cast h
    rw [Int.log_of_one_le_right 10 hone, Nat.floor_div_eq_div]
  · have hone : (p : ℚ) / q ≤ 1 := by
      rw [div_le_iff₀ hq', one_mul]
      exact_mod_cast (by omega : p ≤ q)
    have hceil : ⌈((p : ℚ) / q)⁻¹⌉₊ = (q + p - 1) / p := by
      rw [inv_div]
      refine le_antisymm (Nat.ceil_le.mpr ?_) ?_
      · rw [div_le_iff₀ hp']
        have := Nat.div_add_mod (q + p - 1) p
        have := Nat.mod_lt (q + p - 1) hp
        have hle : q ≤ (q + p - 1) / p * p := by rw [Nat.mul_comm]; omega
        exact_mod_cast hle
      · have hc := Nat.le_ceil ((q : ℚ) / p)
        rw [div_le_iff₀ hp'] at hc
        have hle : q ≤ ⌈(q : ℚ) / p⌉₊ * p := by exact_mod_cast hc
        refine Nat.lt_succ_iff.mp ((Nat.div_lt_iff_lt_mul hp).mpr ?_)
        rw [Nat.succ_mul]
        omega
    rw [Int.log_of_right_le_one 10 hone, hceil]

/-- The scaled quotient that is rounded. -/
theorem scaled_eq (p q : Nat) (k : Int) :
    ((p * 10 ^ (16 - k).toNat : Nat) : ℚ) / ((q * 10 ^ (k - 16).toNat : Nat) : ℚ) =
      (p : ℚ) / q * 10 ^ (16 - k) := by
  push_cast
  rcases le_total k 16 with h | h
  · obtain ⟨n, hn⟩ := Int.eq_ofNat_of_zero_le (by omega : 0 ≤ 16 - k)
    have h0 : (k - 16).toNat = 0 := by omega
    rw [h0, hn, pow_zero, mul_one, Int.toNat_natCast, zpow_natCast]
    ring
  · obtain ⟨n, hn⟩ := Int.eq_ofNat_of_zero_le (by omega : 0 ≤ k - 16)
    have h0 : (16 - k).toNat = 0 := by omega
    have hneg : 16 - k = -(n : Int) := by omega
    rw [h0, hneg, hn, pow_zero, mul_one, Int.toNat_natCast, zpow_neg, zpow_natCast]
    field_simp

/-- Seventeen digits, with an error of half a unit of the last at most. -/
theorem digits17_spec {p q : Nat} (hp : 0 < p) (hq : 0 < q) :
    10 ^ 16 ≤ (digits17 p q).1 ∧ (digits17 p q).1 < 10 ^ 17 ∧
      |(p : ℚ) / q - (digits17 p q).1 * 10 ^ ((digits17 p q).2 - 16)| * (2 * 10 ^ 16) ≤ (p : ℚ) / q ∧
      |(p : ℚ) / q - (digits17 p q).1 * 10 ^ ((digits17 p q).2 - 16)| ≤
        1 / 2 * 10 ^ ((digits17 p q).2 - 16) := by
  have hx : (0 : ℚ) < (p : ℚ) / q := by
    have hp' : (0 : ℚ) < p := by exact_mod_cast hp
    have hq' : (0 : ℚ) < q := by exact_mod_cast hq
    positivity
  have hk := leading_eq hp hq
  have hlow := Int.zpow_log_le_self (b := 10) (by decide) hx
  have hhigh := Int.lt_zpow_succ_log_self (b := 10) (by decide) ((p : ℚ) / q)
  rw [← hk] at hlow hhigh
  have hclose := roundDiv_close (p * 10 ^ (16 - leading p q).toNat)
    (Nat.mul_pos hq (Nat.pow_pos (by decide : 0 < 10) (n := (leading p q - 16).toNat)))
  rw [scaled_eq] at hclose
  simp only [digits17]
  generalize leading p q = k at hlow hhigh hclose ⊢
  generalize roundDiv _ _ = n at hclose ⊢
  generalize (p : ℚ) / q = x at hx hlow hhigh hclose ⊢
  push_cast at hlow hhigh
  have hunit : (0 : ℚ) < 10 ^ (k - 16) := zpow_pos (by norm_num) _
  have hcancel : (10 : ℚ) ^ (16 - k) * 10 ^ (k - 16) = 1 := by
    rw [← zpow_add₀ (by norm_num)]
    simp
  have hpow : (10 : ℚ) ^ k = 10 ^ (16 : Nat) * 10 ^ (k - 16) := by
    rw [← zpow_natCast, ← zpow_add₀ (by norm_num)]
    congr 1
    push_cast
    ring
  have hsucc : (10 : ℚ) ^ (k + 1) = 10 ^ (17 : Nat) * 10 ^ (k - 16) := by
    rw [← zpow_natCast, ← zpow_add₀ (by norm_num)]
    congr 1
    push_cast
    ring
  -- the scaled quotient `y` has 17 digits before the point
  obtain ⟨y, hy⟩ : ∃ y : ℚ, y = x * 10 ^ (16 - k) := ⟨_, rfl⟩
  have hxy : x = y * 10 ^ (k - 16) := by rw [hy, mul_assoc, hcancel, mul_one]
  rw [← hy, abs_le] at hclose
  rw [hpow, hxy] at hlow
  rw [hsucc, hxy] at hhigh
  have hlow := le_of_mul_le_mul_right hlow hunit
  have hhigh := lt_of_mul_lt_mul_right hhigh hunit.le
  have hn1 : 10 ^ 16 ≤ n := by
    have h : (10 ^ 16 : ℚ) < n + 1 := by linarith
    have h : 10 ^ 16 < n + 1 := by exact_mod_cast h
    omega
  have hn2 : n ≤ 10 ^ 17 := by
    have h : (n : ℚ) < 10 ^ 17 + 1 := by linarith
    have h : n < 10 ^ 17 + 1 := by exact_mod_cast h
    omega
  have habs : |y - n| ≤ 1 / 2 := abs_le.mpr hclose
  have herr : |x - n * 10 ^ (k - 16)| = |y - n| * 10 ^ (k - 16) := by
    have hfactor : x - n * 10 ^ (k - 16) = (y - n) * 10 ^ (k - 16) := by rw [hxy]; ring
    rw [hfactor, abs_mul, abs_of_pos hunit]
  have hrel : |x - n * 10 ^ (k - 16)| * (2 * 10 ^ 16) ≤ x := by
    rw [herr, hxy]
    calc |y - n| * 10 ^ (k - 16) * (2 * 10 ^ 16) = |y - n| * (2 * 10 ^ 16) * 10 ^ (k - 16) := by ring
      _ ≤ y * 10 ^ (k - 16) := mul_le_mul_of_nonneg_right (by linarith) hunit.le
  have hhalf : |x - n * 10 ^ (k - 16)| ≤ 1 / 2 * 10 ^ (k - 16) :=
    herr ▸ mul_le_mul_of_nonneg_right habs hunit.le
  split_ifs with h
  · have hshift : (10 : ℚ) ^ (k + 1 - 16) = 10 * 10 ^ (k - 16) := by
      have hexp : k + 1 - 16 = (k - 16) + 1 := by ring
      rw [hexp, zpow_add₀ (by norm_num), zpow_one, mul_comm]
    have hsame : ((10 ^ 16 : Nat) : ℚ) * 10 ^ (k + 1 - 16) = n * 10 ^ (k - 16) := by
      rw [h, hshift]
      push_cast
      ring
    rw [hsame, hshift]
    exact ⟨le_refl _, by norm_num, hrel, by linarith⟩
  · exact ⟨hn1, by omega, hrel, hhalf⟩

end VersatileEngine
