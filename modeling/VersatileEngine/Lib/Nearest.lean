import VersatileEngine.Lib.Literal

/-!
# VersatileEngine.Lib.Nearest

Seventeen significant digits determine a binary64 number.

* `Binary64.toRat`  — the rational number that a finite number denotes.
* `spacing`         — another number differs by a `2^-53`th at least.
* `Nearest`         — correct rounding, with the infinities counted as `±2^1024`.
* `format17g_real`  — the literal of a number that is not printed as an integer is nearest to it.
* `format17g_int`   — an integer below `10^17` is printed with its digits.
-/

namespace VersatileEngine

open Json

namespace Binary64

/-- The absolute value in units of `2^-1074`. -/
def units (d : Binary64) : Nat := d.significand * 2 ^ (d.exponent - 1)

def absRat (d : Binary64) : ℚ := d.units / 2 ^ 1074

def toRat (d : Binary64) : ℚ := if d.negative then -d.absRat else d.absRat

theorem significand_lt (d : Binary64) : d.significand < 2 ^ 53 := by
  have hf : d.fraction < 2 ^ 52 := Nat.mod_lt _ (by decide)
  unfold significand
  split_ifs <;> omega

theorem exponent_pos (d : Binary64) : 1 ≤ d.exponent := Nat.le_max_right _ _

theorem le_significand {d : Binary64} (h : 1 < d.exponent) : 2 ^ 52 ≤ d.significand := by
  have he : d.expBits ≠ 0 := fun he => by
    rw [exponent, he] at h
    exact absurd h (by decide)
  rw [significand, if_neg he]
  exact Nat.le_add_right _ _

theorem den_pos (d : Binary64) : 0 < d.den := by
  unfold den
  split_ifs
  · exact Nat.one_pos
  · exact Nat.pow_pos (by decide)

/-- The fraction that is printed. -/
theorem num_div_den (d : Binary64) : (d.num : ℚ) / d.den = d.absRat := by
  have he := d.exponent_pos
  unfold num den absRat units
  split_ifs with h
  · obtain ⟨k, hk⟩ := Nat.exists_eq_add_of_le h
    have h1 : d.exponent - 1075 = k := by omega
    have h2 : d.exponent - 1 = k + 1074 := by omega
    rw [h1, h2]
    push_cast
    rw [pow_add]
    field_simp
  · obtain ⟨k, hk⟩ : ∃ k, d.exponent - 1 + k = 1074 := ⟨1075 - d.exponent, by omega⟩
    have h1 : 1075 - d.exponent = k := by omega
    rw [h1, ← hk]
    push_cast
    rw [pow_add]
    field_simp

/-- Another number differs by one unit of the last place, or half a unit below a power of two. -/
theorem spacing {d d' : Binary64} (h : d.units ≠ d'.units) :
    d.units ≤ 2 ^ 53 * (d.units - d'.units) ∨ d.units ≤ 2 ^ 53 * (d'.units - d.units) := by
  have hM := d.significand_lt
  have hM' := d'.significand_lt
  have he := d.exponent_pos
  have hlow := @le_significand d
  unfold units at h ⊢
  generalize d.significand = M at *
  generalize d'.significand = M' at *
  rcases Nat.lt_or_ge d'.exponent d.exponent with hlt | hle
  · -- below half a unit of `d`, whose significand is full
    obtain ⟨j, hj⟩ := Nat.exists_eq_add_of_lt hlt
    have he' := d'.exponent_pos
    have hfull : 2 ^ 52 ≤ M := hlow (by omega)
    have hexp : d.exponent - 1 = 1 + j + (d'.exponent - 1) := by omega
    obtain ⟨v, hv⟩ : ∃ v, v = 2 ^ j * 2 ^ (d'.exponent - 1) := ⟨_, rfl⟩
    have hpow : 2 ^ (d.exponent - 1) = 2 * v := by rw [hexp, Nat.pow_add, Nat.pow_add, hv]; ring
    have hB : M' * 2 ^ (d'.exponent - 1) ≤ (2 ^ 53 - 1) * v := by
      rw [hv]
      exact Nat.mul_le_mul (by omega) (Nat.le_mul_of_pos_left _ (Nat.pow_pos (by decide)))
    have hA : 2 ^ 52 * v ≤ M * v := Nat.mul_le_mul_right v hfull
    have hshape : M * (2 * v) = 2 * (M * v) := by ring
    rw [hpow, hshape]
    omega
  · -- a multiple of the unit of `d`
    obtain ⟨k, hk⟩ := Nat.exists_eq_add_of_le hle
    have hexp : d'.exponent - 1 = k + (d.exponent - 1) := by omega
    rw [hexp, Nat.pow_add, ← Nat.mul_assoc] at h ⊢
    generalize 2 ^ (d.exponent - 1) = u at *
    generalize M' * 2 ^ k = K at *
    rw [← Nat.sub_mul, ← Nat.sub_mul, ← Nat.mul_assoc, ← Nat.mul_assoc]
    have hne : M ≠ K := fun he => h (he ▸ rfl)
    rcases Nat.lt_or_ge M K with hMK | hMK
    · exact .inr (Nat.mul_le_mul_right u (by omega))
    · exact .inl (Nat.mul_le_mul_right u (by omega))

theorem absRat_nonneg (d : Binary64) : 0 ≤ d.absRat := by
  unfold absRat
  positivity

theorem abs_toRat (d : Binary64) : |d.toRat| = d.absRat := by
  unfold toRat
  split_ifs
  · rw [abs_neg, abs_of_nonneg d.absRat_nonneg]
  · exact abs_of_nonneg d.absRat_nonneg

theorem absRat_spacing {d d' : Binary64} (h : d'.absRat ≠ d.absRat) :
    d.absRat ≤ 2 ^ 53 * |d.absRat - d'.absRat| := by
  have hunits : d.units ≠ d'.units := fun he => h (by rw [absRat, absRat, he])
  have hle : (d.units : ℚ) ≤ 2 ^ 53 * |(d.units : ℚ) - d'.units| := by
    have hcast : ∀ a b : Nat, ((a - b : Nat) : ℚ) ≤ |(a : ℚ) - b| := fun a b => by
      rcases Nat.le_total b a with hd | hd
      · rw [Nat.cast_sub hd]
        exact le_abs_self _
      · rw [Nat.sub_eq_zero_of_le hd, Nat.cast_zero]
        exact abs_nonneg _
    rcases spacing hunits with hle | hle
    · have hle : (d.units : ℚ) ≤ 2 ^ 53 * ((d.units - d'.units : Nat) : ℚ) := by exact_mod_cast hle
      linarith [hcast d.units d'.units]
    · have hle : (d.units : ℚ) ≤ 2 ^ 53 * ((d'.units - d.units : Nat) : ℚ) := by exact_mod_cast hle
      rw [abs_sub_comm]
      linarith [hcast d'.units d.units]
  unfold absRat
  obtain ⟨c, hc, hpos⟩ : ∃ c : ℚ, c = 2 ^ 1074 ∧ 0 < c := ⟨_, rfl, by positivity⟩
  rw [← hc, ← sub_div, abs_div, abs_of_pos hpos, ← mul_div_assoc]
  exact div_le_div_of_nonneg_right hle hpos.le

/-- The distance between two numbers. -/
theorem toRat_spacing {d d' : Binary64} (h : d'.toRat ≠ d.toRat) :
    |d.toRat| ≤ 2 ^ 53 * |d.toRat - d'.toRat| := by
  have h0 := d.absRat_nonneg
  have h0' := d'.absRat_nonneg
  rw [abs_toRat]
  unfold toRat at h ⊢
  split_ifs at h ⊢ with hd' hd hd
  · have hne : d'.absRat ≠ d.absRat := fun he => h (by rw [he])
    have hneg : |-d.absRat - -d'.absRat| = |d.absRat - d'.absRat| := by
      rw [← abs_neg]
      congr 1
      ring
    rw [hneg]
    exact absRat_spacing hne
  · have hfar : |-d.absRat - d'.absRat| = d.absRat + d'.absRat := by
      rw [← abs_neg, abs_of_nonneg (by linarith)]
      ring
    rw [hfar]
    linarith
  · have hfar : |d.absRat - -d'.absRat| = d.absRat + d'.absRat := by
      rw [sub_neg_eq_add, abs_of_nonneg (by linarith)]
    rw [hfar]
    linarith
  · exact absRat_spacing h

/-- Of all numbers `d` is nearest to `y`, and by itself. The infinities count as `±2^1024`, so that
what is rounded to them is near no finite number. -/
def Nearest (y : ℚ) (d : Binary64) : Prop :=
  d.isFinite = true ∧ d.toRat ≠ 0 ∧
    ∀ d' : Binary64, d'.isNaN = false → d'.toRat ≠ d.toRat → |y - d.toRat| < |y - d'.toRat|

/-- Seventeen digits are near enough. -/
theorem nearest_of_close {y : ℚ} {d : Binary64} (hf : d.isFinite = true) (hne : d.toRat ≠ 0)
    (h : |d.toRat - y| * (2 * 10 ^ 16) ≤ |d.toRat|) : Nearest y d := by
  refine ⟨hf, hne, fun d' _ hd' => ?_⟩
  have hspace := toRat_spacing hd'
  have hpos : 0 < |d.toRat| := abs_pos.mpr hne
  have htriangle : |d.toRat - d'.toRat| ≤ |d.toRat - y| + |y - d'.toRat| := abs_sub_le _ _ _
  rw [abs_sub_comm y d.toRat]
  linarith

theorem magnitude_eq (d : Binary64) : d.magnitude = d.expBits * 2 ^ 52 + d.fraction := by
  have hfrac : d.fraction = d.magnitude % 2 ^ 52 := by
    rw [fraction, magnitude, Nat.mod_mod_of_dvd _ (by decide)]
  rw [hfrac, expBits]
  exact (Nat.div_add_mod' d.magnitude (2 ^ 52)).symm

/-- A larger exponent is a larger number. -/
theorem units_lt {d d' : Binary64} (h : d.expBits < d'.expBits) : d.units < d'.units := by
  have hsig := d.significand_lt
  have hfrac : d.fraction < 2 ^ 52 := Nat.mod_lt _ (by decide)
  have hbig : 2 ^ 52 * 2 ^ (d'.exponent - 1) ≤ d'.units := by
    refine Nat.mul_le_mul_right _ ?_
    rw [significand, if_neg (by omega)]
    exact Nat.le_add_right _ _
  refine Nat.lt_of_lt_of_le ?_ hbig
  have he' : d'.exponent = d'.expBits := Nat.max_eq_left (by omega)
  rw [units, he']
  by_cases h0 : d.expBits = 0
  · have he : d.exponent = 1 := by rw [exponent, h0]; rfl
    have hpos : 0 < 2 ^ (d'.expBits - 1) := Nat.pow_pos (by decide)
    rw [he, significand, if_pos h0, Nat.sub_self, Nat.pow_zero, Nat.mul_one]
    exact Nat.lt_of_lt_of_le hfrac (Nat.le_mul_of_pos_right _ hpos)
  · have he : d.exponent = d.expBits := Nat.max_eq_left (by omega)
    obtain ⟨j, hj⟩ := Nat.exists_eq_add_of_lt h
    have hpow : 2 ^ 52 * 2 ^ (d'.expBits - 1) = 2 ^ 53 * 2 ^ j * 2 ^ (d.expBits - 1) := by
      have hexp : d'.expBits - 1 = 1 + j + (d.expBits - 1) := by omega
      rw [hexp, Nat.pow_add, Nat.pow_add]
      ring
    rw [he, hpow]
    refine Nat.mul_lt_mul_of_pos_right ?_ (Nat.pow_pos (by decide))
    exact Nat.lt_of_lt_of_le hsig (Nat.le_mul_of_pos_right _ (Nat.pow_pos (by decide)))

theorem units_inj {d d' : Binary64} (h : d.units = d'.units) : d.magnitude = d'.magnitude := by
  have he : d.expBits = d'.expBits := by
    rcases Nat.lt_trichotomy d.expBits d'.expBits with hlt | he | hlt
    · exact absurd h (units_lt hlt).ne
    · exact he
    · exact absurd h (units_lt hlt).ne'
  have hexp : d.exponent = d'.exponent := by rw [exponent, exponent, he]
  have hsig : d.significand = d'.significand := by
    rw [units, units, hexp] at h
    exact Nat.eq_of_mul_eq_mul_right (Nat.pow_pos (by decide)) h
  rw [magnitude_eq, magnitude_eq, he]
  unfold significand at hsig
  rw [he] at hsig
  split_ifs at hsig <;> omega

/-- Numbers other than zero are determined by what they denote. -/
theorem toRat_inj {d d' : Binary64} (h : d.toRat = d'.toRat) (h0 : d.toRat ≠ 0) : d = d' := by
  have habs : d.absRat = d'.absRat := by rw [← abs_toRat, ← abs_toRat, h]
  have hpos : 0 < d.absRat := by
    rw [← abs_toRat]
    exact abs_pos.mpr h0
  have hsign : d.negative = d'.negative := by
    unfold toRat at h
    cases hd : d.negative <;> cases hd' : d'.negative <;> simp only [hd, hd', if_true, if_false,
      Bool.false_eq_true] at h ⊢ <;> exfalso <;> linarith
  have hunits : d.units = d'.units := by
    obtain ⟨c, hc, hcpos⟩ : ∃ c : ℚ, c = 2 ^ 1074 ∧ 0 < c := ⟨_, rfl, by positivity⟩
    unfold absRat at habs
    rw [← hc, div_left_inj' hcpos.ne'] at habs
    exact_mod_cast habs
  have hmag := units_inj hunits
  have hlt : d.bits.toNat < 2 ^ 64 ∧ d'.bits.toNat < 2 ^ 64 := ⟨d.bits.toNat_lt, d'.bits.toNat_lt⟩
  have hbits : d.bits.toNat = d'.bits.toNat := by
    unfold magnitude at hmag
    have hiff : 2 ^ 63 ≤ d.bits.toNat ↔ 2 ^ 63 ≤ d'.bits.toNat := by
      simpa [negative] using hsign
    omega
  obtain ⟨b⟩ := d
  obtain ⟨b'⟩ := d'
  exact congrArg Binary64.mk (UInt64.toNat_inj.mp hbits)

theorem nearest_unique {y : ℚ} {d d' : Binary64} (h : Nearest y d) (h' : Nearest y d') : d = d' := by
  have hnan : ∀ {d : Binary64}, d.isFinite = true → d.isNaN = false := fun {d} hf => by
    simp only [isFinite, ne_eq, decide_not, Bool.not_eq_true', decide_eq_false_iff_not] at hf
    simp [isNaN, hf]
  by_cases he : d'.toRat = d.toRat
  · exact toRat_inj he.symm h.2.1
  · exact absurd (h.2.2 d' (hnan h'.1) he) (not_lt_of_gt (h'.2.2 d (hnan h.1) (Ne.symm he)))

open Classical in
/-- The number that a rational number is rounded to, unless it is a zero, an infinity or one of two. -/
noncomputable def rounded (y : ℚ) : Option Binary64 :=
  if h : ∃ d, Nearest y d then some h.choose else none

theorem rounded_eq {y : ℚ} {d : Binary64} (h : Nearest y d) : rounded y = some d := by
  have hex : ∃ d, Nearest y d := ⟨d, h⟩
  rw [rounded, dif_pos hex]
  exact congrArg some (nearest_unique hex.choose_spec h)

/-! ## Printing -/

theorem toInt?_eq (d : Binary64) :
    d.toInt? = d.absNat?.map fun n : Nat => if d.negative then -(n : Int) else n := by
  unfold toInt?
  cases d.absNat? <;> rfl

/-- A number that `%.17g` prints as an integer. -/
def PrintsInt (d : Binary64) : Prop := ∃ i, d.toInt? = some i ∧ i.natAbs < 10 ^ 17

theorem absNat?_eq {d : Binary64} {N : Nat} (h : d.absNat? = some N) : d.num = N * d.den := by
  unfold absNat? at h
  unfold num den
  rw [Option.ite_none_right_eq_some] at h
  obtain ⟨-, h⟩ := h
  split_ifs at h ⊢ with he hr
  · rw [Option.some.inj h, Nat.mul_one]
  · rw [← Option.some.inj h, Nat.div_mul_cancel (Nat.dvd_of_mod_eq_zero hr)]

theorem absNat?_of_num {d : Binary64} (hf : d.isFinite = true) {N : Nat} (h : d.num = N * d.den) :
    d.absNat? = some N := by
  unfold num den at h
  unfold absNat?
  rw [if_pos hf]
  split_ifs at h ⊢ with he hr
  · rw [h, Nat.mul_one]
  · rw [h, Nat.mul_div_cancel _ (Nat.pow_pos (by decide))]
  · rw [h, Nat.mul_mod_left] at hr
    exact absurd rfl hr

theorem num_pos {d : Binary64} (h : d.isZero = false) : 0 < d.num := by
  have hs : 0 < d.significand := by
    unfold significand
    split_ifs with he
    · have hm : d.magnitude ≠ 0 := by simpa [isZero] using h
      have hfrac : d.fraction = d.magnitude % 2 ^ 52 := by
        rw [fraction, magnitude, Nat.mod_mod_of_dvd _ (by decide)]
      have := Nat.div_add_mod d.magnitude (2 ^ 52)
      rw [expBits] at he
      omega
    · omega
  unfold num
  split_ifs
  · exact Nat.mul_pos hs (Nat.pow_pos (by decide))
  · exact hs

theorem toInt?_zero {d : Binary64} (h : d.isZero = true) : d.toInt? = some 0 := by
  have hm : d.magnitude = 0 := by simpa [isZero] using h
  have hfrac : d.fraction = 0 := by
    rw [fraction, ← Nat.mod_mod_of_dvd d.bits.toNat (by decide : 2 ^ 52 ∣ 2 ^ 63), ← magnitude, hm,
      Nat.zero_mod]
  have he : d.expBits = 0 := by rw [expBits, hm, Nat.zero_div]
  have hs : d.significand = 0 := by rw [significand, if_pos he, hfrac]
  have hnat : d.absNat? = some 0 := by
    refine absNat?_of_num (by simp [isFinite, he]) ?_
    unfold num
    simp [hs]
  rw [toInt?_eq, hnat]
  simp

theorem absRat_pos {d : Binary64} (h : d.isZero = false) : 0 < d.absRat := by
  have hnum : (0 : ℚ) < d.num := by exact_mod_cast num_pos h
  have hden : (0 : ℚ) < d.den := by exact_mod_cast d.den_pos
  rw [← num_div_den]
  exact div_pos hnum hden

/-- No other integer is within the error of seventeen digits. -/
theorem num_of_close {d : Binary64} {N : Nat} (hhalf : |d.absRat - N| ≤ 1 / 2)
    (hrel : |d.absRat - N| * (2 * 10 ^ 16) ≤ d.absRat) : d.num = N * d.den := by
  have hden : (0 : ℚ) < d.den := by exact_mod_cast d.den_pos
  obtain ⟨z, hz⟩ : ∃ z : Int, z = (d.num : Int) - N * d.den := ⟨_, rfl⟩
  have hdist : |d.absRat - N| = |(z : ℚ)| / d.den := by
    have hsub : d.absRat - N = (z : ℚ) / d.den := by
      rw [← num_div_den, hz]
      push_cast
      field_simp
    rw [hsub, abs_div, abs_of_pos hden]
  have hzero : z = 0 := by
    by_contra hne
    have hone : (1 : ℚ) ≤ |(z : ℚ)| := by
      rw [← Int.cast_abs]
      exact_mod_cast Int.one_le_abs hne
    rw [hdist] at hhalf hrel
    by_cases he : 1075 ≤ d.exponent
    · have hden1 : d.den = 1 := if_pos he
      rw [hden1, Nat.cast_one, div_one] at hhalf
      linarith
    · have hnum : d.num = d.significand := if_neg he
      have hsmall : (d.num : ℚ) < 2 ^ 53 := by
        rw [hnum]
        exact_mod_cast d.significand_lt
      rw [← num_div_den, div_mul_eq_mul_div, div_le_div_iff_of_pos_right hden] at hrel
      linarith
  have : (d.num : Int) = N * d.den := by omega
  exact_mod_cast this

end Binary64

section Format

open Binary64

variable {d : Binary64}

/-- An integer below `10^17` is printed with its digits; so is a negative zero. -/
theorem format17g_int {i : Int} (h : d.toInt? = some i) (hi : i.natAbs < 10 ^ 17) :
    format17g d = (if d.negative then [45] else []) ++ natChars i.natAbs ∧
      i = if d.negative then -(i.natAbs : Int) else i.natAbs := by
  have h0 := h
  rw [toInt?_eq] at h
  obtain ⟨N, hN, rfl⟩ := Option.map_eq_some_iff.mp h
  have habs : ((if d.negative then -(N : Int) else (N : Int))).natAbs = N := by
    split_ifs <;> simp
  rw [habs] at hi ⊢
  refine ⟨?_, rfl⟩
  have hnum := absNat?_eq hN
  rw [format17g]
  congr 1
  cases hz : d.isZero with
  | true =>
    have hsame := Option.some.inj (h0.symm.trans (toInt?_zero hz))
    have hN0 : N = 0 := by
      split_ifs at hsame <;> omega
    rw [hN0]
    rfl
  | false =>
    have hpos := num_pos hz
    rw [hnum] at hpos
    simp only [Bool.false_eq_true, if_false]
    rw [hnum]
    exact textOf17_nat (Nat.pos_of_mul_pos_right hpos) hi d.den_pos

/-- What is printed of another number is a literal that the number is nearest to. -/
theorem format17g_real (hf : d.isFinite = true) (hs : ¬ d.PrintsInt) : ∃ s y,
    format17g d = (if d.negative then 45 :: s else s) ∧ RealLiteral s y ∧
      Nearest (if d.negative then -y else y) d := by
  have hz : d.isZero = false := by
    rw [← Bool.not_eq_true]
    exact fun hz => hs ⟨0, toInt?_zero hz, by decide⟩
  obtain ⟨h1, h2, hrel, hhalf⟩ := digits17_spec (num_pos hz) d.den_pos
  rw [num_div_den] at hrel hhalf
  refine ⟨_, _, ?_, (textOf17_literal h1 h2 (digits17 d.num d.den).2).resolve_right ?_, ?_⟩
  · rw [format17g, hz]
    cases d.negative <;> rfl
  · -- an integer would be exact
    rintro ⟨k, N, hk, hk16, hn, -⟩
    rw [hk] at hrel hhalf
    generalize (digits17 d.num d.den).1 = n at *
    have hexp : ((k : Int) - 16) = -((16 - k : Nat) : Int) := by omega
    have hvalue : (n : ℚ) * 10 ^ ((k : Int) - 16) = N := by
      rw [hn, hexp, zpow_neg, zpow_natCast]
      push_cast
      field_simp
    have hunit : (10 : ℚ) ^ ((k : Int) - 16) ≤ 1 := by
      rw [hexp, zpow_neg, zpow_natCast]
      exact inv_le_one_of_one_le₀ (one_le_pow₀ (by norm_num))
    rw [hvalue] at hrel hhalf
    have hN := absNat?_of_num hf (num_of_close (by linarith) hrel)
    have hle : N ≤ n := hn ▸ Nat.le_mul_of_pos_right N (Nat.pow_pos (by decide))
    refine hs ⟨if d.negative then -(N : Int) else N, by rw [toInt?_eq, hN]; rfl, ?_⟩
    have habs : ((if d.negative then -(N : Int) else (N : Int))).natAbs = N := by
      split_ifs <;> simp
    rw [habs]
    omega
  · have hne : d.toRat ≠ 0 := by
      rw [← abs_pos, abs_toRat]
      exact absRat_pos hz
    refine nearest_of_close hf hne ?_
    rw [abs_toRat]
    unfold toRat
    split_ifs
    · rw [neg_sub_neg, abs_sub_comm]
      exact hrel
    · exact hrel

end Format

end VersatileEngine
