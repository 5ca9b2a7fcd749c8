import Mathlib.Data.List.Basic
import Mathlib.Tactic.Ring

/-!
# VersatileEngine.Lib.Decimal

Byte strings, and the decimal writing of a natural number in them.

* `ascii s`     — the bytes of an ASCII literal.
* `natChars n`  — `n` in decimal, most significant digit first, without leading zeros.
* `intChars i`  — the same with a leading `-` for a negative number.
* `digitsVal`   — reading a digit string back, one digit at a time from the left.
* `digitsVal32` — the same in 32-bit signed arithmetic, which wraps.

`digitsVal_natChars` and `digitsVal32_natChars` are the two round trips: the second one needs the
number to be below `2^31 = 2147483648`.
-/

namespace VersatileEngine

/-- A `std::string`: a sequence of bytes, in no particular encoding. -/
abbrev Str := List UInt8

instance : LawfulBEq Str := inferInstanceAs (LawfulBEq (List UInt8))

def ascii (s : String) : Str := s.toList.map fun c => UInt8.ofNat c.toNat

def isDigit (c : UInt8) : Bool := 48 ≤ c && c ≤ 57

def digitVal (c : UInt8) : Nat := c.toNat - 48

def natChars (n : Nat) : Str := (Nat.toDigits 10 n).map fun c => UInt8.ofNat c.toNat

def intChars : Int → Str
  | .ofNat n => natChars n
  | .negSucc n => 45 :: natChars (n + 1)

def digitsVal (v : Nat) (cs : Str) : Nat := cs.foldl (fun v c => v * 10 + digitVal c) v

/-- A digit of `%x`. -/
def hexDigit (n : Nat) : UInt8 := UInt8.ofNat (if n < 10 then 48 + n else 87 + n)

/-- Two's complement 32-bit value of an integer. -/
def wrap32 (i : Int) : Int := i.bmod (2 ^ 32)

def digitsVal32 (v : Int) (cs : Str) : Int := cs.foldl (fun v c => wrap32 (v * 10 + digitVal c)) v

theorem digit_byte {c : Char} (h : c.isDigit = true) :
    isDigit (UInt8.ofNat c.toNat) = true ∧ digitVal (UInt8.ofNat c.toNat) = c.toNat - 48 := by
  simp only [Char.isDigit, Bool.and_eq_true, decide_eq_true_eq] at h
  have h1 : 48 ≤ c.toNat := h.1
  have h2 : c.toNat ≤ 57 := h.2
  have hm : c.toNat % 256 = c.toNat := Nat.mod_eq_of_lt (by omega)
  refine ⟨?_, by simp [digitVal, hm]⟩
  simp only [isDigit, Bool.and_eq_true, decide_eq_true_eq, UInt8.le_iff_toNat_le, UInt8.toNat_ofNat']
  simp [hm, h1, h2]

theorem isDigit_natChars {n : Nat} {c : UInt8} (h : c ∈ natChars n) : isDigit c = true := by
  obtain ⟨d, hd, rfl⟩ := List.mem_map.mp h
  exact (digit_byte (Nat.isDigit_of_mem_toDigits (by decide) (by decide) hd)).1

theorem natChars_ne_nil (n : Nat) : natChars n ≠ [] := by
  simp [natChars, Nat.toDigits_ne_nil]

theorem digitsVal_map {cs : List Char} (h : ∀ c ∈ cs, c.isDigit = true) :
    ∀ v, digitsVal v (cs.map fun c => UInt8.ofNat c.toNat) = Nat.ofDigitChars 10 cs v := by
  induction cs with
  | nil => intro v; simp [digitsVal, Nat.ofDigitChars_eq_foldl]
  | cons c cs ih =>
    intro v
    have hv : v * 10 + digitVal (UInt8.ofNat c.toNat) = 10 * v + (c.toNat - '0'.toNat) := by
      rw [(digit_byte (h c (by simp))).2, Nat.mul_comm]; rfl
    have := ih (fun d hd => h d (by simp [hd])) (10 * v + (c.toNat - '0'.toNat))
    simp only [digitsVal, List.map_cons, List.foldl_cons, hv] at this ⊢
    rw [this]; simp [Nat.ofDigitChars_eq_foldl]

theorem digitsVal_natChars (n : Nat) : digitsVal 0 (natChars n) = n := by
  rw [natChars, digitsVal_map fun c hc => Nat.isDigit_of_mem_toDigits (by decide) (by decide) hc]
  exact Nat.ofDigitChars_ten_toDigits

theorem natChars_inj {m n : Nat} (h : natChars m = natChars n) : m = n := by
  rw [← digitsVal_natChars m, h, digitsVal_natChars]

theorem natChars_digit {n : Nat} (h : n < 10) : natChars n = [UInt8.ofNat (48 + n)] := by
  have hall : ∀ n < 10, [UInt8.ofNat (Nat.digitChar n).toNat] = [UInt8.ofNat (48 + n)] := by decide
  rw [natChars, Nat.toDigits_of_lt_base h]
  exact hall n h

/-- The last digit of a number. -/
theorem natChars_snoc {n : Nat} (h : 10 ≤ n) :
    natChars n = natChars (n / 10) ++ [UInt8.ofNat (48 + n % 10)] := by
  have hdigit := natChars_digit (Nat.mod_lt n (by decide : 0 < 10))
  rw [natChars, Nat.toDigits_of_lt_base (Nat.mod_lt n (by decide))] at hdigit
  rw [natChars, Nat.toDigits_of_base_le (by decide) h, List.map_append]
  exact congrArg (natChars (n / 10) ++ ·) hdigit

/-- No leading zero. -/
theorem natChars_head (n : Nat) : (natChars n).head? = some 48 → (natChars n).length = 1 := by
  induction n using Nat.strong_induction_on with
  | h n ih =>
    by_cases hn : n < 10
    · intro _
      rw [natChars_digit hn]
      rfl
    · intro h
      rw [natChars_snoc (by omega), List.head?_append_of_ne_nil _ (natChars_ne_nil _)] at h
      have hone := ih (n / 10) (by omega) h
      obtain ⟨c, hc⟩ := List.length_eq_one_iff.mp hone
      rw [hc] at h
      have hzero : natChars (n / 10) = natChars 0 := by
        rw [hc, Option.some.inj h]
        rfl
      have := natChars_inj hzero
      omega

theorem natChars_length (k : Nat) : ∀ {n : Nat}, 10 ^ k ≤ n → n < 10 ^ (k + 1) →
    (natChars n).length = k + 1 := by
  induction k with
  | zero =>
    intro n _ h
    rw [natChars_digit (by simpa using h)]
    rfl
  | succ k ih =>
    intro n h1 h2
    rw [Nat.pow_succ] at h1 h2
    have hpos : 0 < 10 ^ k := Nat.pow_pos (by decide)
    rw [natChars_snoc (by omega), List.length_append, ih (by omega) (by omega)]
    rfl

/-- A factor of ten is a zero. -/
theorem natChars_mul {n : Nat} (h : 0 < n) (j : Nat) :
    natChars (n * 10 ^ j) = natChars n ++ List.replicate j 48 := by
  induction j with
  | zero => simp
  | succ j ih =>
    have hpos : 0 < n * 10 ^ j := Nat.mul_pos h (Nat.pow_pos (by decide))
    have hstep : n * 10 ^ (j + 1) = 10 * (n * 10 ^ j) := by ring
    rw [hstep, natChars_snoc (by omega), Nat.mul_div_cancel_left _ (by decide), Nat.mul_mod_right, ih,
      List.replicate_succ', List.append_assoc]
    rfl

theorem digitsVal_shift (cs : Str) : ∀ v, digitsVal v cs = v * 10 ^ cs.length + digitsVal 0 cs := by
  induction cs with
  | nil => intro v; simp [digitsVal]
  | cons c cs ih =>
    intro v
    have hstep : ∀ v, digitsVal v (c :: cs) = digitsVal (v * 10 + digitVal c) cs := fun _ => rfl
    rw [hstep, hstep, ih, ih (0 * 10 + digitVal c), List.length_cons]
    ring

theorem digitsVal_append (a b : Str) :
    digitsVal 0 (a ++ b) = digitsVal 0 a * 10 ^ b.length + digitsVal 0 b := by
  rw [← digitsVal_shift]
  exact List.foldl_append

theorem digitsVal_zeros (n : Nat) : digitsVal 0 (List.replicate n 48) = 0 := by
  induction n with
  | zero => rfl
  | succ n ih => exact ih

theorem le_digitsVal (cs : Str) : ∀ v, v ≤ digitsVal v cs := by
  induction cs with
  | nil => intro v; exact Nat.le_refl _
  | cons c cs ih => intro v; exact Nat.le_trans (show v ≤ v * 10 + digitVal c by omega) (ih _)

theorem wrap32_of_lt {i : Int} (h0 : 0 ≤ i) (h : i < 2147483648) : wrap32 i = i := by
  unfold wrap32
  exact Int.bmod_eq_of_le (by omega) (by omega)

/-- Reading a number below `2^31` never leaves the range of `int`, so nothing wraps. -/
theorem digitsVal32_eq (cs : Str) :
    ∀ v : Nat, digitsVal v cs < 2147483648 → digitsVal32 v cs = digitsVal v cs := by
  induction cs with
  | nil => intro v _; simp [digitsVal32, digitsVal]
  | cons c cs ih =>
    intro v h
    have hv := Nat.lt_of_le_of_lt (le_digitsVal cs _) h
    have hw : wrap32 ((v : Int) * 10 + digitVal c) = ((v * 10 + digitVal c : Nat) : Int) := by
      rw [wrap32_of_lt (by omega) (by push_cast at hv ⊢; omega)]; push_cast; rfl
    have := ih (v * 10 + digitVal c) h
    simp only [digitsVal32, digitsVal, List.foldl_cons, hw] at this ⊢
    exact this

theorem digitsVal32_natChars {n : Nat} (h : n < 2147483648) : digitsVal32 0 (natChars n) = n := by
  have := digitsVal32_eq (natChars n) 0 (by rw [digitsVal_natChars]; exact h)
  rwa [digitsVal_natChars] at this

end VersatileEngine
