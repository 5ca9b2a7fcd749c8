import VersatileEngine.Lib.Decimal17
import VersatileEngine.Lib.Json

/-!
# VersatileEngine.Lib.Literal

The number that a JSON literal denotes, and the literals that `%.17g` writes.

* `literalValue`    — the rational number of a literal.
* `Literal`         — whole digits, a fraction and an exponent, with what `Json.numberOf` makes of them.
* `textOf17_literal` — seventeen digits are written as a literal with their value: an integer when no
  digit is behind the point, a real number otherwise.
-/

namespace VersatileEngine

open Json

/-! ## Values -/

/-- The digits behind the point, and what follows. -/
def fractionOf : Str → Str × Str
  | 46 :: s => (s.takeWhile isDigit, s.dropWhile isDigit)
  | s => ([], s)

def exponentOf : Str → Int
  | _ :: 43 :: s => digitsVal 0 s
  | _ :: 45 :: s => -digitsVal 0 s
  | _ :: s => digitsVal 0 s
  | [] => 0

/-- The value without a sign. -/
def unsignedValue (s : Str) : ℚ :=
  let frac := fractionOf (s.dropWhile isDigit)
  digitsVal 0 (s.takeWhile isDigit ++ frac.1) * 10 ^ (exponentOf frac.2 - frac.1.length)

/-- The number of a literal. -/
def literalValue (literal : Str) : ℚ :=
  if literal.head? = some 45 then -unsignedValue literal.tail else unsignedValue literal

/-! ## The parts of a literal -/

def Digits (s : Str) : Prop := ∀ c ∈ s, isDigit c = true

theorem Digits.append {s t : Str} (hs : Digits s) (ht : Digits t) : Digits (s ++ t) := fun c hc =>
  (List.mem_append.mp hc).elim (hs c) (ht c)

theorem digits_natChars (n : Nat) : Digits (natChars n) := fun _ => isDigit_natChars

theorem digits_zeros (n : Nat) : Digits (List.replicate n 48) := fun c hc => by
  rw [List.eq_of_mem_replicate hc]
  rfl

theorem span_digits {w rest : Str} (hw : Digits w) (hr : ∀ c ∈ rest.head?, isDigit c = false) :
    (w ++ rest).takeWhile isDigit = w ∧ (w ++ rest).dropWhile isDigit = rest := by
  have hrest : rest.takeWhile isDigit = [] ∧ rest.dropWhile isDigit = rest := by
    cases rest with
    | nil => exact ⟨rfl, rfl⟩
    | cons c rest =>
      have hc : ¬ isDigit c = true := by simp [hr c rfl]
      exact ⟨List.takeWhile_cons_of_neg hc, List.dropWhile_cons_of_neg hc⟩
  rw [List.takeWhile_append_of_pos hw, List.dropWhile_append_of_pos hw, hrest.1, hrest.2,
    List.append_nil]
  exact ⟨rfl, rfl⟩

theorem stripZeros_split (s : Str) : ∃ j, s = stripZeros s ++ List.replicate j 48 := by
  obtain ⟨z, hz⟩ : ∃ z, z = s.reverse.takeWhile fun c => c = 48 := ⟨_, rfl⟩
  have hall : ∀ c ∈ z, c = 48 := fun c hc => by
    rw [hz] at hc
    simpa using List.mem_takeWhile_imp hc
  have hsplit := congrArg List.reverse (List.takeWhile_append_dropWhile (p := fun c => c = 48)
    (l := s.reverse))
  refine ⟨z.length, ?_⟩
  rw [List.reverse_append, List.reverse_reverse, ← hz] at hsplit
  rw [← List.eq_replicate_of_mem hall, stripZeros]
  nth_rewrite 1 [← hsplit]
  congr 1
  rw [List.eq_replicate_of_mem hall, List.reverse_replicate]

theorem digits_stripZeros {s : Str} (h : Digits s) : Digits (stripZeros s) := by
  obtain ⟨j, hj⟩ := stripZeros_split s
  intro c hc
  refine h c ?_
  rw [hj]
  exact List.mem_append_left _ hc

/-- No exponent, or one. -/
inductive Exponent : Str → Int → Prop
  | none : Exponent [] 0
  | some (x : Int) : Exponent (exponentText x) x

theorem Exponent.value {s : Str} {x : Int} (h : Exponent s x) : exponentOf s = x := by
  cases h with
  | none => rfl
  | some =>
    have hpad : digitsVal 0 ((if x.natAbs < 10 then [48] else []) ++ natChars x.natAbs) = x.natAbs := by
      rw [digitsVal_append, digitsVal_natChars]
      split_ifs <;> simp [digitsVal, digitVal]
    unfold exponentText
    by_cases hx : x < 0
    · rw [if_pos hx, exponentOf, hpad]
      omega
    · rw [if_neg hx, exponentOf, hpad]
      omega

theorem Exponent.isExponent {s : Str} {x : Int} (h : Exponent s x) : Json.isExponent s = true := by
  cases h with
  | none => rfl
  | some =>
    have hne : (if x.natAbs < 10 then [48] else []) ++ natChars x.natAbs ≠ [] := by
      simp [natChars_ne_nil]
    have hall : ((if x.natAbs < 10 then [48] else []) ++ natChars x.natAbs).all isDigit = true := by
      rw [List.all_eq_true]
      refine Digits.append ?_ (digits_natChars _)
      split_ifs
      · exact digits_zeros 1
      · exact digits_zeros 0
    unfold exponentText
    by_cases hx : x < 0
    · rw [if_pos hx, Json.isExponent]
      simp [hne, hall]
    · rw [if_neg hx, Json.isExponent]
      simp [hne, hall]

theorem Exponent.head {s : Str} {x : Int} (h : Exponent s x) :
    ∀ c ∈ s.head?, isDigit c = false ∧ c ≠ 46 := by
  cases h with
  | none => simp
  | some =>
    rw [exponentText]
    simp only [List.head?_cons, Option.mem_some_iff]
    rintro c rfl
    decide

theorem Exponent.numChars {s : Str} {x : Int} (h : Exponent s x) :
    ∀ c ∈ s, isNumChar c = true := by
  cases h with
  | none => simp
  | some =>
    rw [exponentText]
    simp only [List.forall_mem_cons]
    refine ⟨rfl, by split_ifs <;> rfl, fun c hc => isNumChar_digit ?_⟩
    rcases List.mem_append.mp hc with hc | hc
    · split_ifs at hc
      · rw [List.mem_singleton.mp hc]
        rfl
      · cases hc
    · exact isDigit_natChars hc

section Parts

variable {w frac exp : Str} {x : Int}

theorem fractionOf_pointed (hf : Digits frac) (he : Exponent exp x) :
    fractionOf (pointed frac ++ exp) = (stripZeros frac, exp) := by
  have hhead := he.head
  unfold pointed
  split_ifs with h
  · rw [h, List.nil_append]
    cases exp with
    | nil => rfl
    | cons c exp =>
      rw [fractionOf]
      rintro s heq
      exact (hhead c rfl).2 (List.cons.inj heq).1
  · have hspan := span_digits (digits_stripZeros hf) fun c hc => (hhead c hc).1
    rw [List.cons_append, fractionOf, hspan.1, hspan.2]

theorem pointed_head (he : Exponent exp x) :
    ∀ c ∈ (pointed frac ++ exp).head?, isDigit c = false := by
  unfold pointed
  split_ifs
  · exact fun c hc => (he.head c hc).1
  · simp only [List.cons_append, List.head?_cons, Option.mem_some_iff]
    rintro c rfl
    rfl

/-- Zeros at the end of a fraction do not count. -/
theorem unsignedValue_parts (hw : Digits w) (hf : Digits frac) (he : Exponent exp x) :
    unsignedValue (w ++ (pointed frac ++ exp)) =
      digitsVal 0 (w ++ frac) * 10 ^ (x - frac.length) := by
  have hspan := span_digits hw (@pointed_head frac exp x he)
  obtain ⟨j, hj⟩ := stripZeros_split frac
  rw [unsignedValue, hspan.1, hspan.2, fractionOf_pointed hf he]
  simp only [he.value]
  generalize stripZeros frac = t at hj
  rw [hj, ← List.append_assoc, digitsVal_append (w ++ t), digitsVal_zeros, List.length_append,
    List.length_replicate]
  have hpow : (10 : ℚ) ^ (x - t.length) = 10 ^ j * 10 ^ (x - (t.length + j : Nat)) := by
    rw [← zpow_natCast, ← zpow_add₀ (by norm_num)]
    congr 1
    push_cast
    ring
  rw [hpow]
  push_cast
  ring

theorem isFraction_pointed (hf : Digits frac) (he : Exponent exp x) :
    isFraction (pointed frac ++ exp) = true := by
  have hhead := he.head
  unfold pointed
  split_ifs with h
  · rw [List.nil_append]
    cases exp with
    | nil => rfl
    | cons c exp =>
      rw [isFraction]
      · exact he.isExponent
      · rintro s heq
        exact (hhead c rfl).2 (List.cons.inj heq).1
  · have hspan := span_digits (digits_stripZeros hf) fun c hc => (hhead c hc).1
    rw [List.cons_append, isFraction, hspan.1, hspan.2, he.isExponent]
    simp [h]

/-- A literal with a fraction or an exponent is a real number, with or without a sign. -/
theorem numberOf_parts (hw : Digits w) (hne : w ≠ []) (hzero : w.head? = some 48 → w.length = 1)
    (hf : Digits frac) (he : Exponent exp x) (hreal : pointed frac ++ exp ≠ []) :
    numberOf (w ++ (pointed frac ++ exp)) = some (.real (w ++ (pointed frac ++ exp))) ∧
      numberOf (45 :: (w ++ (pointed frac ++ exp))) =
        some (.real (45 :: (w ++ (pointed frac ++ exp)))) := by
  have hspan := span_digits hw (@pointed_head frac exp x he)
  have hhead : ¬ (w ++ (pointed frac ++ exp)).head? = some 45 := by
    obtain ⟨c, w, rfl⟩ := List.exists_cons_of_ne_nil hne
    intro h
    have hc := hw c (by simp)
    rw [Option.some.inj h] at hc
    cases hc
  have hok : ¬ (w = [] ∨ w.head? = some 48 ∧ 1 < w.length) := by
    rintro (h | ⟨h, hlen⟩)
    · exact hne h
    · rw [hzero h] at hlen
      exact Nat.lt_irrefl 1 hlen
  have hfraction := isFraction_pointed hf he
  constructor
  · simp only [numberOf, if_neg hhead, hspan.1, hspan.2, if_neg hok, if_neg hreal, hfraction, if_true]
  · simp only [numberOf, List.head?_cons, if_true, List.tail_cons, hspan.1, hspan.2, if_neg hok,
      if_neg hreal, hfraction]

theorem numChars_parts (hw : Digits w) (hf : Digits frac) (he : Exponent exp x) :
    ∀ c ∈ w ++ (pointed frac ++ exp), isNumChar c = true := by
  intro c hc
  rcases List.mem_append.mp hc with hc | hc
  · exact isNumChar_digit (hw c hc)
  · rcases List.mem_append.mp hc with hc | hc
    · unfold pointed at hc
      split_ifs at hc
      · cases hc
      · rcases List.mem_cons.mp hc with rfl | hc
        · rfl
        · exact isNumChar_digit (digits_stripZeros hf c hc)
    · exact he.numChars c hc

end Parts

/-! ## Seventeen digits -/

/-- A literal of a real number, without a sign. -/
structure RealLiteral (s : Str) (y : ℚ) : Prop where
  number : numberOf s = some (.real s)
  signed : numberOf (45 :: s) = some (.real (45 :: s))
  chars : ∀ c ∈ s, isNumChar c = true
  head : ∀ c ∈ s.head?, isDigit c = true
  value : unsignedValue s = y

theorem RealLiteral.parts {w frac exp : Str} {x : Int} {y : ℚ} (hw : Digits w) (hne : w ≠ [])
    (hzero : w.head? = some 48 → w.length = 1) (hf : Digits frac) (he : Exponent exp x)
    (hreal : pointed frac ++ exp ≠ []) (hy : digitsVal 0 (w ++ frac) * 10 ^ (x - frac.length) = y) :
    RealLiteral (w ++ (pointed frac ++ exp)) y := by
  obtain ⟨hnumber, hsigned⟩ := numberOf_parts hw hne hzero hf he hreal
  refine ⟨hnumber, hsigned, numChars_parts hw hf he, ?_, hy ▸ unsignedValue_parts hw hf he⟩
  intro c hc
  rw [List.head?_append_of_ne_nil _ hne] at hc
  exact hw c (List.mem_of_mem_head? hc)

/-- Seventeen digits and the power of ten of the first. -/
theorem textOf17_literal {n : Nat} (h1 : 10 ^ 16 ≤ n) (h2 : n < 10 ^ 17) (x : Int) :
    RealLiteral (textOf17 (natChars n) x) (n * 10 ^ (x - 16)) ∨
      ∃ k N : Nat, x = k ∧ k ≤ 16 ∧ n = N * 10 ^ (16 - k) ∧ textOf17 (natChars n) x = natChars N := by
  have hlen : (natChars n).length = 17 := natChars_length 16 h1 h2
  have hd := digits_natChars n
  have hval := digitsVal_natChars n
  have hzero : ∀ k, 0 < k → ((natChars n).take k).head? = some 48 → ((natChars n).take k).length = 1 := by
    intro k hk h
    rw [List.head?_take, if_neg (by omega)] at h
    rw [natChars_head n h] at hlen
    cases hlen
  have htake : ∀ k, Digits ((natChars n).take k) := fun k c hc => hd c (List.mem_of_mem_take hc)
  have hdrop : ∀ k, Digits ((natChars n).drop k) := fun k c hc => hd c (List.mem_of_mem_drop hc)
  have hne : ∀ k, 0 < k → (natChars n).take k ≠ [] := fun k hk h => by
    rw [List.take_eq_nil_iff] at h
    rcases h with h | h
    · omega
    · exact natChars_ne_nil n h
  unfold textOf17
  split_ifs with hx hneg
  · -- with an exponent
    left
    rw [List.append_assoc]
    refine .parts (htake 1) (hne 1 (by decide)) (hzero 1 (by decide)) (hdrop 1) (.some x)
      (by simp [exponentText]) ?_
    rw [List.take_append_drop, hval, List.length_drop, hlen]
    norm_num
  · -- below one
    left
    have hzeros : Digits (List.replicate (-x - 1).toNat 48 ++ natChars n) :=
      (digits_zeros _).append hd
    have hvalue : digitsVal 0 ([48] ++ (List.replicate (-x - 1).toNat 48 ++ natChars n)) = n := by
      rw [digitsVal_append, digitsVal_append, digitsVal_zeros, hval]
      simp [digitsVal, digitVal]
    have hpoint : pointed (List.replicate (-x - 1).toNat 48 ++ natChars n) ≠ [] := by
      unfold pointed
      split_ifs with h
      · obtain ⟨j, hj⟩ := stripZeros_split (List.replicate (-x - 1).toNat 48 ++ natChars n)
        rw [h, List.nil_append] at hj
        have hvalue' := hvalue
        rw [hj, digitsVal_append, digitsVal_zeros] at hvalue'
        have : digitsVal 0 [48] = 0 := rfl
        rw [this] at hvalue'
        omega
      · simp
    have := RealLiteral.parts (w := [48]) (digits_zeros 1) (by simp) (fun _ => rfl) hzeros .none
      (by rwa [List.append_nil]) rfl
    rw [hvalue, List.append_nil, List.length_append, List.length_replicate, hlen] at this
    have hexp : (0 : Int) - (((-x - 1).toNat + 17 : Nat) : Int) = x - 16 := by omega
    rw [hexp] at this
    exact this
  · -- up to 17 digits before the point
    obtain ⟨k, rfl⟩ := Int.eq_ofNat_of_zero_le (by omega : 0 ≤ x)
    rw [Int.toNat_natCast]
    by_cases hstrip : stripZeros ((natChars n).drop (k + 1)) = []
    · right
      obtain ⟨j, hj⟩ := stripZeros_split ((natChars n).drop (k + 1))
      rw [hstrip, List.nil_append] at hj
      have hj' : j = 16 - k := by
        have := congrArg List.length hj
        rw [List.length_drop, hlen, List.length_replicate] at this
        omega
      have hsplit := List.take_append_drop (k + 1) (natChars n)
      obtain ⟨N, hN⟩ : ∃ N, N = digitsVal 0 ((natChars n).take (k + 1)) := ⟨_, rfl⟩
      have hn : n = N * 10 ^ (16 - k) := by
        rw [← hval, ← hsplit, hj, digitsVal_append, digitsVal_zeros, List.length_replicate, ← hN, hj']
        rfl
      have hpos : 0 < N := by
        rcases Nat.eq_zero_or_pos N with h0 | h0
        · rw [h0, Nat.zero_mul] at hn
          omega
        · exact h0
      refine ⟨k, N, rfl, by omega, hn, ?_⟩
      rw [pointed, if_pos hstrip, List.append_nil]
      have hchars := natChars_mul hpos (16 - k)
      rw [← hn] at hchars
      have hboth : (natChars n).take (k + 1) ++ List.replicate (16 - k) 48 =
          natChars N ++ List.replicate (16 - k) 48 := by
        rw [← hchars, ← hj', ← hj, hsplit]
      exact List.append_cancel_right hboth
    · left
      have hpoint : pointed ((natChars n).drop (k + 1)) ≠ [] := by simp [pointed, hstrip]
      have := RealLiteral.parts (htake (k + 1)) (hne _ (by omega)) (hzero _ (by omega)) (hdrop (k + 1))
        .none (by rwa [List.append_nil]) rfl
      rw [List.take_append_drop, hval, List.append_nil, List.length_drop, hlen] at this
      have hexp : (0 : Int) - ((17 - (k + 1) : Nat) : Int) = (k : Int) - 16 := by omega
      rw [hexp] at this
      exact this

/-- A natural number of at most 17 digits is written as it is. -/
theorem textOf17_nat {N q : Nat} (hN : 0 < N) (h : N < 10 ^ 17) (hq : 0 < q) :
    textOf17 (natChars (digits17 (N * q) q).1) (digits17 (N * q) q).2 = natChars N := by
  obtain ⟨k, hk⟩ : ∃ k, k = Nat.log 10 N := ⟨_, rfl⟩
  have hlead : leading (N * q) q = k := by
    rw [leading, if_pos (Nat.le_mul_of_pos_left q hN), Nat.mul_div_cancel _ hq, hk]
  have hk16 : k ≤ 16 := by
    have := Nat.log_lt_of_lt_pow hN.ne' h
    omega
  have hlow : 10 ^ k ≤ N := hk ▸ Nat.pow_log_le_self 10 hN.ne'
  have hhigh : N < 10 ^ (k + 1) := hk ▸ Nat.lt_pow_succ_log_self (by decide) N
  have hround : roundDiv (N * q * 10 ^ (16 - k)) q = N * 10 ^ (16 - k) := by
    have hshape : N * q * 10 ^ (16 - k) = N * 10 ^ (16 - k) * q := by ring
    rw [roundDiv, hshape, Nat.mul_mod_left, Nat.mul_div_cancel _ hq, if_pos (by omega)]
  have hsmall : N * 10 ^ (16 - k) < 10 ^ 17 := by
    have hpow : 10 ^ (k + 1) * 10 ^ (16 - k) = 10 ^ 17 := by
      rw [← Nat.pow_add]
      congr 1
      omega
    rw [← hpow]
    exact Nat.mul_lt_mul_of_pos_right hhigh (Nat.pow_pos (by decide))
  have hdigits : digits17 (N * q) q = (N * 10 ^ (16 - k), (k : Int)) := by
    have h1 : (16 - (k : Int)).toNat = 16 - k := by omega
    have h2 : ((k : Int) - 16).toNat = 0 := by omega
    simp only [digits17, hlead, h1, h2, pow_zero, Nat.mul_one, hround, if_neg hsmall.ne]
  have hlen := natChars_length k hlow hhigh
  have hstrip : stripZeros (List.replicate (16 - k) 48) = [] := by
    simp [stripZeros]
  rw [hdigits, natChars_mul hN, textOf17, if_neg (by omega), if_neg (by omega), Int.toNat_natCast,
    ← hlen, List.take_left, List.drop_left, pointed, if_pos hstrip, List.append_nil]

end VersatileEngine
