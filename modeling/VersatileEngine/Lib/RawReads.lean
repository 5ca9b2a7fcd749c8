import VersatileEngine.Lib.RawDecode

/-!
# VersatileEngine.Lib.RawReads

What `raw_decode` finds, against what is read by RFC 8259.

* `nesting`           — the brackets around the innermost value.
* `rawDecode_reads`   — a text that is read as an object is found, when it is not nested deeper than allowed.
* `rawDecode_nesting` — nothing that is found is nested deeper.
-/

namespace VersatileEngine

namespace Json

mutual
/-- The brackets around the innermost value. -/
def nesting : Json → Nat
  | .arr js => elemsNesting js + 1
  | .obj fs => fieldsNesting fs + 1
  | _ => 0

def elemsNesting : List Json → Nat
  | [] => 0
  | j :: js => max (nesting j) (elemsNesting js)

def fieldsNesting : List (Str × Json) → Nat
  | [] => 0
  | (_, j) :: fs => max (nesting j) (fieldsNesting fs)
end

section Reads

variable {s r l : Str} {j : Json} {n m depth : Nat}

theorem isDigits_all (hne : s ≠ []) (h : s.all isDigit = true) : IsDigits s := ⟨hne, List.all_eq_true.mp h⟩

theorem isExponent_spec (h : isExponent s = true) : IsExponentPart s := by
  cases s with
  | nil => exact .inl rfl
  | cons c s =>
    unfold isExponent at h
    rw [Bool.and_eq_true, Bool.or_eq_true, decide_eq_true_eq, decide_eq_true_eq] at h
    obtain ⟨hc, h⟩ := h
    split at h
    · rw [Bool.and_eq_true, decide_eq_true_eq] at h
      exact .inr ⟨c, [43], _, rfl, hc, .inr (.inl rfl), isDigits_all h.1 h.2⟩
    · rw [Bool.and_eq_true, decide_eq_true_eq] at h
      exact .inr ⟨c, [45], _, rfl, hc, .inr (.inr rfl), isDigits_all h.1 h.2⟩
    · rw [Bool.and_eq_true, decide_eq_true_eq] at h
      exact .inr ⟨c, [], s, rfl, hc, .inl rfl, isDigits_all h.1 h.2⟩

theorem isFraction_spec (h : isFraction s = true) : ∃ f e, s = f ++ e ∧ IsFractionPart f ∧ IsExponentPart e := by
  unfold isFraction at h
  split at h
  · rename_i t
    rw [Bool.and_eq_true, decide_eq_true_eq] at h
    refine ⟨46 :: t.takeWhile isDigit, t.dropWhile isDigit, ?_, .inr ⟨_, rfl, isDigits_takeWhile h.1⟩,
      isExponent_spec h.2⟩
    rw [List.cons_append, List.takeWhile_append_dropWhile]
  · exact ⟨[], s, rfl, .inl rfl, isExponent_spec h⟩

theorem numberOf_spec (h : numberOf l = some j) : ∃ sign w f e, IsSign sign ∧ IsWhole w ∧ IsFractionPart f ∧
    IsExponentPart e ∧ l = sign ++ (w ++ (f ++ e)) ∧ j = numeral sign w f e := by
  have hsplit : ∃ sign digits, IsSign sign ∧ l = sign ++ digits ∧ (l.head? = some 45 ↔ sign ≠ []) ∧
      (if l.head? = some 45 then l.tail else l) = digits := by
    split_ifs with h45
    · obtain ⟨t, rfl⟩ := List.head?_eq_some_iff.mp h45
      exact ⟨[45], t, .inr rfl, rfl, by simp, rfl⟩
    · exact ⟨[], l, .inl rfl, rfl, by simp [h45], rfl⟩
  obtain ⟨sign, digits, hsign, hl, h45, hdigits⟩ := hsplit
  rw [numberOf, hdigits] at h
  have hparts : digits = digits.takeWhile isDigit ++ digits.dropWhile isDigit :=
    List.takeWhile_append_dropWhile.symm
  by_cases hbad : digits.takeWhile isDigit = [] ∨
      (digits.takeWhile isDigit).head? = some 48 ∧ 1 < (digits.takeWhile isDigit).length
  · rw [if_pos hbad] at h
    cases h
  rw [if_neg hbad] at h
  rw [not_or] at hbad
  have hwhole : IsWhole (digits.takeWhile isDigit) := by
    refine ⟨isDigits_takeWhile hbad.1, fun h48 => ?_⟩
    obtain ⟨t, ht⟩ := List.head?_eq_some_iff.mp h48
    have hlen := fun hlt => hbad.2 ⟨h48, hlt⟩
    rw [ht] at hlen ⊢
    cases t with
    | nil => rfl
    | cons d t => exact absurd (by simp) hlen
  by_cases hrest : digits.dropWhile isDigit = []
  · rw [if_pos hrest] at h
    refine ⟨sign, _, [], [], hsign, hwhole, .inl rfl, .inl rfl, ?_, ?_⟩
    · rw [hrest, List.append_nil] at hparts
      rw [hl, List.append_nil, List.append_nil, ← hparts]
    · have hint : ∀ w, numeral sign w [] [] =
          .int (if sign = [] then digitsVal 0 w else -(digitsVal 0 w : Int)) := fun w => if_pos ⟨rfl, rfl⟩
      rw [← Option.some.inj h, hint]
      by_cases hs : sign = []
      · rw [if_neg fun hc => h45.mp hc hs, if_pos hs]
      · rw [if_pos (h45.mpr hs), if_neg hs]
  · rw [if_neg hrest] at h
    split_ifs at h with hfrac
    obtain ⟨f, e, hfe, hf, he⟩ := isFraction_spec hfrac
    refine ⟨sign, _, f, e, hsign, hwhole, hf, he, ?_, ?_⟩
    · rw [hl, ← hfe, ← hparts]
    · have hreal : numeral sign (digits.takeWhile isDigit) f e = .real l := by
        rw [numeral, if_neg, ← hfe, ← hparts, hl]
        rintro ⟨rfl, rfl⟩
        exact hrest hfe
      rw [← Option.some.inj h, hreal]

theorem ends_dropWhile (s : Str) : Ends (s.dropWhile isNumChar) := by
  intro c hc
  cases hd : s.dropWhile isNumChar with
  | nil =>
    rw [hd] at hc
    cases hc
  | cons d t =>
    rw [hd] at hc
    obtain rfl := Option.some.inj hc
    have := List.head?_dropWhile_not isNumChar s
    rw [hd] at this
    simpa using this

theorem scanScalar_reads (h : readScalar s = some (j, r)) : scanScalar s = some (j, r) := by
  unfold readScalar at h
  split at h
  · cases h
    rfl
  · cases h
    rfl
  · cases h
    rfl
  · obtain ⟨j', hnum, he⟩ := Option.map_eq_some_iff.mp h
    obtain ⟨rfl, rfl⟩ := Prod.mk.inj he
    obtain ⟨sign, w, f, e, hsign, hw, hf, hexp, hlit, rfl⟩ := numberOf_spec hnum
    have hs : s = sign ++ (w ++ (f ++ (e ++ s.dropWhile isNumChar))) := by
      calc s = s.takeWhile isNumChar ++ s.dropWhile isNumChar := List.takeWhile_append_dropWhile.symm
        _ = _ := by simp only [hlit, List.append_assoc]
    have hnumber := scanNumber_eq hsign hw hf hexp (ends_dropWhile s)
    have hconst := scanConstant_numeral hsign hw (f ++ (e ++ s.dropWhile isNumChar))
    rw [← hs] at hnumber hconst
    rw [scanScalar, hconst, hnumber]
    rfl

theorem scanUnicode_reads {x : Str} (h : unicodeEscape s = some (x, r)) : scanUnicode s = some (x, r) := by
  unfold unicodeEscape at h
  split at h
  · rename_i u t hu
    rw [scanUnicode, hu, Option.bind_some]
    dsimp only
    by_cases hhigh : 0xD800 ≤ u ∧ u < 0xDC00
    · rw [if_pos hhigh] at h
      rw [if_pos ⟨hhigh, rfl⟩]
      split at h
      · rename_i l t' hl
        split_ifs at h with hlow
        rw [List.drop_succ_cons, List.drop_succ_cons, List.drop_zero, hl, Option.map_some, if_pos hlow]
        exact h
      · cases h
    · rw [if_neg hhigh] at h
      split_ifs at h
      rw [if_neg fun hc => hhigh hc.1]
      exact h
  · rename_i u t hno hu
    split_ifs at h with hsur
    rw [scanUnicode, hu, Option.bind_some]
    dsimp only
    rw [if_neg fun hc => hsur ⟨hc.1.1, by omega⟩]
    exact h
  · cases h

theorem scanEscape_reads {x : Str} (h : escaped s = some (x, r)) : scanEscape s = some (x, r) := by
  cases s with
  | nil => cases h
  | cons c s =>
    rw [scanEscape]
    split_ifs with hu
    · subst hu
      exact scanUnicode_reads h
    · exact h

theorem scanBody_reads : ∀ {n : Nat} {s x r : Str}, readBody n s = some (x, r) → scanBody n s = some (x, r) := by
  intro n
  induction n with
  | zero => exact fun h => (by cases h)
  | succ n ih =>
    intro s x r h
    cases s with
    | nil => cases h
    | cons c s =>
      rw [readBody] at h
      rw [scanBody]
      split_ifs at h ⊢ with h34 h92 h32
      · exact h
      · obtain ⟨q, hq, hb⟩ := Option.bind_eq_some_iff.mp h
        obtain ⟨p, hp, he⟩ := Option.map_eq_some_iff.mp hb
        rw [scanEscape_reads hq, Option.bind_some, ih hp, Option.map_some, he]
      · obtain ⟨p, hp, he⟩ := Option.map_eq_some_iff.mp h
        rw [ih hp, Option.map_some, he]

theorem scanString_reads {x : Str} (h : readString s = some (x, r)) : scanString s = .found x r := by
  rw [scanString, scanBody_reads h]
  rfl

/-- The three readers, by induction on the fuel: what is read is found, when it is not too deep. -/
theorem reads_found (n : Nat) : ∀ (depth m : Nat) (s r : Str), n ≤ m →
    (∀ j, readValue n s = some (j, r) → nesting j ≤ depth → scanOnce depth m (skipWs s) = .found j r) ∧
    (∀ first js, readElements n first s = some (js, r) → elemsNesting js ≤ depth →
      scanElements depth m first s = .found js r) ∧
    ∀ first fs, readMembers n first s = some (fs, r) → fieldsNesting fs ≤ depth →
      scanMembers depth m first s = .found fs r := by
  induction n with
  | zero =>
    refine fun depth m s r _ => ⟨fun j h => ?_, fun first js h => ?_, fun first fs h => ?_⟩
    · rw [readValue] at h
      cases h
    · rw [readElements] at h
      cases h
    · rw [readMembers] at h
      cases h
  | succ n ih =>
    intro depth m s r hm
    obtain ⟨m, rfl⟩ : ∃ k, m = k + 1 := ⟨m - 1, by omega⟩
    have hm : n ≤ m := Nat.le_of_succ_le_succ hm
    refine ⟨fun j h hdeep => ?_, fun first js h hdeep => ?_, fun first fs h hdeep => ?_⟩
    · rw [readValue] at h
      cases hs : skipWs s with
      | nil =>
        rw [hs] at h
        cases h
      | cons c s' =>
        rw [hs] at h
        by_cases harr : c = 91
        · subst harr
          obtain ⟨⟨js, r'⟩, hjs, he⟩ := Option.map_eq_some_iff.mp h
          obtain ⟨rfl, rfl⟩ := Prod.mk.inj he
          obtain ⟨depth, rfl⟩ : ∃ d, depth = d + 1 := ⟨depth - 1, by rw [nesting] at hdeep; omega⟩
          have hfound := (ih depth m s' r' hm).2.1 true js hjs (Nat.le_of_succ_le_succ hdeep)
          show Scanned.map _ (scanElements depth m true s') = _
          rw [hfound]
          rfl
        by_cases hobj : c = 123
        · subst hobj
          obtain ⟨⟨fs, r'⟩, hfs, he⟩ := Option.map_eq_some_iff.mp h
          obtain ⟨rfl, rfl⟩ := Prod.mk.inj he
          obtain ⟨depth, rfl⟩ : ∃ d, depth = d + 1 := ⟨depth - 1, by rw [nesting] at hdeep; omega⟩
          have hfound := (ih depth m s' r' hm).2.2 true fs hfs (Nat.le_of_succ_le_succ hdeep)
          show Scanned.map _ (scanMembers depth m true s') = _
          rw [hfound]
          rfl
        by_cases hstr : c = 34
        · subst hstr
          obtain ⟨⟨x, r'⟩, hx, he⟩ := Option.map_eq_some_iff.mp h
          obtain ⟨rfl, rfl⟩ := Prod.mk.inj he
          show Scanned.map _ (scanString s') = _
          rw [scanString_reads hx]
          rfl
        · have hscalar : readScalar (c :: s') = some (j, r) := by
            rw [← h]
            split
            · rename_i heq
              exact absurd (List.cons.inj heq).1 harr
            · rename_i heq
              exact absurd (List.cons.inj heq).1 hobj
            · rename_i heq
              exact absurd (List.cons.inj heq).1 hstr
            · rfl
          rw [scanOnce_scalar ⟨hstr, hobj, harr⟩, scanScalar_reads hscalar]
          rfl
    · rw [readElements] at h
      rw [scanElements]
      split_ifs at h ⊢ with hclose
      · cases h
        rfl
      · obtain ⟨⟨j, r₁⟩, hj, h⟩ := Option.bind_eq_some_iff.mp h
        dsimp only at h
        split at h
        · rename_i s' hs'
          obtain ⟨⟨js', r₂⟩, hjs, he⟩ := Option.map_eq_some_iff.mp h
          obtain ⟨rfl, rfl⟩ := Prod.mk.inj he
          have hdeep : max (nesting j) (elemsNesting js') ≤ depth := hdeep
          rw [(ih depth m s r₁ hm).1 j hj (by omega), Scanned.bind, afterValue, hs']
          show Scanned.map _ (scanElements depth m false s') = _
          rw [(ih depth m s' r₂ hm).2.1 false js' hjs (by omega)]
          rfl
        · rename_i s' hs'
          cases h
          rw [elemsNesting] at hdeep
          rw [(ih depth m s r₁ hm).1 j hj (by omega), Scanned.bind, afterValue, hs']
          rfl
        · cases h
    · rw [readMembers] at h
      rw [scanMembers]
      split at h
      · rename_i s' hs
        split_ifs at h with hfirst
        cases h
        rw [hs]
        exact if_pos hfirst
      · rename_i s' hs
        rw [hs]
        show Scanned.bind (scanString s') _ = _
        obtain ⟨⟨k, r₁⟩, hk, h⟩ := Option.bind_eq_some_iff.mp h
        dsimp only at h
        split at h
        · rename_i s₁ hs₁
          obtain ⟨⟨j, r₂⟩, hj, h⟩ := Option.bind_eq_some_iff.mp h
          have hvalue := fun hd => (ih depth m s₁ r₂ hm).1 j hj hd
          rw [scanString_reads hk, Scanned.bind, afterKey, hs₁]
          show Scanned.bind (scanOnce depth m (skipWs s₁)) _ = _
          dsimp only at h
          split at h
          · rename_i s₂ hs₂
            obtain ⟨⟨fs', r₃⟩, hfs, he⟩ := Option.map_eq_some_iff.mp h
            obtain ⟨rfl, rfl⟩ := Prod.mk.inj he
            have hdeep : max (nesting j) (fieldsNesting fs') ≤ depth := hdeep
            rw [hvalue (by omega), Scanned.bind, afterValue, hs₂]
            show Scanned.map _ (scanMembers depth m false s₂) = _
            rw [(ih depth m s₂ r₃ hm).2.2 false fs' hfs (by omega)]
            rfl
          · rename_i s₂ hs₂
            cases h
            have hdeep : max (nesting j) (fieldsNesting []) ≤ depth := hdeep
            rw [hvalue (by omega), Scanned.bind, afterValue, hs₂]
            rfl
          · cases h
        · cases h
      · cases h

/-- **A text that is read as an object is found at the beginning of every text**, when the brackets in it are not
nested deeper than allowed. -/
theorem rawDecode_reads {fs : List (Str × Json)} {t : Str} (h : Reads (.obj fs) (123 :: s))
    (hdeep : nesting (.obj fs) ≤ depth) (ht : Ends t) : rawDecode depth (123 :: s ++ t) = .found (.obj fs) t := by
  refine (reads_found _ depth _ (123 :: s ++ t) t ?_).1 (.obj fs) (h _ t (Nat.le_refl _) ht) hdeep
  rw [List.length_append]
  omega

end Reads

/-! ## What is found is not nested too deep -/

section Nesting

variable {α β : Type} {s r : Str} {j : Json} {depth : Nat}

theorem Scanned.bind_found {x : Scanned α} {f : α → Str → Scanned β} {b : β} (h : x.bind f = .found b r) :
    ∃ a r', x = .found a r' ∧ f a r' = .found b r := by
  cases x with
  | found a r' => exact ⟨a, r', rfl, h⟩
  | invalid => cases h
  | tooDeep => cases h

theorem Scanned.map_found {x : Scanned α} {f : α → β} {b : β} (h : x.map f = .found b r) :
    ∃ a, x = .found a r ∧ f a = b := by
  obtain ⟨a, r', hx, he⟩ := Scanned.bind_found h
  cases he
  exact ⟨a, hx, rfl⟩

theorem afterValue_found {close : UInt8} {more done : Str → Scanned β} {b : β} {rest : Str}
    (h : afterValue close more done rest = .found b r) : ∃ s, more s = .found b r ∨ done s = .found b r := by
  rw [afterValue] at h
  split at h
  · cases h
  · rename_i c s hs
    split_ifs at h
    · exact ⟨s, .inl h⟩
    · exact ⟨s, .inr h⟩

theorem afterKey_found {value : Str → Scanned β} {b : β} {rest : Str} (h : afterKey value rest = .found b r) :
    ∃ s, value s = .found b r := by
  rw [afterKey] at h
  split at h
  · cases h
  · rename_i c s hs
    split_ifs at h
    exact ⟨s, h⟩

theorem scanScalar_nesting (h : scanScalar s = some (j, r)) : nesting j = 0 := by
  have hconst : ∀ c p, constantAt c = some p → nesting p.2 = 0 := by
    intro c p hp
    unfold constantAt at hp
    split_ifs at hp <;> cases hp <;> rfl
  rw [scanScalar] at h
  cases hc : scanConstant s with
  | some p =>
    rw [hc] at h
    obtain rfl := Option.some.inj h
    obtain ⟨q, hq, hc⟩ := Option.bind_eq_some_iff.mp hc
    obtain ⟨c, -, hat⟩ := Option.bind_eq_some_iff.mp hq
    split_ifs at hc
    cases hc
    exact hconst c q hat
  | none =>
    rw [hc, Option.none_or] at h
    obtain ⟨sign, w, f, e, -, -, -, -, -, rfl⟩ := scanNumber_spec h
    rw [numeral]
    split
    · rfl
    · rfl

/-- The three scanners, by induction on the fuel. -/
theorem found_nesting (n : Nat) : ∀ (depth : Nat) (s r : Str),
    (∀ j, scanOnce depth n s = .found j r → nesting j ≤ depth) ∧
    (∀ first js, scanElements depth n first s = .found js r → elemsNesting js ≤ depth) ∧
    ∀ first fs, scanMembers depth n first s = .found fs r → fieldsNesting fs ≤ depth := by
  induction n with
  | zero =>
    refine fun depth s r => ⟨fun j h => ?_, fun first js h => ?_, fun first fs h => ?_⟩
    · cases h
    · cases h
    · cases h
  | succ n ih =>
    refine fun depth s r => ⟨fun j h => ?_, fun first js h => ?_, fun first fs h => ?_⟩
    · cases s with
      | nil => cases h
      | cons c s =>
        by_cases hstr : c = 34
        · subst hstr
          obtain ⟨x, -, rfl⟩ := Scanned.map_found h
          exact Nat.zero_le _
        by_cases hobj : c = 123
        · subst hobj
          cases depth with
          | zero => cases h
          | succ depth =>
            obtain ⟨fs, hfs, rfl⟩ := Scanned.map_found h
            exact Nat.succ_le_succ ((ih depth s r).2.2 true fs hfs)
        by_cases harr : c = 91
        · subst harr
          cases depth with
          | zero => cases h
          | succ depth =>
            obtain ⟨js, hjs, rfl⟩ := Scanned.map_found h
            exact Nat.succ_le_succ ((ih depth s r).2.1 true js hjs)
        · rw [scanOnce_scalar ⟨hstr, hobj, harr⟩] at h
          cases hs : scanScalar (c :: s) with
          | none =>
            rw [hs] at h
            cases h
          | some p =>
            rw [hs] at h
            cases h
            rw [scanScalar_nesting hs]
            exact Nat.zero_le _
    · rw [scanElements] at h
      split_ifs at h
      · cases h
        exact Nat.zero_le _
      · obtain ⟨j, r', hj, h⟩ := Scanned.bind_found h
        have hvalue := (ih depth _ r').1 j hj
        obtain ⟨s', h | h⟩ := afterValue_found h
        · obtain ⟨js', hjs, rfl⟩ := Scanned.map_found h
          exact Nat.max_le.mpr ⟨hvalue, (ih depth s' r).2.1 false js' hjs⟩
        · cases h
          exact Nat.max_le.mpr ⟨hvalue, Nat.zero_le _⟩
    · rw [scanMembers] at h
      split at h
      · cases h
      · split_ifs at h
        · cases h
          exact Nat.zero_le _
        · obtain ⟨k, r', -, h⟩ := Scanned.bind_found h
          obtain ⟨s', h⟩ := afterKey_found h
          obtain ⟨j, r'', hj, h⟩ := Scanned.bind_found h
          have hvalue := (ih depth _ r'').1 j hj
          obtain ⟨s'', h | h⟩ := afterValue_found h
          · obtain ⟨fs', hfs, rfl⟩ := Scanned.map_found h
            exact Nat.max_le.mpr ⟨hvalue, (ih depth s'' r).2.2 false fs' hfs⟩
          · cases h
            exact Nat.max_le.mpr ⟨hvalue, Nat.zero_le _⟩

theorem rawDecode_nesting (h : rawDecode depth s = .found j r) : nesting j ≤ depth := (found_nesting _ depth s r).1 j h

end Nesting

end Json

end VersatileEngine
