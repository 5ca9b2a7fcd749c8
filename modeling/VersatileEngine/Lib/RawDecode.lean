import VersatileEngine.Lib.Json

/-!
# VersatileEngine.Lib.RawDecode

`JSONDecoder.raw_decode` of Python: one value off the front of a text, and what is behind it.

* `scanOnce`       — the value at the beginning of a text. A bracket takes one level of the recursion that the
  interpreter allows.
* `Goes`           — what is found in a text is found when more text comes, and so is a recursion that goes too deep.
* `rawDecode_goes` — it does for an object, which ends at its bracket.

Besides RFC 8259 the decoder takes `NaN` and the infinities, and half a surrogate pair as a character.
-/

namespace VersatileEngine

namespace Json

/-- What a scanner finds. `tooDeep` is the exception of the interpreter. -/
inductive Scanned (α : Type) where
  | found (a : α) (rest : Str)
  | invalid
  | tooDeep

namespace Scanned

variable {α β : Type}

def bind (x : Scanned α) (f : α → Str → Scanned β) : Scanned β :=
  match x with
  | found a rest => f a rest
  | invalid => invalid
  | tooDeep => tooDeep

def map (f : α → β) (x : Scanned α) : Scanned β := x.bind fun a rest => found (f a) rest

def ofOption : Option (α × Str) → Scanned α
  | some (a, rest) => found a rest
  | none => invalid

end Scanned

/-! ## Strings -/

/-- The code point of `\u`, for two halves of a pair that of both. -/
def scanUnicode (s : Str) : Option (Str × Str) :=
  (hex4 s).bind fun p =>
    if (0xD800 ≤ p.1 ∧ p.1 < 0xDC00) ∧ p.2.take 2 = [92, 117] then
      (hex4 (p.2.drop 2)).map fun q =>
        if 0xDC00 ≤ q.1 ∧ q.1 < 0xE000 then
          (Utf8.encode (0x10000 + (p.1 - 0xD800) * 1024 + (q.1 - 0xDC00)), q.2)
        else (Utf8.encode p.1, p.2)
    else some (Utf8.encode p.1, p.2)

def scanEscape : Str → Option (Str × Str)
  | [] => none
  | c :: s => if c = 117 then scanUnicode s else escaped (c :: s)

/-- The rest of a string, up to its quote. -/
def scanBody : Nat → Str → Option (Str × Str)
  | 0, _ => none
  | _ + 1, [] => none
  | n + 1, c :: s =>
    if c = 34 then some ([], s)
    else if c = 92 then
      (scanEscape s).bind fun q => (scanBody n q.2).map fun p => (q.1 ++ p.1, p.2)
    else if c < 32 then none
    else (scanBody n s).map fun p => (c :: p.1, p.2)

def scanString (s : Str) : Scanned Str := .ofOption (scanBody s.length s)

/-! ## Numbers and names -/

/-- Digits without a zero in front. -/
def wholePart (s : Str) : Option (Str × Str) :=
  if s.head? = some 48 then some ([48], s.tail)
  else if s.takeWhile isDigit = [] then none
  else some (s.takeWhile isDigit, s.dropWhile isDigit)

def fractionPart (s : Str) : Str × Str :=
  if s.head? = some 46 ∧ s.tail.takeWhile isDigit ≠ [] then
    (46 :: s.tail.takeWhile isDigit, s.tail.dropWhile isDigit)
  else ([], s)

/-- The sign behind `e`. -/
def signPart (s : Str) : Str × Str :=
  if s.head? = some 43 ∨ s.head? = some 45 then (s.take 1, s.tail) else ([], s)

def exponentPart (s : Str) : Str × Str :=
  let p := signPart s.tail
  if (s.head? = some 101 ∨ s.head? = some 69) ∧ p.2.takeWhile isDigit ≠ [] then
    (s.take 1 ++ (p.1 ++ p.2.takeWhile isDigit), p.2.dropWhile isDigit)
  else ([], s)

/-- The number of a sign and the parts. -/
def numeral (sign whole fraction exponent : Str) : Json :=
  if fraction = [] ∧ exponent = [] then
    .int (if sign = [] then digitsVal 0 whole else -(digitsVal 0 whole : Int))
  else .real (sign ++ (whole ++ (fraction ++ exponent)))

/-- As much of a number as there is. -/
def scanNumber (s : Str) : Option (Json × Str) :=
  let sign := if s.head? = some 45 then [45] else []
  (wholePart (s.drop sign.length)).map fun whole =>
    let fraction := fractionPart whole.2
    let exponent := exponentPart fraction.2
    (numeral sign whole.1 fraction.1 exponent.1, exponent.2)

/-- The name that begins with a character. -/
def constantAt (c : UInt8) : Option (Str × Json) :=
  if c = 110 then some (ascii "null", .null)
  else if c = 116 then some (ascii "true", .bool true)
  else if c = 102 then some (ascii "false", .bool false)
  else if c = 78 then some (ascii "NaN", .real (ascii "NaN"))
  else if c = 73 then some (ascii "Infinity", .real (ascii "Infinity"))
  else if c = 45 then some (ascii "-Infinity", .real (ascii "-Infinity"))
  else none

def scanConstant (s : Str) : Option (Json × Str) :=
  (s.head?.bind constantAt).bind fun c =>
    if c.1 <+: s then some (c.2, s.drop c.1.length) else none

def scanScalar (s : Str) : Option (Json × Str) := (scanConstant s).or (scanNumber s)

/-! ## Values -/

/-- What is done behind a value: at a comma, and at the closing bracket. -/
def afterValue {α : Type} (close : UInt8) (more done : Str → Scanned α) (rest : Str) : Scanned α :=
  match skipWs rest with
  | [] => .invalid
  | c :: s => if c = 44 then more s else if c = close then done s else .invalid

/-- What is done behind the colon of a key. -/
def afterKey {α : Type} (value : Str → Scanned α) (rest : Str) : Scanned α :=
  match skipWs rest with
  | [] => .invalid
  | c :: s => if c = 58 then value s else .invalid

mutual
def scanOnce (depth : Nat) : Nat → Str → Scanned Json
  | 0, _ => .invalid
  | n + 1, s =>
    match s with
    | 34 :: s => (scanString s).map .str
    | 123 :: s =>
      match depth with
      | 0 => .tooDeep
      | depth + 1 => (scanMembers depth n true s).map .obj
    | 91 :: s =>
      match depth with
      | 0 => .tooDeep
      | depth + 1 => (scanElements depth n true s).map .arr
    | s => .ofOption (scanScalar s)

def scanElements (depth : Nat) : Nat → Bool → Str → Scanned (List Json)
  | 0, _, _ => .invalid
  | n + 1, first, s =>
    if first ∧ (skipWs s).head? = some 93 then .found [] (skipWs s).tail
    else
      (scanOnce depth n (skipWs s)).bind fun j =>
        afterValue 93 (fun s => (scanElements depth n false s).map fun js => j :: js) fun s => .found [j] s

def scanMembers (depth : Nat) : Nat → Bool → Str → Scanned (List (Str × Json))
  | 0, _, _ => .invalid
  | n + 1, first, s =>
    match skipWs s with
    | [] => .invalid
    | c :: s =>
      if c = 125 then (if first then .found [] s else .invalid)
      else if c = 34 then
        (scanString s).bind fun k => afterKey fun s =>
          (scanOnce depth n (skipWs s)).bind fun j =>
            afterValue 125 (fun s => (scanMembers depth n false s).map fun fs => (k, j) :: fs) fun s =>
              .found [(k, j)] s
      else .invalid
end

/-- `raw_decode`: the value at the very beginning. -/
def rawDecode (depth : Nat) (s : Str) : Scanned Json := scanOnce depth (2 * s.length) s

/-! ## When more text comes -/

section Strings

variable {s r x : Str} {n m : Nat}

theorem hex4_extend {u : Nat} (h : hex4 s = some (u, r)) (t : Str) : hex4 (s ++ t) = some (u, r ++ t) := by
  match s, h with
  | a :: b :: c :: d :: s, h =>
    rw [hex4] at h
    rw [List.cons_append, List.cons_append, List.cons_append, List.cons_append, hex4]
    split at h
    · cases h
      rfl
    · cases h

/-- Whether a second escape follows does not depend on what comes later. -/
theorem take_two (hr : r ≠ [] ∧ r ≠ [92]) (t : Str) : (r ++ t).take 2 = [92, 117] ↔ r.take 2 = [92, 117] := by
  match r, hr with
  | [], hr => exact absurd rfl hr.1
  | [c], hr =>
    have hc : c ≠ 92 := fun he => hr.2 (by rw [he])
    simp [hc]
  | _ :: _ :: _, _ => simp

theorem scanUnicode_extend (h : scanUnicode s = some (x, r)) (hr : r ≠ [] ∧ r ≠ [92]) (t : Str) :
    scanUnicode (s ++ t) = some (x, r ++ t) := by
  obtain ⟨⟨u, s'⟩, hu, h⟩ := Option.bind_eq_some_iff.mp h
  rw [scanUnicode, hex4_extend hu t, Option.bind_some]
  dsimp only at h ⊢
  by_cases hpair : (0xD800 ≤ u ∧ u < 0xDC00) ∧ s'.take 2 = [92, 117]
  · have hlen : 2 ≤ s'.length := by
      have := congrArg List.length hpair.2
      rw [List.length_take] at this
      simp only [List.length_cons, List.length_nil] at this
      omega
    rw [if_pos hpair] at h
    rw [if_pos ⟨hpair.1, by rw [List.take_append_of_le_length hlen, hpair.2]⟩,
      List.drop_append_of_le_length hlen]
    obtain ⟨⟨l, s''⟩, hl, he⟩ := Option.map_eq_some_iff.mp h
    rw [hex4_extend hl t, Option.map_some]
    dsimp only at he ⊢
    split_ifs at he ⊢
    · rw [← (Prod.mk.inj he).1, ← (Prod.mk.inj he).2]
    · rw [← (Prod.mk.inj he).1, ← (Prod.mk.inj he).2]
  · rw [if_neg hpair] at h
    obtain ⟨rfl, rfl⟩ := Prod.mk.inj (Option.some.inj h)
    rw [if_neg fun hc => hpair ⟨hc.1, (take_two hr t).mp hc.2⟩]

theorem escaped_extend (h : escaped s = some (x, r)) (hu : s.head? ≠ some 117) (t : Str) :
    escaped (s ++ t) = some (x, r ++ t) := by
  cases s with
  | nil => cases h
  | cons c s =>
    have hc : c ≠ 117 := fun hc => hu (by rw [hc]; rfl)
    simp only [escaped, List.cons_append, if_neg hc] at h ⊢
    split_ifs at h ⊢ <;> cases h <;> rfl

theorem scanEscape_extend (h : scanEscape s = some (x, r)) (hr : r ≠ [] ∧ r ≠ [92]) (t : Str) :
    scanEscape (s ++ t) = some (x, r ++ t) := by
  cases s with
  | nil => cases h
  | cons c s =>
    simp only [scanEscape, List.cons_append] at h ⊢
    split_ifs at h ⊢ with hc
    · exact scanUnicode_extend h hr t
    · exact escaped_extend h (fun he => hc (Option.some.inj he)) t

theorem scanBody_rest (h : scanBody n s = some (x, r)) : s ≠ [] ∧ s ≠ [92] := by
  cases n with
  | zero => cases h
  | succ n =>
    constructor
    · rintro rfl
      cases h
    · rintro rfl
      cases h

theorem scanBody_extend : ∀ (n : Nat) {s x r : Str}, scanBody n s = some (x, r) → ∀ {m : Nat}, n ≤ m → ∀ t : Str,
    scanBody m (s ++ t) = some (x, r ++ t) := by
  intro n
  induction n with
  | zero => exact fun h => (by cases h)
  | succ n ih =>
    intro s x r h m hm t
    obtain ⟨m, rfl⟩ : ∃ k, m = k + 1 := ⟨m - 1, by omega⟩
    have hm : n ≤ m := Nat.le_of_succ_le_succ hm
    cases s with
    | nil => cases h
    | cons c s =>
      rw [scanBody] at h
      rw [List.cons_append, scanBody]
      split_ifs at h ⊢ with h34 h92 h32
      · cases h
        rfl
      · obtain ⟨q, hq, hb⟩ := Option.bind_eq_some_iff.mp h
        obtain ⟨p, hp, he⟩ := Option.map_eq_some_iff.mp hb
        cases he
        rw [scanEscape_extend hq (scanBody_rest hp) t, Option.bind_some, ih hp hm t]
        rfl
      · obtain ⟨p, hp, he⟩ := Option.map_eq_some_iff.mp h
        cases he
        rw [ih hp hm t]
        rfl

end Strings

/-! ### Numbers -/

section Numbers

variable {s r t w f e ds sign : Str} {j : Json}

def IsDigits (s : Str) : Prop := s ≠ [] ∧ ∀ c ∈ s, isDigit c = true

/-- What follows does not go on with digits. -/
def NoDigit (r : Str) : Prop := ∀ c ∈ r.head?, isDigit c = false

def IsWhole (s : Str) : Prop := IsDigits s ∧ (s.head? = some 48 → s = [48])

def IsSign (s : Str) : Prop := s = [] ∨ s = [45]

def IsFractionPart (s : Str) : Prop := s = [] ∨ ∃ ds, s = 46 :: ds ∧ IsDigits ds

def IsExponentPart (s : Str) : Prop :=
  s = [] ∨ ∃ c sign ds, s = c :: (sign ++ ds) ∧ (c = 101 ∨ c = 69) ∧ (sign = [] ∨ sign = [43] ∨ sign = [45]) ∧
    IsDigits ds

theorem noDigit_of_ends (h : Ends r) : NoDigit r := fun c hc => by
  have hn := h c hc
  simp only [isNumChar, Bool.or_eq_false_iff] at hn
  exact hn.1.1.1.1.1

theorem digits_take (hd : ∀ c ∈ ds, isDigit c = true) (hr : NoDigit r) :
    (ds ++ r).takeWhile isDigit = ds ∧ (ds ++ r).dropWhile isDigit = r := by
  have hrest : r.takeWhile isDigit = [] ∧ r.dropWhile isDigit = r := by
    cases r with
    | nil => exact ⟨rfl, rfl⟩
    | cons c r =>
      have hc : ¬ isDigit c = true := by simp [hr c rfl]
      exact ⟨List.takeWhile_cons_of_neg hc, List.dropWhile_cons_of_neg hc⟩
  rw [List.takeWhile_append_of_pos hd, List.dropWhile_append_of_pos hd, hrest.1, hrest.2, List.append_nil]
  exact ⟨rfl, rfl⟩

theorem isDigits_takeWhile (h : s.takeWhile isDigit ≠ []) : IsDigits (s.takeWhile isDigit) :=
  ⟨h, fun _ hc => List.mem_takeWhile_imp hc⟩

theorem wholePart_spec (h : wholePart s = some (w, r)) : IsWhole w ∧ s = w ++ r := by
  rw [wholePart] at h
  split_ifs at h with h48 hnone
  · cases h
    obtain ⟨t, rfl⟩ := List.head?_eq_some_iff.mp h48
    exact ⟨⟨⟨by simp, by simp [isDigit]⟩, fun _ => rfl⟩, rfl⟩
  · cases h
    refine ⟨⟨isDigits_takeWhile hnone, fun hw => ?_⟩, (List.takeWhile_append_dropWhile).symm⟩
    cases s with
    | nil => exact absurd rfl hnone
    | cons c s =>
      rw [List.takeWhile_cons] at hw
      split_ifs at hw
      · exact absurd hw h48
      · cases hw

theorem wholePart_eq (hw : IsWhole w) (hr : NoDigit r) : wholePart (w ++ r) = some (w, r) := by
  obtain ⟨⟨hne, hd⟩, hzero⟩ := hw
  have hhead : (w ++ r).head? = w.head? := by
    cases w with
    | nil => exact absurd rfl hne
    | cons c w => rfl
  rw [wholePart, hhead]
  split_ifs with h48 hnone
  · rw [hzero h48]
    rfl
  · rw [(digits_take hd hr).1] at hnone
    exact absurd hnone hne
  · rw [(digits_take hd hr).1, (digits_take hd hr).2]

theorem fractionPart_spec (s : Str) : IsFractionPart (fractionPart s).1 ∧ s = (fractionPart s).1 ++ (fractionPart s).2 := by
  rw [fractionPart]
  split_ifs with h
  · obtain ⟨t, rfl⟩ := List.head?_eq_some_iff.mp h.1
    refine ⟨.inr ⟨_, rfl, isDigits_takeWhile h.2⟩, ?_⟩
    rw [List.tail_cons, List.cons_append, List.takeWhile_append_dropWhile]
  · exact ⟨.inl rfl, rfl⟩

theorem fractionPart_eq (hf : IsFractionPart f) (hr : NoDigit r) (hdot : r.head? ≠ some 46) :
    fractionPart (f ++ r) = (f, r) := by
  rcases hf with rfl | ⟨ds, rfl, hne, hd⟩
  · rw [List.nil_append, fractionPart, if_neg fun h => hdot h.1]
  · rw [List.cons_append, fractionPart, List.tail_cons, (digits_take hd hr).1, (digits_take hd hr).2,
      if_pos ⟨rfl, hne⟩]

theorem signPart_spec (s : Str) : ((signPart s).1 = [] ∨ (signPart s).1 = [43] ∨ (signPart s).1 = [45]) ∧
    s = (signPart s).1 ++ (signPart s).2 := by
  rw [signPart]
  split_ifs with h
  · rcases h with h | h
    · obtain ⟨t, rfl⟩ := List.head?_eq_some_iff.mp h
      exact ⟨.inr (.inl rfl), rfl⟩
    · obtain ⟨t, rfl⟩ := List.head?_eq_some_iff.mp h
      exact ⟨.inr (.inr rfl), rfl⟩
  · exact ⟨.inl rfl, rfl⟩

theorem exponentPart_spec (s : Str) : IsExponentPart (exponentPart s).1 ∧ s = (exponentPart s).1 ++ (exponentPart s).2 := by
  rw [exponentPart]
  obtain ⟨hsign, hs⟩ := signPart_spec s.tail
  split_ifs with h
  · have htake : ∃ c, (c = 101 ∨ c = 69) ∧ s = c :: s.tail := by
      rcases h.1 with hc | hc
      · obtain ⟨t, rfl⟩ := List.head?_eq_some_iff.mp hc
        exact ⟨101, .inl rfl, rfl⟩
      · obtain ⟨t, rfl⟩ := List.head?_eq_some_iff.mp hc
        exact ⟨69, .inr rfl, rfl⟩
    obtain ⟨c, hc, hcs⟩ := htake
    have hone : s.take 1 = [c] := by rw [hcs]; rfl
    refine ⟨.inr ⟨c, (signPart s.tail).1, _, by rw [hone]; rfl, hc, hsign, isDigits_takeWhile h.2⟩, ?_⟩
    rw [hone, List.append_assoc, List.append_assoc, List.takeWhile_append_dropWhile, ← hs]
    exact hcs
  · exact ⟨.inl rfl, rfl⟩

theorem exponentPart_eq (he : IsExponentPart e) (hr : Ends r) : exponentPart (e ++ r) = (e, r) := by
  rcases he with rfl | ⟨c, sign, ds, rfl, hc, hsign, hne, hd⟩
  · rw [List.nil_append, exponentPart, if_neg]
    rintro ⟨h | h, -⟩
    · exact absurd (hr 101 h) (by decide)
    · exact absurd (hr 69 h) (by decide)
  · have hpart : signPart (sign ++ ds ++ r) = (sign, ds ++ r) := by
      rcases hsign with rfl | rfl | rfl
      · rw [List.nil_append, signPart, if_neg]
        cases ds with
        | nil => exact absurd rfl hne
        | cons d ds =>
          have hdig := hd d List.mem_cons_self
          rintro (h | h)
          · rw [Option.some.inj h] at hdig
            cases hdig
          · rw [Option.some.inj h] at hdig
            cases hdig
      · rfl
      · rfl
    have hhead : (c :: (sign ++ ds) ++ r).head? = some 101 ∨ (c :: (sign ++ ds) ++ r).head? = some 69 :=
      hc.imp (congrArg some) (congrArg some)
    rw [exponentPart]
    rw [List.cons_append, List.tail_cons, hpart]
    dsimp only
    rw [(digits_take hd (noDigit_of_ends hr)).1, (digits_take hd (noDigit_of_ends hr)).2, if_pos ⟨hhead, hne⟩]
    rfl

theorem scanNumber_spec (h : scanNumber s = some (j, r)) : ∃ sign w f e, IsSign sign ∧ IsWhole w ∧
    IsFractionPart f ∧ IsExponentPart e ∧ s = sign ++ (w ++ (f ++ (e ++ r))) ∧ j = numeral sign w f e := by
  rw [scanNumber] at h
  dsimp only at h
  obtain ⟨⟨w, s₁⟩, hw, he⟩ := Option.map_eq_some_iff.mp h
  obtain ⟨rfl, rfl⟩ := Prod.mk.inj he
  obtain ⟨hwhole, hs⟩ := wholePart_spec hw
  obtain ⟨hfrac, hs₁⟩ := fractionPart_spec s₁
  obtain ⟨hexp, hs₂⟩ := exponentPart_spec (fractionPart s₁).2
  refine ⟨_, w, _, _, ?_, hwhole, hfrac, hexp, ?_, rfl⟩
  · split_ifs
    · exact .inr rfl
    · exact .inl rfl
  · dsimp only
    rw [← hs₂, ← hs₁, ← hs]
    split_ifs with h45
    · obtain ⟨t, rfl⟩ := List.head?_eq_some_iff.mp h45
      rfl
    · rfl

theorem scanNumber_eq (hsign : IsSign sign) (hw : IsWhole w) (hf : IsFractionPart f) (he : IsExponentPart e)
    (hr : Ends r) : scanNumber (sign ++ (w ++ (f ++ (e ++ r)))) = some (numeral sign w f e, r) := by
  have hafter : ∀ c ∈ (e ++ r).head?, isDigit c = false ∧ c ≠ 46 := by
    intro c hc
    rcases he with rfl | ⟨d, g, ds, rfl, hd, -⟩
    · refine ⟨noDigit_of_ends hr c hc, fun h46 => ?_⟩
      have hn := hr c hc
      rw [h46] at hn
      cases hn
    · obtain rfl := Option.some.inj hc
      rcases hd with rfl | rfl
      · decide
      · decide
  have hbehind : NoDigit (f ++ (e ++ r)) := by
    intro c hc
    rcases hf with rfl | ⟨ds, rfl, -⟩
    · exact (hafter c hc).1
    · obtain rfl := Option.some.inj hc
      rfl
  have hdrop : (if (sign ++ (w ++ (f ++ (e ++ r)))).head? = some 45 then [(45 : UInt8)] else []) = sign := by
    rcases hsign with rfl | rfl
    · rw [List.nil_append, if_neg]
      obtain ⟨⟨hne, hd⟩, -⟩ := hw
      cases w with
      | nil => exact absurd rfl hne
      | cons c w =>
        intro h45
        have hdig := hd c List.mem_cons_self
        rw [Option.some.inj h45] at hdig
        cases hdig
    · rfl
  rw [scanNumber]
  dsimp only
  rw [hdrop, List.drop_left, wholePart_eq hw hbehind, Option.map_some]
  dsimp only
  rw [fractionPart_eq hf (fun c hc => (hafter c hc).1) fun h46 => (hafter 46 h46).2 rfl]
  dsimp only
  rw [exponentPart_eq he hr]

theorem ends_append (hne : r ≠ []) (hr : Ends r) (t : Str) : Ends (r ++ t) := by
  cases r with
  | nil => exact absurd rfl hne
  | cons c r => exact hr

theorem scanNumber_extend (h : scanNumber s = some (j, r)) (hne : r ≠ []) (hr : Ends r) (t : Str) :
    scanNumber (s ++ t) = some (j, r ++ t) := by
  obtain ⟨sign, w, f, e, hsign, hw, hf, he, rfl, rfl⟩ := scanNumber_spec h
  simp only [List.append_assoc]
  exact scanNumber_eq hsign hw hf he (ends_append hne hr t)

/-- A number is no name. -/
theorem scanConstant_numeral (hsign : IsSign sign) (hw : IsWhole w) (r : Str) :
    scanConstant (sign ++ (w ++ r)) = none := by
  obtain ⟨⟨hne, hd⟩, -⟩ := hw
  cases w with
  | nil => exact absurd rfl hne
  | cons c w =>
    have hdig := hd c List.mem_cons_self
    have hlook : ∀ d : UInt8, isDigit d = false → c ≠ d := by
      rintro d hno rfl
      rw [hno] at hdig
      cases hdig
    rcases hsign with rfl | rfl
    · have hnone : constantAt c = none := by
        simp [constantAt, hlook 110 rfl, hlook 116 rfl, hlook 102 rfl, hlook 78 rfl, hlook 73 rfl, hlook 45 rfl]
      show ((some c).bind constantAt).bind _ = _
      rw [Option.bind_some, hnone]
      rfl
    · have hno : ¬ ascii "-Infinity" <+: [45] ++ (c :: w ++ r) := by
        rintro ⟨l, hl⟩
        have h73 : (73 : UInt8) = c := by
          have := congrArg (·[1]?) hl
          exact Option.some.inj this
        exact hlook 73 rfl h73.symm
      show (if ascii "-Infinity" <+: [45] ++ (c :: w ++ r) then _ else none) = _
      rw [if_neg hno]

theorem scanConstant_extend (h : scanConstant s = some (j, r)) (t : Str) :
    scanConstant (s ++ t) = some (j, r ++ t) := by
  obtain ⟨⟨name, j'⟩, hc, h⟩ := Option.bind_eq_some_iff.mp h
  obtain ⟨c, hhead, hat⟩ := Option.bind_eq_some_iff.mp hc
  have hhead' : (s ++ t).head? = some c := by
    obtain ⟨l, rfl⟩ := List.head?_eq_some_iff.mp hhead
    rfl
  dsimp only at h
  split_ifs at h with hpre
  obtain ⟨rfl, rfl⟩ := Prod.mk.inj (Option.some.inj h)
  obtain ⟨l, rfl⟩ := hpre
  rw [scanConstant, hhead', Option.bind_some, hat, Option.bind_some]
  dsimp only
  rw [if_pos ⟨l ++ t, (List.append_assoc _ _ _).symm⟩, List.append_assoc, List.drop_left, List.drop_left]

theorem scanScalar_extend (h : scanScalar s = some (j, r)) (hne : r ≠ []) (hr : Ends r) (t : Str) :
    scanScalar (s ++ t) = some (j, r ++ t) := by
  rw [scanScalar] at h ⊢
  cases hc : scanConstant s with
  | some p =>
    rw [hc] at h
    obtain rfl := Option.some.inj h
    rw [scanConstant_extend hc t]
    rfl
  | none =>
    rw [hc, Option.none_or] at h
    obtain ⟨sign, w, f, e, hsign, hw, -, -, hs, -⟩ := scanNumber_spec h
    have hno : scanConstant (s ++ t) = none := by
      rw [hs, List.append_assoc, List.append_assoc]
      exact scanConstant_numeral hsign hw _
    rw [hno, scanNumber_extend h hne hr t]
    rfl

end Numbers

/-! ### Values -/

/-- When `t` comes behind a text, then what was found in it is still found, if `P` holds of what is behind it,
and a recursion that went too deep does so again. -/
def GoesIf {α : Type} (P : Str → Prop) (t : Str) : Scanned α → Scanned α → Prop
  | .found a r, y => P r → y = .found a (r ++ t)
  | .tooDeep, y => y = .tooDeep
  | .invalid, _ => True

def Goes {α : Type} : Str → Scanned α → Scanned α → Prop := GoesIf fun _ => True

/-- Something else begins. -/
def Stops (r : Str) : Prop := r ≠ [] ∧ Ends r

section Goes

variable {α β : Type} {P : Str → Prop} {s r t : Str} {x y : Scanned α} {f g : α → Str → Scanned β} {n m depth : Nat}

theorem Goes.bind_if (h : GoesIf P t x y) (hP : ∀ a r, f a r = .invalid ∨ P r)
    (hf : ∀ a r, Goes t (f a r) (g a (r ++ t))) : Goes t (x.bind f) (y.bind g) := by
  cases x with
  | found a r =>
    rcases hP a r with hno | hr
    · show Goes t (f a r) _
      rw [hno]
      exact trivial
    · rw [h hr]
      exact hf a r
  | invalid => exact trivial
  | tooDeep =>
    rw [show y = .tooDeep from h]
    exact rfl

theorem Goes.bind (h : Goes t x y) (hf : ∀ a r, Goes t (f a r) (g a (r ++ t))) : Goes t (x.bind f) (y.bind g) :=
  Goes.bind_if h (fun _ _ => .inr trivial) hf

theorem Goes.found (a : α) (r : Str) : Goes t (.found a r) (.found a (r ++ t)) := fun _ => rfl

theorem Goes.map (h : Goes t x y) (f : α → β) : Goes t (x.map f) (y.map f) :=
  Goes.bind h fun _ _ _ => rfl

theorem scanString_goes (s t : Str) : Goes t (scanString s) (scanString (s ++ t)) := by
  rw [scanString, scanString]
  cases hb : scanBody s.length s with
  | none => exact trivial
  | some p =>
    intro _
    rw [scanBody_extend _ hb (by rw [List.length_append]; omega) t]
    rfl

theorem skipWs_extend (h : skipWs s ≠ []) (t : Str) : skipWs (s ++ t) = skipWs s ++ t := by
  induction s with
  | nil => exact absurd rfl h
  | cons c s ih =>
    cases hc : isWs c with
    | true =>
      have hstep : ∀ u, skipWs (c :: u) = skipWs u := fun u => List.dropWhile_cons_of_pos hc
      rw [hstep] at h
      rw [List.cons_append, hstep, hstep]
      exact ih h
    | false =>
      rw [List.cons_append, skipWs_cons hc, skipWs_cons hc]
      rfl

/-- White space or punctuation stops what is before it. -/
theorem stops_of_skip {c : UInt8} (h : skipWs r = c :: s) (hc : isNumChar c = false) : Stops r := by
  cases r with
  | nil => cases h
  | cons d r =>
    refine ⟨by simp, fun e he => ?_⟩
    obtain rfl := Option.some.inj he
    cases hd : isWs d with
    | true => exact not_numChar_of_ws hd
    | false =>
      rw [skipWs_cons hd] at h
      rw [(List.cons.inj h).1]
      exact hc

theorem Goes.weaken (h : Goes t x y) : GoesIf P t x y := by
  cases x with
  | found a r => exact fun _ => h trivial
  | invalid => exact trivial
  | tooDeep => exact h

theorem scanOnce_nil (depth n : Nat) : scanOnce depth n [] = .invalid := by
  cases n <;> rfl

theorem scanOnce_scalar {c : UInt8} (h : c ≠ 34 ∧ c ≠ 123 ∧ c ≠ 91) (depth n : Nat) (s : Str) :
    scanOnce depth (n + 1) (c :: s) = .ofOption (scanScalar (c :: s)) := by
  rw [scanOnce.eq_def]
  dsimp only
  split
  · rename_i heq
    exact absurd (List.cons.inj heq).1 h.1
  · rename_i heq
    exact absurd (List.cons.inj heq).1 h.2.1
  · rename_i heq
    exact absurd (List.cons.inj heq).1 h.2.2
  · rfl

theorem afterValue_stops {close : UInt8} {more done : Str → Scanned β} (hc : isNumChar close = false) (rest : Str) :
    afterValue close more done rest = .invalid ∨ Stops rest := by
  rw [afterValue]
  cases hs : skipWs rest with
  | nil => exact .inl rfl
  | cons c s =>
    by_cases hcomma : c = 44
    · exact .inr (stops_of_skip hs (by rw [hcomma]; rfl))
    by_cases hclose : c = close
    · exact .inr (stops_of_skip hs (by rw [hclose]; exact hc))
    · refine .inl ?_
      dsimp only
      rw [if_neg hcomma, if_neg hclose]

theorem afterValue_goes {close : UInt8} {more done more' done' : Str → Scanned β}
    (hmore : ∀ s, Goes t (more s) (more' (s ++ t))) (hdone : ∀ s, Goes t (done s) (done' (s ++ t))) (rest : Str) :
    Goes t (afterValue close more done rest) (afterValue close more' done' (rest ++ t)) := by
  rw [afterValue, afterValue]
  cases hs : skipWs rest with
  | nil => exact trivial
  | cons c s =>
    rw [skipWs_extend (by rw [hs]; simp) t, hs]
    show Goes t (if c = 44 then _ else _) (if c = 44 then _ else _)
    split_ifs
    · exact hmore s
    · exact hdone s
    · exact trivial

theorem afterKey_goes {value value' : Str → Scanned β} (hvalue : ∀ s, Goes t (value s) (value' (s ++ t)))
    (rest : Str) : Goes t (afterKey value rest) (afterKey value' (rest ++ t)) := by
  rw [afterKey, afterKey]
  cases hs : skipWs rest with
  | nil => exact trivial
  | cons c s =>
    rw [skipWs_extend (by rw [hs]; simp) t, hs]
    show Goes t (if c = 58 then _ else _) (if c = 58 then _ else _)
    split_ifs
    · exact hvalue s
    · exact trivial

/-- The value behind white space. -/
theorem skipped_goes (h : ∀ s, GoesIf Stops t (scanOnce depth n s) (scanOnce depth m (s ++ t))) (s : Str) :
    GoesIf Stops t (scanOnce depth n (skipWs s)) (scanOnce depth m (skipWs (s ++ t))) := by
  by_cases hs : skipWs s = []
  · rw [hs, scanOnce_nil]
    exact trivial
  · rw [skipWs_extend hs t]
    exact h (skipWs s)

/-- The three scanners, by induction on the fuel. -/
theorem scan_goes (n : Nat) : ∀ (depth m : Nat) (s t : Str), n ≤ m →
    GoesIf Stops t (scanOnce depth n s) (scanOnce depth m (s ++ t)) ∧
    (∀ first, Goes t (scanElements depth n first s) (scanElements depth m first (s ++ t))) ∧
    ∀ first, Goes t (scanMembers depth n first s) (scanMembers depth m first (s ++ t)) := by
  induction n with
  | zero => exact fun depth m s t _ => ⟨trivial, fun _ => trivial, fun _ => trivial⟩
  | succ n ih =>
    intro depth m s t hm
    obtain ⟨m, rfl⟩ : ∃ k, m = k + 1 := ⟨m - 1, by omega⟩
    have hm : n ≤ m := Nat.le_of_succ_le_succ hm
    have hvalue := skipped_goes fun s => (ih depth m s t hm).1
    refine ⟨?_, fun first => ?_, fun first => ?_⟩
    · cases s with
      | nil =>
        rw [scanOnce_nil]
        exact trivial
      | cons c s =>
        by_cases hstr : c = 34
        · subst hstr
          exact (scanString_goes s t).map _ |>.weaken
        by_cases hobj : c = 123
        · subst hobj
          cases depth with
          | zero => exact rfl
          | succ depth => exact ((ih depth m s t hm).2.2 true).map _ |>.weaken
        by_cases harr : c = 91
        · subst harr
          cases depth with
          | zero => exact rfl
          | succ depth => exact ((ih depth m s t hm).2.1 true).map _ |>.weaken
        · rw [List.cons_append, scanOnce_scalar ⟨hstr, hobj, harr⟩, scanOnce_scalar ⟨hstr, hobj, harr⟩]
          cases hs : scanScalar (c :: s) with
          | none => exact trivial
          | some p =>
            intro hstop
            rw [← List.cons_append, scanScalar_extend hs hstop.1 hstop.2 t]
            rfl
    · rw [scanElements, scanElements]
      have hbehind : Goes t ((scanOnce depth n (skipWs s)).bind fun j => afterValue 93
          (fun s => (scanElements depth n false s).map fun js => j :: js) fun s => .found [j] s)
          ((scanOnce depth m (skipWs (s ++ t))).bind fun j => afterValue 93
          (fun s => (scanElements depth m false s).map fun js => j :: js) fun s => .found [j] s) := by
        refine Goes.bind_if (hvalue s) (fun j => afterValue_stops rfl) fun j rest => ?_
        exact afterValue_goes (fun s' => ((ih depth m s' t hm).2.1 false).map _) (fun s' => .found _ s') rest
      by_cases hclose : first = true ∧ (skipWs s).head? = some 93
      · have hne : skipWs s ≠ [] := fun hs => by
          rw [hs] at hclose
          cases hclose.2
        rw [skipWs_extend hne, List.head?_append_of_ne_nil _ hne, if_pos hclose, if_pos hclose,
          List.tail_append_of_ne_nil hne]
        exact .found _ _
      · have hopen : ¬ (first = true ∧ (skipWs (s ++ t)).head? = some 93) ∨ skipWs s = [] := by
          by_cases hs : skipWs s = []
          · exact .inr hs
          · rw [skipWs_extend hs, List.head?_append_of_ne_nil _ hs]
            exact .inl hclose
        rw [if_neg hclose]
        rcases hopen with hopen | hs
        · rw [if_neg hopen]
          exact hbehind
        · rw [hs, scanOnce_nil]
          exact trivial
    · rw [scanMembers, scanMembers]
      cases hs : skipWs s with
      | nil => exact trivial
      | cons c s' =>
        rw [skipWs_extend (by rw [hs]; simp) t, hs]
        show Goes t (if c = 125 then _ else _) (if c = 125 then _ else _)
        split_ifs
        · exact .found _ _
        · exact trivial
        · refine Goes.bind (scanString_goes s' t) fun k => afterKey_goes fun s' => ?_
          refine Goes.bind_if (hvalue s') (fun j => afterValue_stops rfl) fun j rest => ?_
          exact afterValue_goes (fun s' => ((ih depth m s' t hm).2.2 false).map _) (fun s' => .found _ s') rest
        · exact trivial

/-- An object ends at its bracket. -/
theorem rawDecode_goes (depth : Nat) (s t : Str) :
    Goes t (rawDecode depth (123 :: s)) (rawDecode depth (123 :: (s ++ t))) := by
  cases depth with
  | zero => exact rfl
  | succ depth =>
    have hlen : 2 * (123 :: s).length = 2 * s.length + 1 + 1 ∧
      2 * (123 :: (s ++ t)).length = 2 * (s ++ t).length + 1 + 1 := ⟨by simp; omega, by simp; omega⟩
    rw [rawDecode, rawDecode, hlen.1, hlen.2]
    refine ((scan_goes _ depth _ s t ?_).2.2 true).map _
    rw [List.length_append]
    omega

end Goes

end Json

end VersatileEngine
