import Mathlib.Data.List.TakeWhile
import VersatileEngine.Node.Ensure

/-!
# VersatileEngine.Node.Keys

What `parseKey` reads, against what is written in the key.

* `Denotes`        — the name and the number that a key writes: the text before the last separator, and the
  decimal number behind it, zero where there is none.
* `digitRun`       — the digits that the loop of `parseKey` reads, whether the key is accepted or not.
* `loopSafe`       — no intermediate value of the loop leaves the range of `int`.
* `parseKey_exact` — both hold exactly of the keys whose number is below `2^31`, and `toKey` is inverted.
-/

namespace VersatileEngine

/-- The key writes the name `nm` and the number `n`. -/
def Denotes (sep : UInt8) (key nm : Str) (n : Nat) : Prop :=
  (key ≠ [] ∧ sep ∉ key ∧ nm = key ∧ n = 0) ∨
    ∃ digits, key = nm ++ sep :: digits ∧ sep ∉ digits ∧ (∀ c ∈ digits, isDigit c = true) ∧
      n = digitsVal 0 digits

/-- The digits right behind the last separator. -/
def digitRun (sep : UInt8) (key : Str) : Str :=
  match rsplit sep key with
  | some (_, digits) => digits.takeWhile isDigit
  | none => []

/-- `val = val * 10 + (c - '0')` in mathematical integers: neither the product nor the sum is beyond
`INT_MAX`, up to the first byte that is no digit. -/
def loopSafe : Nat → Str → Prop
  | _, [] => True
  | v, c :: cs =>
    if isDigit c then v * 10 < 2147483648 ∧ v * 10 + digitVal c < 2147483648 ∧ loopSafe (v * 10 + digitVal c) cs
    else True

/-- `parseKey` returns false, or what the key writes; and nothing overflows on the way. -/
structure KeyExact (sep : UInt8) (key : Str) : Prop where
  exact : ∀ nm i, parseKey sep key = some (nm, i) → ∃ n : Nat, Denotes sep key nm n ∧ i = n
  safe : ∀ before digits, rsplit sep key = some (before, digits) → loopSafe 0 digits

section Keys

variable {sep : UInt8} {key nm : Str} {n : Nat}

theorem loopSafe_iff (cs : Str) : ∀ v, v < 2147483648 →
    (loopSafe v cs ↔ digitsVal v (cs.takeWhile isDigit) < 2147483648) := by
  induction cs with
  | nil => exact fun v hv => ⟨fun _ => hv, fun _ => trivial⟩
  | cons c cs ih =>
    intro v hv
    rw [loopSafe]
    by_cases hc : isDigit c = true
    · rw [if_pos hc, List.takeWhile_cons_of_pos hc]
      show _ ↔ digitsVal (v * 10 + digitVal c) (cs.takeWhile isDigit) < 2147483648
      constructor
      · rintro ⟨-, hsum, hrest⟩
        exact (ih _ hsum).mp hrest
      · intro h
        have hsum : v * 10 + digitVal c < 2147483648 := Nat.lt_of_le_of_lt (le_digitsVal _ _) h
        exact ⟨by omega, hsum, (ih _ hsum).mpr h⟩
    · rw [if_neg hc, List.takeWhile_cons_of_neg hc]
      exact ⟨fun _ => hv, fun _ => trivial⟩

/-- A key writes one name and one number. -/
theorem Denotes.unique {nm' : Str} {n' : Nat} (h : Denotes sep key nm n) (h' : Denotes sep key nm' n') :
    nm = nm' ∧ n = n' := by
  rcases h with ⟨-, hsep, rfl, rfl⟩ | ⟨ds, rfl, hds, -, rfl⟩
  · rcases h' with ⟨-, -, rfl, rfl⟩ | ⟨ds, rfl, -⟩
    · exact ⟨rfl, rfl⟩
    · simp at hsep
  · rcases h' with ⟨-, hsep, -⟩ | ⟨ds', he, hds', -, rfl⟩
    · simp at hsep
    · have h₁ := rsplit_append nm hds
      rw [he, rsplit_append nm' hds'] at h₁
      cases h₁
      exact ⟨rfl, rfl⟩

/-- **Where the number is below `2^31` the key is read exactly**, and only there nothing overflows. -/
theorem keyExact_iff : KeyExact sep key ↔ digitsVal 0 (digitRun sep key) < 2147483648 := by
  cases hr : rsplit sep key with
  | none =>
    have hrun : digitRun sep key = [] := by rw [digitRun, hr]
    rw [hrun]
    refine ⟨fun _ => by decide, fun _ => ⟨fun nm i hp => ?_, fun b d hs => (by rw [hr] at hs; cases hs)⟩⟩
    rw [parseKey, hr] at hp
    split_ifs at hp with hempty
    cases hp
    exact ⟨0, .inl ⟨hempty, rsplit_eq_none hr, rfl, rfl⟩, rfl⟩
  | some p =>
    obtain ⟨before, digits⟩ := p
    have hrun : digitRun sep key = digits.takeWhile isDigit := by rw [digitRun, hr]
    obtain ⟨hkey, hsep⟩ := rsplit_spec hr
    rw [hrun]
    constructor
    · exact fun h => (loopSafe_iff digits 0 (by omega)).mp (h.safe before digits hr)
    · intro hlt
      refine ⟨fun nm i hp => ?_, fun b d hs => ?_⟩
      · rw [parseKey, hr] at hp
        simp only at hp
        split_ifs at hp with hempty hnil hall
        · cases hp
          exact ⟨0, .inr ⟨[], by rw [hkey, hnil], by simp, by simp, rfl⟩, rfl⟩
        · cases hp
          rw [List.takeWhile_eq_self_iff.mpr (List.all_eq_true.mp hall)] at hlt
          refine ⟨digitsVal 0 digits, .inr ⟨digits, hkey, hsep, List.all_eq_true.mp hall, rfl⟩, ?_⟩
          exact digitsVal32_eq digits 0 hlt
      · rw [hr] at hs
        cases hs
        exact (loopSafe_iff digits 0 (by omega)).mpr hlt

/-- `toKey` writes what it is given. -/
theorem parseKey_toKey_all {nm : Str} (hnm : keySep ∉ nm) {n : Nat} (hn : n < 2147483648) :
    parseKey keySep (toKey keySep nm n) = some (nm, (n : Int)) := by
  have hkey : toKey keySep nm n = nm ++ keySep :: natChars n := by
    by_cases h : nm = []
    · subst h
      rfl
    · rw [toKey, if_neg h, if_neg (by omega)]
      rfl
  rw [hkey]
  exact parseKey_toKey nm hn

/-- **Key parsing is exact** exactly for the keys whose number is below `2^31`: such keys with different
numbers are read differently, and every name without separator and every index come back. -/
theorem parseKey_exact (key nm : Str) (n : Nat) :
    (KeyExact keySep key ↔ digitsVal 0 (digitRun keySep key) < 2147483648) ∧
    (∀ (key' nm' : Str) (n' : Nat), KeyExact keySep key → KeyExact keySep key' →
      Denotes keySep key nm n → Denotes keySep key' nm' n' → parseKey keySep key ≠ none →
      parseKey keySep key = parseKey keySep key' → nm = nm' ∧ n = n') ∧
    (keySep ∉ nm → n < 2147483648 → parseKey keySep (toKey keySep nm n) = some (nm, (n : Int))) := by
  refine ⟨keyExact_iff, fun key' nm' n' h h' hd hd' hne he => ?_, fun hnm hn => parseKey_toKey_all hnm hn⟩
  obtain ⟨⟨x, i⟩, hp⟩ := Option.ne_none_iff_exists'.mp hne
  obtain ⟨m, hm, hi⟩ := h.exact x i hp
  obtain ⟨m', hm', hi'⟩ := h'.exact x i (he ▸ hp)
  obtain ⟨rfl, rfl⟩ := hd.unique hm
  obtain ⟨rfl, rfl⟩ := hd'.unique hm'
  exact ⟨rfl, by omega⟩

theorem parseKey_exact_sample : parseKey keySep (toKey keySep (ascii "a") 3) = some (ascii "a", ((3 : Nat) : Int)) :=
  (parseKey_exact [] (ascii "a") 3).2.2 (by decide) (by decide)

/-- `a#4294967296` is read as `a#0`. -/
theorem number_wraps : ¬ KeyExact keySep (ascii "a#4294967296") ∧
    parseKey keySep (ascii "a#4294967296") = parseKey keySep (ascii "a#0") := by
  refine ⟨fun h => ?_, by decide⟩
  have := h.safe (ascii "a") (ascii "4294967296") (by decide)
  rw [loopSafe_iff _ _ (by omega)] at this
  revert this
  decide

end Keys

end VersatileEngine
