import VersatileEngine.Lib.Decimal

/-!
# VersatileEngine.Lib.Utf8

Well-formed UTF-8, one byte at a time.

* `Utf8.lead`  — the ranges in which the bytes after a first byte must lie.
* `Utf8.scan`  — the scanner; its state is the ranges that are still owed.
* `Utf8.encode` — the bytes of a code point.
* `Utf8.repair` — a decoder that writes U+FFFD for what is no character; `repair_valid`.
* `valid_cut`  — an ASCII byte splits a text into two that are well-formed on their own.
-/

namespace VersatileEngine.Utf8

/-- Ranges of bytes. -/
abbrev Owed := List (UInt8 × UInt8)

def tail : UInt8 × UInt8 := (0x80, 0xBF)

/-- What a first byte owes; `none` for a byte that begins no character. -/
def lead (b : UInt8) : Option Owed :=
  if b ≤ 0x7F then some []
  else if 0xC2 ≤ b ∧ b ≤ 0xDF then some [tail]
  else if b = 0xE0 then some [(0xA0, 0xBF), tail]
  else if b = 0xED then some [(0x80, 0x9F), tail]
  else if 0xE1 ≤ b ∧ b ≤ 0xEF then some [tail, tail]
  else if b = 0xF0 then some [(0x90, 0xBF), tail, tail]
  else if 0xF1 ≤ b ∧ b ≤ 0xF3 then some [tail, tail, tail]
  else if b = 0xF4 then some [(0x80, 0x8F), tail, tail]
  else none

def scan : Owed → Str → Bool
  | [], [] => true
  | _ :: _, [] => false
  | [], b :: s =>
    match lead b with
    | some owed => scan owed s
    | none => false
  | r :: owed, b :: s => r.1 ≤ b && b ≤ r.2 && scan owed s

/-- Well-formed UTF-8. -/
def Valid (s : Str) : Prop := scan [] s = true

instance (s : Str) : Decidable (Valid s) := inferInstanceAs (Decidable (_ = _))

/-- The bytes of a code point. -/
def encode (u : Nat) : Str :=
  if u < 0x80 then [UInt8.ofNat u]
  else if u < 0x800 then [UInt8.ofNat (0xC0 + u / 64), UInt8.ofNat (0x80 + u % 64)]
  else if u < 0x10000 then
    [UInt8.ofNat (0xE0 + u / 4096), UInt8.ofNat (0x80 + u / 64 % 64), UInt8.ofNat (0x80 + u % 64)]
  else
    [UInt8.ofNat (0xF0 + u / 262144), UInt8.ofNat (0x80 + u / 4096 % 64),
      UInt8.ofNat (0x80 + u / 64 % 64), UInt8.ofNat (0x80 + u % 64)]

theorem lead_ascii {b : UInt8} (h : b ≤ 0x7F) : lead b = some [] := by rw [lead, if_pos h]

/-- Every owed byte is at least `0x80`. -/
def High (owed : Owed) : Prop := ∀ r ∈ owed, 0x80 ≤ r.1

theorem lead_high {b : UInt8} {owed : Owed} (h : lead b = some owed) : High owed := by
  unfold lead at h
  split_ifs at h <;> (rw [← Option.some.inj h]; simp [High, tail])

theorem scan_append {s : Str} : ∀ {owed : Owed} {t : Str}, scan owed s = true →
    scan owed (s ++ t) = scan [] t := by
  induction s with
  | nil =>
    intro owed t h
    cases owed with
    | nil => rfl
    | cons r owed => cases h
  | cons b s ih =>
    intro owed t h
    cases owed with
    | nil =>
      rw [scan] at h
      rw [List.cons_append, scan]
      cases hl : lead b with
      | none => rw [hl] at h; cases h
      | some owed =>
        rw [hl] at h
        exact ih h
    | cons r owed =>
      rw [scan, Bool.and_eq_true] at h
      rw [List.cons_append, scan, h.1, ih h.2, Bool.true_and]

theorem Valid.append {s t : Str} (hs : Valid s) : Valid (s ++ t) ↔ Valid t := by
  rw [Valid, scan_append hs]
  rfl

/-- An ASCII byte ends what stands before it. -/
theorem scan_cut {c : UInt8} (hc : c ≤ 0x7F) (t : Str) : ∀ (s : Str) {owed : Owed}, High owed →
    scan owed (s ++ c :: t) = (scan owed s && scan [] t) := by
  intro s
  induction s with
  | nil =>
    intro owed h
    cases owed with
    | nil =>
      have hstep : scan [] (c :: t) = scan [] t := by
        rw [scan, lead_ascii hc]
      rw [List.nil_append, hstep]
      rfl
    | cons r owed =>
      have hr : 0x80 ≤ r.1 := h r (by simp)
      have hlt : ¬ r.1 ≤ c := by
        rw [UInt8.le_iff_toNat_le] at hc hr ⊢
        have : (0x7F : UInt8).toNat = 127 ∧ (0x80 : UInt8).toNat = 128 := ⟨rfl, rfl⟩
        omega
      simp [scan, hlt]
  | cons b s ih =>
    intro owed h
    cases owed with
    | nil =>
      rw [List.cons_append, scan, scan]
      cases hl : lead b with
      | none => rfl
      | some owed => exact ih (lead_high hl)
    | cons r owed =>
      rw [List.cons_append, scan, scan, ih fun r' hr' => h r' (List.mem_cons_of_mem _ hr')]
      simp only [Bool.and_assoc]

theorem valid_cut {c : UInt8} (hc : c ≤ 0x7F) {s t : Str} :
    Valid (s ++ c :: t) ↔ Valid s ∧ Valid t := by
  rw [Valid, scan_cut hc t s fun r hr => (by cases hr), Bool.and_eq_true]
  rfl

theorem valid_ascii {s : Str} (h : ∀ b ∈ s, b ≤ 0x7F) : Valid s := by
  induction s with
  | nil => rfl
  | cons b s ih =>
    rw [List.forall_mem_cons] at h
    rw [Valid, scan, lead_ascii h.1]
    exact ih h.2

/-! ### Characters -/

/-- The bytes lie in the ranges that are owed. -/
def Fits (owed : Owed) (t : Str) : Prop := List.Forall₂ (fun (r : UInt8 × UInt8) b => r.1 ≤ b ∧ b ≤ r.2) owed t

/-- One character, by its first byte and what that owes. -/
def IsChar (ch : Str) : Prop := ∃ b t owed, ch = b :: t ∧ lead b = some owed ∧ Fits owed t

theorem scan_fits {s : Str} : ∀ {owed : Owed},
    scan owed s = true ↔ ∃ t s', s = t ++ s' ∧ Fits owed t ∧ Valid s' := by
  intro owed
  induction owed generalizing s with
  | nil =>
    constructor
    · exact fun h => ⟨[], s, rfl, .nil, h⟩
    · rintro ⟨t, s', rfl, hfits, hs⟩
      cases hfits
      exact hs
  | cons r owed ih =>
    cases s with
    | nil =>
      refine ⟨fun h => (by cases h), ?_⟩
      rintro ⟨t, s', h, hfits, -⟩
      cases hfits
      cases h
    | cons b s =>
      rw [scan, Bool.and_eq_true, Bool.and_eq_true, decide_eq_true_eq, decide_eq_true_eq, ih]
      constructor
      · rintro ⟨hb, t, s', rfl, hfits, hs⟩
        exact ⟨b :: t, s', rfl, .cons hb hfits, hs⟩
      · rintro ⟨t, s', h, hfits, hs⟩
        cases hfits with
        | cons hb hfits =>
          cases h
          exact ⟨hb, _, s', rfl, hfits, hs⟩

theorem IsChar.valid {ch : Str} (h : IsChar ch) : Valid ch := by
  obtain ⟨b, t, owed, rfl, hlead, hfits⟩ := h
  rw [Valid, scan, hlead]
  exact scan_fits.2 ⟨t, [], (List.append_nil t).symm, hfits, rfl⟩

/-- The first character. -/
theorem valid_head {s : Str} (h : Valid s) (hne : s ≠ []) : ∃ ch s', s = ch ++ s' ∧ IsChar ch ∧ Valid s' := by
  obtain ⟨b, s, rfl⟩ := List.exists_cons_of_ne_nil hne
  rw [Valid, scan] at h
  cases hlead : lead b with
  | none => rw [hlead] at h; cases h
  | some owed =>
    rw [hlead] at h
    obtain ⟨t, s', rfl, hfits, hs⟩ := scan_fits.1 h
    exact ⟨b :: t, s', rfl, ⟨b, t, owed, rfl, hlead, hfits⟩, hs⟩

/-- A text character by character. -/
theorem valid_induction {motive : ∀ s, Valid s → Prop} (nil : motive [] rfl)
    (char : ∀ ch s (hch : IsChar ch) (hs : Valid s), motive s hs → motive (ch ++ s) (hch.valid.append.2 hs))
    {s : Str} (h : Valid s) : motive s h := by
  induction hn : s.length using Nat.strongRecOn generalizing s with
  | ind n ih =>
    by_cases hne : s = []
    · subst hne
      exact nil
    · obtain ⟨ch, s', rfl, hch, hs⟩ := valid_head h hne
      have hlt : s'.length < n := by
        obtain ⟨b, t, owed, rfl, -⟩ := hch
        simp only [List.length_append, List.length_cons] at hn
        omega
      exact char ch s' hch hs (ih _ hlt hs rfl)

/-- The last character. -/
theorem valid_last {s : Str} (h : Valid s) (hne : s ≠ []) : ∃ s' ch, s = s' ++ ch ∧ Valid s' ∧ IsChar ch := by
  induction hn : s.length using Nat.strongRecOn generalizing s with
  | ind n ih =>
    obtain ⟨ch, s', rfl, hch, hs⟩ := valid_head h hne
    by_cases hnil : s' = []
    · subst hnil
      exact ⟨[], ch, by simp, rfl, hch⟩
    · have hlt : s'.length < n := by
        obtain ⟨b, t, owed, rfl, -⟩ := hch
        simp only [List.length_append, List.length_cons] at hn
        omega
      obtain ⟨s'', ch', rfl, hs'', hch'⟩ := ih _ hlt hs hnil rfl
      exact ⟨ch ++ s'', ch', by simp, hch.valid.append.2 hs'', hch'⟩

/-! ### Decoding with replacement -/

/-- The bytes of U+FFFD. -/
def replacement : Str := [0xEF, 0xBF, 0xBD]

/-- The text that a decoder makes of bytes: `pending` are those of a character that is not complete. A
byte that does not continue it begins a new one. -/
def repair : Owed → Str → Str → Str
  | [], _, [] => []
  | _ :: _, _, [] => replacement
  | [], _, b :: s =>
    match lead b with
    | some [] => b :: repair [] [] s
    | some owed => repair owed [b] s
    | none => replacement ++ repair [] [] s
  | r :: owed, pending, b :: s =>
    if r.1 ≤ b ∧ b ≤ r.2 then
      match owed with
      | [] => pending ++ b :: repair [] [] s
      | r' :: owed => repair (r' :: owed) (pending ++ [b]) s
    else
      replacement ++
        match lead b with
        | some [] => b :: repair [] [] s
        | some owed => repair owed [b] s
        | none => replacement ++ repair [] [] s

theorem repair_scan {s : Str} : ∀ {owed : Owed} {pending : Str}, scan owed s = true →
    (owed = [] → pending = []) → repair owed pending s = pending ++ s := by
  induction s with
  | nil =>
    intro owed pending h hp
    cases owed with
    | nil => rw [hp rfl]; rfl
    | cons r owed => cases h
  | cons b s ih =>
    intro owed pending h hp
    cases owed with
    | nil =>
      rw [hp rfl]
      rw [scan] at h
      cases hl : lead b with
      | none => rw [hl] at h; cases h
      | some owed =>
        rw [hl] at h
        cases owed with
        | nil =>
          rw [repair, hl, ih h fun _ => rfl]
          rfl
        | cons r owed =>
          rw [repair, hl]
          exact ih h fun he => (by cases he)
    | cons r owed =>
      rw [scan, Bool.and_eq_true, Bool.and_eq_true, decide_eq_true_eq, decide_eq_true_eq] at h
      obtain ⟨hr, h⟩ := h
      cases owed with
      | nil =>
        rw [repair, if_pos hr, ih h fun _ => rfl]
        rfl
      | cons r' owed =>
        rw [repair, if_pos hr, ih h fun he => (by cases he)]
        rw [List.append_assoc]
        rfl

/-- Nothing is replaced in a well-formed text. -/
theorem repair_valid {s : Str} (h : Valid s) : repair [] [] s = s := repair_scan h fun _ => rfl

end VersatileEngine.Utf8
