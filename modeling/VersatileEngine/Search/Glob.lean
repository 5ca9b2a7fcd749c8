import VersatileEngine.Core.Data

/-!
# VersatileEngine.Search.Glob

The pattern match of the `search` command.

* `Glob`        — what a pattern stands for: `*` for any text, `?` for one byte.
* `globMatch`   — the loop with two positions and the last star; no result would mean no end.
* `Tight`       — the matches in which a star that stands at a `*` of the text takes just that byte: the
  loop compares the two bytes before it looks for a star, and has no way back.
* `globMatch_tight`, `globMatch_exact` — **the loop ends and finds the tight matches**, so it is right
  exactly where a match can be made tight. In a text without `*` every match is.
-/

namespace VersatileEngine.Search

/-- The text matches the pattern. -/
inductive Glob : Str → Str → Prop
  | nil : Glob [] []
  | char {c : UInt8} {p s : Str} : c ≠ 42 → c ≠ 63 → Glob p s → Glob (c :: p) (c :: s)
  | one {c : UInt8} {p s : Str} : Glob p s → Glob (63 :: p) (c :: s)
  | star {t p s : Str} : Glob p s → Glob (42 :: p) (t ++ s)

/-- As `Glob`, but a star at a `*` of the text stands for that byte alone. -/
inductive Tight : Str → Str → Prop
  | nil : Tight [] []
  | char {c : UInt8} {p s : Str} : c ≠ 42 → c ≠ 63 → Tight p s → Tight (c :: p) (c :: s)
  | one {c : UInt8} {p s : Str} : Tight p s → Tight (63 :: p) (c :: s)
  | same {p s : Str} : Tight p s → Tight (42 :: p) (42 :: s)
  | star {t p s : Str} : (t ++ s).head? ≠ some 42 → Tight p s → Tight (42 :: p) (t ++ s)

/-- The positions of the loop as what lies from them on; with a star, the pattern behind it and the text
from `starS` on. -/
structure Matcher where
  pat : Str
  str : Str
  star : Option (Str × Str)

namespace Matcher

/-- The text matches from here on by the first test of the loop. -/
def Meets (pat : Str) (b : UInt8) : Prop := pat.head? = some b ∨ pat.head? = some 63

instance (pat : Str) (b : UInt8) : Decidable (Meets pat b) :=
  inferInstanceAs (Decidable (_ ∨ _))

/-- The loop body at the byte `b`; no result where it returns false. -/
def step (m : Matcher) (b : UInt8) (s : Str) : Option Matcher :=
  if Meets m.pat b then some { m with pat := m.pat.tail, str := s }
  else if m.pat.head? = some 42 then
    some { m with pat := m.pat.tail, star := some (m.pat.tail, m.str) }
  else m.star.map fun (q, u) => ⟨q, u.tail, some (q, u.tail)⟩

end Matcher

/-- The loop and what is done after it. -/
def globLoop : Nat → Matcher → Option Bool
  | 0, _ => none
  | fuel + 1, m =>
    match m.str with
    | [] => some (m.pat.dropWhile (· = 42)).isEmpty
    | b :: s =>
      match m.step b s with
      | none => some false
      | some m => globLoop fuel m

/-- More rounds than the loop ever makes. -/
def rounds (p s : Str) : Nat := (s.length + 1) * (p.length + 1) ^ 2 + p.length + 1

def globMatch (pattern str : Str) : Option Bool := globLoop (rounds pattern str) ⟨pattern, str, none⟩

/-! ## Tight matches -/

theorem Tight.glob {p s : Str} (h : Tight p s) : Glob p s := by
  induction h with
  | nil => exact .nil
  | char h42 h63 _ ih => exact .char h42 h63 ih
  | one _ ih => exact .one ih
  | same _ ih => exact .star (t := [42]) ih
  | star _ _ ih => exact .star ih

theorem Glob.tight {p s : Str} (h : Glob p s) (hs : 42 ∉ s) : Tight p s := by
  induction h with
  | nil => exact .nil
  | char h42 h63 _ ih => exact .char h42 h63 (ih fun hm => hs (by simp [hm]))
  | one _ ih => exact .one (ih fun hm => hs (by simp [hm]))
  | @star t p s _ ih =>
    refine .star ?_ (ih fun hm => hs (by simp [hm]))
    intro h
    exact hs (List.mem_of_mem_head? h)

theorem tight_nil {p : Str} : Tight p [] ↔ (p.dropWhile (· = 42)).isEmpty = true := by
  constructor
  · intro h
    generalize hs : ([] : Str) = s at h
    induction h with
    | nil => rfl
    | char => cases hs
    | one => cases hs
    | same => cases hs
    | star _ _ ih =>
      rw [List.dropWhile_cons_of_pos (by decide)]
      exact ih (List.append_eq_nil_iff.1 hs.symm).2.symm
  · intro h
    induction p with
    | nil => exact .nil
    | cons c p ih =>
      by_cases hc : c = 42
      · subst hc
        rw [List.dropWhile_cons_of_pos (by decide)] at h
        exact .star (t := []) (by simp) (ih h)
      · rw [List.dropWhile_cons_of_neg (by simpa using hc)] at h
        cases h

/-- A byte that the first test accepts is taken by every tight match. -/
theorem tight_meets {p s : Str} {b : UInt8} (h : Matcher.Meets p b) :
    Tight p (b :: s) ↔ Tight p.tail s := by
  obtain _ | ⟨c, p⟩ := p
  · simp [Matcher.Meets] at h
  simp only [Matcher.Meets, List.head?_cons, Option.some.injEq] at h
  rw [List.tail_cons]
  constructor
  · intro ht
    generalize hx : c :: p = x, hy : b :: s = y at ht
    cases ht with
    | nil => cases hx
    | char _ _ ht => cases hx; cases hy; exact ht
    | one ht => cases hx; cases hy; exact ht
    | same ht => cases hx; cases hy; exact ht
    | star hne _ =>
      cases hx
      rw [← hy] at hne
      obtain rfl | h := h
      · exact absurd rfl hne
      · cases h
  · intro ht
    by_cases h63 : c = 63
    · subst h63; exact .one ht
    obtain rfl : c = b := h.resolve_right h63
    by_cases h42 : c = 42
    · subst h42; exact .same ht
    · exact .char h42 h63 ht

/-- At any other byte a star takes any part of what is left. -/
theorem tight_star {p s : Str} (hs : s.head? ≠ some 42) :
    Tight (42 :: p) s ↔ ∃ t, t <:+ s ∧ Tight p t := by
  constructor
  · intro ht
    generalize hx : (42 : UInt8) :: p = x at ht
    cases ht with
    | nil => cases hx
    | char h42 => cases hx; exact absurd rfl h42
    | one => cases hx
    | same => exact absurd rfl hs
    | @star t p s _ ht => cases hx; exact ⟨s, List.suffix_append t s, ht⟩
  · rintro ⟨t, ⟨r, rfl⟩, ht⟩
    exact .star hs ht

theorem not_tight {p s : Str} {b : UInt8} (hmeets : ¬ Matcher.Meets p b) (hstar : p.head? ≠ some 42) :
    ¬ Tight p (b :: s) := by
  intro ht
  simp only [Matcher.Meets, not_or] at hmeets
  generalize hy : b :: s = y at ht
  cases ht with
  | nil => cases hy
  | char => cases hy; exact hmeets.1 rfl
  | one => exact hmeets.2 rfl
  | same => exact hstar rfl
  | star => exact hstar rfl

/-- A tight match of what follows the star, begun later, passes the point the loop has reached. -/
theorem tight_passes {q u p s t : Str} (hmet : List.Forall₂ (fun a b => a = b ∨ a = 63) q u)
    (hsuffix : t <:+ u ++ s) (h : Tight (q ++ p) t) : ∃ v, v <:+ s ∧ Tight p v := by
  induction hmet generalizing t with
  | nil => exact ⟨t, hsuffix, h⟩
  | @cons a b q u hab _ ih =>
    have htail : ∀ {c : UInt8} {r : Str}, c :: r <:+ b :: u ++ s → r <:+ u ++ s := by
      intro c r hr
      rcases List.suffix_cons_iff.1 hr with hr | hr
      · cases hr; exact List.suffix_refl _
      · exact (List.suffix_cons c r).trans hr
    generalize hx : a :: q ++ p = x at h
    cases h with
    | nil => cases hx
    | char _ _ ht => cases hx; exact ih (htail hsuffix) ht
    | one ht => cases hx; exact ih (htail hsuffix) ht
    | same ht => cases hx; exact ih (htail hsuffix) ht
    | @star r p' s' hne ht =>
      cases hx
      refine ih ((List.suffix_append r s').trans ?_) ht
      rcases List.suffix_cons_iff.1 hsuffix with hr | hr
      · -- the loop took the star for the `*` it stood at
        rcases hab with rfl | hab
        · rw [hr] at hne; exact absurd rfl hne
        · cases hab
      · exact hr

/-! ## The loop -/

namespace Matcher

/-- Between the star and the positions every byte was met. -/
def Inv (m : Matcher) : Prop :=
  ∀ q u, m.star = some (q, u) → ∃ q' u', q = q' ++ m.pat ∧ u = u' ++ m.str ∧
    List.Forall₂ (fun a b => a = b ∨ a = 63) q' u'

/-- What the rest of the loop can still find. -/
def Open (m : Matcher) : Prop :=
  Tight m.pat m.str ∨ ∃ q u t, m.star = some (q, u) ∧ t <:+ u.tail ∧ Tight q t

/-- The rounds that are left at most, for patterns shorter than `w`. -/
def left (w : Nat) (m : Matcher) : Nat :=
  match m.star with
  | none => (m.str.length + 1) * w ^ 2 + m.pat.length
  | some (q, u) => u.length * w ^ 2 + q.length * w + m.pat.length

def Short (w : Nat) (m : Matcher) : Prop :=
  m.pat.length < w ∧ ∀ q u, m.star = some (q, u) → q.length < w

theorem step_none {pat s : Str} {b : UInt8} {star : Option (Str × Str)}
    (h : step ⟨pat, b :: s, star⟩ b s = none) : ¬ Open ⟨pat, b :: s, star⟩ := by
  simp only [step] at h
  split at h
  · cases h
  split at h
  · cases h
  rename_i hmeets hstar
  simp only [Option.map_eq_none_iff] at h
  rintro (ht | ⟨q, u, t, hs, -⟩)
  · exact not_tight hmeets hstar ht
  · exact absurd (hs.symm.trans h) (by simp)

theorem step_cases {pat s : Str} {b : UInt8} {star : Option (Str × Str)} {m : Matcher}
    (h : step ⟨pat, b :: s, star⟩ b s = some m) :
    (Meets pat b ∧ m = ⟨pat.tail, s, star⟩) ∨
      (∃ p, pat = 42 :: p ∧ b ≠ 42 ∧ m = ⟨p, b :: s, some (p, b :: s)⟩) ∨
      (¬ Meets pat b ∧ pat.head? ≠ some 42 ∧
        ∃ q u, star = some (q, u) ∧ m = ⟨q, u.tail, some (q, u.tail)⟩) := by
  simp only [step] at h
  split at h
  · rename_i hmeets
    exact .inl ⟨hmeets, (Option.some.inj h).symm⟩
  split at h
  · rename_i hmeets hstar
    obtain ⟨p, rfl⟩ : ∃ p, pat = 42 :: p := by
      cases pat with
      | nil => cases hstar
      | cons c p => exact ⟨p, by simpa using hstar⟩
    refine .inr (.inl ⟨p, rfl, ?_, (Option.some.inj h).symm⟩)
    rintro rfl
    exact hmeets (.inl rfl)
  · rename_i hmeets hstar
    obtain ⟨⟨q, u⟩, hs, rfl⟩ := Option.map_eq_some_iff.1 h
    exact .inr (.inr ⟨hmeets, hstar, q, u, hs, rfl⟩)

/-- **What one round keeps**: what can still be found. -/
theorem step_open {pat s : Str} {b : UInt8} {star : Option (Str × Str)} {m : Matcher}
    (hinv : Inv ⟨pat, b :: s, star⟩) (h : step ⟨pat, b :: s, star⟩ b s = some m) :
    m.Inv ∧ (m.Open ↔ Open ⟨pat, b :: s, star⟩) := by
  obtain ⟨hmeets, rfl⟩ | ⟨p, rfl, hb, rfl⟩ | ⟨hmeets, hstar, q, u, rfl, rfl⟩ := step_cases h
  · refine ⟨?_, ?_⟩
    · intro q u hs
      obtain ⟨q', u', hq, hu, hmet⟩ := hinv q u hs
      obtain _ | ⟨a, p⟩ := pat
      · simp [Meets] at hmeets
      have ha : a = b ∨ a = 63 := by simpa [Meets] using hmeets
      exact ⟨q' ++ [a], u' ++ [b], by simpa using hq, by simpa using hu,
        List.rel_append hmet (.cons ha .nil)⟩
    · simp only [Open, tight_meets hmeets]
  · have hhead : (b :: s).head? ≠ some 42 := by simpa using hb
    refine ⟨?_, ?_⟩
    · intro q u hs
      cases hs
      exact ⟨[], [], rfl, rfl, .nil⟩
    · have hnew : Open ⟨p, b :: s, some (p, b :: s)⟩ ↔ Tight (42 :: p) (b :: s) := by
        rw [tight_star hhead]
        constructor
        · rintro (ht | ⟨q, u, t, hs, htail, ht⟩)
          · exact ⟨_, List.suffix_refl _, ht⟩
          · cases hs
            exact ⟨t, htail.trans (List.suffix_cons b s), ht⟩
        · rintro ⟨t, hsuffix, ht⟩
          rcases List.suffix_cons_iff.1 hsuffix with rfl | hsuffix
          · exact .inl ht
          · exact .inr ⟨p, b :: s, t, rfl, hsuffix, ht⟩
      rw [hnew]
      constructor
      · exact .inl
      · rintro (ht | ⟨q, u, t, hs, htail, ht⟩)
        · exact ht
        · obtain ⟨q', u', rfl, rfl, hmet⟩ := hinv q u hs
          obtain ⟨v, hv, hvt⟩ := tight_passes hmet (htail.trans (List.tail_suffix _)) ht
          have hopen : ∃ w, w <:+ v ∧ Tight p w := by
            by_cases hvh : v.head? = some 42
            · obtain _ | ⟨c, v⟩ := v
              · cases hvh
              cases hvh
              exact ⟨v, List.suffix_cons 42 v, (tight_meets (.inl rfl)).1 hvt⟩
            · exact (tight_star hvh).1 hvt
          obtain ⟨w, hw, hwt⟩ := hopen
          exact (tight_star hhead).2 ⟨w, hw.trans hv, hwt⟩
  · refine ⟨?_, ?_⟩
    · intro q' u' hs
      cases hs
      exact ⟨[], [], rfl, rfl, .nil⟩
    · constructor
      · rintro (ht | ⟨q', u', t, hs, htail, ht⟩)
        · exact .inr ⟨q, u, u.tail, rfl, List.suffix_refl _, ht⟩
        · cases hs
          exact .inr ⟨q, u, t, rfl, htail.trans (List.tail_suffix _), ht⟩
      · rintro (ht | ⟨q', u', t, hs, htail, ht⟩)
        · exact absurd ht (not_tight hmeets hstar)
        · cases hs
          generalize u.tail = r at htail
          obtain _ | ⟨c, r⟩ := r
          · exact .inl (List.suffix_nil.1 htail ▸ ht)
          · rcases List.suffix_cons_iff.1 htail with rfl | htail
            · exact .inl ht
            · exact .inr ⟨q, c :: r, t, rfl, htail, ht⟩

/-- At the end of the text only stars may be left: what an earlier star could still take would also end
there. -/
theorem open_end {pat : Str} {star : Option (Str × Str)} (hinv : Inv ⟨pat, [], star⟩) :
    Open ⟨pat, [], star⟩ ↔ Tight pat [] := by
  constructor
  · rintro (ht | ⟨q, u, t, hs, htail, ht⟩)
    · exact ht
    · obtain ⟨q', u', rfl, rfl, hmet⟩ := hinv q u hs
      obtain ⟨v, hv, hvt⟩ := tight_passes hmet (htail.trans (List.tail_suffix _)) ht
      exact List.suffix_nil.1 hv ▸ hvt
  · exact .inl

theorem square_room {k w : Nat} (h : k < w) : k * w + k < w ^ 2 := by
  have hsquare : (k + 1) * w ≤ w * w := Nat.mul_le_mul_right w h
  rw [Nat.add_mul, Nat.one_mul] at hsquare
  rw [Nat.pow_two]
  omega

/-- **Each round leaves fewer.** -/
theorem step_left {pat s : Str} {b : UInt8} {star : Option (Str × Str)} {m : Matcher} {w : Nat}
    (hinv : Inv ⟨pat, b :: s, star⟩) (hshort : Short w ⟨pat, b :: s, star⟩)
    (h : step ⟨pat, b :: s, star⟩ b s = some m) :
    m.Short w ∧ m.left w < left w ⟨pat, b :: s, star⟩ := by
  obtain ⟨hmeets, rfl⟩ | ⟨p, rfl, hb, rfl⟩ | ⟨hmeets, hstar, q, u, rfl, rfl⟩ := step_cases h
  · obtain _ | ⟨a, p⟩ := pat
    · simp [Meets] at hmeets
    have hp : p.length + 1 < w := hshort.1
    refine ⟨⟨by simp only [List.tail_cons]; omega, hshort.2⟩, ?_⟩
    cases star with
    | none => simp only [left, List.tail_cons, List.length_cons, Nat.add_mul]; omega
    | some star => simp only [left, List.tail_cons, List.length_cons]; omega
  · have hp : p.length + 1 < w := hshort.1
    have hp' : p.length < w := by omega
    refine ⟨⟨hp', fun q u hs => by cases hs; exact hp'⟩, ?_⟩
    have hw := square_room hp'
    cases star with
    | none => simp only [left, List.length_cons, Nat.add_mul, Nat.one_mul] at *; omega
    | some star =>
      obtain ⟨q', u', hq, hu, -⟩ := hinv star.1 star.2 rfl
      simp only [left, hq, hu, List.length_append, List.length_cons, Nat.add_mul, Nat.one_mul] at *
      omega
  · have hq : q.length < w := hshort.2 q u rfl
    refine ⟨⟨hq, fun q' u' hs => by cases hs; exact hq⟩, ?_⟩
    obtain ⟨q', u', -, hu, -⟩ := hinv q u rfl
    have hw := square_room hq
    have hlen : u.length = u.tail.length + 1 := by simp [hu]; omega
    simp only [left, hlen, Nat.add_mul, Nat.one_mul]
    omega

end Matcher

open Matcher in
/-- **The loop ends**, and has found what could be found from its state. -/
theorem globLoop_open {w : Nat} (fuel : Nat) (m : Matcher) (hinv : m.Inv) (hshort : m.Short w)
    (hfuel : m.left w < fuel) : ∃ b, globLoop fuel m = some b ∧ (b = true ↔ m.Open) := by
  induction fuel generalizing m with
  | zero => omega
  | succ fuel ih =>
    obtain ⟨pat, str, star⟩ := m
    cases str with
    | nil => exact ⟨_, rfl, tight_nil.symm.trans (open_end hinv).symm⟩
    | cons b s =>
      simp only [globLoop]
      cases hstep : step ⟨pat, b :: s, star⟩ b s with
      | none => exact ⟨false, rfl, by simpa using step_none hstep⟩
      | some m =>
        obtain ⟨hinv', hopen⟩ := step_open hinv hstep
        obtain ⟨hshort', hleft⟩ := step_left hinv hshort hstep
        obtain ⟨b, hrun, hb⟩ := ih m hinv' hshort' (by omega)
        exact ⟨b, hrun, hb.trans hopen⟩

/-- **What `globMatch` finds**: the tight matches. -/
theorem globMatch_tight (p s : Str) : ∃ b, globMatch p s = some b ∧ (b = true ↔ Tight p s) := by
  have hinv : Matcher.Inv ⟨p, s, none⟩ := by
    intro q u h
    cases h
  have hshort : Matcher.Short (p.length + 1) ⟨p, s, none⟩ := by
    refine ⟨by simp, ?_⟩
    intro q u h
    cases h
  obtain ⟨b, hrun, hb⟩ := globLoop_open (rounds p s) _ hinv hshort (by simp [Matcher.left, rounds])
  refine ⟨b, hrun, hb.trans ⟨?_, .inl⟩⟩
  rintro (h | ⟨q, u, t, hs, -⟩)
  · exact h
  · cases hs

/-- A text without `*` is matched exactly. -/
theorem globMatch_plain {p s : Str} (hs : 42 ∉ s) : globMatch p s = some true ↔ Glob p s := by
  obtain ⟨b, hrun, hb⟩ := globMatch_tight p s
  rw [hrun, Option.some.injEq, hb]
  exact ⟨Tight.glob, fun h => h.tight hs⟩

/-- **The match is exact just where a match can be made tight.** -/
theorem globMatch_exact (p s : Str) :
    ((∃ b, globMatch p s = some b) ∧ (globMatch p s = some true ↔ Glob p s)) ↔ (Glob p s → Tight p s) := by
  obtain ⟨b, hrun, hb⟩ := globMatch_tight p s
  rw [hrun, Option.some.injEq, hb]
  constructor
  · exact fun h => h.2.2
  · exact fun h => ⟨⟨b, rfl⟩, Tight.glob, h⟩

/-- The pattern `*` is to match any text, and does not match `*a`. -/
theorem star_misses : ¬ ∀ p s : Str, globMatch p s = some true ↔ Glob p s := by
  intro h
  have hglob : Glob [42] [42, 97] := .star (t := [42, 97]) .nil
  exact absurd ((h [42] [42, 97]).2 hglob) (by decide)

end VersatileEngine.Search
