import VersatileEngine.Lib.Decimal
import Mathlib.Data.List.DropRight

/-!
# VersatileEngine.Lib.Lines

Lines of a text, and texts without their trailing white space.

* `getlines`    — the lines that repeated `std::getline` gives: what follows the last newline counts
  as a line when it is not empty.
* `unlines`     — every line with its newline; `getlines_unlines` reads the lines back.
* `keepLines p` — the lines up to the last one that is not blank, that one cut at its end. They are
  what is left of a text when `p` is trimmed from its end (`trim_unlines`).

Blank means that every byte satisfies `p`.
-/

namespace VersatileEngine

def getlines : Str → List Str
  | [] => []
  | c :: cs =>
    if c = 10 then [] :: getlines cs
    else
      match getlines cs with
      | [] => [[c]]
      | l :: ls => (c :: l) :: ls

def unlines : List Str → Str
  | [] => []
  | l :: ls => l ++ 10 :: unlines ls

theorem unlines_append (a b : List Str) : unlines (a ++ b) = unlines a ++ unlines b := by
  induction a with
  | nil => rfl
  | cons l a ih => simp [unlines, ih]

theorem getlines_line {l : Str} (hl : 10 ∉ l) (s : Str) : getlines (l ++ 10 :: s) = l :: getlines s := by
  induction l with
  | nil => simp [getlines]
  | cons c l ih =>
    simp only [List.mem_cons, not_or] at hl
    simp [getlines, Ne.symm hl.1, ih hl.2]

theorem getlines_unlines {ls : List Str} (h : ∀ l ∈ ls, 10 ∉ l) : getlines (unlines ls) = ls := by
  induction ls with
  | nil => rfl
  | cons l ls ih =>
    rw [unlines, getlines_line (h l (by simp)), ih fun x hx => h x (by simp [hx])]

theorem getlines_clean {s : Str} : ∀ l ∈ getlines s, 10 ∉ l := by
  induction s with
  | nil => simp [getlines]
  | cons c cs ih =>
    rw [getlines]
    split
    · simpa using ih
    · rename_i hc
      cases hcs : getlines cs with
      | nil => simp [Ne.symm hc]
      | cons l ls =>
        rw [hcs] at ih
        simp only [List.mem_cons, forall_eq_or_imp, not_or] at ih ⊢
        exact ⟨⟨Ne.symm hc, ih.1⟩, ih.2⟩

theorem unlines_inj {a b : List Str} (ha : ∀ l ∈ a, 10 ∉ l) (hb : ∀ l ∈ b, 10 ∉ l)
    (h : unlines a = unlines b) : a = b := by
  rw [← getlines_unlines ha, h, getlines_unlines hb]

/-- The lines with newlines between them. -/
def joinLines (ls : List Str) : Str := (unlines ls).dropLast

@[simp] theorem joinLines_nil : joinLines [] = [] := rfl

@[simp] theorem joinLines_singleton (l : Str) : joinLines [l] = l := by
  simp [joinLines, unlines]

theorem joinLines_cons (l : Str) {ls : List Str} (h : ls ≠ []) :
    joinLines (l :: ls) = l ++ 10 :: joinLines ls := by
  have hne : unlines ls ≠ [] := by
    cases ls with
    | nil => exact absurd rfl h
    | cons x xs => simp [unlines]
  rw [joinLines, unlines, List.dropLast_append_of_ne_nil (by simp),
    List.dropLast_cons_of_ne_nil hne, joinLines]

theorem joinLines_newline {ls : List Str} (h : ls ≠ []) : joinLines ls ++ [10] = unlines ls := by
  induction ls with
  | nil => exact absurd rfl h
  | cons l ls ih =>
    by_cases hls : ls = []
    · subst hls; simp [unlines]
    · rw [joinLines_cons l hls, List.append_assoc, List.cons_append, ih hls, unlines]

section Trim

variable {α : Type} {p : α → Bool}

theorem rdropWhile_append_of_all {a b : List α} (h : ∀ x ∈ b, p x = true) :
    (a ++ b).rdropWhile p = a.rdropWhile p := by
  induction b using List.reverseRecOn with
  | nil => simp
  | append_singleton b x ih =>
    rw [← List.append_assoc, List.rdropWhile_concat_pos _ _ _ (h x (by simp))]
    exact ih fun y hy => h y (by simp [hy])

theorem rdropWhile_append_of_some {a b : List α} (h : b.rdropWhile p ≠ []) :
    (a ++ b).rdropWhile p = a ++ b.rdropWhile p := by
  induction b using List.reverseRecOn with
  | nil => simp at h
  | append_singleton b x ih =>
    rw [List.rdropWhile_concat] at h ⊢
    split
    · rename_i hx
      rw [if_pos hx] at h
      rw [← List.append_assoc, List.rdropWhile_concat_pos _ _ _ hx, ih h]
    · rename_i hx
      rw [← List.append_assoc, List.rdropWhile_concat_neg _ _ _ hx]

end Trim

section Keep

variable (p : UInt8 → Bool)

/-- A line before the lines that are kept. -/
def keepCons (l : Str) : List Str → List Str
  | [] => if l.rdropWhile p = [] then [] else [l.rdropWhile p]
  | k :: ks => l :: k :: ks

def keepLines (ls : List Str) : List Str := ls.foldr (keepCons p) []

variable {p}

@[simp] theorem keepLines_nil : keepLines p [] = [] := rfl

@[simp] theorem keepLines_cons (l : Str) (ls : List Str) :
    keepLines p (l :: ls) = keepCons p l (keepLines p ls) := rfl

theorem keepCons_of_ne_nil (l : Str) {ks : List Str} (h : ks ≠ []) : keepCons p l ks = l :: ks := by
  cases ks with
  | nil => exact absurd rfl h
  | cons k ks => rfl

theorem keepCons_clean {l : Str} {ks : List Str} (hl : 10 ∉ l) (hks : ∀ k ∈ ks, 10 ∉ k) :
    ∀ k ∈ keepCons p l ks, 10 ∉ k := by
  cases ks with
  | nil =>
    rw [keepCons]
    split
    · simp
    · simpa using fun h => hl ((List.rdropWhile_prefix p l).subset h)
  | cons k ks => simpa [keepCons, hl] using hks

/-- What is kept ends in a line that is not blank and is not cut further. -/
def Ends (p : UInt8 → Bool) (ks : List Str) : Prop :=
  ∀ l ∈ ks.getLast?, l ≠ [] ∧ l.rdropWhile p = l

theorem Ends.tail {k : Str} {ks : List Str} (h : Ends p (k :: ks)) (hks : ks ≠ []) : Ends p ks := by
  cases ks with
  | nil => exact absurd rfl hks
  | cons x xs => simpa [Ends, List.getLast?_cons_cons] using h

theorem keepCons_ends {l : Str} {ks : List Str} (h : Ends p ks) : Ends p (keepCons p l ks) := by
  cases ks with
  | nil =>
    rw [keepCons]
    split
    · simp [Ends]
    · rename_i hne
      intro x hx
      obtain rfl : l.rdropWhile p = x := by simpa using hx
      exact ⟨hne, List.rdropWhile_idempotent p l⟩
  | cons k ks => simpa [keepCons, Ends, List.getLast?_cons_cons] using h

theorem keepLines_ends (ls : List Str) : Ends p (keepLines p ls) := by
  induction ls with
  | nil => simp [Ends]
  | cons l ls ih => exact keepCons_ends ih

theorem joinLines_eq_nil {ks : List Str} (h : Ends p ks) : joinLines ks = [] ↔ ks = [] := by
  cases ks with
  | nil => simp
  | cons k ks =>
    by_cases hks : ks = []
    · subst hks
      have := (h k (by simp)).1
      simpa using this
    · simp [joinLines_cons k hks]

theorem joinLines_inj {a b : List Str} (ha : ∀ l ∈ a, 10 ∉ l) (hb : ∀ l ∈ b, 10 ∉ l)
    (ea : Ends p a) (eb : Ends p b) (h : joinLines a = joinLines b) : a = b := by
  by_cases hnil : a = []
  · have := (joinLines_eq_nil eb).mp (by rw [← h, hnil]; rfl)
    rw [hnil, this]
  · have hb' : b ≠ [] := fun hb' => hnil ((joinLines_eq_nil ea).mp (by rw [h, hb']; rfl))
    refine unlines_inj ha hb ?_
    rw [← joinLines_newline hnil, h, joinLines_newline hb']

theorem joinLines_trimmed {ks : List Str} (h : Ends p ks) : (joinLines ks).rdropWhile p = joinLines ks := by
  induction ks with
  | nil => rfl
  | cons k ks ih =>
    by_cases hks : ks = []
    · subst hks
      simpa using (h k (by simp)).2
    · have hends : Ends p ks := h.tail hks
      have hne : joinLines ks ≠ [] := fun hnil => hks ((joinLines_eq_nil hends).mp hnil)
      rw [joinLines_cons k hks, List.append_cons,
        rdropWhile_append_of_some (by rw [ih hends]; exact hne), ih hends]

/-- **Trimming a text** leaves the lines that are kept, without the newline of the last one. -/
theorem trim_unlines (hp : p 10 = true) (ls : List Str) :
    (unlines ls).rdropWhile p = joinLines (keepLines p ls) := by
  induction ls with
  | nil => rfl
  | cons l ls ih =>
    rw [unlines, keepLines_cons]
    by_cases hks : keepLines p ls = []
    · have hall : ∀ x ∈ 10 :: unlines ls, p x = true := by
        rw [hks, joinLines_nil, List.rdropWhile_eq_nil_iff] at ih
        simpa [hp] using ih
      rw [rdropWhile_append_of_all hall, hks, keepCons]
      split
      · assumption
      · rw [joinLines_singleton]
    · have hne : (10 :: unlines ls).rdropWhile p = 10 :: joinLines (keepLines p ls) := by
        rw [← ih]
        refine rdropWhile_append_of_some (a := [10]) ?_
        rw [ih]
        exact fun h => hks ((joinLines_eq_nil (keepLines_ends ls)).mp h)
      rw [rdropWhile_append_of_some (by rw [hne]; simp), hne, keepCons_of_ne_nil l hks,
        joinLines_cons l hks]

end Keep

end VersatileEngine
