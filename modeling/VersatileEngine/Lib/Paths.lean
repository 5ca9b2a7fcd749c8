import Mathlib.Data.List.Basic
import Mathlib.Data.List.Infix

/-!
# VersatileEngine.Lib.Paths

Paths as texts and the places they lead to, by the rules of POSIX, for any separator and dot.

* `Place`           — absolute or not, so many levels up, and the names that lead down from there.
* `place`           — the walk over the components: empty ones and dots stay, two dots go up.
* `lexicallyNormal` — the normal form of a path; it leads to the same place (`place_lexicallyNormal`).
* `join`            — one path after another: the components follow (`place_join`).
* `Within`          — below a place; a path without two dots stays below what it is joined to.
* `Place.go`        — a relative place, from another one; `within_go_iff`, where it leads to something below.
-/

namespace VersatileEngine.Paths

variable {α : Type}

structure Place (α : Type) where
  absolute : Bool
  ups : Nat
  names : List (List α)
deriving DecidableEq

namespace Place

/-- `b` is `a` or something below it. -/
def Within (a b : Place α) : Prop :=
  a.absolute = b.absolute ∧ a.ups = b.ups ∧ a.names <+: b.names

variable (sep dot : α)

/-- A component that is the name of something. -/
structure IsName (c : List α) : Prop where
  ne_nil : c ≠ []
  ne_dot : c ≠ [dot]
  ne_dots : c ≠ [dot, dot]
  no_sep : sep ∉ c

/-- What a walk can lead to. -/
structure WF (pl : Place α) : Prop where
  names : ∀ c ∈ pl.names, IsName sep dot c
  ups : pl.absolute = true → pl.ups = 0

/-- The components that lead to the place; the last one is empty where the path ends in a separator. -/
def segments (pl : Place α) (trailing : Bool) : List (List α) :=
  (if pl.absolute then [[]] else []) ++ (List.replicate pl.ups [dot, dot] ++ pl.names) ++
    (if (trailing && !pl.names.isEmpty) || (pl.absolute && pl.names.isEmpty) then [[]] else [])

variable [DecidableEq α]

instance (a b : Place α) : Decidable (Within a b) :=
  inferInstanceAs (Decidable (_ ∧ _ ∧ _))

def step (pl : Place α) (c : List α) : Place α :=
  if c = [] ∨ c = [dot] then pl
  else if c = [dot, dot] then
    if pl.names ≠ [] then { pl with names := pl.names.dropLast }
    else if pl.absolute then pl
    else { pl with ups := pl.ups + 1 }
  else { pl with names := pl.names ++ [c] }

/-- The place `b`, which is relative, from `a`: so many levels up, as far as there are any, and down. -/
def go (a b : Place α) : Place α where
  absolute := a.absolute
  ups := if a.absolute then a.ups else a.ups + (b.ups - a.names.length)
  names := a.names.take (a.names.length - b.ups) ++ b.names

end Place

section Paths

variable [DecidableEq α] (sep dot : α)

/-- The place a path leads to. -/
def place (p : List α) : Place α :=
  (p.splitOn sep).foldl (Place.step dot) ⟨p.head? = some sep, 0, []⟩

/-- The normal form: no empty component and no dot inside, two dots only at the front, a separator at the
end where the path ended in one or in dots, and a dot if nothing else is left. -/
def lexicallyNormal (p : List α) : List α :=
  if p = [] then []
  else
    let last := (p.splitOn sep).getLast?
    let trailing := last = some [] || last = some [dot] || last = some [dot, dot]
    let segments := (place sep dot p).segments dot trailing
    if segments = [] then [dot] else [sep].intercalate segments

/-- `p / q`. -/
def join (p q : List α) : List α :=
  if q.head? = some sep then q
  else if p = [] ∨ p.getLast? = some sep then p ++ q
  else p ++ sep :: q

end Paths

namespace Place

variable [DecidableEq α] {sep dot : α} {pl : Place α}

/-! ### Walking -/

@[simp] theorem step_nil : pl.step dot [] = pl := by
  simp [step]

@[simp] theorem step_dot : pl.step dot [dot] = pl := by
  simp [step]

theorem step_name {c : List α} (h : IsName sep dot c) :
    pl.step dot c = { pl with names := pl.names ++ [c] } := by
  rw [step, if_neg (not_or.mpr ⟨h.ne_nil, h.ne_dot⟩), if_neg h.ne_dots]

theorem WF.step (h : WF sep dot pl) {c : List α} (hc : sep ∉ c) : WF sep dot (pl.step dot c) := by
  unfold Place.step
  split_ifs with hskip hdots hnames habs
  · exact h
  · exact ⟨fun c hc => h.names c (List.mem_of_mem_dropLast hc), h.ups⟩
  · exact h
  · exact ⟨h.names, fun ha => absurd ha habs⟩
  · obtain ⟨hnil, hdot⟩ := not_or.mp hskip
    refine ⟨fun d hd => ?_, h.ups⟩
    rcases List.mem_append.mp hd with hd | hd
    · exact h.names d hd
    · rw [List.mem_singleton.mp hd]
      exact ⟨hnil, hdot, hdots, hc⟩

theorem WF.walk {cs : List (List α)} (hcs : ∀ c ∈ cs, sep ∉ c) :
    ∀ {pl : Place α}, WF sep dot pl → WF sep dot (cs.foldl (Place.step dot) pl) := by
  induction cs with
  | nil => exact fun h => h
  | cons c cs ih =>
    exact fun h => ih (fun d hd => hcs d (List.mem_cons_of_mem _ hd)) (h.step (hcs c List.mem_cons_self))

theorem walk_names {cs : List (List α)} (hcs : ∀ c ∈ cs, IsName sep dot c) :
    cs.foldl (Place.step dot) pl = { pl with names := pl.names ++ cs } := by
  induction cs generalizing pl with
  | nil => simp
  | cons c cs ih =>
    rw [List.foldl_cons, step_name (hcs c List.mem_cons_self),
      ih fun d hd => hcs d (List.mem_cons_of_mem _ hd)]
    simp

theorem walk_ups (h : pl.names = []) (ha : pl.absolute = false) (n : Nat) :
    (List.replicate n [dot, dot]).foldl (Place.step dot) pl = { pl with ups := pl.ups + n } := by
  induction n generalizing pl with
  | zero => rfl
  | succ n ih =>
    have hstep : pl.step dot [dot, dot] = { pl with ups := pl.ups + 1 } := by
      simp [step, h, ha]
    have hrest := @ih { pl with ups := pl.ups + 1 } h ha
    rw [List.replicate_succ, List.foldl_cons, hstep, hrest]
    simp only [Nat.add_assoc, Nat.add_comm 1 n]

/-- A walk that never goes up ends below where it began. -/
theorem within_walk {cs : List (List α)} (hcs : [dot, dot] ∉ cs) :
    Within pl (cs.foldl (Place.step dot) pl) := by
  induction cs generalizing pl with
  | nil => exact ⟨rfl, rfl, List.prefix_refl _⟩
  | cons c cs ih =>
    obtain ⟨hc, hcs⟩ := not_or.mp (mt List.mem_cons.mpr hcs)
    obtain ⟨ha, hu, hn⟩ := @ih (pl.step dot c) hcs
    have hstep : Within pl (pl.step dot c) := by
      rw [step, if_neg (Ne.symm hc)]
      split_ifs
      · exact ⟨rfl, rfl, List.prefix_refl _⟩
      · exact ⟨rfl, rfl, List.prefix_append _ _⟩
    exact ⟨hstep.1.trans ha, hstep.2.1.trans hu, hstep.2.2.trans hn⟩

theorem step_absolute (c : List α) : (pl.step dot c).absolute = pl.absolute := by
  rw [step]
  split_ifs <;> rfl

/-- A step behind a relative place is a step of it. -/
theorem go_step {a b : Place α} (hb : b.absolute = false) (c : List α) :
    (a.go b).step dot c = a.go (b.step dot c) := by
  by_cases hskip : c = [] ∨ c = [dot]
  · rw [step, step, if_pos hskip, if_pos hskip]
  by_cases hdots : c = [dot, dot]
  · by_cases hnames : b.names = []
    · -- one level more of `a`, if there is one
      have hup : b.step dot c = { b with ups := b.ups + 1 } := by
        rw [step, if_neg hskip, if_pos hdots, if_neg (not_not.2 hnames), if_neg (by simp [hb])]
      rw [hup, step, if_neg hskip, if_pos hdots]
      obtain ⟨abs, ups, names⟩ := a
      simp only [go, hnames, List.append_nil]
      by_cases hlt : b.ups < names.length
      · have hne : names.take (names.length - b.ups) ≠ [] := by
          rw [Ne, ← List.length_eq_zero_iff, List.length_take]
          omega
        have hlast : (names.take (names.length - b.ups)).dropLast = names.take (names.length - (b.ups + 1)) := by
          rw [List.dropLast_eq_take, List.take_take, List.length_take]
          congr 1
          omega
        rw [if_pos hne, hlast, show b.ups + 1 - names.length = b.ups - names.length by omega]
      · rw [show names.length - b.ups = 0 by omega, show names.length - (b.ups + 1) = 0 by omega,
          List.take_zero, if_neg (not_not.2 rfl), show b.ups + 1 - names.length = b.ups - names.length + 1 by omega]
        cases abs <;> simp [Nat.add_assoc]
    · -- a name behind the way up is left again
      have hdrop : b.step dot c = { b with names := b.names.dropLast } := by
        rw [step, if_neg hskip, if_pos hdots, if_pos hnames]
      have hne : (a.go b).names ≠ [] := List.append_ne_nil_of_right_ne_nil _ hnames
      rw [hdrop, step, if_neg hskip, if_pos hdots, if_pos hne, go, go, List.dropLast_append_of_ne_nil hnames]
  · rw [step, step, if_neg hskip, if_neg hdots, if_neg hskip, if_neg hdots]
    simp only [go, List.append_assoc]

theorem go_walk {a : Place α} (cs : List (List α)) : ∀ {b : Place α}, b.absolute = false →
    cs.foldl (step dot) (a.go b) = a.go (cs.foldl (step dot) b) := by
  induction cs with
  | nil => exact fun _ => rfl
  | cons c cs ih =>
    intro b hb
    rw [List.foldl_cons, List.foldl_cons, go_step hb]
    exact ih ((step_absolute c).trans hb)

omit [DecidableEq α] in
theorem go_nil (a : Place α) : a.go ⟨false, 0, []⟩ = a := by
  obtain ⟨abs, ups, names⟩ := a
  simp [go]

omit [DecidableEq α] in
/-- **Where a way leads to something below**: it comes down again into what it has left, and does not leave more
than there is. -/
theorem within_go_iff (a b : Place α) : a.Within (a.go b) ↔
    (a.absolute = true ∨ b.ups ≤ a.names.length) ∧ a.names.drop (a.names.length - b.ups) <+: b.names := by
  have hnames : a.names <+: (a.go b).names ↔ a.names.drop (a.names.length - b.ups) <+: b.names := by
    have hparts := @List.prefix_append_right_inj _ (a.names.drop (a.names.length - b.ups)) b.names
      (a.names.take (a.names.length - b.ups))
    rwa [List.take_append_drop] at hparts
  have hups : a.ups = (a.go b).ups ↔ (a.absolute = true ∨ b.ups ≤ a.names.length) := by
    rw [go]
    cases a.absolute <;> simp
    omega
  rw [Within, hups, hnames]
  exact and_iff_right rfl

end Place

/-! ### The normal form -/

section Normal

variable {sep dot : α} {pl : Place α}

open Place

theorem segments_no_sep (hne : sep ≠ dot) (h : WF sep dot pl) (trailing : Bool) :
    ∀ c ∈ pl.segments dot trailing, sep ∉ c := by
  intro c hc
  rw [segments, List.mem_append, List.mem_append, List.mem_append] at hc
  rcases hc with (hc | hc | hc) | hc
  · split_ifs at hc <;> simp_all
  · rw [List.eq_of_mem_replicate hc]
    simp [hne]
  · exact (h.names c hc).no_sep
  · split_ifs at hc <;> simp_all

/-- The text made of the components is absolute where the place is. -/
theorem head_segments (hne : sep ≠ dot) (h : WF sep dot pl) (trailing : Bool)
    (hs : pl.segments dot trailing ≠ []) :
    ([sep].intercalate (pl.segments dot trailing)).head? = some sep ↔ pl.absolute = true := by
  have hno := segments_no_sep hne h trailing
  have hsep : ∀ (c : List α) (l : List (List α)), c ≠ [] → sep ∉ c →
      ([sep].intercalate (c :: l)).head? ≠ some sep := by
    intro c l hc hcs
    cases c with
    | nil => exact absurd rfl hc
    | cons x c =>
      have hx : x ≠ sep := fun e => hcs (e ▸ List.mem_cons_self)
      cases l <;> simp [List.intercalate_cons_cons, hx]
  obtain ⟨a, n, names⟩ := pl
  cases a with
  | true =>
    refine iff_of_true ?_ rfl
    obtain rfl : n = 0 := h.ups rfl
    cases names <;> simp [segments, List.intercalate_cons_cons]
  | false =>
    refine iff_of_false ?_ (by simp)
    cases n with
    | succ n =>
      rw [segments]
      exact hsep _ _ (by simp) (by simp [hne])
    | zero =>
      cases names with
      | nil => exact absurd (by simp [segments]) hs
      | cons c names =>
        have hc := h.names c List.mem_cons_self
        exact hsep _ _ hc.ne_nil hc.no_sep

variable [DecidableEq α]

/-- A component of a path has no separator and is a part of it. -/
theorem mem_splitOn_part {p c : List α} (h : c ∈ p.splitOn sep) : sep ∉ c ∧ c <:+: p := by
  induction hn : p.length using Nat.strongRecOn generalizing p with
  | ind n ih =>
    by_cases hsep : sep ∈ p
    · obtain ⟨a, b, rfl, ha⟩ := List.eq_append_cons_of_mem hsep
      rw [List.splitOn_append_cons_self_of_not_mem ha] at h
      rcases List.mem_cons.mp h with rfl | h
      · exact ⟨ha, (List.prefix_append _ _).isInfix⟩
      · obtain ⟨hc, hpart⟩ := ih b.length (by simp at hn; omega) h rfl
        exact ⟨hc, hpart.trans ((List.suffix_cons _ _).trans (List.suffix_append _ _)).isInfix⟩
    · rw [List.splitOn_eq_singleton hsep] at h
      obtain rfl := List.mem_singleton.mp h
      exact ⟨hsep, List.infix_refl _⟩

theorem not_mem_of_mem_splitOn {p c : List α} (h : c ∈ p.splitOn sep) : sep ∉ c := (mem_splitOn_part h).1

theorem infix_of_mem_splitOn {p c : List α} (h : c ∈ p.splitOn sep) : c <:+: p := (mem_splitOn_part h).2

theorem place_wf (p : List α) : WF sep dot (place sep dot p) :=
  WF.walk (fun _ h => not_mem_of_mem_splitOn h) ⟨by simp, fun _ => rfl⟩

theorem place_absolute (p : List α) : (place sep dot p).absolute = decide (p.head? = some sep) := by
  have hwalk : ∀ (cs : List (List α)) (pl : Place α), (cs.foldl (step dot) pl).absolute = pl.absolute := by
    intro cs
    induction cs with
    | nil => exact fun pl => rfl
    | cons c cs ih => exact fun pl => (ih _).trans (step_absolute c)
  exact hwalk _ _

theorem walk_segments (h : WF sep dot pl) (trailing : Bool) :
    (pl.segments dot trailing).foldl (step dot) ⟨pl.absolute, 0, []⟩ = pl := by
  obtain ⟨a, n, names⟩ := pl
  have htail : ∀ (b : Bool) (q : Place α), (if b then [[]] else []).foldl (step dot) q = q := by
    intro b q
    cases b <;> simp
  have hups : (List.replicate n [dot, dot]).foldl (step dot) ⟨a, 0, []⟩ = ⟨a, n, []⟩ := by
    cases a with
    | false => rw [walk_ups rfl rfl, Nat.zero_add]
    | true =>
      obtain rfl : n = 0 := h.ups rfl
      rfl
  rw [segments, List.foldl_append, List.foldl_append, List.foldl_append, htail, htail, hups,
    walk_names h.names, List.nil_append]

/-- **The normal form leads to the same place.** -/
theorem place_lexicallyNormal (hne : sep ≠ dot) (p : List α) :
    place sep dot (lexicallyNormal sep dot p) = place sep dot p := by
  rw [lexicallyNormal]
  by_cases hp : p = []
  · rw [if_pos hp, hp]
  rw [if_neg hp]
  have hwf := @place_wf α sep dot _ p
  generalize place sep dot p = pl at hwf ⊢
  extract_lets last trailing segs
  have hwalk := walk_segments hwf trailing
  split_ifs with hs
  · rw [show pl.segments dot trailing = [] from hs, List.foldl_nil] at hwalk
    have habs : pl.absolute = false := by
      cases h : pl.absolute with
      | false => rfl
      | true =>
        have hs' : pl.segments dot trailing = [] := hs
        simp [segments, h] at hs'
    rw [place, List.splitOn_eq_singleton (by simpa using hne), ← hwalk, habs]
    simp [Ne.symm hne]
  · rw [place, List.splitOn_intercalate sep (segments_no_sep hne hwf trailing) hs]
    have hhead := head_segments hne hwf trailing hs
    have habs : decide (([sep].intercalate segs).head? = some sep) = pl.absolute := by
      rw [Bool.eq_iff_iff, decide_eq_true_eq]
      exact hhead
    rw [habs]
    exact hwalk

end Normal

/-! ### Joining -/

section Join

variable [DecidableEq α] {sep dot : α}

/-- A relative path goes on from where the other leads. -/
theorem place_join {q : List α} (hq : q.head? ≠ some sep) (p : List α) :
    place sep dot (join sep p q) = (q.splitOn sep).foldl (Place.step dot) (place sep dot p) := by
  rw [join, if_neg hq]
  split_ifs with hp
  · rcases hp with rfl | hlast
    · rw [List.nil_append, place, place, List.splitOn_nil, List.foldl_cons, List.foldl_nil, Place.step_nil]
      simp [hq]
    · obtain ⟨p, rfl⟩ := List.getLast?_eq_some_iff.mp hlast
      have hhead : (p ++ [sep] ++ q).head? = (p ++ [sep]).head? := by
        cases p <;> rfl
      have hsplit : (p ++ [sep]).splitOn sep = p.splitOn sep ++ [[]] := List.splitOn_append_cons_self _ _
      rw [place, place, hhead, hsplit, List.append_assoc, List.singleton_append,
        List.splitOn_append_cons_self, List.foldl_append, List.foldl_append, List.foldl_cons,
        List.foldl_nil, Place.step_nil]
  · have hne : p ≠ [] := (not_or.mp hp).1
    have hhead : (p ++ sep :: q).head? = p.head? := by
      cases p with
      | nil => exact absurd rfl hne
      | cons c p => rfl
    rw [place, place, hhead, List.splitOn_append_cons_self, List.foldl_append]

/-- A relative path leads from where the other leads to its own place. -/
theorem place_join_go {q : List α} (hq : q.head? ≠ some sep) (p : List α) :
    place sep dot (join sep p q) = (place sep dot p).go (place sep dot q) := by
  have hway : place sep dot q = (q.splitOn sep).foldl (Place.step dot) ⟨false, 0, []⟩ := by
    rw [place, decide_eq_false hq]
  rw [place_join hq, hway, ← Place.go_walk _ rfl, Place.go_nil]

/-- **A relative path without two dots stays below what it is joined to.** -/
theorem within_join {p q : List α} (hq : q.head? ≠ some sep) (hdots : [dot, dot] ∉ q.splitOn sep) :
    (place sep dot p).Within (place sep dot (join sep p q)) := by
  rw [place_join hq]
  exact Place.within_walk hdots

end Join

end VersatileEngine.Paths
