/-!
# VersatileEngine.Lib.Runs

Runs of a transition relation and the rule that carries an invariant along them.

* `Runs step s as s'` — taking the actions `as` one after the other leads from `s` to `s'`.
* `Guarded C step`    — the steps of `step` whose source state and action meet `C`.
* `Runs.invariant`    — what every step preserves, every run preserves.
* `Runs.guarded_iff`  — what each step keeps exactly under `C` holds at the end of a run exactly when
  the run is guarded by `C`; `Runs.guarded_iff_under` where the step needs an invariant.
* `Runs.always_iff`   — what each step reaches exactly under `C` holds in all states of a run exactly when
  the run is guarded by `C`.
* `Runs.along`        — the rule for facts about the actions so far and the state they lead to.
* `Precedes as a b`   — in `as`, an `a` comes before a `b`.

A run whose steps all meet a condition is a run of the guarded relation, so one rule serves for
invariants that hold on all runs and for invariants that hold on orderly runs only.
-/

namespace VersatileEngine

inductive Runs {σ α : Type} (step : σ → α → σ → Prop) : σ → List α → σ → Prop where
  | nil {s : σ} : Runs step s [] s
  | cons {s s' s'' : σ} {a : α} {as : List α} :
      step s a s' → Runs step s' as s'' → Runs step s (a :: as) s''

/-- The steps of `step` taken from a state, with an action, that meet `C`. -/
def Guarded {σ α : Type} (C : σ → α → Prop) (step : σ → α → σ → Prop) (s : σ) (a : α) (s' : σ) :
    Prop :=
  C s a ∧ step s a s'

namespace Runs

variable {σ α : Type} {step : σ → α → σ → Prop}

theorem single {s s' : σ} {a : α} (h : step s a s') : Runs step s [a] s' := .cons h .nil

theorem trans {s s' s'' : σ} {as bs : List α} (h₁ : Runs step s as s') (h₂ : Runs step s' bs s'') :
    Runs step s (as ++ bs) s'' := by
  induction h₁ with
  | nil => exact h₂
  | cons hs _ ih => exact .cons hs (ih h₂)

/-- What every step preserves, every run preserves. -/
theorem invariant {I : σ → Prop} (hstep : ∀ {s a s'}, I s → step s a s' → I s')
    {s s' : σ} {as : List α} (hr : Runs step s as s') (hi : I s) : I s' := by
  induction hr with
  | nil => exact hi
  | cons hs _ ih => exact ih (hstep hi hs)

/-- What relates the actions so far to the state, when every step preserves it. -/
theorem along {I : List α → σ → Prop}
    (hstep : ∀ {as s a s'}, I as s → step s a s' → I (as ++ [a]) s')
    {s s' : σ} {as bs : List α} (hr : Runs step s as s') (hi : I bs s) : I (bs ++ as) s' := by
  induction hr generalizing bs with
  | nil => rwa [List.append_nil]
  | @cons s s' s'' a as hs _ ih =>
    have := ih (hstep hi hs)
    rwa [List.append_assoc, List.singleton_append] at this

theorem mono {step' : σ → α → σ → Prop} (hle : ∀ {s a s'}, step s a s' → step' s a s')
    {s s' : σ} {as : List α} (hr : Runs step s as s') : Runs step' s as s' := by
  induction hr with
  | nil => exact .nil
  | cons hs _ ih => exact .cons (hle hs) ih

/-- A guarded run is a run. -/
theorem of_guarded {C : σ → α → Prop} {s s' : σ} {as : List α}
    (hr : Runs (Guarded C step) s as s') : Runs step s as s' := hr.mono fun h => h.2

/-- A run of a function is found by evaluating it. -/
theorem of_foldlM {f : σ → α → Option σ} {C : σ → α → Prop} [∀ s a, Decidable (C s a)] {as : List α} :
    ∀ {s s' : σ}, as.foldlM (fun s a => if C s a then f s a else none) s = some s' →
      Runs (Guarded C fun s a s' => f s a = some s') s as s' := by
  induction as with
  | nil =>
    intro s s' h
    cases h
    exact .nil
  | cons a as ih =>
    intro s s' h
    rw [List.foldlM_cons] at h
    obtain ⟨s₁, hs, h⟩ := Option.bind_eq_some_iff.mp h
    by_cases hc : C s a
    · rw [if_pos hc] at hs
      exact .cons ⟨hc, hs⟩ (ih h)
    · rw [if_neg hc] at hs
      cases hs

/-- Where, under the invariant `I`, a step keeps `P` exactly when it meets `C`, a run keeps it exactly
when all its steps do. -/
theorem guarded_iff_under {C : σ → α → Prop} {I P : σ → Prop} {s s' : σ} {as : List α}
    (hr : Runs step s as s') (hdet : ∀ s a s' s'', step s a s' → step s a s'' → s' = s'')
    (hinv : ∀ {s a s'}, I s → step s a s' → I s')
    (hstep : ∀ {s a s'}, I s → step s a s' → (P s' ↔ P s ∧ C s a)) (hi : I s) :
    P s' ↔ P s ∧ Runs (Guarded C step) s as s' := by
  induction hr with
  | nil => exact ⟨fun h => ⟨h, .nil⟩, And.left⟩
  | cons hs _ ih =>
    rw [ih (hinv hi hs), hstep hi hs]
    constructor
    · rintro ⟨⟨hp, hc⟩, hg⟩
      exact ⟨hp, .cons ⟨hc, hs⟩ hg⟩
    · rintro ⟨hp, hg⟩
      cases hg with
      | cons hgs hg =>
        cases hdet _ _ _ _ hs hgs.2
        exact ⟨⟨hp, hgs.1⟩, hg⟩

/-- Where a step keeps `P` exactly when it meets `C`, a run keeps it exactly when all its steps do. -/
theorem guarded_iff {C : σ → α → Prop} {P : σ → Prop} {s s' : σ} {as : List α}
    (hr : Runs step s as s') (hdet : ∀ s a s' s'', step s a s' → step s a s'' → s' = s'')
    (hstep : ∀ s a s', step s a s' → (P s' ↔ P s ∧ C s a)) : P s' ↔ P s ∧ Runs (Guarded C step) s as s' :=
  guarded_iff_under (I := fun _ => True) hr hdet (fun _ _ => trivial) (fun _ h => hstep _ _ _ h) trivial

/-- `P` holds in every state that the actions `as` lead through, from `s` on. -/
def Always {σ α : Type} (step : σ → α → σ → Prop) (P : σ → Prop) (s : σ) (as : List α) : Prop :=
  ∀ bs cs t, as = bs ++ cs → Runs step s bs t → P t

/-- Where, from states with `P`, a step leads to `P` exactly when it meets `C`, all states of a run have
`P` exactly when all its steps meet `C`. -/
theorem always_iff {C : σ → α → Prop} {I P : σ → Prop} {s s' : σ} {as : List α}
    (hr : Runs step s as s') (hdet : ∀ s a s' s'', step s a s' → step s a s'' → s' = s'')
    (hinv : ∀ {s a s'}, I s → step s a s' → I s')
    (hstep : ∀ {s a s'}, I s → P s → step s a s' → (P s' ↔ C s a)) (hi : I s) (hp : P s) :
    Always step P s as ↔ Runs (Guarded C step) s as s' := by
  induction hr with
  | @nil s =>
    refine ⟨fun _ => .nil, fun _ bs cs t he ht => ?_⟩
    obtain ⟨rfl, rfl⟩ := List.append_eq_nil_iff.mp he.symm
    cases ht
    exact hp
  | @cons s s₁ s' a as hs hr ih =>
    constructor
    · intro hall
      have hp₁ : P s₁ := hall [a] as s₁ rfl (.single hs)
      refine .cons ⟨(hstep hi hp hs).mp hp₁, hs⟩ ((ih (hinv hi hs) hp₁).mp fun bs cs t he ht => ?_)
      exact hall (a :: bs) cs t (by rw [he, List.cons_append]) (.cons hs ht)
    · intro hg bs cs t he ht
      cases hg with
      | @cons _ s₂ _ _ _ hgs hg =>
        cases hdet _ _ _ _ hs hgs.2
        have hp₁ := (hstep hi hp hs).mpr hgs.1
        cases bs with
        | nil => cases ht; exact hp
        | cons b bs =>
          obtain ⟨rfl, he'⟩ := List.cons.inj he
          cases ht with
          | cons hb ht =>
            cases hdet _ _ _ _ hs hb
            exact (ih (hinv hi hs) hp₁).mpr hg bs cs t he' ht

end Runs

/-- An `a` comes before a `b`. -/
def Precedes {α : Type} (as : List α) (a b : α) : Prop := [a, b].Sublist as

section Precedes

variable {α : Type} {as : List α} {a b c : α}

instance [DecidableEq α] : Decidable (Precedes as a b) :=
  inferInstanceAs (Decidable ([a, b].Sublist as))

theorem not_precedes_nil : ¬ Precedes [] a b := nofun

theorem precedes_cons : Precedes (c :: as) a b ↔ Precedes as a b ∨ (c = a ∧ b ∈ as) := by
  simp only [Precedes, List.sublist_cons_iff, List.cons.injEq]
  constructor
  · rintro (h | ⟨r, ⟨rfl, rfl⟩, h⟩)
    · exact .inl h
    · exact .inr ⟨rfl, List.singleton_sublist.mp h⟩
  · rintro (h | ⟨rfl, hb⟩)
    · exact .inl h
    · exact .inr ⟨_, ⟨rfl, rfl⟩, List.singleton_sublist.mpr hb⟩

theorem precedes_snoc : Precedes (as ++ [c]) a b ↔ Precedes as a b ∨ (a ∈ as ∧ c = b) := by
  induction as with
  | nil => simp [precedes_cons, not_precedes_nil]
  | cons d as ih =>
    simp only [List.cons_append, precedes_cons, ih, List.mem_append, List.mem_cons, List.not_mem_nil,
      or_false]
    grind

theorem Precedes.mem (h : Precedes as a b) : a ∈ as ∧ b ∈ as :=
  ⟨h.subset (by simp), h.subset (by simp)⟩

theorem Precedes.total (ha : a ∈ as) (hb : b ∈ as) (hne : a ≠ b) :
    Precedes as a b ∨ Precedes as b a := by
  induction as with
  | nil => cases ha
  | cons c as ih =>
    rw [precedes_cons, precedes_cons]
    rcases List.mem_cons.mp ha with rfl | ha'
    · exact .inl (.inr ⟨rfl, (List.mem_cons.mp hb).resolve_left fun e => hne e.symm⟩)
    · rcases List.mem_cons.mp hb with rfl | hb'
      · exact .inr (.inr ⟨rfl, ha'⟩)
      · exact (ih ha' hb').imp .inl .inl

/-- What occurs once is not on both sides. -/
theorem Precedes.asymm (hn : as.Nodup) (h : Precedes as a b) : ¬ Precedes as b a := by
  induction as with
  | nil => cases h
  | cons c as ih =>
    obtain ⟨hc, hn⟩ := List.nodup_cons.mp hn
    rw [precedes_cons] at h ⊢
    rcases h with h | ⟨rfl, hb⟩
    · rintro (h' | ⟨rfl, -⟩)
      · exact ih hn h h'
      · exact hc h.mem.2
    · rintro (h' | ⟨rfl, ha⟩)
      · exact hc h'.mem.2
      · exact hc ha

theorem Precedes.trans (hn : as.Nodup) (h : Precedes as a b) (h' : Precedes as b c) :
    Precedes as a c := by
  induction as with
  | nil => cases h
  | cons d as ih =>
    obtain ⟨hd, hn⟩ := List.nodup_cons.mp hn
    rw [precedes_cons] at h h' ⊢
    rcases h' with h' | ⟨rfl, hc⟩
    · rcases h with h | ⟨rfl, -⟩
      · exact .inl (ih hn h h')
      · exact .inr ⟨rfl, h'.mem.2⟩
    · rcases h with h | ⟨rfl, hb⟩
      · exact absurd h.mem.2 hd
      · exact absurd hb hd

end Precedes

end VersatileEngine
