import VersatileEngine.Node.Create

/-!
# VersatileEngine.Node.Shadows

When the lookups through shadows end.

`setShadow` takes any node, so a shadow can lead back to the node it is given to, and a lookup that finds
nothing on the way then never ends. In runs in which no call of `setShadow` closes such a circle and no
insertion closes one of parents (`Uncircular`), every chain of shadows ends in every state, and with it every
lookup (`lookups_end`).
-/

namespace VersatileEngine

namespace Forest

/-- Insertions as in `Orderly`, and no shadow from whose chain the receiver is reached. -/
structure Uncircular (f : Forest) (op : Op) : Prop where
  places : Places f op
  apart : ∀ {this cs index i}, op.inserts = some (this, cs, index) →
    f.insertAt this cs index = some i → ∀ c ∈ cs, ¬ Climbs f.parent this c
  shadow : ∀ {this s}, op = .setShadow this (some s) → ¬ Climbs f.shadow s this

/-- Every climb to a root ends, and every chain of shadows. -/
structure Ending (f : Forest) : Prop where
  rooted : ∀ n, Rooted f.parent n
  shadow : ∀ n, Rooted f.shadow n

section Steps

variable {f f' : Forest} {op : Op}

theorem Fresh.uncircular (h : Inv f) (hf : Fresh f op) : Uncircular f op := by
  have ho := hf.orderly h
  refine ⟨ho.places, ho.apart, fun hop => ?_⟩
  have hno := hf.shadow
  rw [hop] at hno
  cases hno

/-- A shadow that does not lead back leaves every chain with an end. -/
theorem rooted_setShadow {this : Id} {s : Option Id} (h : ∀ n, Rooted f.shadow n)
    (hs : ∀ x, s = some x → ¬ Climbs f.shadow x this) : ∀ n, Rooted (f.setShadow this s).shadow n := by
  have hset : ∀ m, (f.setShadow this s).shadow m = if m = this then s else f.shadow m := fun m => by
    simp only [setShadow, shadow, setNode_node]
    split_ifs <;> rfl
  cases s with
  | none =>
    refine fun n => (h n).mono fun m => ?_
    rw [hset]
    split_ifs
    · exact .inr rfl
    · exact .inl rfl
  | some x =>
    have hx : Rooted (f.setShadow this (some x)).shadow x := (h x).congr fun m hm => by
      rw [hset, if_neg]
      rintro rfl
      exact hs x rfl hm
    refine fun n => hx.redirect (fun m => ?_) (h n)
    rw [hset]
    split_ifs
    · exact .inr rfl
    · exact .inl rfl

theorem Ending.step (h : Inv f) (he : Ending f) (hu : Uncircular f op) (hp : op.primitive = true)
    (hs : Step f op f') : Ending f' := by
  refine ⟨rooted_step h he.rooted hu.places hu.apart hp hs, ?_⟩
  rcases (primitive_cases h hs hp hu.places).2.1 with hset | hkept
  · cases op with
    | setShadow this s =>
      obtain ⟨-, fuel, hrun⟩ := hs
      cases hrun
      exact rooted_setShadow he.shadow fun x hx => hu.shadow (by rw [hx])
    | _ => cases hset
  · exact fun n => (he.shadow n).mono hkept

theorem ending_of_runs {ops : List Op} (hr : Runs (Guarded Uncircular Step) init ops f) : Inv f ∧ Ending f :=
  hr.invariant (I := fun f => Inv f ∧ Ending f)
    (fun h hs => Step.preserves (C := Uncircular) (fun h hf => hf.uncircular h) (fun hu => hu.places)
      (fun h he hu hp hs => he.step h hu hp hs) h hs)
    ⟨inv_init, fun _ => .root rfl, fun _ => .root rfl⟩

end Steps

/-! ## More fuel -/

section Fuel

variable {f : Forest} {s : Bool} {n : Id}

theorem root_more {j k : Nat} (hjk : j ≤ k) : ∀ {n r : Id}, f.root j n = some r → f.root k n = some r := by
  induction j generalizing k with
  | zero => exact fun h => (by cases h)
  | succ j ih =>
    obtain ⟨k, rfl⟩ := Nat.exists_eq_add_of_lt hjk
    intro n r h
    rw [root] at h ⊢
    split at h
    · next p hp => exact ih (by omega) h
    · exact h

theorem orShadow_more {look : Id → Option Id} {j k : Nat} (hjk : j ≤ k) :
    ∀ {n : Id} {s : Bool} {r : Option Id}, f.orShadow look j n s = some r → f.orShadow look k n s = some r := by
  induction j generalizing k with
  | zero => exact fun h => (by cases h)
  | succ j ih =>
    obtain ⟨k, rfl⟩ := Nat.exists_eq_add_of_lt hjk
    intro n s r h
    rw [orShadow] at h ⊢
    split at h
    · exact h
    · split_ifs at h ⊢
      · split at h
        · next sn hsn => exact ih (by omega) h
        · exact h
      · exact h

theorem atKey_more {j k : Nat} (hjk : j ≤ k) {key : Str} {r : Option Id} (h : f.atKey j n key s = some r) :
    f.atKey k n key s = some r := by
  rw [atKey] at h ⊢
  split at h
  · exact h
  · next nm i _ =>
    by_cases hc : nm = [] ∧ 0 ≤ i
    · rw [if_pos hc] at h ⊢
      exact orShadow_more hjk h
    · rw [if_neg hc] at h ⊢
      exact orShadow_more hjk h

theorem descend_more {j k : Nat} (hjk : j ≤ k) {segs : List Str} : ∀ {cur r : Option Id},
    f.descend j s cur segs = some r → f.descend k s cur segs = some r := by
  induction segs with
  | nil => exact fun {cur r} h => by cases cur <;> exact h
  | cons seg segs ih =>
    intro cur r h
    cases cur with
    | none => exact h
    | some cur =>
      rw [descend] at h ⊢
      split_ifs at h ⊢
      · exact ih h
      · obtain ⟨next, hkey, h⟩ := Option.bind_eq_some_iff.mp h
        rw [atKey_more hjk hkey]
        exact ih h

end Fuel

/-! ## Lookups end -/

section Ends

variable {f : Forest}

theorem orShadow_end {n : Id} (h : Rooted f.shadow n) (look : Id → Option Id) (s : Bool) :
    ∃ k r, f.orShadow look k n s = some r := by
  induction h generalizing s with
  | @root n hn =>
    refine ⟨1, ?_⟩
    simp only [orShadow, hn]
    split
    · exact ⟨_, rfl⟩
    · split <;> exact ⟨_, rfl⟩
  | @step n p hn _ ih =>
    obtain ⟨k, r, hr⟩ := ih true
    refine ⟨k + 1, ?_⟩
    simp only [orShadow, hn, hr]
    split
    · exact ⟨_, rfl⟩
    · split <;> exact ⟨_, rfl⟩

theorem Ending.atKey (h : Ending f) (n : Id) (key : Str) (s : Bool) : ∃ k r, f.atKey k n key s = some r := by
  simp only [Forest.atKey]
  split
  · exact ⟨0, none, rfl⟩
  · split
    · exact orShadow_end (h.shadow n) _ s
    · exact orShadow_end (h.shadow n) _ s

theorem Ending.ensureKey (h : Ending f) (n : Id) (key : Str) (s : Bool) :
    ∃ k r, f.ensureKey k n key s = some r := by
  simp only [Forest.ensureKey]
  split
  · exact ⟨0, _, rfl⟩
  · next nm i _ =>
    split
    · obtain ⟨k, r, hr⟩ := orShadow_end (h.shadow n) (fun m => f.child m i) s
      exact ⟨k, _, by rw [ensureIndex, atIndex, hr]; rfl⟩
    · obtain ⟨k, r, hr⟩ := orShadow_end (h.shadow n) (fun m => f.childNamed m nm i) s
      exact ⟨k, _, by rw [ensureName, atName, hr]; rfl⟩

theorem Ending.descend (h : Ending f) (s : Bool) (segs : List Str) :
    ∀ cur : Option Id, ∃ k r, f.descend k s cur segs = some r := by
  induction segs with
  | nil => exact fun cur => ⟨0, cur, by cases cur <;> rfl⟩
  | cons seg segs ih =>
    intro cur
    cases cur with
    | none => exact ⟨0, none, rfl⟩
    | some cur =>
      simp only [Forest.descend]
      split
      · exact ih (some cur)
      · obtain ⟨i, next, hkey⟩ := h.atKey cur seg s
        obtain ⟨j, r, hr⟩ := ih next
        refine ⟨max i j, r, ?_⟩
        rw [atKey_more (Nat.le_max_left i j) hkey]
        exact descend_more (Nat.le_max_right i j) hr

theorem Ending.atPath (h : Ending f) (n : Id) (path : Str) (s : Bool) : ∃ k r, f.atPath k n path s = some r := by
  cases path with
  | nil => exact ⟨0, _, rfl⟩
  | cons c rest =>
    simp only [Forest.atPath]
    split
    · obtain ⟨i, top, htop⟩ := root_ends (h.rooted n)
      split
      · exact ⟨i + 1, some top, by rw [htop]; rfl⟩
      · obtain ⟨j, r, hr⟩ := h.descend s (rest.splitOn pathSep) (some top)
        refine ⟨max (i + 1) j, r, ?_⟩
        rw [root_more (Nat.le_max_left (i + 1) j) htop]
        exact descend_more (Nat.le_max_right (i + 1) j) hr
    · exact h.descend s _ _

/-- **Lookups end**, in every state of every run in which no shadow leads back to the node it is given to. -/
theorem lookups_end {ops : List Op} (hr : Runs (Guarded Uncircular Step) init ops f) :
    (∀ n, Rooted f.shadow n) ∧ (∀ n path, ∃ k r, f.atPath k n path true = some r) ∧
      (∀ n key, ∃ k r, f.atKey k n key true = some r) ∧ ∀ n key, ∃ k r, f.ensureKey k n key true = some r := by
  have he := (ending_of_runs hr).2
  exact ⟨he.shadow, fun n path => he.atPath n path true, fun n key => he.atKey n key true,
    fun n key => he.ensureKey n key true⟩

/-- Shadows of nodes that have none themselves, and distinct nodes below a root that is not one of them. -/
def uncircularB (f : Forest) (op : Op) : Bool :=
  match op with
  | .setShadow this (some s) => s ≠ this && f.shadow s = none
  | .setShadow _ none => true
  | op => orderlyB f op

theorem uncircular_of_uncircularB {op : Op} (h : uncircularB f op = true) : Uncircular f op := by
  have horderly : orderlyB f op = true → op.setsShadow = false → Uncircular f op := fun ho hno => by
    have ho' := orderly_of_orderlyB ho
    refine ⟨ho'.places, ho'.apart, fun hop => ?_⟩
    rw [hop] at hno
    cases hno
  cases op with
  | setShadow this s =>
    refine ⟨fun hins => (by cases hins), fun hins => (by cases hins), fun {t x} hop hclimb => ?_⟩
    cases hop
    simp only [uncircularB, Bool.and_eq_true, decide_eq_true_eq] at h
    exact h.1 (hclimb.of_root h.2)
  | _ => exact horderly h rfl

theorem lookups_end_sample : ∃ k r, (scriptResult uncircularB 0
    [.new (ascii "a"), .new (ascii "b"), .setShadow 0 (some 1)]).atPath k 0 (ascii "x") true = some r :=
  (lookups_end (runs_scriptResult uncircular_of_uncircularB _ (by decide))).2.1 0 (ascii "x")

/-- A node that is its own shadow. -/
def circleOps : List Op := [.new (ascii "a"), .setShadow 0 (some 0)]

/-- It looks for a missing child for ever. -/
theorem lookup_in_circle : Runs Step init circleOps (scriptResult anyOp 0 circleOps) ∧
    ∀ k, (scriptResult anyOp 0 circleOps).atPath k 0 (ascii "x") true = none := by
  refine ⟨runs_any circleOps (by decide), fun k => ?_⟩
  have hcircle : ∀ k, (scriptResult anyOp 0 circleOps).orShadow
      (fun n => (scriptResult anyOp 0 circleOps).childNamed n (ascii "x") 0) k 0 true = none := by
    intro k
    induction k with
    | zero => rfl
    | succ k ih => exact ih
  have hkey : (scriptResult anyOp 0 circleOps).atKey k 0 (ascii "x") true = none := hcircle k
  show ((scriptResult anyOp 0 circleOps).atKey k 0 (ascii "x") true).bind _ = none
  rw [hkey]
  rfl

end Ends

end Forest

end VersatileEngine
