import VersatileEngine.Node.Path

/-!
# VersatileEngine.Node.Acyclic

When the forest is a forest.

`insert` looks neither for the receiver or its ancestors among the nodes it places, nor for a node
that a batch holds twice. The first closes a cycle of parents, the second lists a child twice. In
runs in which no successful insertion does either (`Orderly`), the shape is right in every state
(`tree_shape`): parents and child lists agree, every child is listed once, and climbing from any
node ends, so that `path`, `_root`, `atPath` and `activate` end.
-/

namespace VersatileEngine

namespace Forest

/-- Successful insertions place distinct nodes, none of which is the receiver or above it. Shadows
are not used. -/
structure Orderly (f : Forest) (op : Op) : Prop where
  shadow : op.setsShadow = false
  places : Places f op
  apart : ∀ {this cs index i}, op.inserts = some (this, cs, index) →
    f.insertAt this cs index = some i → ∀ c ∈ cs, ¬ Climbs f.parent this c

/-- Every climb ends, and no node has a shadow. -/
structure Climbable (f : Forest) : Prop where
  rooted : ∀ n, Rooted f.parent n
  shadow : ∀ n, f.shadow n = none

section Steps

variable {f f' : Forest} {op : Op}

/-- Nothing climbs to a node without children but the node itself. -/
theorem Fresh.orderly (h : Inv f) (hf : Fresh f op) : Orderly f op := by
  refine ⟨hf.shadow, hf.places, fun hins _ c hc hclimb => ?_⟩
  obtain ⟨-, hn, hne⟩ := hf.bare hins c hc
  rcases hclimb.last with he | ⟨d, hd⟩
  · exact hne he.symm
  · have := h.mem_iff.mp hd
    simp [hn] at this

/-- An insertion of nodes that the receiver is not below leaves every climb with an end. -/
theorem rooted_step (h : Inv f) (hr : ∀ n, Rooted f.parent n) (hpl : Places f op)
    (hap : ∀ {this cs index i}, op.inserts = some (this, cs, index) →
      f.insertAt this cs index = some i → ∀ c ∈ cs, ¬ Climbs f.parent this c)
    (hp : op.primitive = true) (hs : Step f op f') : ∀ n, Rooted f'.parent n := by
  obtain ⟨-, -, hcut | ⟨this, cs, index, i, hins, hi, hl⟩⟩ := primitive_cases h hs hp hpl
  · exact fun n => (hr n).mono hcut
  · -- first the nodes are cut off, then they are linked below the receiver
    have hup : f'.parent = ((f.links.unlinkAll cs).link this i.toNat cs).up := congrArg Links.up hl
    have hcut : ∀ n, Rooted (f.links.unlinkAll cs).up n := fun n =>
      (hr n).mono fun m => by
        rw [Links.unlinkAll_up]
        by_cases hm : m ∈ cs <;> simp [hm]
    rw [hup]
    refine Rooted.link hcut fun c hcs hclimb => hap hins hi c hcs (hclimb.mono fun m p hm => ?_)
    rw [Links.unlinkAll_up] at hm
    split at hm
    · cases hm
    · exact hm

theorem Climbable.step (h : Inv f) (hc : Climbable f) (ho : Orderly f op)
    (hp : op.primitive = true) (hs : Step f op f') : Climbable f' := by
  refine ⟨rooted_step h hc.rooted ho.places ho.apart hp hs, fun n => ?_⟩
  rcases (primitive_cases h hs hp ho.places).2.1 with hsh | hsh
  · rw [ho.shadow] at hsh
    cases hsh
  · rcases hsh n with hn | hn
    · exact hn.trans (hc.shadow n)
    · exact hn

theorem climbable_init : Climbable init :=
  ⟨fun _ => .root rfl, fun _ => rfl⟩

/-- What holds in every state of an orderly run. -/
theorem inv_of_orderly {ops : List Op} (hr : Runs (Guarded Orderly Step) init ops f) :
    Inv f ∧ Climbable f :=
  hr.invariant (I := fun f => Inv f ∧ Climbable f)
    (fun h hs => Step.preserves (C := Orderly) (fun h hf => hf.orderly h) (fun ho => ho.places)
      (fun h hc ho hp hs => hc.step h ho hp hs) h hs) ⟨inv_init, climbable_init⟩

end Steps

/-! ## Climbing functions end -/

section Ends

variable {f : Forest} {n : Id}

theorem root_ends (h : Rooted f.parent n) : ∃ k r, f.root (k + 1) n = some r := by
  induction h with
  | @root n hn => exact ⟨0, n, by simp only [root, hn]⟩
  | step hn _ ih =>
    obtain ⟨k, r, hr⟩ := ih
    exact ⟨k + 1, r, by simp only [root, hn] at hr ⊢; exact hr⟩

theorem path_ends (h : Rooted f.parent n) (anc : Option Id) : ∃ k p, f.path k n anc = some p := by
  induction h with
  | @root n hn => exact ⟨1, if some n = anc then [] else f.name n, by simp only [path, hn]; split <;> rfl⟩
  | @step n q hn _ ih =>
    obtain ⟨k, p, hp⟩ := ih
    refine ⟨k + 1, ?_⟩
    simp only [path, hn, hp, Option.map_some]
    split
    · exact ⟨_, rfl⟩
    split
    · exact ⟨_, rfl⟩
    · exact ⟨_, rfl⟩

theorem activate_ends (h : Rooted f.parent n) : ∃ k l, f.activate k n = some l := by
  induction h with
  | @root n hn =>
    refine ⟨1, ?_⟩
    simp only [activate, hn]
    split <;> exact ⟨_, rfl⟩
  | @step n q hn _ ih =>
    obtain ⟨k, l, hl⟩ := ih
    refine ⟨k + 1, ?_⟩
    simp only [activate, hn, hl, Option.map_some]
    split
    · exact ⟨_, rfl⟩
    split <;> exact ⟨_, rfl⟩

theorem orShadow_ends (hs : ∀ m, f.shadow m = none) (look : Id → Option Id) (k : Nat) (n : Id)
    (s : Bool) : ∃ r, f.orShadow look (k + 1) n s = some r := by
  simp only [orShadow, hs]
  split
  · exact ⟨_, rfl⟩
  · split <;> exact ⟨_, rfl⟩

theorem atKey_ends (hs : ∀ m, f.shadow m = none) (k : Nat) (n : Id) (key : Str) (s : Bool) :
    ∃ r, f.atKey (k + 1) n key s = some r := by
  simp only [atKey]
  split
  · exact ⟨_, rfl⟩
  split
  · exact orShadow_ends hs _ k n s
  · exact orShadow_ends hs _ k n s

theorem descend_ends (hs : ∀ m, f.shadow m = none) (k : Nat) (s : Bool) (segs : List Str) :
    ∀ cur : Option Id, ∃ r, f.descend (k + 1) s cur segs = some r := by
  induction segs with
  | nil => intro cur; exact ⟨cur, rfl⟩
  | cons seg segs ih =>
    intro cur
    cases cur with
    | none => exact ⟨none, rfl⟩
    | some c =>
      simp only [descend]
      split
      · exact ih _
      · obtain ⟨r, hr⟩ := atKey_ends hs k c seg s
        rw [hr]
        exact ih r

theorem atPath_ends (h : Climbable f) (n : Id) (p : Str) (s : Bool) :
    ∃ k r, f.atPath k n p s = some r := by
  obtain ⟨k, r, hr⟩ := root_ends (h.rooted n)
  refine ⟨k + 1, ?_⟩
  cases p with
  | nil => exact ⟨_, rfl⟩
  | cons c rest =>
    simp only [atPath, hr]
    split
    · simp only [Option.bind_some]
      split
      · exact ⟨_, rfl⟩
      · exact descend_ends h.shadow k s _ _
    · exact descend_ends h.shadow k s _ _

end Ends

/-- **The tree shape**, in every state of every run without a disorderly insertion. -/
theorem tree_shape {f : Forest} {ops : List Op} (hr : Runs (Guarded Orderly Step) init ops f) :
    ((∀ c p, c ∈ f.nodes p ↔ f.parent c = some p) ∧ ∀ c p, c ∈ f.nodes p → (f.nodes p).count c = 1) ∧
      (∀ n, Rooted f.parent n) ∧ (∀ n p, f.parent n = some p → ¬ Climbs f.parent p n) ∧
      (∀ n, ∃ k r, f.root k n = some r) ∧ (∀ n anc, ∃ k p, f.path k n anc = some p) ∧
      (∀ n p s, ∃ k r, f.atPath k n p s = some r) ∧ ∀ n, ∃ k l, f.activate k n = some l := by
  obtain ⟨h, hc⟩ := inv_of_orderly hr
  refine ⟨⟨fun c p => h.mem_iff.symm, fun c p hmem => List.count_eq_one_of_mem (h.nodup p) hmem⟩,
    hc.rooted, fun n p hp => (hc.rooted n).not_below hp, fun n => ?_,
    fun n anc => path_ends (hc.rooted n) anc, fun n p s => atPath_ends hc n p s,
    fun n => activate_ends (hc.rooted n)⟩
  obtain ⟨k, r, hr⟩ := root_ends (hc.rooted n)
  exact ⟨k + 1, r, hr⟩

/-! ## Disorderly runs -/

/-- `b` goes below `a`, then `a` below `b`. -/
def cycleOps : List Op := [.new (ascii "a"), .new (ascii "b"), .insert 0 (some 1) (-1), .insert 1 (some 0) (-1)]

/-- A batch with the same node in it twice. -/
def twiceOps : List Op := [.new (ascii "a"), .new (ascii "b"), .insertBatch 0 [some 1, some 1] (-1)]

def anyOp (_ : Forest) (_ : Op) : Bool := true

theorem runs_any (ops : List Op) (h : (script anyOp 0 init ops).isSome = true) :
    Runs Step init ops (scriptResult anyOp 0 ops) :=
  (runs_scriptResult (C := fun _ _ => True) (fun _ => trivial) ops h).of_guarded

theorem disorderly_shape :
    (Runs Step init cycleOps (scriptResult anyOp 0 cycleOps) ∧
        ¬ Rooted (scriptResult anyOp 0 cycleOps).parent 0) ∧
      Runs Step init twiceOps (scriptResult anyOp 0 twiceOps) ∧
        ((scriptResult anyOp 0 twiceOps).nodes 0).count 1 = 2 := by
  have h01 : (scriptResult anyOp 0 cycleOps).parent 0 = some 1 := by decide
  have h10 : (scriptResult anyOp 0 cycleOps).parent 1 = some 0 := by decide
  exact ⟨⟨runs_any cycleOps (by decide), fun h => h.not_below h01 (Climbs.head h10 (Climbs.refl 0))⟩,
    runs_any twiceOps (by decide), by decide⟩

/-- Distinct nodes below a root that is not one of them. -/
def orderlyB (f : Forest) (op : Op) : Bool :=
  !op.setsShadow && match op.inserts with
    | some (this, cs, _) => cs.Nodup && f.parent this = none && !cs.contains this
    | none => true

theorem orderly_of_orderlyB {f : Forest} {op : Op} (h : orderlyB f op = true) : Orderly f op := by
  simp only [orderlyB, Bool.and_eq_true, Bool.not_eq_true'] at h
  refine ⟨h.1, fun hins _ => ?_, fun hins _ c hc hclimb => ?_⟩
  · simp only [hins, Bool.and_eq_true, decide_eq_true_eq] at h
    exact h.2.1.1
  · simp only [hins, Bool.and_eq_true, decide_eq_true_eq] at h
    have he := hclimb.of_root h.2.1.2
    subst he
    simp [hc] at h

theorem tree_shape_sample : Rooted (scriptResult orderlyB 0 [.new (ascii "a"), .new (ascii "b"),
    .insert 0 (some 1) (-1)]).parent 1 :=
  (tree_shape (runs_scriptResult orderly_of_orderlyB _ (by decide))).2.1 1

end Forest

end VersatileEngine
