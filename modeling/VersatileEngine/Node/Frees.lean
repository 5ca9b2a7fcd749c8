import VersatileEngine.Node.Below
import VersatileEngine.Node.Spared

/-!
# VersatileEngine.Node.Frees

Which nodes an operation frees, read off the forest it is called on.

* `Op.frees f op m` — `op`, called on `f`, frees `m`.
* `step_frees`      — only these nodes go, and only `setShadow` gives a node a shadow.
* `step_gone`       — all of them go, where a copy that removes is between separate trees.
* `Sheds.append`    — adding a node frees nothing.
-/

namespace VersatileEngine

namespace Forest

/-- What `dst.copy(src, .., auto_remove = true, ..)` frees of what is below the receiver: where the two
trees share no node, all that is not copied onto. -/
def Replaced (f : Forest) (this o m : Id) : Prop :=
  Below f this m ∧ m ≠ this ∧ ∀ d s : Held, Holds f d → Holds f s → d.id = this → s.id = o →
    (∀ x ∈ d.ids, x ∉ s.ids) → ¬ Met d s m

end Forest

open Forest in
/-- The nodes that the operation frees. -/
def Op.frees (f : Forest) : Op → Id → Prop
  | .delete n, m => Below f n m
  | .clear this true, m => ∃ c ∈ f.nodes this, Below f c m
  | .remove this child, m => ∃ c, child = some c ∧ c ∈ f.nodes this ∧ Below f c m
  | .removeNamed this nm, m => ∃ c, f.removes this nm c ∧ Below f c m
  | .copy this other _ true _, m => ∃ o, other = some o ∧ o ≠ this ∧ Replaced f this o m
  | _, _ => False

open Forest in
/-- Copying that removes is between trees that share no node. -/
def Op.Separate (f : Forest) : Op → Prop
  | .copy this (some o) _ true _ => ∃ d s : Held, Holds f d ∧ Holds f s ∧ d.id = this ∧ s.id = o ∧
      ∀ x ∈ d.ids, x ∉ s.ids
  | _ => True

namespace Forest

section Frees

variable {f g f' : Forest} {S : Id → Prop} {op : Op} {this o : Id} {fuel : Nat}

/-- What is below a held node is of its tree. -/
theorem Holds.below {d : Held} (h : Holds f d) {m : Id} (hb : Below f d.id m) : m ∈ d.ids := by
  induction hb with
  | refl => exact d.id_mem_ids
  | step _ hm ih => exact h.child ih hm

theorem frees_copy {ai au : Bool} {other : Option Id} (h : Inv f)
    (hrun : f.copy fuel this other ai true au = some f') {m : Id} (hm : f.live m = true)
    (hd : f'.live m = false) : (Op.copy this other ai true au).frees f m := by
  obtain ⟨-, hb, hne⟩ := (sheds_copy ai au fuel h hrun).gone m hm hd
  cases other with
  | none =>
    cases fuel with
    | zero => cases hrun
    | succ k =>
      cases hrun
      rw [hm] at hd
      cases hd
  | some o =>
    by_cases ho : o = this
    · subst ho
      cases fuel with
      | zero => cases hrun
      | succ k =>
        simp only [copy, if_true] at hrun
        cases hrun
        rw [hm] at hd
        cases hd
    · refine ⟨o, rfl, ho, hb, hne, fun d s hhd hhs hdid hsid hapart hmet => ?_⟩
      subst hdid hsid
      -- a node that is copied onto stays
      have := (spares_copy ai au fuel h hhd hhs hapart hrun).1.live m hm fun hG => hG.2 hmet
      rw [this] at hd
      cases hd

/-- What an operation leaves: the forest in order, what is freed, and where shadows come from. -/
structure Outcome (f : Forest) (op : Op) (f' : Forest) : Prop where
  inv : Inv f'
  gone : ∀ m, f.live m = true → f'.live m = false → op.frees f m
  shadow : ∀ m t, f'.live m = true → f'.shadow m = some t →
    (f.live m = true ∧ f.shadow m = some t) ∨ op = .setShadow m (some t)

theorem Sheds.outcome (h : Sheds f f' S) (hS : ∀ m, S m → op.frees f m) : Outcome f op f' where
  inv := h.inv
  gone m hm hd := hS m (h.gone m hm hd)
  shadow m t hm ht := .inl (h.shadow m t hm ht)

/-- The same nodes, with the same shadows. -/
theorem Inv.outcome (hi : Inv f') (hlive : f'.live = f.live) (hshadow : f'.shadow = f.shadow) :
    Outcome f op f' where
  inv := hi
  gone m hm hd := by
    rw [hlive, hm] at hd
    cases hd
  shadow m t hm ht := .inl ⟨by rwa [hlive] at hm, by rwa [hshadow] at ht⟩

theorem Relinked.outcome {s : Links Id} (hr : Relinked f f' s) (hi : Inv f') : Outcome f op f' :=
  hi.outcome hr.live hr.shadow

theorem outcome_clear {b : Bool} (h : Inv f) (hs : Step f (.clear this b) f') : Outcome f (.clear this b) f' := by
  obtain ⟨hi, hsh, -⟩ := primitive_cases h hs rfl fun h => (by cases h)
  obtain ⟨-, fuel, hrun⟩ := hs
  obtain ⟨g, hnode, hlive, -, hg⟩ := clear_spec hrun
  obtain ⟨hr, -⟩ := orphan_spec h this
  have hold : ∀ m, f'.live m = true → f.live m = true := by
    intro m hm
    rw [hlive] at hm
    cases b with
    | false =>
      simp only [Bool.false_eq_true, if_false] at hg
      rwa [hg, hr.live] at hm
    | true =>
      obtain ⟨D, hD⟩ := hg
      rw [← hr.live]
      by_cases hmD : m ∈ D
      · exact (hD.dead m hmD).1
      · rwa [(hD.frame m hmD).2] at hm
  refine ⟨hi, fun m hm hd => ?_, fun m t hm ht => .inl ⟨hold m hm, ?_⟩⟩
  · cases b with
    | false =>
      simp only [Bool.false_eq_true, if_false] at hg
      rw [hlive, hg, hr.live, hm] at hd
      cases hd
    | true => exact ((clear_freed hrun).mp hd).resolve_left (by simp [hm])
  · rcases hsh with hsh | hsh
    · cases hsh
    · rcases hsh m with he | he
      · exact he ▸ ht
      · rw [he] at ht
        cases ht

theorem outcome_insertBatch {children : List (Option Id)} {index : Int} (h : Inv f)
    (hs : Step f (.insertBatch this children index) f') (hp : Places f (.insertBatch this children index)) :
    Outcome f (.insertBatch this children index) f' := by
  obtain ⟨hv, fuel, hrun⟩ := hs
  cases hrun
  by_cases hne : children = []
  · simp only [insertBatch, hne, if_true]
    exact h.outcome rfl rfl
  cases hcs : nonNull children with
  | none =>
    simp only [insertBatch, hne, if_false, hcs]
    exact h.outcome rfl rfl
  | some cs =>
    have hins : (Op.insertBatch this children index).inserts = some (this, cs, index) := by
      simp [Op.inserts, hne, hcs]
    have hlive : ∀ c ∈ cs, f.live c = true := fun c hc => hv.live c (by
      simp [Op.args, nonNull_some hcs, hc])
    cases hi : f.insertAt this cs index with
    | none =>
      obtain ⟨-, hr, hinv⟩ := insertBatch_fails h hne hcs hi
      exact hr.outcome hinv
    | some i =>
      obtain ⟨-, hr, hinv⟩ := insertBatch_ok h hne hcs (hp hins hi) (hv.live this (by simp [Op.args])) hlive hi
      exact hr.outcome hinv

theorem outcome_insert {c : Id} {index : Int} (h : Inv f) (ht : f.live this = true) (hc : f.live c = true) :
    Outcome f op (f.insert this (some c) index).1 := by
  cases hi : f.insertAt this [c] index with
  | none =>
    obtain ⟨-, hr, hinv⟩ := insert_fails h hi
    exact hr.outcome hinv
  | some i =>
    obtain ⟨-, hr, hinv⟩ := insert_ok h ht hc hi
    exact hr.outcome hinv

/-- Appending one node, from a forest that has shed nothing but `S`. -/
theorem Sheds.append (h : Sheds f g S) (hi : Inv f) (ht : g.live this = true) (nm : Str) :
    Sheds f (g.append this nm 0).1 S ∧ (g.append this nm 0).2 = some g.next ∧
      (g.append this nm 0).1.live g.next = true ∧ ∀ m, g.live m = true → (g.append this nm 0).1.live m = true := by
  have hnew : f.live g.next = false := by
    cases hl : f.live g.next with
    | false => rfl
    | true => exact absurd (hi.bound hl) (Nat.not_lt.mpr h.next)
  have hone := h.trans (sheds_new h.inv nm S) hi fun _ _ hm => hm
  have hthis : (g.newNode nm).1.live this = true := by simp [ht]
  have hnext : (g.newNode nm).1.live g.next = true := by simp
  have hlive : ((g.newNode nm).1.insert this (some g.next) (-1)).1.live = (g.newNode nm).1.live := by
    cases hi : (g.newNode nm).1.insertAt this [g.next] (-1) with
    | none => exact (insert_fails hone.inv hi).2.1.live
    | some i => exact (insert_ok hone.inv hthis hnext hi).2.1.live
  refine ⟨hone.insert hthis hnext hnew (-1), rfl, ?_, fun m hm => ?_⟩
  · show ((g.newNode nm).1.insert this (some g.next) (-1)).1.live g.next = true
    rw [hlive]
    exact hnext
  · show ((g.newNode nm).1.insert this (some g.next) (-1)).1.live m = true
    rw [hlive]
    simp [hm]

theorem sheds_newNodes (nm : Str) (k : Nat) : ∀ {f : Forest}, Inv f → Sheds f (f.newNodes nm k).1 S := by
  induction k with
  | zero => exact fun h => .refl h S
  | succ k ih =>
    intro f h
    have hnew := sheds_new h nm fun _ => False
    exact ((sheds_new h nm S).trans (ih hnew.inv) h fun _ _ hm => hm)

theorem outcome_append {overlap : Int} {nm : Str} (h : Inv f) (ht : f.live this = true) :
    Outcome f op (f.append this nm overlap).1 := by
  by_cases hneg : overlap < 0
  · simp only [append, hneg, if_true]
    exact h.outcome rfl rfl
  by_cases hzero : overlap = 0
  · subst hzero
    exact (((Sheds.refl h fun _ => False).append h ht nm).1).outcome fun m hm => hm.elim
  · have hnew := sheds_newNodes (S := fun _ => False) nm (1 + overlap.toNat) h
    obtain ⟨-, -, hr, hlive⟩ := newNodes_spec h nm (1 + overlap.toNat)
    let batch : Op := .insertBatch this ((f.newNodes nm (1 + overlap.toNat)).2.map some) (-1)
    have hvalid : Valid (f.newNodes nm (1 + overlap.toNat)).1 batch := by
      refine ⟨fun n hn => ?_, fun n hn => (by simp [batch] at hn)⟩
      simp only [batch, Op.args, List.mem_cons, List.filterMap_map, hr] at hn
      rw [hlive]
      rcases hn with rfl | hn
      · simp [ht]
      · have : n ∈ List.range' f.next (1 + overlap.toNat) := by simpa using hn
        simp [this]
    have hplaces : Places (f.newNodes nm (1 + overlap.toNat)).1 batch := by
      intro this' cs index i hins _
      simp only [batch, Op.inserts, nonNull_map_some, hr] at hins
      split at hins
      · cases hins
      · cases hins
        exact List.nodup_range'
    have hout := outcome_insertBatch hnew.inv ⟨hvalid, 0, rfl⟩ hplaces
    simp only [append, hneg, if_false, hzero]
    refine ⟨hout.inv, fun m hm hd => ?_, fun m t hm hsh => ?_⟩
    · cases hl : (f.newNodes nm (1 + overlap.toNat)).1.live m with
      | true => exact (hout.gone m hl hd).elim
      | false => exact (hnew.gone m hm hl).elim
    · rcases hout.shadow m t hm hsh with hold | he
      · exact .inl (hnew.shadow m t hold.1 hold.2)
      · cases he

/-- **What an operation frees**, and the only way to a shadow. -/
theorem step_frees (h : Inv f) (hs : Step f op f') (hp : Places f op) : Outcome f op f' := by
  have hs' := hs
  obtain ⟨hv, fuel, hrun⟩ := hs
  have hlive : ∀ n ∈ op.args, f.live n = true := hv.live
  cases op with
  | new nm =>
    cases hrun
    exact (sheds_new h nm fun _ => False).outcome fun m hm => hm.elim
  | insert this child index =>
    cases hrun
    cases child with
    | none => exact h.outcome rfl rfl
    | some c => exact outcome_insert h (hlive this (by simp [Op.args])) (hlive c (by simp [Op.args]))
  | insertBatch this children index => exact outcome_insertBatch h hs' hp
  | take this child =>
    cases hrun
    exact (sheds_take h this child fun _ => False).outcome fun m hm => hm.elim
  | delete n => exact (sheds_delete h (hv.root n rfl) hrun).outcome fun m hm => hm
  | clear this b => exact outcome_clear h hs'
  | set this v =>
    cases hrun
    exact (sheds_set h (hlive this (by simp [Op.args])) v fun _ => False).outcome fun m hm => hm.elim
  | setShadow this t =>
    cases hrun
    refine ⟨(primitive_cases h hs' rfl hp).1, fun m hm hd => ?_, fun m u hm hsh => ?_⟩
    · rw [setShadow_live, hm] at hd
      cases hd
    · by_cases he : m = this
      · right
        have ht : t = some u := by simpa [shadow, setShadow, he] using hsh
        rw [he, ht]
      · exact .inl ⟨hm, by simpa [shadow, setShadow, he] using hsh⟩
  | setFlags this w si =>
    cases hrun
    exact (primitive_cases h hs' rfl hp).1.outcome rfl (by funext m; simp)
  | append this nm overlap =>
    cases hrun
    exact outcome_append h (hlive this (by simp [Op.args]))
  | remove this child =>
    obtain ⟨⟨g, b⟩, hrem, rfl⟩ := Option.map_eq_some_iff.mp hrun
    exact (sheds_remove h hrem).outcome fun m hm => hm
  | removeNamed this nm =>
    obtain ⟨⟨g, b⟩, hrem, rfl⟩ := Option.map_eq_some_iff.mp hrun
    exact (sheds_removeNamed h hrem).outcome fun m hm => hm
  | update this v =>
    cases hrun
    exact (sheds_update h (hlive this (by simp [Op.args])) v fun _ => False).outcome fun m hm => hm.elim
  | copy this other ai ar au =>
    have hshed := sheds_copy ai au fuel h hrun
    cases ar with
    | false => exact hshed.outcome fun m hm => (by cases hm.1)
    | true => exact ⟨hshed.inv, fun m hm hd => frees_copy h hrun hm hd, fun m t hm ht =>
        .inl (hshed.shadow m t hm ht)⟩

/-- All that an operation frees goes. -/
theorem step_gone (h : Inv f) (hs : Step f op f') (hsep : op.Separate f) {m : Id} (hm : op.frees f m) :
    f'.live m = false := by
  obtain ⟨-, fuel, hrun⟩ := hs
  cases op with
  | delete n => exact (deleteNode_freed hrun).mpr (.inr hm)
  | clear this b =>
    cases b with
    | false => exact hm.elim
    | true => exact (clear_freed hrun).mpr (.inr hm)
  | remove this child =>
    obtain ⟨⟨g, b⟩, hrem, rfl⟩ := Option.map_eq_some_iff.mp hrun
    obtain ⟨c, hc, hmem, hb⟩ := hm
    obtain ⟨htight, hdead⟩ := tight_remove h hrem
    exact htight.gone (sheds_remove h hrem).inv (hdead c hc hmem) hb
  | removeNamed this nm =>
    obtain ⟨⟨g, b⟩, hrem, rfl⟩ := Option.map_eq_some_iff.mp hrun
    obtain ⟨c, hc, hb⟩ := hm
    exact gone_removeNamed h hrem hc hb
  | copy this other ai ar au =>
    cases ar with
    | false => exact hm.elim
    | true =>
      obtain ⟨o, rfl, -, hb, -, hmet⟩ := hm
      obtain ⟨d, s, hd, hs, rfl, rfl, hapart⟩ := hsep
      exact (spares_copy ai au fuel h hd hs hapart hrun).2 m (hd.below hb) (hmet d s hd hs rfl rfl hapart)
  | new | insert | insertBatch | take | set | setShadow | setFlags | append | update => exact hm.elim

end Frees

end Forest

end VersatileEngine
