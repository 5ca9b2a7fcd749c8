import Mathlib.Data.List.Perm.Basic
import Mathlib.Data.Fintype.Card
import Mathlib.Logic.Relation
import Mathlib.Order.WellFounded
import Mathlib.Tactic

/-!
# VersatileEngine.Lib.Kahn

Kahn's algorithm for a topological order, over any type of vertices and any way to pick the next one
of those that are ready.

* `Digraph.ofEdges` — adjacency lists and in-degrees, built edge by edge; edges may repeat.
* `kahn`            — the loop. Its fuel bounds the number of turns.
* `Ordered E order` — each vertex of `order` comes after all that have an edge to it.
* `kahn_spec`       — the loop ends within one turn more than there are vertices, with an ordered list
  of distinct vertices that has all of them exactly when the graph has no cycle.
-/

namespace VersatileEngine

variable {α : Type} [DecidableEq α]

structure Digraph (α : Type) where
  adj : α → List α
  indegree : α → Int

namespace Digraph

def empty : Digraph α := ⟨fun _ => [], fun _ => 0⟩

def addEdge (g : Digraph α) (u v : α) : Digraph α :=
  ⟨Function.update g.adj u (g.adj u ++ [v]), Function.update g.indegree v (g.indegree v + 1)⟩

def addEdges (g : Digraph α) (E : List (α × α)) : Digraph α := E.foldl (fun g e => g.addEdge e.1 e.2) g

def ofEdges (E : List (α × α)) : Digraph α := empty.addEdges E

end Digraph

/-- The inner loop: each edge from the picked vertex is taken away. -/
def relax : List α → (α → Int) → List α → (α → Int) × List α
  | [], deg, pq => (deg, pq)
  | v :: vs, deg, pq =>
    let deg := Function.update deg v (deg v - 1)
    relax vs deg (if deg v = 0 then pq ++ [v] else pq)

def kahn (pick : List α → Option (α × List α)) (adj : α → List α) :
    Nat → (α → Int) → List α → List α → Option (List α)
  | 0, _, _, _ => none
  | k + 1, deg, pq, order =>
    match pick pq with
    | none => some order
    | some (u, pq) =>
      let r := relax (adj u) deg pq
      kahn pick adj k r.1 r.2 (order ++ [u])

/-- Each vertex of the list comes after all that have an edge to it. -/
def Ordered (E : List (α × α)) (order : List α) : Prop :=
  ∀ l₁ v l₂, order = l₁ ++ v :: l₂ → ∀ u, (u, v) ∈ E → u ∈ l₁

/-- No vertex is reached from itself. -/
def NoCycle (E : List (α × α)) : Prop := ∀ v, ¬ Relation.TransGen (fun a b => (a, b) ∈ E) v v

/-- `pick` takes one element out of a list as long as there is one. -/
def Picks (pick : List α → Option (α × List α)) : Prop :=
  ∀ l, match pick l with
    | none => l = []
    | some (u, rest) => l.Perm (u :: rest)

namespace Digraph

theorem addEdges_adj (g : Digraph α) (E : List (α × α)) (u : α) :
    (g.addEdges E).adj u = g.adj u ++ (E.filter fun e => e.1 = u).map Prod.snd := by
  induction E generalizing g with
  | nil => simp [addEdges]
  | cons e E ih =>
    have h := ih (g.addEdge e.1 e.2)
    simp only [addEdges, List.foldl_cons] at h ⊢
    rw [h, List.filter_cons]
    by_cases he : e.1 = u
    · simp [addEdge, he]
    · simp [addEdge, he, Function.update_of_ne (Ne.symm he)]

theorem addEdges_indegree (g : Digraph α) (E : List (α × α)) (v : α) :
    (g.addEdges E).indegree v = g.indegree v + (E.countP fun e => e.2 = v : Nat) := by
  induction E generalizing g with
  | nil => simp [addEdges]
  | cons e E ih =>
    have h := ih (g.addEdge e.1 e.2)
    simp only [addEdges, List.foldl_cons] at h ⊢
    rw [h, List.countP_cons]
    by_cases he : e.2 = v
    · simp [addEdge, he]
      omega
    · simp [addEdge, he, Function.update_of_ne (Ne.symm he)]

end Digraph

/-- What the inner loop does when there are at least as many edges as it takes away. -/
theorem relax_spec : ∀ (vs : List α) (deg : α → Int) (pq : List α), (∀ v, (vs.count v : Int) ≤ deg v) →
    (∀ v, (relax vs deg pq).1 v = deg v - vs.count v) ∧
      ∃ new, (relax vs deg pq).2 = pq ++ new ∧ new.Nodup ∧
        ∀ v, v ∈ new ↔ v ∈ vs ∧ deg v = vs.count v := by
  intro vs
  induction vs with
  | nil =>
    intro deg pq _
    exact ⟨fun v => by simp [relax], [], by simp [relax], List.nodup_nil, fun v => by simp⟩
  | cons w vs ih =>
    intro deg pq hle
    have hcount : ∀ v, ((w :: vs).count v : Int) = vs.count v + if w = v then 1 else 0 := by
      intro v
      rw [List.count_cons]
      by_cases h : w = v <;> simp [h]
    have hdeg : ∀ v, Function.update deg w (deg w - 1) v = deg v - if w = v then 1 else 0 := by
      intro v
      by_cases h : w = v
      · simp [h]
      · simp [h, Function.update_of_ne (Ne.symm h)]
    have hrest := ih (Function.update deg w (deg w - 1))
      (if Function.update deg w (deg w - 1) w = 0 then pq ++ [w] else pq) (by
        intro v
        have := hle v
        rw [hcount] at this
        rw [hdeg]
        omega)
    obtain ⟨hfst, new, hnew, hnd, hmem⟩ := hrest
    refine ⟨fun v => ?_, ?_⟩
    · show (relax vs _ _).1 v = _
      rw [hfst, hdeg, hcount]
      omega
    · show ∃ new, (relax vs _ _).2 = _ ∧ _
      have hw := hle w
      rw [hcount, if_pos rfl] at hw
      have hzero := hdeg w
      rw [if_pos rfl] at hzero
      have hothers : ∀ v, v ≠ w → (v ∈ new ↔ v ∈ w :: vs ∧ deg v = ((w :: vs).count v : Nat)) := by
        intro v hv
        rw [hmem, hdeg, hcount, if_neg (Ne.symm hv), List.mem_cons]
        simp [hv]
      by_cases h0 : deg w = 1
      · -- the last edge to `w`, which has no further edges in the list
        have hc : vs.count w = 0 := by omega
        have hnotin : w ∉ vs := List.count_eq_zero.mp hc
        have hnotnew : w ∉ new := fun h => hnotin ((hmem w).mp h).1
        rw [if_pos (by rw [hzero]; omega)] at hnew ⊢
        refine ⟨w :: new, by rw [hnew, List.append_assoc]; rfl, List.nodup_cons.mpr ⟨hnotnew, hnd⟩,
          fun v => ?_⟩
        by_cases hv : v = w
        · subst hv
          rw [hcount, if_pos rfl]
          simp [hc, h0]
        · rw [List.mem_cons, ← hothers v hv]
          simp [hv]
      · rw [if_neg (by rw [hzero]; omega)] at hnew ⊢
        refine ⟨new, hnew, hnd, fun v => ?_⟩
        by_cases hv : v = w
        · subst hv
          rw [hmem, hdeg, hcount, if_pos rfl]
          constructor
          · rintro ⟨h, h'⟩
            exact ⟨List.mem_cons_of_mem _ h, by omega⟩
          · rintro ⟨-, h⟩
            have hpos : 0 < vs.count v := by omega
            exact ⟨List.count_pos_iff.mp hpos, by omega⟩
        · exact hothers v hv

/-! ### The loop -/

section Loop

variable {E : List (α × α)} {V : List α}

/-- The edges to `v` that are left when the vertices of `order` are taken away. -/
def openEdges (E : List (α × α)) (order : List α) (v : α) : Nat :=
  E.countP fun e => e.2 = v ∧ e.1 ∉ order

/-- The state of the loop. -/
structure Progress (E : List (α × α)) (V : List α) (deg : α → Int) (pq order : List α) : Prop where
  nodup : (order ++ pq).Nodup
  degree : ∀ v, deg v = openEdges E order v
  ready : ∀ v, v ∈ order ++ pq ↔ v ∈ V ∧ openEdges E order v = 0
  ordered : Ordered E order

theorem openEdges_nil (v : α) : openEdges E [] v = E.countP fun e => e.2 = v := by
  simp [openEdges]

theorem openEdges_eq_zero {order : List α} {v : α} :
    openEdges E order v = 0 ↔ ∀ u, (u, v) ∈ E → u ∈ order := by
  rw [openEdges, List.countP_eq_zero]
  constructor
  · intro h u hu
    by_contra hn
    exact h _ hu (by simp [hn])
  · rintro h ⟨u, w⟩ he hp
    simp only [decide_eq_true_eq] at hp
    exact hp.2 (h u (hp.1 ▸ he))

/-- Taking away one more vertex takes away its edges. -/
theorem openEdges_snoc {order : List α} {u : α} (hu : u ∉ order) (v : α) :
    openEdges E order v =
      openEdges E (order ++ [u]) v + ((E.filter fun e => e.1 = u).map Prod.snd).count v := by
  induction E with
  | nil => simp [openEdges]
  | cons e E ih =>
    simp only [openEdges] at ih ⊢
    rw [List.countP_cons, List.countP_cons, ih, List.filter_cons]
    by_cases h1 : e.1 = u
    · by_cases h2 : e.2 = v
      · simp [h1, h2, hu]
        omega
      · simp [h1, h2]
    · by_cases h2 : e.2 = v
      · simp [h1, h2]
        split_ifs <;> omega
      · simp [h1, h2]

omit [DecidableEq α] in
theorem Ordered.snoc {order : List α} (h : Ordered E order) {v : α}
    (hv : ∀ u, (u, v) ∈ E → u ∈ order) : Ordered E (order ++ [v]) := by
  intro l₁ w l₂ he u hu
  rcases List.eq_nil_or_concat l₂ with rfl | ⟨l₂, x, rfl⟩
  · obtain ⟨rfl, hw⟩ := List.append_inj' he rfl
    cases hw
    exact hv u hu
  · rw [List.concat_eq_append, ← List.cons_append, ← List.append_assoc] at he
    obtain ⟨he, -⟩ := List.append_inj' he rfl
    exact h l₁ w l₂ he u hu

/-- One turn of the loop. -/
theorem progress_step (hE : ∀ e ∈ E, e.1 ∈ V ∧ e.2 ∈ V) {deg : α → Int} {pq rest order : List α} {u : α}
    (h : Progress E V deg pq order) (hp : pq.Perm (u :: rest)) :
    let r := relax ((Digraph.ofEdges E).adj u) deg rest
    Progress E V r.1 r.2 (order ++ [u]) := by
  have hperm : (order ++ pq).Perm (order ++ [u] ++ rest) := by
    rw [List.append_assoc]
    exact hp.append_left order
  have hnd := hperm.nodup_iff.mp h.nodup
  have hu : u ∉ order := by
    have := List.nodup_append.mp (List.nodup_append.mp hnd).1
    exact fun hm => this.2.2 u hm u (List.mem_singleton_self u) rfl
  have hadj : (Digraph.ofEdges E).adj u = (E.filter fun e => e.1 = u).map Prod.snd := by
    rw [Digraph.ofEdges, Digraph.addEdges_adj]
    rfl
  have hopen := openEdges_snoc (E := E) hu
  have hready : ∀ w, (w, u) ∈ E → w ∈ order :=
    openEdges_eq_zero.mp ((h.ready u).mp (hperm.mem_iff.mpr (by simp))).2
  obtain ⟨hdeg, new, hnew, hnewnd, hmem⟩ := relax_spec ((Digraph.ofEdges E).adj u) deg rest
    (fun v => by rw [h.degree, hopen, hadj]; omega)
  have hmem' : ∀ v, v ∈ new ↔ openEdges E order v ≠ 0 ∧ openEdges E (order ++ [u]) v = 0 := by
    intro v
    rw [hmem, h.degree, hopen v, hadj, ← List.count_pos_iff]
    omega
  intro r
  refine ⟨?_, ?_, ?_, h.ordered.snoc hready⟩
  · rw [hnew, ← List.append_assoc]
    refine List.nodup_append.mpr ⟨hnd, hnewnd, ?_⟩
    rintro v hv w hw rfl
    exact ((hmem' v).mp hw).1 ((h.ready v).mp (hperm.mem_iff.mpr hv)).2
  · intro v
    rw [hdeg, h.degree, hopen v, hadj]
    omega
  · intro v
    rw [hnew, ← List.append_assoc, List.mem_append, hmem' v, ← hperm.mem_iff, h.ready v]
    constructor
    · rintro (⟨hv, h0⟩ | ⟨hne, h0⟩)
      · exact ⟨hv, by have := hopen v; omega⟩
      · obtain ⟨w, hw, -⟩ : ∃ w, (w, v) ∈ E ∧ w ∉ order := by
          by_contra hn
          refine hne (openEdges_eq_zero.mpr fun w hw => ?_)
          by_contra hw'
          exact hn ⟨w, hw, hw'⟩
        exact ⟨(hE _ hw).2, h0⟩
    · rintro ⟨hv, h0⟩
      by_cases h1 : openEdges E order v = 0
      · exact .inl ⟨hv, h1⟩
      · exact .inr ⟨h1, h0⟩

theorem Progress.length_le {deg : α → Int} {pq order : List α} (h : Progress E V deg pq order) :
    (order ++ pq).length ≤ V.length :=
  (h.nodup.subperm fun v hv => ((h.ready v).mp hv).1).length_le

/-- The loop ends when every vertex without open edges is in the list. -/
theorem kahn_progress {pick : List α → Option (α × List α)} (hpick : Picks pick)
    (hE : ∀ e ∈ E, e.1 ∈ V ∧ e.2 ∈ V) : ∀ (k : Nat) {deg : α → Int} {pq order : List α},
    Progress E V deg pq order → V.length < order.length + k →
    ∃ deg' order', kahn pick (Digraph.ofEdges E).adj k deg pq order = some order' ∧
      Progress E V deg' [] order' := by
  intro k
  induction k with
  | zero =>
    intro deg pq order h hk
    have := h.length_le
    rw [List.length_append] at this
    omega
  | succ k ih =>
    intro deg pq order h hk
    have hp := hpick pq
    rw [kahn]
    cases hpk : pick pq with
    | none =>
      rw [hpk] at hp
      exact ⟨deg, order, rfl, hp ▸ h⟩
    | some r =>
      obtain ⟨u, rest⟩ := r
      rw [hpk] at hp
      exact ih (progress_step hE h hp) (by rw [List.length_append, List.length_singleton]; omega)

theorem progress_start (hV : V.Nodup) :
    Progress E V (Digraph.ofEdges E).indegree (V.filter fun v => (Digraph.ofEdges E).indegree v = 0) [] := by
  have hdeg : ∀ v, (Digraph.ofEdges E).indegree v = openEdges E [] v := by
    intro v
    rw [Digraph.ofEdges, Digraph.addEdges_indegree, openEdges_nil]
    exact Int.zero_add _
  refine ⟨hV.filter _, hdeg, fun v => ?_, fun l₁ v l₂ he => by simp at he⟩
  rw [List.nil_append, List.mem_filter, hdeg]
  simp

omit [DecidableEq α] in
/-- An ordered list of all vertices leaves no room for a cycle. -/
theorem Ordered.noCycle {order : List α} (h : Ordered E order) (hnd : order.Nodup)
    (hall : ∀ e ∈ E, e.2 ∈ order) : NoCycle E := by
  classical
  have hedge : ∀ a b, (a, b) ∈ E → order.idxOf a < order.idxOf b := by
    intro a b hab
    obtain ⟨l₁, l₂, rfl⟩ := List.append_of_mem (hall _ hab)
    have ha := h l₁ b l₂ rfl a hab
    have hb : b ∉ l₁ := fun hm => (List.nodup_append.mp hnd).2.2 b hm b (by simp) rfl
    rw [List.idxOf_append_of_mem ha, List.idxOf_append_of_notMem hb, List.idxOf_cons_self]
    exact List.idxOf_lt_length_of_mem ha
  have htrans : ∀ a b, Relation.TransGen (fun a b => (a, b) ∈ E) a b →
      order.idxOf a < order.idxOf b := by
    intro a b hab
    induction hab with
    | single h => exact hedge _ _ h
    | tail _ h ih => exact ih.trans (hedge _ _ h)
  exact fun v hv => (htrans v v hv).ne rfl

omit [DecidableEq α] in
/-- Without a cycle, vertices that are not all in the list include one with no open edge. -/
theorem exists_ready (hcyc : NoCycle E) (hE : ∀ e ∈ E, e.1 ∈ V ∧ e.2 ∈ V) {order : List α} {v : α}
    (hv : v ∈ V) (hnot : v ∉ order) : ∃ v ∈ V, v ∉ order ∧ ∀ u, (u, v) ∈ E → u ∈ order := by
  let Left := {v : α // v ∈ V ∧ v ∉ order}
  let before : Left → Left → Prop := fun a b => Relation.TransGen (fun a b => (a, b) ∈ E) a.1 b.1
  have : Finite {v // v ∈ V} := V.finite_toSet
  have : Finite Left := by
    refine Finite.of_injective (β := {v // v ∈ V}) (fun a => ⟨a.1, a.2.1⟩) fun a b hab => ?_
    exact Subtype.ext (congrArg (fun x => x.1) hab)
  have : IsTrans Left before := ⟨fun _ _ _ => Relation.TransGen.trans⟩
  have : Std.Irrefl before := ⟨fun a => hcyc a.1⟩
  have hwf : WellFounded before := Finite.wellFounded_of_trans_of_irrefl before
  obtain ⟨m, -, hm⟩ := hwf.has_min Set.univ ⟨⟨v, hv, hnot⟩, trivial⟩
  refine ⟨m.1, m.2.1, m.2.2, fun u hu => ?_⟩
  by_contra hn
  exact hm ⟨u, (hE _ hu).1, hn⟩ trivial (.single hu)

/-- **Kahn's algorithm**, with its loop cut off only after more turns than it can take. -/
theorem kahn_spec {pick : List α → Option (α × List α)} (hpick : Picks pick) (hV : V.Nodup)
    (hE : ∀ e ∈ E, e.1 ∈ V ∧ e.2 ∈ V) :
    let g := Digraph.ofEdges E
    ∃ order, kahn pick g.adj (V.length + 1) g.indegree (V.filter fun v => g.indegree v = 0) [] =
        some order ∧ order.Nodup ∧ (∀ v ∈ order, v ∈ V) ∧ Ordered E order ∧
      (order.length = V.length ↔ NoCycle E) := by
  intro g
  obtain ⟨deg, order, hrun, h⟩ := kahn_progress hpick hE (V.length + 1) (progress_start hV)
    (by simp)
  have hnd : order.Nodup := by simpa using h.nodup
  have hready : ∀ v, v ∈ order ↔ v ∈ V ∧ ∀ u, (u, v) ∈ E → u ∈ order := by
    intro v
    rw [← openEdges_eq_zero, ← h.ready, List.append_nil]
  have hsub : ∀ v ∈ order, v ∈ V := fun v hv => ((hready v).mp hv).1
  refine ⟨order, hrun, hnd, hsub, h.ordered, ?_, fun hcyc => ?_⟩
  · intro hlen
    have hperm : order.Perm V := (hnd.subperm hsub).perm_of_length_le hlen.ge
    exact h.ordered.noCycle hnd fun e he => hperm.mem_iff.mpr (hE e he).2
  · have hall : ∀ v ∈ V, v ∈ order := by
      intro v hv
      by_contra hnot
      obtain ⟨w, hw, hwnot, hpre⟩ := exists_ready hcyc hE hv hnot
      exact hwnot ((hready w).mpr ⟨hw, hpre⟩)
    exact ((hnd.subperm hsub).antisymm (hV.subperm hall)).length_eq

end Loop

end VersatileEngine
