import Mathlib.Data.Finite.Defs
import Mathlib.Data.Fintype.EquivFin
import Mathlib.Order.WellFounded
import VersatileEngine.Node.Below
import VersatileEngine.Node.Bounded
import VersatileEngine.Node.Residue

/-!
# VersatileEngine.Node.Returns

When the operations return.

* `exists_held`  — where every climb ends, every live node holds a tree.
* `Unlapped`     — a copy is between nodes of which neither is above the other.
* `run_ends`     — **every operation on live nodes returns**, however the nodes are named and linked.
-/

namespace VersatileEngine

namespace Forest

section Held

variable {f : Forest}

theorem exists_map_of_forall {α β : Type} {g : β → α} {P : β → Prop} {l : List α}
    (h : ∀ a ∈ l, ∃ b, P b ∧ g b = a) : ∃ bs : List β, bs.map g = l ∧ ∀ b ∈ bs, P b := by
  induction l with
  | nil => exact ⟨[], rfl, fun b hb => (by cases hb)⟩
  | cons a l ih =>
    rw [List.forall_mem_cons] at h
    obtain ⟨b, hb, rfl⟩ := h.1
    obtain ⟨bs, rfl, hbs⟩ := ih h.2
    exact ⟨b :: bs, rfl, List.forall_mem_cons.mpr ⟨hb, hbs⟩⟩

/-- A node strictly below another one. -/
def Descends (f : Forest) (m n : Id) : Prop := ∃ p, f.parent m = some p ∧ Climbs f.parent p n

theorem descends_wellFounded (hr : ∀ n, Rooted f.parent n) :
    WellFounded fun a b : {n // n < f.next} => Descends f a.1 b.1 := by
  have htrans : IsTrans {n // n < f.next} fun a b => Descends f a.1 b.1 :=
    ⟨fun a b c ⟨p, hp, hpb⟩ ⟨q, hq, hqc⟩ => ⟨p, hp, hpb.trans (Climbs.head hq hqc)⟩⟩
  have hirrefl : Std.Irrefl fun a b : {n // n < f.next} => Descends f a.1 b.1 :=
    ⟨fun a ⟨p, hp, hpa⟩ => (hr a.1).not_below hp hpa⟩
  have hfinite : Finite {n // n < f.next} := Finite.of_equiv (Fin f.next) Fin.equivSubtype
  exact Finite.wellFounded_of_trans_of_irrefl _

/-- **Every live node holds a tree.** -/
theorem exists_held (h : Inv f) (hr : ∀ n, Rooted f.parent n) {n : Id} (hn : f.live n = true) :
    ∃ t, Holds f t ∧ t.id = n := by
  have hall : ∀ a : {n // n < f.next}, f.live a.1 = true → ∃ t, Holds f t ∧ t.id = a.1 := by
    intro a
    induction a using (descends_wellFounded hr).induction with
    | _ a ih =>
      intro ha
      obtain ⟨ks, hks, hholds⟩ := @exists_map_of_forall _ _ Held.id (Holds f) (f.nodes a.1) fun c hc => by
        have hlive := (h.live hc).2
        exact ih ⟨c, h.bound hlive⟩ ⟨a.1, h.mem_iff.mpr hc, Climbs.refl _⟩ hlive
      exact ⟨.node a.1 (f.name a.1) (f.value a.1) ks,
        holds_iff.mpr ⟨ha, rfl, rfl, hks.symm, hholds⟩, rfl⟩
  exact hall ⟨n, h.bound hn⟩ hn

/-- A node of a held tree climbs to its root. -/
theorem Holds.climbs (h : Inv f) {t : Held} (ht : Holds f t) {m : Id} (hm : m ∈ t.ids) :
    Climbs f.parent m t.id := by
  induction t using Held.ind with
  | h t ih =>
    rw [Held.ids_eq] at hm
    rcases List.mem_cons.mp hm with rfl | hm
    · exact Climbs.refl _
    · obtain ⟨k, hk, hm⟩ := List.mem_flatMap.mp hm
      have hkid := (holds_iff.mp ht).2.2.2.2 k hk
      exact (ih k hk hkid hm).trans (Climbs.head (ht.parent_kid h hk) (Climbs.refl _))

end Held

section Delete

variable {f : Forest} {this n : Id}

theorem deleteNode_ends (h : Inv f) (hr : ∀ n, Rooted f.parent n) (hn : f.live n = true) :
    ∃ k r, f.deleteNode k n = some r := by
  obtain ⟨t, ht, rfl⟩ := exists_held h hr hn
  obtain ⟨r, hdel, -⟩ := deleteNode_total t t.height f ht (ht.nodup h) (Nat.le_refl _)
  exact ⟨_, r, hdel⟩

theorem clear_ends (h : Inv f) (hr : ∀ n, Rooted f.parent n) (ht : f.live this = true) (auto : Bool) :
    ∃ k r, f.clear k this auto = some r := by
  obtain ⟨k, g, hg⟩ : ∃ k g, clearChildren (deleteNode k) f this auto = some g := by
    cases auto with
    | true =>
      obtain ⟨k, r, hdel⟩ := deleteNode_ends h hr ht
      cases k with
      | zero => cases hdel
      | succ k =>
        rw [deleteNode, if_pos ht] at hdel
        obtain ⟨g, hg, -⟩ := Option.map_eq_some_iff.mp hdel
        exact ⟨k, g, hg⟩
    | false =>
      have hloop : ∀ (l : List Id) (f : Forest), ∃ g,
          l.foldlM (fun f c => if false = true then deleteNode 0 (f.setParent c none) c
            else some (f.setParent c none)) f = some g := by
        intro l
        induction l with
        | nil => exact fun f => ⟨f, rfl⟩
        | cons c l ih => exact fun f => ih (f.setParent c none)
      cases hch : (f.node this).children with
      | none => exact ⟨0, f, by rw [clearChildren, hch]⟩
      | some ch =>
        obtain ⟨g, hg⟩ := hloop ch.nodes f
        exact ⟨0, _, by rw [clearChildren, hch]; exact congrArg (Option.map _) hg⟩
  cases hch : (f.node this).children with
  | none => exact ⟨0, f, by rw [clear, hch]⟩
  | some ch => exact ⟨k, _, by rw [clear, hch]; exact congrArg (Option.map _) hg⟩

theorem remove_ends (h : Inv f) (hr : ∀ n, Rooted f.parent n) (ht : f.live this = true) (child : Option Id) :
    ∃ k r, f.remove k this child = some r := by
  cases child with
  | none => exact ⟨0, _, by rw [remove, take_none]⟩
  | some c =>
    by_cases hc : c ∈ f.nodes this
    · obtain ⟨t, hheld, rfl⟩ := exists_held h hr ht
      have hlevel := Level.start h hheld
      rw [(holds_iff.mp hheld).2.2.2.1] at hc
      obtain ⟨k, hk, rfl⟩ := List.mem_map.mp hc
      obtain ⟨A, B, hkids⟩ := List.append_of_mem hk
      rw [hkids] at hlevel
      obtain ⟨g, hg, -⟩ := remove_total hlevel (Nat.le_refl k.height)
      exact ⟨_, _, hg⟩
    · refine ⟨0, ((f.take this (some c)).1, false), ?_⟩
      have hnone := (take_absent h hc).1
      rw [remove]
      split
      · next g n he =>
        rw [he] at hnone
        cases hnone
      · next g he => rw [he]

/-- The loop of `remove(name)`, by the children that are left. -/
theorem removeLoop_ends {f₀ : Forest} {T : List Id} {nm : Str} {bound : Nat} (ks : List Held) :
    ∀ {f : Forest} {b : Bool}, Level f₀ f T this ks → (∀ k ∈ ks, k.height ≤ bound) → ∀ fuel,
      bound + ks.length < fuel → ∃ r, removeLoop fuel f this nm b = some r := by
  induction hn : ks.length using Nat.strong_induction_on generalizing ks with
  | _ n ih =>
    intro f b hlevel hbound fuel hfuel
    obtain ⟨fuel, rfl⟩ : ∃ j, fuel = j + 1 := ⟨fuel - 1, by omega⟩
    rw [removeLoop, if_neg (by simp [hlevel.live])]
    cases hc : f.childNamed this nm 0 with
    | none =>
      rw [take_none]
      exact ⟨_, rfl⟩
    | some c =>
      have hmem := childNamed_mem hc
      rw [hlevel.nodes] at hmem
      obtain ⟨k, hk, rfl⟩ := List.mem_map.mp hmem
      obtain ⟨A, B, rfl⟩ := List.append_of_mem hk
      have hheight := hbound k hk
      obtain ⟨g, hg, hlevel'⟩ := remove_total hlevel (show k.height ≤ fuel by omega)
      rw [remove] at hg
      split at hg
      · next g₁ n₁ htake =>
        obtain ⟨g₂, hdel, he⟩ := Option.map_eq_some_iff.mp hg
        obtain rfl : g₂ = g := congrArg Prod.fst he
        simp only [hdel, Option.bind_some]
        simp only [List.length_append, List.length_cons] at hn
        refine ih (A ++ B).length (by simp only [List.length_append]; omega) (A ++ B) rfl hlevel'
          (fun k hk => hbound k ?_) fuel (by simp only [List.length_append]; omega)
        rcases List.mem_append.mp hk with hk | hk
        · exact List.mem_append_left _ hk
        · exact List.mem_append_right _ (List.mem_cons_of_mem _ hk)
      · cases hg

theorem removeNamed_ends (h : Inv f) (hr : ∀ n, Rooted f.parent n) (ht : f.live this = true) (nm : Str) :
    ∃ k r, f.removeNamed k this nm = some r := by
  by_cases hnm : nm = []
  · obtain ⟨k, r, hrun⟩ := remove_ends h hr ht (f.child this (-1))
    exact ⟨k, r, by rw [removeNamed, if_pos hnm]; exact hrun⟩
  · obtain ⟨t, hheld, rfl⟩ := exists_held h hr ht
    obtain ⟨r, hrun⟩ := @removeLoop_ends t.id f t.ids nm t.height t.kids f false (Level.start h hheld)
      (fun k hk => Nat.le_of_lt (Held.height_kid hk)) _ (Nat.lt_succ_self _)
    exact ⟨_, r, by rw [removeNamed, if_neg hnm]; exact hrun⟩

end Delete

/-- A copy is onto the node itself, or between nodes of which neither is above the other. -/
def Unlapped (f : Forest) : Op → Prop
  | .copy this (some o) _ _ _ => o = this ∨ ¬ Climbs f.parent this o ∧ ¬ Climbs f.parent o this
  | _ => True

section Run

variable {f : Forest} {op : Op} {this o : Id}

/-- Trees of which neither is part of the other share no node. -/
theorem held_apart (h : Inv f) {d s : Held} (hd : Holds f d) (hs : Holds f s)
    (hds : ¬ Climbs f.parent d.id s.id) (hsd : ¬ Climbs f.parent s.id d.id) : ∀ m ∈ d.ids, m ∉ s.ids := by
  intro m hmd hms
  rcases hd.nested h hs hms hmd with hin | hin
  · exact hsd (hd.climbs h hin)
  · exact hds (hs.climbs h hin)

theorem copy_ends (h : Inv f) (hr : ∀ n, Rooted f.parent n) (ht : f.live this = true) (ho : f.live o = true)
    (hto : ¬ Climbs f.parent this o) (hot : ¬ Climbs f.parent o this) (ai ar au : Bool) :
    ∃ k r, f.copy k this (some o) ai ar au = some r := by
  obtain ⟨d, hd, rfl⟩ := exists_held h hr ht
  obtain ⟨s, hs, rfl⟩ := exists_held h hr ho
  obtain ⟨r, -, hrun, -⟩ := copy_spec ai ar au s _ f d h hd hs (held_apart h hd hs hto hot) (Nat.le_refl _)
  exact ⟨_, r, hrun⟩

/-- **Every operation returns.** -/
theorem run_ends (h : Inv f) (hr : ∀ n, Rooted f.parent n) (hv : Valid f op) (hop : Unlapped f op) :
    ∃ k r, f.run k op = some r := by
  have hlive : ∀ n ∈ op.args, f.live n = true := hv.live
  cases op with
  | delete n => exact deleteNode_ends h hr (hlive n (by simp [Op.args]))
  | clear this auto => exact clear_ends h hr (hlive this (by simp [Op.args])) auto
  | remove this child =>
    obtain ⟨k, r, hrun⟩ := remove_ends h hr (hlive this (by simp [Op.args])) child
    exact ⟨k, r.1, congrArg (Option.map Prod.fst) hrun⟩
  | removeNamed this nm =>
    obtain ⟨k, r, hrun⟩ := removeNamed_ends h hr (hlive this (by simp [Op.args])) nm
    exact ⟨k, r.1, congrArg (Option.map Prod.fst) hrun⟩
  | copy this other ai ar au =>
    cases other with
    | none => exact ⟨1, f, rfl⟩
    | some o =>
      rcases hop with rfl | ⟨hto, hot⟩
      · exact ⟨1, f, by simp only [run, copy, if_true]⟩
      · exact copy_ends h hr (hlive this (by simp [Op.args])) (hlive o (by simp [Op.args])) hto hot ai ar au
  | _ => exact ⟨0, _, rfl⟩

end Run

end Forest

end VersatileEngine
