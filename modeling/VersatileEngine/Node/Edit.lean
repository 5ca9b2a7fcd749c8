import VersatileEngine.Node.Tree

/-!
# VersatileEngine.Node.Edit

What the importers do to the node they build, on trees: a node under construction is in no other
tree, so its subtree is all there is to say of it.

* `Tree.set`, `Tree.push`     — `set(v)`, and a child that goes to the end.
* `Tree.clearAnonymousChildren`, `Tree.ensureSchemaChild` — the helpers of `schema.cpp` and `json.cpp`.
* `Tree.updateChild`          — what is done to the node that `child(key)` returns.

`copyTree_blank` says what the `copy` at the end of every importer makes of a fresh node.
-/

namespace VersatileEngine

namespace Tree

/-- `node->set(v)`. -/
def set : Tree → Var → Tree
  | node nm _ ks, v => node nm v ks

/-- A child goes to the end. -/
def push : Tree → Tree → Tree
  | node nm v ks, k => node nm v (ks ++ [k])

/-- `clear()`, then `set(Var())`. -/
def resetNodeContent : Tree → Tree
  | node nm _ _ => blank nm

/-- Every anonymous child goes. -/
def clearAnonymousChildren : Tree → Tree
  | node nm v ks => node nm v (ks.filter fun k => k.name ≠ [])

/-- The first child named `key` stays, the others of that name go. -/
def dropExtra (key : Str) : List Tree → List Tree
  | [] => []
  | k :: ks => if k.name = key then k :: ks.filter (fun k => k.name ≠ key) else k :: dropExtra key ks

/-- The first child named `key` is changed. -/
def updateFirst (key : Str) (f : Tree → Tree) : List Tree → List Tree
  | [] => []
  | k :: ks => if k.name = key then f k :: ks else k :: updateFirst key f ks

def updateChild (key : Str) (f : Tree → Tree) : Tree → Tree
  | node nm v ks => node nm v (updateFirst key f ks)

/-- The only child named `key`, empty: what was there is cleaned up, or a new child is appended. -/
def ensureSchemaChild (key : Str) : Tree → Tree
  | node nm v ks =>
    if ks.any (fun k => k.name = key) then
      node nm v (updateFirst key resetNodeContent (dropExtra key ks))
    else node nm v (ks ++ [blank key])

section Simp

variable (t k : Tree) (v : Var) (nm key : Str) (ks : List Tree)

@[simp] theorem name_node : (node nm v ks).name = nm := rfl
@[simp] theorem value_node : (node nm v ks).value = v := rfl
@[simp] theorem kids_node : (node nm v ks).kids = ks := rfl

@[simp] theorem set_name : (t.set v).name = t.name := by cases t; rfl
@[simp] theorem set_value : (t.set v).value = v := by cases t; rfl
@[simp] theorem set_kids : (t.set v).kids = t.kids := by cases t; rfl

@[simp] theorem push_name : (t.push k).name = t.name := by cases t; rfl
@[simp] theorem push_value : (t.push k).value = t.value := by cases t; rfl
@[simp] theorem push_kids : (t.push k).kids = t.kids ++ [k] := by cases t; rfl

theorem ext {t t' : Tree} (hn : t.name = t'.name) (hv : t.value = t'.value) (hk : t.kids = t'.kids) :
    t = t' := by
  rw [← eta t, ← eta t', hn, hv, hk]

end Simp

theorem updateFirst_middle {key : Str} (f : Tree → Tree) {a b : List Tree} {k : Tree}
    (h : ∀ x ∈ a, x.name ≠ key) (hk : k.name = key) :
    updateFirst key f (a ++ k :: b) = a ++ f k :: b := by
  induction a with
  | nil => rw [List.nil_append, updateFirst, if_pos hk]; rfl
  | cons x a ih =>
    rw [List.forall_mem_cons] at h
    rw [List.cons_append, updateFirst, if_neg h.1, ih h.2]
    rfl

theorem updateFirst_append {key : Str} (f : Tree → Tree) {ks : List Tree} {k : Tree}
    (h : ∀ x ∈ ks, x.name ≠ key) (hk : k.name = key) :
    updateFirst key f (ks ++ [k]) = ks ++ [f k] := updateFirst_middle f h hk

theorem dropExtra_middle {key : Str} {a b : List Tree} {k : Tree} (h : ∀ x ∈ a, x.name ≠ key)
    (hk : k.name = key) (hb : ∀ x ∈ b, x.name ≠ key) : dropExtra key (a ++ k :: b) = a ++ k :: b := by
  induction a with
  | nil =>
    rw [List.nil_append, dropExtra, if_pos hk,
      List.filter_eq_self.mpr fun x hx => decide_eq_true (hb x hx)]
  | cons x a ih =>
    rw [List.forall_mem_cons] at h
    rw [List.cons_append, dropExtra, if_neg h.1, ih h.2]

/-- The only child of a name is emptied in its place. -/
theorem ensureSchemaChild_middle {key nm : Str} {v : Var} {a b : List Tree} {k : Tree}
    (h : ∀ x ∈ a, x.name ≠ key) (hk : k.name = key) (hb : ∀ x ∈ b, x.name ≠ key) :
    (node nm v (a ++ k :: b)).ensureSchemaChild key = node nm v (a ++ blank key :: b) := by
  have hany : (a ++ k :: b).any (fun k => k.name = key) = true := by simp [hk]
  have hreset : resetNodeContent k = blank key := by
    cases k
    exact congrArg blank hk
  rw [ensureSchemaChild, if_pos hany, dropExtra_middle h hk hb, updateFirst_middle _ h hk, hreset]

/-- A new child goes to the end. -/
theorem ensureSchemaChild_new {key nm : Str} {v : Var} {ks : List Tree}
    (h : ∀ x ∈ ks, x.name ≠ key) :
    (node nm v ks).ensureSchemaChild key = node nm v (ks ++ [blank key]) := by
  have hnone : ¬ ks.any (fun k => k.name = key) = true := by simpa using h
  rw [ensureSchemaChild, if_neg hnone]

/-- A new child that is then filled goes to the end. -/
theorem updateChild_ensureSchemaChild {key : Str} (f : Tree → Tree) {t : Tree}
    (h : ∀ k ∈ t.kids, k.name ≠ key) :
    (t.ensureSchemaChild key).updateChild key f = t.push (f (blank key)) := by
  obtain ⟨nm, v, ks⟩ := t
  simp only [kids_node] at h
  have hnone : ¬ ks.any (fun k => k.name = key) = true := by simpa using h
  rw [ensureSchemaChild, if_neg hnone, updateChild, updateFirst_append f h rfl]
  rfl

theorem clearAnonymousChildren_eq {t : Tree} (h : ∀ k ∈ t.kids, k.name ≠ []) :
    t.clearAnonymousChildren = t := by
  obtain ⟨nm, v, ks⟩ := t
  simp only [kids_node] at h
  rw [clearAnonymousChildren, List.filter_eq_self.mpr fun k hk => decide_eq_true (h k hk)]

end Tree

/-! ## Copying into a fresh node -/

theorem copyValue_none (au : Bool) (v : Var) : copyValue au .none v = v := by
  unfold copyValue
  split
  · rename_i h
    cases v <;> simp_all [Var.eqv]
  · rfl

/-- **Copying into a fresh node copies everything.** -/
theorem copyTree_blank (ar au : Bool) (s : Tree) :
    ∀ nm, copyTree true ar au s (.blank nm) = .node nm s.value s.kids := by
  induction s using Tree.ind with
  | h s ih =>
    intro nm
    rw [copyTree_eq]
    have hkids : (Tree.blank nm).kids = [] := rfl
    rw [hkids, arrange_nil, List.map_map]
    have hsame : s.kids.map (copySlot true ar au ∘ Slot.fresh) = s.kids := by
      refine (List.map_congr_left fun k hk => ?_).trans (List.map_id s.kids)
      simp only [Function.comp_apply, copySlot]
      rw [ih k hk, Tree.eta]
      rfl
    rw [hsame]
    exact congrArg (fun v => Tree.node nm v s.kids) (copyValue_none au s.value)

/-- The children of a node without a value make way for others of which none has their name. -/
theorem copyTree_apart (au : Bool) {s : Tree} {nm : Str} {ks : List Tree}
    (h : ∀ d ∈ ks, ∀ k ∈ s.kids, k.name ≠ d.name) :
    copyTree true true au s (.node nm .none ks) = .node nm s.value s.kids := by
  have hblank := copyTree_blank true au s nm
  rw [copyTree_eq] at hblank ⊢
  have hkids : (Tree.blank nm).kids = [] := rfl
  rw [hkids, arrange_nil] at hblank
  rw [Tree.kids_node, arrange_apart _ _ h]
  exact hblank

end VersatileEngine
