import VersatileEngine.Core.Data
import VersatileEngine.Schema.Options

/-!
# VersatileEngine.Schema.VarS

`SchemaTraits<VarS>` of `schema.cpp`: a tree as one value, and back.

* `nodeToVar`  — `nodeToVarImpl`. A tree has neither lists nor dictionaries; the first child decides
  which of them a node is read as.
* `varToNode`  — `varToNodeImpl`, into a node that may have content.
* `treeOf`     — `varToNode` into a fresh node, with its equations `treeOf_list` and `treeOf_dict`.
* `nodeToVar_dict`, `dictOf_eq` — the dictionary of a node whose first child has a name.
-/

namespace VersatileEngine

/-- The key of the own value of a node. -/
def valueKey : Str := ascii "_value"

section Groups

variable {α : Type}

/-- The first of every name, without the anonymous ones: `names`, each with `named_groups[nm][0]`. -/
def namedFirsts : List Str → List (Str × α) → List (Str × α)
  | _, [] => []
  | seen, (nm, a) :: l =>
    if nm = [] ∨ nm ∈ seen then namedFirsts seen l else (nm, a) :: namedFirsts (nm :: seen) l

/-- The anonymous ones. -/
def anonymous (l : List (Str × α)) : List α := (l.filter fun p => p.1 = []).map Prod.snd

end Groups

mutual
/-- `nodeToVarImpl`. -/
def nodeToVar (options : ExportOptions) : Tree → Var
  | .node _ value kids =>
    let visible := visibleVars options kids
    match visible with
    | [] => value
    | (first, _) :: _ =>
      if first = [] then .list (visible.map Prod.snd)
      else
        let dict := if value.isNull then [] else assign [] valueKey value
        let dict := assignAll dict (namedFirsts [] visible)
        let anon := anonymous visible
        .dict (if anon.isEmpty then dict else assign dict [] (.list anon))

/-- The visible children with their names, exported. -/
def visibleVars (options : ExportOptions) : List Tree → List (Str × Var)
  | [] => []
  | k :: ks =>
    if isIgnoredChild options k then visibleVars options ks
    else (k.name, nodeToVar options k) :: visibleVars options ks
end

mutual
/-- `varToNodeImpl`. -/
def varToNode : Var → Tree → Tree
  | .dict d, node => entriesToNode d node
  | .list l, node => elementsToNode l node
  | v, node => node.set v

def elementsToNode : List Var → Tree → Tree
  | [], node => node
  | elem :: l, node => elementsToNode l (node.push (varToNode elem (.blank [])))

/-- The children under the empty key. -/
def anonymousToNode : Var → Tree → Tree
  | .list l, node => elementsToNode l node
  | _, node => node

/-- The source has a branch for a named list, which does what `varToNodeImpl` does with it. -/
def entriesToNode : List (Str × Var) → Tree → Tree
  | [], node => node
  | (key, v) :: d, node =>
    entriesToNode d (
      if key = valueKey then node.set v
      else if key = [] then anonymousToNode v node.clearAnonymousChildren
      else (node.ensureSchemaChild key).updateChild key fun c => varToNode v c)
end

/-- `importNode`: the node after the call. It always succeeds. -/
def VarS.importNode (options : ImportOptions) (node : Tree) (data : Var) : Tree :=
  copyTree options.auto_insert options.auto_remove options.auto_update
    (varToNode data (.blank (ascii "var_import"))) node

/-- The value in a fresh node. -/
def treeOf (nm : Str) (v : Var) : Tree := varToNode v (.blank nm)

/-! ## Importing into a fresh node -/

theorem importNode_blank (nm : Str) (v : Var) : VarS.importNode .default (.blank nm) v =
    .node nm (treeOf (ascii "var_import") v).value (treeOf (ascii "var_import") v).kids :=
  copyTree_blank _ _ _ nm

theorem elementsToNode_eq (l : List Var) : ∀ node : Tree,
    elementsToNode l node = .node node.name node.value (node.kids ++ l.map (treeOf [])) := by
  induction l with
  | nil => intro node; rw [List.map_nil, List.append_nil, Tree.eta]; rfl
  | cons v l ih =>
    intro node
    rw [elementsToNode, ih]
    simp [treeOf]

/-- A value is no container. -/
def Var.isContainer : Var → Bool
  | .list _ => true
  | .dict _ => true
  | _ => false

theorem varToNode_leaf {v : Var} (h : v.isContainer = false) (node : Tree) :
    varToNode v node = node.set v := by
  cases v <;> first | rfl | cases h

theorem treeOf_leaf {v : Var} (h : v.isContainer = false) (nm : Str) :
    treeOf nm v = .node nm v [] := varToNode_leaf h _

theorem treeOf_list (nm : Str) (l : List Var) :
    treeOf nm (.list l) = .node nm .none (l.map (treeOf [])) := elementsToNode_eq l (.blank nm)

/-- What an entry of a dictionary adds to the children. -/
def entryKids (p : Str × Var) : List Tree :=
  if p.1 = valueKey then []
  else if p.1 = [] then
    match p.2 with
    | .list l => l.map (treeOf [])
    | _ => []
  else [treeOf p.1 p.2]

theorem entriesToNode_name (d : List (Str × Var)) : ∀ node : Tree,
    (entriesToNode d node).name = node.name := by
  have hclear : ∀ t : Tree, t.clearAnonymousChildren.name = t.name := fun t => by cases t; rfl
  have hupdate : ∀ (key : Str) (f : Tree → Tree) (t : Tree),
      ((t.ensureSchemaChild key).updateChild key f).name = t.name := fun key f t => by
    cases t
    rw [Tree.ensureSchemaChild]
    split_ifs <;> rfl
  induction d with
  | nil => intro node; rfl
  | cons p d ih =>
    obtain ⟨key, v⟩ := p
    intro node
    rw [entriesToNode, ih]
    split_ifs
    · exact Tree.set_name ..
    · cases v <;> simp [anonymousToNode, elementsToNode_eq, hclear]
    · exact hupdate ..

theorem treeOf_name (nm : Str) (v : Var) : (treeOf nm v).name = nm := by
  cases v with
  | list l => rw [treeOf_list]; rfl
  | dict d => exact entriesToNode_name d _
  | _ => rfl

theorem entryKids_name {p : Str × Var} {k : Tree} (h : k ∈ entryKids p) : k.name = p.1 := by
  unfold entryKids at h
  split_ifs at h with hv ha
  · cases h
  · split at h
    · obtain ⟨v, -, rfl⟩ := List.mem_map.mp h
      rw [treeOf_name, ha]
    · cases h
  · rw [List.mem_singleton.mp h, treeOf_name]

/-- Entries with new and distinct keys, one after another. -/
theorem entriesToNode_eq (d : List (Str × Var)) : ∀ node : Tree, (d.map Prod.fst).Nodup →
    (∀ p ∈ d, ∀ k ∈ node.kids, k.name ≠ p.1) →
    entriesToNode d node = .node node.name ((d.lookup valueKey).getD node.value)
      (node.kids ++ d.flatMap entryKids) := by
  induction d with
  | nil =>
    intro node _ _
    rw [List.flatMap_nil, List.append_nil]
    exact (Tree.eta node).symm
  | cons p d ih =>
    obtain ⟨key, v⟩ := p
    intro node hnd hnew
    rw [List.map_cons, List.nodup_cons] at hnd
    rw [List.forall_mem_cons] at hnew
    -- one entry gives its children, and leaves the rest of the keys new
    obtain ⟨t, ht, hname, hvalue, hkids⟩ : ∃ t : Tree,
        entriesToNode ((key, v) :: d) node = entriesToNode d t ∧ t.name = node.name ∧
          t.value = (if key = valueKey then v else node.value) ∧
          t.kids = node.kids ++ entryKids (key, v) := by
      rw [entriesToNode]
      refine ⟨_, rfl, ?_⟩
      unfold entryKids
      split_ifs with hv ha
      · simp
      · have hclear := Tree.clearAnonymousChildren_eq (t := node) (ha ▸ hnew.1)
        rw [hclear]
        cases v <;> simp [anonymousToNode, elementsToNode_eq]
      · rw [Tree.updateChild_ensureSchemaChild _ hnew.1]
        simp [treeOf]
    have hnew' : ∀ p ∈ d, ∀ k ∈ t.kids, k.name ≠ p.1 := by
      intro p hp k hk
      rw [hkids, List.mem_append] at hk
      rcases hk with hk | hk
      · exact hnew.2 p hp k hk
      · rw [entryKids_name hk]
        exact fun he => hnd.1 (List.mem_map.mpr ⟨p, hp, he.symm⟩)
    rw [ht, ih t hnd.2 hnew', hname, hvalue, hkids, List.append_assoc, List.flatMap_cons,
      List.lookup_cons]
    by_cases hv : key = valueKey
    · have hnone : d.lookup valueKey = none := by
        rw [← Option.not_isSome_iff_eq_none, lookup_isSome, ← hv]
        exact hnd.1
      simp [hv, hnone]
    · have hb : (valueKey == key) = false := by simpa using Ne.symm hv
      simp [hv, hb]

theorem treeOf_dict (nm : Str) {d : List (Str × Var)} (hnd : (d.map Prod.fst).Nodup) :
    treeOf nm (.dict d) = .node nm ((d.lookup valueKey).getD .none) (d.flatMap entryKids) :=
  entriesToNode_eq d (.blank nm) hnd (fun _ _ k hk => (by cases hk))

/-- The name of the node that is filled shows in its name only. -/
theorem treeOf_same {v : Var} (h : v.WF) (nm nm' : Str) :
    (treeOf nm v).value = (treeOf nm' v).value ∧ (treeOf nm v).kids = (treeOf nm' v).kids := by
  cases v with
  | list l => rw [treeOf_list, treeOf_list]; exact ⟨rfl, rfl⟩
  | dict d =>
    rw [treeOf_dict _ (Var.WF_dict.mp h).1, treeOf_dict _ (Var.WF_dict.mp h).1]
    exact ⟨rfl, rfl⟩
  | _ => exact ⟨rfl, rfl⟩

/-! ## Exporting -/

/-- A child as the exporter sees it. -/
def Tree.exported (k : Tree) : Str × Var := (k.name, nodeToVar .default k)

theorem visibleVars_default (ks : List Tree) :
    visibleVars .default ks = ks.map Tree.exported := by
  induction ks with
  | nil => rfl
  | cons k ks ih => rw [visibleVars, if_neg (by simp), ih]; rfl

theorem nodeToVar_leaf (nm : Str) (v : Var) : nodeToVar .default (.node nm v []) = v := rfl

theorem nodeToVar_list {nm : Str} {v : Var} {k : Tree} {ks : List Tree} (h : k.name = []) :
    nodeToVar .default (.node nm v (k :: ks)) = .list ((k :: ks).map (nodeToVar .default)) := by
  rw [nodeToVar, visibleVars_default]
  simp [Tree.exported, h]

/-- The entries of a node whose first child has a name. -/
def dictOf (value : Var) (visible : List (Str × Var)) : List (Str × Var) :=
  let dict := if value.isNull then [] else assign [] valueKey value
  let dict := assignAll dict (namedFirsts [] visible)
  let anon := anonymous visible
  if anon.isEmpty then dict else assign dict [] (.list anon)

theorem nodeToVar_dict {nm : Str} {v : Var} {k : Tree} {ks : List Tree} (h : k.name ≠ []) :
    nodeToVar .default (.node nm v (k :: ks)) =
      .dict (dictOf v ((k :: ks).map Tree.exported)) := by
  rw [nodeToVar, visibleVars_default]
  simp [Tree.exported, h, dictOf]

theorem nodeToVar_of_leaf {t : Tree} (h : t.kids = []) : nodeToVar .default t = t.value := by
  obtain ⟨nm, v, ks⟩ := t
  obtain rfl : ks = [] := h
  rfl

theorem nodeToVar_of_anonymous {t k : Tree} {ks : List Tree} (h : t.kids = k :: ks)
    (ha : k.name = []) : nodeToVar .default t = .list (t.kids.map (nodeToVar .default)) := by
  obtain ⟨nm, v, kids⟩ := t
  obtain rfl : kids = k :: ks := h
  exact nodeToVar_list ha

theorem nodeToVar_of_named {t k : Tree} {ks : List Tree} (h : t.kids = k :: ks)
    (hn : k.name ≠ []) :
    nodeToVar .default t = .dict (dictOf t.value (t.kids.map Tree.exported)) := by
  obtain ⟨nm, v, kids⟩ := t
  obtain rfl : kids = k :: ks := h
  exact nodeToVar_dict hn

section Dict

variable {α : Type}

theorem valueKey_ne : valueKey ≠ [] := by decide

theorem mem_namedFirsts {l : List (Str × α)} : ∀ {seen : List Str} {p : Str × α},
    p ∈ namedFirsts seen l → p ∈ l ∧ p.1 ≠ [] ∧ p.1 ∉ seen := by
  induction l with
  | nil => intro seen p h; cases h
  | cons q l ih =>
    obtain ⟨nm, a⟩ := q
    intro seen p h
    rw [namedFirsts] at h
    split_ifs at h with hq
    · obtain ⟨hp, hne, hs⟩ := ih h
      exact ⟨List.mem_cons_of_mem _ hp, hne, hs⟩
    · rw [not_or] at hq
      rcases List.mem_cons.mp h with rfl | h
      · exact ⟨by simp, hq⟩
      · obtain ⟨hp, hne, hs⟩ := ih h
        exact ⟨List.mem_cons_of_mem _ hp, hne, fun hm => hs (List.mem_cons_of_mem _ hm)⟩

theorem namedFirsts_nodup (l : List (Str × α)) : ∀ seen : List Str,
    ((namedFirsts seen l).map Prod.fst).Nodup := by
  induction l with
  | nil => intro seen; exact List.nodup_nil
  | cons q l ih =>
    obtain ⟨nm, a⟩ := q
    intro seen
    rw [namedFirsts]
    split_ifs
    · exact ih seen
    · rw [List.map_cons, List.nodup_cons]
      refine ⟨fun hm => ?_, ih _⟩
      obtain ⟨p, hp, he⟩ := List.mem_map.mp hm
      exact (mem_namedFirsts hp).2.2 (he ▸ List.mem_cons_self)

/-- The named ones, when their names are distinct. -/
theorem namedFirsts_distinct {l : List (Str × α)} : ∀ {seen : List Str},
    ((l.filter fun p => p.1 ≠ []).map Prod.fst).Nodup → (∀ p ∈ l, p.1 ∉ seen ∨ p.1 = []) →
      namedFirsts seen l = l.filter fun p => p.1 ≠ [] := by
  induction l with
  | nil => intro seen _ _; rfl
  | cons q l ih =>
    obtain ⟨nm, a⟩ := q
    intro seen hnd hl
    rw [List.forall_mem_cons] at hl
    by_cases hq : nm = []
    · rw [List.filter_cons_of_neg (by simp [hq])] at hnd ⊢
      rw [namedFirsts, if_pos (.inl hq), ih hnd hl.2]
    · rw [List.filter_cons_of_pos (by simp [hq])] at hnd ⊢
      rw [List.map_cons, List.nodup_cons] at hnd
      rw [namedFirsts, if_neg (not_or.mpr ⟨hq, hl.1.resolve_right hq⟩), ih hnd.2]
      intro p hp
      by_cases hpn : p.1 = []
      · exact .inr hpn
      · refine .inl fun hm => ?_
        rcases List.mem_cons.mp hm with he | hm
        · exact hnd.1 (List.mem_map.mpr ⟨p, List.mem_filter.mpr ⟨hp, by simpa using hpn⟩, he⟩)
        · exact hpn ((hl.2 p hp).resolve_left (fun h => h hm))

theorem anonymous_append {l anons : List (Str × α)} (hl : ∀ p ∈ l, p.1 ≠ [])
    (ha : ∀ p ∈ anons, p.1 = []) : anonymous (l ++ anons) = anons.map Prod.snd := by
  rw [anonymous, List.filter_append, List.filter_eq_nil_iff.mpr fun p hp => by simpa using hl p hp,
    List.filter_eq_self.mpr fun p hp => by simpa using ha p hp, List.nil_append]

/-- The entry of an own value. -/
def valueEntry (v : Var) : List (Str × Var) := if v.isNull then [] else [(valueKey, v)]

/-- The entry of anonymous children. -/
def anonymousEntry (vs : List Var) : List (Str × Var) := if vs.isEmpty then [] else [([], .list vs)]

theorem mem_valueEntry {v : Var} {p : Str × Var} (h : p ∈ valueEntry v) :
    v.isNull = false ∧ p = (valueKey, v) := by
  unfold valueEntry at h
  split_ifs at h with hv
  · cases h
  · exact ⟨by simpa using hv, List.mem_singleton.mp h⟩

theorem mem_anonymousEntry {vs : List Var} {p : Str × Var} (h : p ∈ anonymousEntry vs) :
    vs ≠ [] ∧ p = ([], .list vs) := by
  unfold anonymousEntry at h
  split_ifs at h with hv
  · cases h
  · exact ⟨fun he => hv (by rw [he]; rfl), List.mem_singleton.mp h⟩

/-- The dictionary of a node without a child named `_value`. -/
theorem dictOf_eq {v : Var} {visible : List (Str × Var)} (h : ∀ p ∈ visible, p.1 ≠ valueKey) :
    dictOf v visible =
      valueEntry v ++ namedFirsts [] visible ++ anonymousEntry (anonymous visible) := by
  have hfirst : (if v.isNull then [] else assign [] valueKey v) = valueEntry v := rfl
  have hnamed : assignAll (valueEntry v) (namedFirsts [] visible) =
      valueEntry v ++ namedFirsts [] visible := by
    refine assignAll_new (namedFirsts_nodup _ _) fun p hp hm => ?_
    obtain ⟨q, hq, he⟩ := List.mem_map.mp hm
    rw [(mem_valueEntry hq).2] at he
    exact h p (mem_namedFirsts hp).1 he.symm
  have hnew : [] ∉ (valueEntry v ++ namedFirsts [] visible).map Prod.fst := by
    intro hm
    obtain ⟨p, hp, he⟩ := List.mem_map.mp hm
    rcases List.mem_append.mp hp with hp | hp
    · rw [(mem_valueEntry hp).2] at he
      exact valueKey_ne he
    · exact (mem_namedFirsts hp).2.1 he
  rw [dictOf]
  simp only [hfirst, hnamed, anonymousEntry]
  split_ifs with ha
  · rw [List.append_nil]
  · rw [assign_new _ hnew]

/-- Its keys are distinct. -/
theorem dictOf_nodup {v : Var} {visible : List (Str × Var)} (h : ∀ p ∈ visible, p.1 ≠ valueKey) :
    ((dictOf v visible).map Prod.fst).Nodup := by
  rw [dictOf_eq h, List.map_append, List.map_append, List.nodup_append, List.nodup_append]
  refine ⟨⟨?_, namedFirsts_nodup _ _, ?_⟩, ?_, ?_⟩
  · unfold valueEntry
    split_ifs <;> simp
  · intro a ha b hb he
    obtain ⟨p, hp, rfl⟩ := List.mem_map.mp ha
    obtain ⟨q, hq, rfl⟩ := List.mem_map.mp hb
    rw [(mem_valueEntry hp).2] at he
    exact h q (mem_namedFirsts hq).1 he.symm
  · unfold anonymousEntry
    split_ifs <;> simp
  · intro a ha b hb he
    obtain ⟨q, hq, rfl⟩ := List.mem_map.mp hb
    rw [(mem_anonymousEntry hq).2] at he
    rcases List.mem_append.mp ha with ha | ha
    · obtain ⟨p, hp, rfl⟩ := List.mem_map.mp ha
      rw [(mem_valueEntry hp).2] at he
      exact valueKey_ne he
    · obtain ⟨p, hp, rfl⟩ := List.mem_map.mp ha
      exact (mem_namedFirsts hp).2.1 he

end Dict

end VersatileEngine
