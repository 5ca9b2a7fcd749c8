import VersatileEngine.Schema.VarS

/-!
# VersatileEngine.Schema.RoundTrip

The two round trips between trees and values.

* `Tree.Canonical`, `import_export_canonical` — a canonical tree comes back from its value exactly.
* `Var.Representable`, `transport_iff` — a value comes back from its tree, equal under `operator==`,
  exactly when it is representable: no empty container, no NaN, no key `_value` with a null value or
  alone, and under the empty key a list that follows some named key.
-/

namespace VersatileEngine

/-! ## From trees to values and back -/

/-- A leaf, a list of anonymous children, or distinct names followed by anonymous children. -/
inductive Tree.Canonical : Tree → Prop
  | leaf {nm : Str} {v : Var} (hv : v.isContainer = false) : Canonical (.node nm v [])
  | list {nm : Str} {kids : List Tree} (hne : kids ≠ []) (hn : ∀ k ∈ kids, k.name = [])
      (h : ∀ k ∈ kids, Canonical k) : Canonical (.node nm .none kids)
  | dict {nm : Str} {v : Var} {named anons : List Tree} (hv : v.isContainer = false)
      (hne : named ≠ []) (hd : (named.map Tree.name).Nodup)
      (hn : ∀ k ∈ named, k.name ≠ [] ∧ k.name ≠ valueKey) (ha : ∀ k ∈ anons, k.name = [])
      (h : ∀ k ∈ named, Canonical k) (h' : ∀ k ∈ anons, Canonical k) :
      Canonical (.node nm v (named ++ anons))

theorem map_treeOf {ks : List Tree} (hn : ∀ k ∈ ks, k.name = [])
    (h : ∀ k ∈ ks, ∀ nm, treeOf nm (nodeToVar .default k) = .node nm k.value k.kids) :
    (ks.map (nodeToVar .default)).map (treeOf []) = ks := by
  rw [List.map_map]
  refine (List.map_congr_left fun k hk => ?_).trans (List.map_id ks)
  rw [Function.comp_apply, h k hk, ← hn k hk, Tree.eta]
  rfl

theorem exported_names {named : List Tree} (hn : ∀ k ∈ named, k.name ≠ [] ∧ k.name ≠ valueKey) :
    ∀ p ∈ named.map Tree.exported, p.1 ≠ [] ∧ p.1 ≠ valueKey := List.forall_mem_map.mpr hn

theorem exported_anonymous {anons : List Tree} (ha : ∀ k ∈ anons, k.name = []) :
    ∀ p ∈ anons.map Tree.exported, p.1 = [] := List.forall_mem_map.mpr ha

theorem not_valueKey {named anons : List Tree} (hn : ∀ k ∈ named, k.name ≠ [] ∧ k.name ≠ valueKey)
    (ha : ∀ k ∈ anons, k.name = []) :
    ∀ p ∈ (named ++ anons).map Tree.exported, p.1 ≠ valueKey := by
  intro p hp
  rw [List.map_append] at hp
  rcases List.mem_append.mp hp with hp | hp
  · exact (exported_names hn p hp).2
  · rw [exported_anonymous ha p hp]
    exact valueKey_ne.symm

/-- Children with distinct names, then anonymous ones, as an exporter groups them. -/
theorem group_named {β : Type} (g : Tree → β) {named anons : List Tree}
    (hd : (named.map Tree.name).Nodup) (hn : ∀ k ∈ named, k.name ≠ []) (ha : ∀ k ∈ anons, k.name = []) :
    namedFirsts [] ((named ++ anons).map fun k => (k.name, g k)) =
        named.map (fun k => (k.name, g k)) ∧
      anonymous ((named ++ anons).map fun k => (k.name, g k)) = anons.map g := by
  have hnamed : ∀ p ∈ named.map fun k => (k.name, g k), p.1 ≠ [] := List.forall_mem_map.mpr hn
  have hanon : ∀ p ∈ anons.map fun k => (k.name, g k), p.1 = [] := List.forall_mem_map.mpr ha
  have hfilter : ((named ++ anons).map fun k => (k.name, g k)).filter (fun p => p.1 ≠ []) =
      named.map fun k => (k.name, g k) := by
    rw [List.map_append, List.filter_append,
      List.filter_eq_self.mpr fun p hp => by simpa using hnamed p hp,
      List.filter_eq_nil_iff.mpr fun p hp => by simpa using hanon p hp, List.append_nil]
  constructor
  · rw [namedFirsts_distinct _ fun p _ => .inl List.not_mem_nil, hfilter]
    rw [hfilter, List.map_map]
    exact hd
  · rw [List.map_append, anonymous_append hnamed hanon, List.map_map]
    rfl

/-- The dictionary of a node with distinct names, then anonymous children. -/
theorem dictOf_canonical {v : Var} {named anons : List Tree} (hd : (named.map Tree.name).Nodup)
    (hn : ∀ k ∈ named, k.name ≠ [] ∧ k.name ≠ valueKey) (ha : ∀ k ∈ anons, k.name = []) :
    dictOf v ((named ++ anons).map Tree.exported) = valueEntry v ++ named.map Tree.exported ++
      anonymousEntry (anons.map (nodeToVar .default)) := by
  obtain ⟨hfirsts, hrest⟩ := group_named (nodeToVar .default) hd (fun k hk => (hn k hk).1) ha
  rw [dictOf_eq (not_valueKey hn ha)]
  exact congrArg₂ (fun a b => valueEntry v ++ a ++ anonymousEntry b) hfirsts hrest

theorem entryKids_named {named : List Tree} (hn : ∀ k ∈ named, k.name ≠ [] ∧ k.name ≠ valueKey)
    (h : ∀ k ∈ named, ∀ nm, treeOf nm (nodeToVar .default k) = .node nm k.value k.kids) :
    (named.map Tree.exported).flatMap entryKids = named := by
  induction named with
  | nil => rfl
  | cons k named ih =>
    rw [List.forall_mem_cons] at hn h
    have hk : entryKids k.exported = [k] := by
      rw [Tree.exported, entryKids]
      simp only
      rw [if_neg hn.1.2, if_neg hn.1.1, h.1, Tree.eta]
    rw [List.map_cons, List.flatMap_cons, ih hn.2 h.2, hk]
    rfl

theorem entryKids_valueEntry (v : Var) : (valueEntry v).flatMap entryKids = [] := by
  unfold valueEntry
  split_ifs
  · rfl
  · simp [entryKids]

theorem entryKids_anonymousEntry (vs : List Var) :
    (anonymousEntry vs).flatMap entryKids = vs.map (treeOf []) := by
  unfold anonymousEntry
  split_ifs with h
  · rw [List.isEmpty_iff.mp h]
    rfl
  · simp [entryKids, valueKey_ne.symm]

theorem lookup_valueEntry {v : Var} {d : List (Str × Var)} (h : ∀ p ∈ d, p.1 ≠ valueKey) :
    ((valueEntry v ++ d).lookup valueKey).getD .none = v := by
  have hnone : d.lookup valueKey = none := by
    rw [← Option.not_isSome_iff_eq_none, lookup_isSome]
    rintro hm
    obtain ⟨p, hp, he⟩ := List.mem_map.mp hm
    exact h p hp he
  unfold valueEntry
  split_ifs with hv
  · rw [List.nil_append, hnone]
    cases v <;> first | rfl | cases hv
  · simp

theorem treeOf_nodeToVar {t : Tree} (h : t.Canonical) :
    ∀ nm, treeOf nm (nodeToVar .default t) = .node nm t.value t.kids := by
  induction h with
  | leaf hv => intro nm; rw [nodeToVar_leaf, treeOf_leaf hv]; rfl
  | @list name kids hne hn _ ih =>
    intro nm
    obtain ⟨k, ks, rfl⟩ := List.exists_cons_of_ne_nil hne
    rw [nodeToVar_list (hn k (by simp)), treeOf_list, map_treeOf hn ih]
    rfl
  | @dict name v named anons _ hne hd hn ha _ _ ih ih' =>
    intro nm
    obtain ⟨k, ks, rfl⟩ := List.exists_cons_of_ne_nil hne
    have hrest : ∀ p ∈ (k :: ks).map Tree.exported ++ anonymousEntry (anons.map (nodeToVar .default)),
        p.1 ≠ valueKey := by
      intro p hp
      rcases List.mem_append.mp hp with hp | hp
      · exact (exported_names hn p hp).2
      · rw [(mem_anonymousEntry hp).2]
        exact valueKey_ne.symm
    have hdict : nodeToVar .default (.node name v (k :: ks ++ anons)) =
        .dict (dictOf v ((k :: ks ++ anons).map Tree.exported)) := nodeToVar_dict (hn k (by simp)).1
    rw [hdict, treeOf_dict nm (dictOf_nodup (not_valueKey hn ha)), dictOf_canonical hd hn ha,
      List.append_assoc, lookup_valueEntry hrest, List.flatMap_append, List.flatMap_append,
      entryKids_valueEntry, entryKids_named hn ih, entryKids_anonymousEntry, map_treeOf ha ih']
    rfl

/-- **A canonical tree comes back from its value exactly.** -/
theorem import_export_canonical {t : Tree} (h : t.Canonical) (nm : Str) :
    VarS.importNode .default (.blank nm) (nodeToVar .default t) = .node nm t.value t.kids := by
  rw [importNode_blank, treeOf_nodeToVar h]
  rfl

/-- A node with an own value, a named list, and two anonymous children. -/
theorem import_export_canonical_sample :
    let t := Tree.node (ascii "x") (.int 1) [
      .node (ascii "a") .none [.node [] (.int 2) []], .node [] (.int 3) [], .node [] (.int 4) []]
    VarS.importNode .default (.blank (ascii "y")) (nodeToVar .default t) =
      .node (ascii "y") t.value t.kids := by
  refine import_export_canonical (@Tree.Canonical.dict _ _ [_] [_, _] rfl (by simp) (by simp)
    (by decide) (by decide) ?_ ?_) _
  · rintro k hk
    obtain rfl := List.mem_singleton.mp hk
    refine .list (by simp) (by simp) fun k hk => ?_
    obtain rfl := List.mem_singleton.mp hk
    exact .leaf rfl
  · rintro k hk
    simp only [List.mem_cons, List.not_mem_nil, or_false] at hk
    rcases hk with rfl | rfl <;> exact .leaf rfl

/-! ## From values to trees and back -/

/-- A value, stored in a fresh node and read again. -/
def transported (v : Var) : Var := nodeToVar .default (treeOf [] v)

theorem nodeToVar_treeOf {v : Var} (h : v.WF) (nm : Str) :
    nodeToVar .default (treeOf nm v) = transported v := by
  rw [transported]
  cases v with
  | list l => rw [treeOf_list, treeOf_list]; rfl
  | dict d =>
    rw [treeOf_dict _ (Var.WF_dict.mp h).1, treeOf_dict _ (Var.WF_dict.mp h).1]
    rfl
  | _ => rfl

theorem transported_leaf {v : Var} (h : v.isContainer = false) : transported v = v := by
  rw [transported, treeOf_leaf h, nodeToVar_leaf]

theorem transported_nil : transported (.list []) = .none := by
  rw [transported, treeOf_list]
  rfl

theorem transported_list {l : List Var} (hne : l ≠ []) :
    transported (.list l) = .list (l.map transported) := by
  obtain ⟨v, l, rfl⟩ := List.exists_cons_of_ne_nil hne
  rw [transported, treeOf_list, List.map_cons, nodeToVar_list (treeOf_name _ _), ← List.map_cons,
    List.map_map]
  rfl

/-- What becomes of an entry. -/
def transportedEntry (q : Str × Var) : Option (Str × Var) :=
  if q.1 = valueKey then if q.2.isNull then none else some q
  else if q.1 = [] then
    match q.2 with
    | .list (v :: l) => some ([], .list ((v :: l).map transported))
    | _ => none
  else some (q.1, transported q.2)

theorem transportedEntry_key {q p : Str × Var} (h : transportedEntry q = some p) : p.1 = q.1 := by
  unfold transportedEntry at h
  split_ifs at h with hv hn ha
  · rw [Option.some.inj h]
  · split at h
    · rw [← Option.some.inj h, ha]
    · cases h
  · rw [← Option.some.inj h]

/-- The anonymous children of an entry, exported. -/
def anonymousVars (q : Str × Var) : List Var :=
  if q.1 = [] then
    match q.2 with
    | .list l => l.map transported
    | _ => []
  else []

section Entries

variable {d : List (Str × Var)}

theorem entryKids_exported {q : Str × Var} (h : q.2.WF) : (entryKids q).map Tree.exported =
    if q.1 = valueKey then [] else if q.1 = [] then (anonymousVars q).map fun v => ([], v)
    else [(q.1, transported q.2)] := by
  unfold entryKids
  split_ifs with hv ha
  · rfl
  · rw [anonymousVars, if_pos ha]
    cases hq : q.2 with
    | list l =>
      simp only [List.map_map]
      refine List.map_congr_left fun v _ => ?_
      simp [Tree.exported, treeOf_name, transported]
    | _ => rfl
  · simp [Tree.exported, treeOf_name, nodeToVar_treeOf h]

theorem exported_named (h : ∀ q ∈ d, q.2.WF) :
    ((d.flatMap entryKids).map Tree.exported).filter (fun p => p.1 ≠ []) =
      (d.filter fun q => q.1 ≠ valueKey ∧ q.1 ≠ []).map fun q => (q.1, transported q.2) := by
  induction d with
  | nil => rfl
  | cons q d ih =>
    rw [List.forall_mem_cons] at h
    rw [List.flatMap_cons, List.map_append, List.filter_append, ih h.2, entryKids_exported h.1]
    by_cases hv : q.1 = valueKey
    · simp [hv]
    · by_cases ha : q.1 = []
      · simp [ha, valueKey_ne.symm]
      · simp [hv, ha]

theorem exported_anonymousVars (h : ∀ q ∈ d, q.2.WF) :
    anonymous ((d.flatMap entryKids).map Tree.exported) = d.flatMap anonymousVars := by
  induction d with
  | nil => rfl
  | cons q d ih =>
    rw [List.forall_mem_cons] at h
    have hq : anonymous ((entryKids q).map Tree.exported) = anonymousVars q := by
      rw [entryKids_exported h.1, anonymous]
      by_cases hv : q.1 = valueKey
      · simp [hv, anonymousVars, valueKey_ne]
      · by_cases ha : q.1 = []
        · rw [if_neg hv, if_pos ha, List.filter_eq_self.mpr (List.forall_mem_map.mpr (by simp)),
            List.map_map]
          exact List.map_id _
        · simp [hv, ha, anonymousVars]
    rw [List.flatMap_cons, List.flatMap_cons, ← hq, ← ih h.2, List.map_append, anonymous, anonymous,
      anonymous, List.filter_append, List.map_append]

theorem kids_not_valueKey {p : Str × Var} (h : p ∈ (d.flatMap entryKids).map Tree.exported) :
    p.1 ≠ valueKey := by
  obtain ⟨k, hk, rfl⟩ := List.mem_map.mp h
  obtain ⟨q, -, hk⟩ := List.mem_flatMap.mp hk
  intro he
  have hq : q.1 = valueKey := (entryKids_name hk).symm.trans he
  rw [entryKids, if_pos hq] at hk
  cases hk

/-- With distinct keys, one entry gives everything that its key gives. -/
theorem flatMap_of_key {β : Type} {f : Str × Var → List β} (hnd : (d.map Prod.fst).Nodup)
    {q : Str × Var} (hq : q ∈ d) (hf : ∀ p, p.1 ≠ q.1 → f p = []) : d.flatMap f = f q := by
  obtain ⟨a, b, rfl⟩ := List.append_of_mem hq
  rw [List.map_append, List.map_cons, List.nodup_middle, List.nodup_cons, List.mem_append] at hnd
  rw [not_or] at hnd
  have hnil : ∀ l : List (Str × Var), q.1 ∉ l.map Prod.fst → l.flatMap f = [] := fun l hl =>
    List.flatMap_eq_nil_iff.mpr fun p hp => hf p fun he => hl (List.mem_map.mpr ⟨p, hp, he⟩)
  rw [List.flatMap_append, List.flatMap_cons, hnil a hnd.1.1, hnil b hnd.1.2, List.nil_append,
    List.append_nil]

theorem mem_anonymousEntry_iff (hnd : (d.map Prod.fst).Nodup) {p : Str × Var} :
    p ∈ anonymousEntry (d.flatMap anonymousVars) ↔
      ∃ q ∈ d, q.1 = [] ∧ transportedEntry q = some p := by
  have hother : ∀ p : Str × Var, p.1 ≠ [] → anonymousVars p = [] := fun p hp => by
    rw [anonymousVars, if_neg hp]
  by_cases hm : [] ∈ d.map Prod.fst
  · obtain ⟨q, hq, he⟩ := List.mem_map.mp hm
    have hall : d.flatMap anonymousVars = anonymousVars q :=
      flatMap_of_key hnd hq fun p hp => hother p (he ▸ hp)
    have hone : p ∈ anonymousEntry (anonymousVars q) ↔ transportedEntry q = some p := by
      rw [anonymousVars, if_pos he, transportedEntry, if_neg (he ▸ valueKey_ne.symm), if_pos he]
      cases q.2 with
      | list l => cases l <;> simp [anonymousEntry, eq_comm]
      | _ => simp [anonymousEntry]
    rw [hall, hone]
    refine ⟨fun h => ⟨q, hq, he, h⟩, ?_⟩
    rintro ⟨q', hq', he', h⟩
    rwa [List.inj_on_of_nodup_map hnd hq hq' (he.trans he'.symm)]
  · have hnone : ∀ q ∈ d, q.1 ≠ [] := fun q hq he => hm (List.mem_map.mpr ⟨q, hq, he⟩)
    rw [List.flatMap_eq_nil_iff.mpr fun q hq => hother q (hnone q hq)]
    refine ⟨fun h => (by cases h), ?_⟩
    rintro ⟨q, hq, he, -⟩
    exact absurd he (hnone q hq)

theorem mem_valueEntry_iff (hnd : (d.map Prod.fst).Nodup) {p : Str × Var} :
    p ∈ valueEntry ((d.lookup valueKey).getD .none) ↔
      ∃ q ∈ d, q.1 = valueKey ∧ transportedEntry q = some p := by
  constructor
  · intro h
    obtain ⟨hnull, rfl⟩ := mem_valueEntry h
    cases hl : d.lookup valueKey with
    | none => rw [hl] at hnull; cases hnull
    | some v =>
      rw [hl, Option.getD_some] at hnull
      exact ⟨_, mem_of_lookup hl, rfl, by simp [transportedEntry, hnull]⟩
  · rintro ⟨⟨k, v⟩, hq, rfl, h⟩
    rw [transportedEntry, if_pos rfl] at h
    split_ifs at h with hnull
    rw [lookup_of_mem hnd hq, Option.getD_some, valueEntry, if_neg hnull, ← Option.some.inj h]
    exact List.mem_singleton_self _

/-- The entries that come back from the children of a dictionary. -/
theorem mem_dictOf_entries (h : (Var.dict d).WF) {p : Str × Var} :
    p ∈ dictOf ((d.lookup valueKey).getD .none) ((d.flatMap entryKids).map Tree.exported) ↔
      ∃ q ∈ d, transportedEntry q = some p := by
  obtain ⟨hnd, hwf⟩ := Var.WF_dict.mp h
  have hnamed : namedFirsts [] ((d.flatMap entryKids).map Tree.exported) =
      (d.filter fun q => q.1 ≠ valueKey ∧ q.1 ≠ []).map fun q => (q.1, transported q.2) := by
    rw [namedFirsts_distinct _ fun p _ => .inl List.not_mem_nil, exported_named hwf]
    rw [exported_named hwf, List.map_map]
    exact hnd.sublist (List.filter_sublist.map _)
  have hmem : p ∈ ((d.filter fun q => q.1 ≠ valueKey ∧ q.1 ≠ []).map fun q =>
      (q.1, transported q.2)) ↔
      ∃ q ∈ d, (q.1 ≠ valueKey ∧ q.1 ≠ []) ∧ transportedEntry q = some p := by
    simp only [List.mem_map, List.mem_filter, decide_eq_true_eq, and_assoc]
    refine exists_congr fun q => and_congr_right fun _ => and_congr_right fun hv =>
      and_congr_right fun ha => ?_
    rw [transportedEntry, if_neg hv, if_neg ha, Option.some.injEq]
  rw [dictOf_eq fun p hp => kids_not_valueKey hp, hnamed, exported_anonymousVars hwf,
    List.mem_append, List.mem_append, mem_valueEntry_iff hnd, hmem, mem_anonymousEntry_iff hnd]
  constructor
  · rintro ((⟨q, hq, -, h⟩ | ⟨q, hq, -, h⟩) | ⟨q, hq, -, h⟩) <;> exact ⟨q, hq, h⟩
  · rintro ⟨q, hq, h⟩
    by_cases hv : q.1 = valueKey
    · exact .inl (.inl ⟨q, hq, hv, h⟩)
    · by_cases ha : q.1 = []
      · exact .inr ⟨q, hq, ha, h⟩
      · exact .inl (.inr ⟨q, hq, ⟨hv, ha⟩, h⟩)

/-- A dictionary is what comes back when every entry does. -/
theorem eqv_dictOf_entries (h : (Var.dict d).WF) :
    (Var.dict d).eqv (.dict (dictOf ((d.lookup valueKey).getD .none)
      ((d.flatMap entryKids).map Tree.exported))) = true ↔
      ∀ q ∈ d, ∃ w, transportedEntry q = some (q.1, w) ∧ q.2.eqv w = true := by
  have hnd := (Var.WF_dict.mp h).1
  have hmem : ∀ p, _ ↔ _ := fun p => @mem_dictOf_entries d h p
  have hnd' := @dictOf_nodup ((d.lookup valueKey).getD .none) _
    fun p hp => @kids_not_valueKey d p hp
  generalize dictOf _ _ = d' at hmem hnd'
  rw [Var.eqv_dict_iff hnd hnd']
  · refine forall₂_congr fun q hq => exists_congr fun w => and_congr_left fun _ => ?_
    rw [hmem]
    refine ⟨?_, fun he => ⟨q, hq, he⟩⟩
    rintro ⟨q', hq', he⟩
    have hk := transportedEntry_key he
    obtain rfl := List.inj_on_of_nodup_map hnd hq hq' hk
    exact he
  · intro p hp
    obtain ⟨q, hq, he⟩ := (hmem p).mp hp
    exact List.mem_map.mpr ⟨q, hq, (transportedEntry_key he).symm⟩

end Entries

/-- What a tree holds: no empty container, and no dictionary that its own keys make ambiguous. -/
inductive Var.Representable : Var → Prop
  | scalar {v : Var} (hc : v.isContainer = false) (h : v.eqv v = true) : Representable v
  | list {l : List Var} (hne : l ≠ []) (h : ∀ v ∈ l, Representable v) : Representable (.list l)
  | dict {d : List (Str × Var)}
      (hfirst : ∃ p, d.find? (fun p => p.1 ≠ valueKey) = some p ∧ p.1 ≠ [])
      (hvalue : ∀ v, (valueKey, v) ∈ d → v.isNull = false ∧ v.eqv v = true)
      (hanon : ∀ v, ([], v) ∈ d → ∃ l, v = .list l)
      (h : ∀ p ∈ d, p.1 ≠ valueKey → Representable p.2) : Representable (.dict d)

theorem representable_leaf {v : Var} (h : v.isContainer = false) :
    v.Representable ↔ v.eqv v = true := by
  refine ⟨fun hr => ?_, .scalar h⟩
  cases hr with
  | scalar _ h => exact h
  | list => cases h
  | dict => cases h

theorem representable_dict {d : List (Str × Var)} : (Var.dict d).Representable ↔
    (∃ p, d.find? (fun p => p.1 ≠ valueKey) = some p ∧ p.1 ≠ []) ∧
      ∀ q ∈ d, (q.1 = valueKey → q.2.isNull = false ∧ q.2.eqv q.2 = true) ∧
        (q.1 = [] → ∃ l, q.2 = .list l) ∧ (q.1 ≠ valueKey → q.2.Representable) := by
  constructor
  · intro hr
    cases hr with
    | scalar hc => cases hc
    | dict hfirst hvalue hanon h =>
      refine ⟨hfirst, fun q hq => ⟨fun he => hvalue q.2 ?_, fun he => hanon q.2 ?_, h q hq⟩⟩
      · rwa [← he]
      · rwa [← he]
  · rintro ⟨hfirst, h⟩
    exact .dict hfirst (fun v hv => (h _ hv).1 rfl) (fun v hv => (h _ hv).2.1 rfl)
      fun q hq => (h q hq).2.2

/-- A dictionary is not equal to its own `_value`. -/
theorem not_eqv_value (v : Var) : ∀ {d : List (Str × Var)}, v = .dict d → v.WF →
    ∀ {w : Var}, (valueKey, w) ∈ d → v.eqv w = false := by
  induction v using Var.ind with
  | h v ih =>
    rintro d rfl hwf w hw
    rw [← Bool.not_eq_true]
    intro he
    cases w with
    | dict d' =>
      have he' := he
      rw [Var.eqv, Bool.and_eq_true, Var.eqvDict_iff] at he'
      obtain ⟨w', hw', heq⟩ := he'.2 _ hw
      rw [ih _ (Var.mem_items_dict hw) rfl ((Var.WF_dict.mp hwf).2 _ hw) (mem_of_lookup hw')] at heq
      cases heq
    | _ => cases he

/-- An entry comes back when it is representable where it stands. -/
theorem transportedEntry_iff {q : Str × Var}
    (ih : q.2.eqv (transported q.2) = true ↔ q.2.Representable) :
    (∃ w, transportedEntry q = some (q.1, w) ∧ q.2.eqv w = true) ↔
      (q.1 = valueKey → q.2.isNull = false ∧ q.2.eqv q.2 = true) ∧
      (q.1 = [] → ∃ l, q.2 = .list l) ∧ (q.1 ≠ valueKey → q.2.Representable) := by
  obtain ⟨k, v⟩ := q
  simp only at ih ⊢
  by_cases hv : k = valueKey
  · subst hv
    simp only [transportedEntry, valueKey_ne, ne_eq, not_true_eq_false, false_implies, and_true,
      forall_const, if_true]
    cases v.isNull <;> simp
  · by_cases ha : k = []
    · subst ha
      simp only [transportedEntry, valueKey_ne.symm, ne_eq, not_false_eq_true, false_implies,
        true_and, forall_const, if_true, if_false, ← ih]
      cases v with
      | list l =>
        cases l with
        | nil =>
          rw [transported_nil]
          refine ⟨?_, fun h => (by cases h.2)⟩
          rintro ⟨w, hw, -⟩
          cases hw
        | cons v l => simp [transported_list]
      | _ => simp
    · simp [transportedEntry, hv, ha, ih]

/-- The first child comes from the first entry that is not `_value`, when every entry comes back. -/
theorem first_entry {d : List (Str × Var)}
    (h : ∀ q ∈ d, ∃ w, transportedEntry q = some (q.1, w) ∧ q.2.eqv w = true) :
    (d.flatMap entryKids).head?.map Tree.name =
      (d.find? fun p => p.1 ≠ valueKey).map Prod.fst := by
  induction d with
  | nil => rfl
  | cons q d ih =>
    rw [List.forall_mem_cons] at h
    obtain ⟨w, hw, -⟩ := h.1
    by_cases hv : q.1 = valueKey
    · rw [List.flatMap_cons, List.find?_cons_of_neg (by simpa using hv), ← ih h.2, entryKids,
        if_pos hv, List.nil_append]
    · rw [List.flatMap_cons, List.find?_cons_of_pos (by simpa using hv)]
      rw [transportedEntry, if_neg hv] at hw
      rw [entryKids, if_neg hv]
      split_ifs at hw ⊢ with ha
      · split at hw
        · rename_i v l hq
          simp [hq, treeOf_name, ha]
        · cases hw
      · simp [treeOf_name]

theorem eqv_transported {v : Var} : v.WF → (v.eqv (transported v) = true ↔ v.Representable) := by
  induction v using Var.ind with
  | h v ih =>
    intro hwf
    cases v with
    | list l =>
      have hl := fun x hx => ih x hx (Var.WF_list.mp hwf x hx)
      cases l with
      | nil =>
        refine ⟨fun he => ?_, fun hr => ?_⟩
        · simp [transported, treeOf_list, nodeToVar_leaf, Var.eqv] at he
        · cases hr with
          | scalar hc => cases hc
          | list hne => exact absurd rfl hne
      | cons x l =>
        rw [transported_list (by simp), Var.eqv, Var.eqvList_iff]
        refine ⟨fun he => .list (by simp) fun y hy => (hl y hy).mp (he y hy), fun hr y hy => ?_⟩
        cases hr with
        | scalar hc => cases hc
        | list _ h => exact (hl y hy).mpr (h y hy)
    | dict d =>
      obtain ⟨hnd, hwf'⟩ := Var.WF_dict.mp hwf
      have hd : ∀ q ∈ d, _ ↔ _ := fun q hq =>
        transportedEntry_iff (ih q.2 (Var.mem_items_dict hq) (hwf' q hq))
      have hback := eqv_dictOf_entries hwf
      rw [representable_dict, ← forall₂_congr hd, ← hback, transported, treeOf_dict _ hnd]
      have hfirst := fun h => first_entry (hback.mp h)
      cases hk : d.flatMap entryKids with
      | nil =>
        rw [hk] at hfirst
        refine ⟨fun he => ?_, ?_⟩
        · rw [nodeToVar_leaf] at he
          cases hl : d.lookup valueKey with
          | none => rw [hl] at he; cases he
          | some w =>
            rw [hl, Option.getD_some, not_eqv_value _ rfl hwf (mem_of_lookup hl)] at he
            cases he
        · rintro ⟨⟨p, hp, -⟩, he⟩
          have hnone := hfirst he
          rw [hp] at hnone
          cases hnone
      | cons k ks =>
        rw [hk] at hfirst
        by_cases ha : k.name = []
        · rw [nodeToVar_list ha]
          refine ⟨fun he => (by cases he), ?_⟩
          rintro ⟨⟨p, hp, hne⟩, he⟩
          have hsome := hfirst he
          rw [hp] at hsome
          exact absurd (ha.symm.trans (Option.some.inj hsome)).symm hne
        · rw [nodeToVar_dict ha]
          refine ⟨fun he => ⟨?_, he⟩, fun h => h.2⟩
          have hsome := hfirst he
          obtain ⟨p, hp, hpk⟩ := Option.map_eq_some_iff.mp hsome.symm
          exact ⟨p, hp, hpk ▸ ha⟩
    | _ => rw [transported_leaf rfl, representable_leaf rfl]

/-- **A value comes back from a fresh node exactly when it is representable.** -/
theorem transport_iff {v : Var} (h : v.WF) (nm : Str) :
    v.eqv (nodeToVar .default (VarS.importNode .default (.blank nm) v)) = true ↔
      v.Representable := by
  have hname : ∀ t : Tree, nodeToVar .default (.node nm t.value t.kids) = nodeToVar .default t := by
    rintro ⟨nm', v, ks⟩
    rfl
  rw [importNode_blank, hname, nodeToVar_treeOf h, eqv_transported h]

/-- A request with an own value, a named list and anonymous children is representable. -/
theorem transport_iff_sample :
    let v := Var.dict [(ascii "a", .list [.int 1, .bool true]), ([], .list [.string (ascii "x")]),
      (valueKey, .double ⟨4607182418800017408⟩)]
    v.eqv (nodeToVar .default (VarS.importNode .default (.blank (ascii "n")) v)) = true ↔
      v.Representable :=
  transport_iff (Var.WF_dict.mpr ⟨by decide, by simp [Var.WF, Var.WFList]⟩) _

/-- An empty list comes back as `NONE`. -/
theorem empty_list_lost : Var.eqv (.list [])
    (nodeToVar .default (VarS.importNode .default (.blank (ascii "n")) (.list []))) = false := by
  rw [importNode_blank, treeOf_list]
  rfl

end VersatileEngine
