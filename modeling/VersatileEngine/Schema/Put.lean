import VersatileEngine.Node.Mirror
import VersatileEngine.Schema.RoundTrip

/-!
# VersatileEngine.Schema.Put

`node.put` of `node_protocol.cpp`: a request tree replaces what is stored at a node.

* `nodePut`      — the request, exported and imported with every option set.
* `Overwritten`  — when nothing of the stored tree can be read any more. The exporter reads a node as
  a list or as a dictionary by its first child, and `copy` lets stored children keep their places.
* `put_overwrites` — the exact condition; `put_keeps_order` shows a request that is read as a list
  because a stored anonymous child stays first.
-/

namespace VersatileEngine

/-- The options of `node.put`. -/
def ImportOptions.put : ImportOptions := ⟨true, true, true⟩

/-- `node.put`: the target afterwards, for the exported tree of the request. -/
def nodePut (target : Tree) (tree : Var) : Tree := VarS.importNode .put target tree

/-! ## The trees of requests -/

/-- Children whose names a dictionary can tell apart. -/
structure PlainKids (ks : List Tree) : Prop where
  names : ∀ k ∈ ks, k.name ≠ valueKey
  distinct : ((ks.map Tree.name).filter fun nm => nm ≠ []).Nodup

/-- The same on every level. -/
inductive Tree.Plain : Tree → Prop
  | intro {t : Tree} (kids : PlainKids t.kids) (h : ∀ k ∈ t.kids, Plain k) : Plain t

theorem PlainKids.perm {ks ls : List Tree} (h : PlainKids ls)
    (hp : (ks.map Tree.name).Perm (ls.map Tree.name)) : PlainKids ks := by
  refine ⟨fun k hk he => ?_, ((hp.filter _).nodup_iff).mpr h.distinct⟩
  obtain ⟨l, hl, hn⟩ := List.mem_map.mp (hp.mem_iff.mp (List.mem_map_of_mem hk))
  exact h.names l hl (hn.trans he)

theorem PlainKids.exported {ks : List Tree} (h : PlainKids ks) :
    ∀ p ∈ ks.map Tree.exported, p.1 ≠ valueKey := List.forall_mem_map.mpr h.names

/-- There is one child of a name. -/
theorem PlainKids.named {t : Tree} (h : PlainKids t.kids) {nm : Str} (hn : nm ≠ []) :
    (t.named nm).length ≤ 1 := by
  have hle := List.nodup_iff_count_le_one.mp h.distinct nm
  rwa [List.count_filter (by simpa using hn), Tree.count_names] at hle

/-- What a request is parsed into. -/
theorem treeOf_plain {v : Var} : ∀ nm, v.WF → (treeOf nm v).Plain := by
  induction v using Var.ind with
  | h v ih =>
    intro nm hwf
    cases v with
    | list l =>
      rw [treeOf_list]
      refine .intro ⟨fun k hk => ?_, ?_⟩ fun k hk => ?_
      · obtain ⟨x, -, rfl⟩ := List.mem_map.mp hk
        rw [treeOf_name]
        exact valueKey_ne.symm
      · rw [Tree.kids_node, List.filter_eq_nil_iff.mpr]
        · exact List.nodup_nil
        · simp [treeOf_name]
      · obtain ⟨x, hx, rfl⟩ := List.mem_map.mp hk
        exact ih x hx [] (Var.WF_list.mp hwf x hx)
    | dict d =>
      obtain ⟨hnd, hwf'⟩ := Var.WF_dict.mp hwf
      rw [treeOf_dict nm hnd]
      refine .intro ⟨fun k hk => ?_, ?_⟩ fun k hk => ?_
      · exact kids_not_valueKey (List.mem_map_of_mem hk)
      · refine List.nodup_iff_count_le_one.mpr fun key => ?_
        by_cases hkey : key = []
        · rw [List.count_eq_zero.mpr]
          · exact Nat.zero_le 1
          · simp [hkey]
        rw [List.count_filter (by simpa using hkey), List.count, List.countP_map,
          List.countP_eq_length_filter, Tree.kids_node, List.filter_flatMap]
        have hother : ∀ p : Str × Var, p.1 ≠ key →
            (entryKids p).filter ((fun nm => nm == key) ∘ Tree.name) = [] := fun p hp =>
          List.filter_eq_nil_iff.mpr fun k hk => by simpa [entryKids_name hk] using hp
        by_cases hm : key ∈ d.map Prod.fst
        · obtain ⟨q, hq, rfl⟩ := List.mem_map.mp hm
          rw [flatMap_of_key hnd hq hother]
          refine Nat.le_trans (List.length_filter_le _ _) ?_
          rw [entryKids]
          split_ifs
          · exact Nat.zero_le 1
          · exact Nat.le_refl 1
        · rw [List.flatMap_eq_nil_iff.mpr fun p hp =>
            hother p fun he => hm (List.mem_map.mpr ⟨p, hp, he⟩)]
          exact Nat.zero_le 1
      · obtain ⟨q, hq, hk⟩ := List.mem_flatMap.mp hk
        unfold entryKids at hk
        split_ifs at hk with hv ha
        · cases hk
        · split at hk
          · rename_i l hl
            have hlist := ih q.2 (Var.mem_items_dict hq) [] (hwf' q hq)
            rw [hl, treeOf_list] at hlist
            cases hlist with
            | intro _ h => exact h k hk
          · cases hk
        · rw [List.mem_singleton.mp hk]
          exact ih _ (Var.mem_items_dict hq) _ (hwf' q hq)
    | _ => exact .intro ⟨fun k hk => (by cases hk), List.nodup_nil⟩ fun k hk => (by cases hk)

/-! ## Comparing two dictionaries -/

theorem anonymous_exported (ks : List Tree) : anonymous (ks.map Tree.exported) =
    (ks.filter fun k => k.name = []).map (nodeToVar .default) := by
  rw [anonymous, List.filter_map, List.map_map]
  rfl

/-- The entries of a node with plain children. -/
theorem mem_dictOf {u : Var} {ks : List Tree} (h : PlainKids ks) {p : Str × Var} :
    p ∈ dictOf u (ks.map Tree.exported) ↔ u.isNull = false ∧ p = (valueKey, u) ∨
      (∃ x ∈ ks, x.name ≠ [] ∧ p = x.exported) ∨
      anonymous (ks.map Tree.exported) ≠ [] ∧
        p = ([], .list (anonymous (ks.map Tree.exported))) := by
  have hnd : (((ks.map Tree.exported).filter fun p => p.1 ≠ []).map Prod.fst).Nodup := by
    have hd := h.distinct
    rw [List.filter_map] at hd
    rw [List.filter_map, List.map_map]
    exact hd
  have hvalue : p ∈ valueEntry u ↔ u.isNull = false ∧ p = (valueKey, u) := by
    refine ⟨mem_valueEntry, ?_⟩
    rintro ⟨hu, rfl⟩
    simp [valueEntry, hu]
  have hanon : p ∈ anonymousEntry (anonymous (ks.map Tree.exported)) ↔
      anonymous (ks.map Tree.exported) ≠ [] ∧
        p = ([], .list (anonymous (ks.map Tree.exported))) := by
    refine ⟨mem_anonymousEntry, ?_⟩
    rintro ⟨hne, rfl⟩
    rw [anonymousEntry, if_neg (by simpa using hne)]
    exact List.mem_singleton_self _
  have hnamed : p ∈ (ks.map Tree.exported).filter (fun p => p.1 ≠ []) ↔
      ∃ x ∈ ks, x.name ≠ [] ∧ p = x.exported := by
    rw [List.mem_filter, List.mem_map]
    constructor
    · rintro ⟨⟨x, hx, rfl⟩, hn⟩
      exact ⟨x, hx, of_decide_eq_true hn, rfl⟩
    · rintro ⟨x, hx, hn, rfl⟩
      exact ⟨⟨x, hx, rfl⟩, decide_eq_true hn⟩
  rw [dictOf_eq h.exported, namedFirsts_distinct hnd fun p _ =>
    .inl List.not_mem_nil, List.mem_append, List.mem_append, hvalue, hnamed, hanon, or_assoc]

/-- What is read at the first tree compares equal to what is read at the second. -/
def ReadsLike (t u : Tree) : Prop := (nodeToVar .default t).eqv (nodeToVar .default u) = true

theorem eqv_dictOf {u v : Var} {ks ls : List Tree} (hl : PlainKids ls)
    (hnames : (ks.map Tree.name).Perm (ls.map Tree.name)) (hnull : u.isNull = v.isNull) :
    (Var.dict (dictOf u (ks.map Tree.exported))).eqv (.dict (dictOf v (ls.map Tree.exported))) =
        true ↔
      (u.isNull = false → u.eqv v = true) ∧
      (∀ x ∈ ks, ∀ y ∈ ls, x.name ≠ [] → x.name = y.name → ReadsLike x y) ∧
      Var.eqvList (anonymous (ks.map Tree.exported)) (anonymous (ls.map Tree.exported)) = true := by
  have hk := hl.perm hnames
  have hlen : (anonymous (ks.map Tree.exported)).length =
      (anonymous (ls.map Tree.exported)).length := by
    have hcount : ∀ l : List Tree, (l.filter fun k => k.name = []).length =
        (l.map Tree.name).count [] := fun l => (Tree.count_names (.node [] .none l) []).symm
    simp only [anonymous_exported, List.length_map, hcount, hnames.count_eq]
  have hempty : anonymous (ks.map Tree.exported) ≠ [] ↔ anonymous (ls.map Tree.exported) ≠ [] := by
    rw [← List.length_pos_iff, ← List.length_pos_iff, hlen]
  have hnd := @dictOf_nodup v _ hl.exported
  have hmem : ∀ p, _ ↔ _ := fun p => @mem_dictOf v ls hl p
  rw [Var.eqv_dict_iff (dictOf_nodup hk.exported) hnd]
  · constructor
    · intro h
      -- the entry of the second dictionary that an entry of the first must be equal to
      have hat : ∀ p ∈ dictOf u (ks.map Tree.exported), ∀ w,
          (p.1, w) ∈ dictOf v (ls.map Tree.exported) → p.2.eqv w = true := by
        intro p hp w hw
        obtain ⟨w', hw', heq⟩ := h p hp
        have hsame := List.inj_on_of_nodup_map hnd hw hw' rfl
        rwa [(Prod.mk.inj hsame).2]
      refine ⟨fun hu => ?_, fun x hx y hy hn hxy => ?_, ?_⟩
      · exact hat (valueKey, u) ((mem_dictOf hk).mpr (.inl ⟨hu, rfl⟩)) v
          ((hmem _).mpr (.inl ⟨hnull ▸ hu, rfl⟩))
      · exact hat x.exported ((mem_dictOf hk).mpr (.inr (.inl ⟨x, hx, hn, rfl⟩))) _
          ((hmem _).mpr (.inr (.inl ⟨y, hy, hxy ▸ hn, Prod.ext hxy rfl⟩)))
      · by_cases he : anonymous (ks.map Tree.exported) = []
        · rw [List.length_eq_zero_iff.mp (hlen.symm.trans (List.length_eq_zero_iff.mpr he)), he]
          rfl
        · exact hat ([], .list _) ((mem_dictOf hk).mpr (.inr (.inr ⟨he, rfl⟩))) (.list _)
            ((hmem _).mpr (.inr (.inr ⟨hempty.mp he, rfl⟩)))
    · rintro ⟨hv, hkids, hanon⟩ p hp
      rcases (mem_dictOf hk).mp hp with ⟨hu, rfl⟩ | ⟨x, hx, hn, rfl⟩ | ⟨hne, rfl⟩
      · exact ⟨v, (hmem _).mpr (.inl ⟨hnull ▸ hu, rfl⟩), hv hu⟩
      · obtain ⟨y, hy, hxy⟩ := List.mem_map.mp (hnames.mem_iff.mp (List.mem_map_of_mem hx))
        exact ⟨_, (hmem _).mpr (.inr (.inl ⟨y, hy, hxy ▸ hn, Prod.ext hxy.symm rfl⟩)),
          hkids x hx y hy hn hxy.symm⟩
      · exact ⟨.list _, (hmem _).mpr (.inr (.inr ⟨hempty.mp hne, rfl⟩)), hanon⟩
  · intro p hp
    rcases (hmem p).mp hp with ⟨hv, rfl⟩ | ⟨y, hy, hn, rfl⟩ | ⟨hne, rfl⟩
    · exact List.mem_map.mpr ⟨_, (mem_dictOf hk).mpr (.inl ⟨hnull ▸ hv, rfl⟩), rfl⟩
    · obtain ⟨x, hx, hxy⟩ := List.mem_map.mp (hnames.mem_iff.mpr (List.mem_map_of_mem hy))
      exact List.mem_map.mpr
        ⟨x.exported, (mem_dictOf hk).mpr (.inr (.inl ⟨x, hx, hxy ▸ hn, rfl⟩)), hxy⟩
    · exact List.mem_map.mpr
        ⟨([], .list _), (mem_dictOf hk).mpr (.inr (.inr ⟨hempty.mpr hne, rfl⟩)), rfl⟩

/-! ## What a put leaves -/

/-- What `update` leaves of a value reads like the new one. -/
def Settles (old new : Var) : Prop := old.eqv new = true ∨ new.eqv new = true

/-- Copying `s` onto `d` leaves nothing of `d` to read: a node with an anonymous first child has its
children in the order of the request; of a node with a named first child some named child lands
first. -/
inductive Overwritten : Tree → Tree → Prop
  | leaf {d s : Tree} (hs : s.kids = []) (hv : Settles d.value s.value) : Overwritten d s
  | list {d s k : Tree} {ks : List Tree} (hs : s.kids = k :: ks) (ha : k.name = [])
      (order : landed Tree.name Tree.name d.kids s.kids = keyed Tree.name s.kids)
      (h : ∀ nm i x, (s.named nm)[i]? = some x → Overwritten (partner d nm i) x) : Overwritten d s
  | dict {d s k : Tree} {ks : List Tree} (hs : s.kids = k :: ks) (hn : k.name ≠ [])
      (first : ∀ q ∈ (landed Tree.name Tree.name d.kids s.kids).head?, q.1.1 ≠ [])
      (order : ∀ i, i < (s.named []).length →
        landing Tree.name Tree.name d.kids s.kids [] i = i)
      (hv : Settles d.value s.value)
      (h : ∀ nm i x, (s.named nm)[i]? = some x → Overwritten (partner d nm i) x) : Overwritten d s

/-- Anonymous children stand last, on every level. -/
inductive Tree.NamedFirst : Tree → Prop
  | intro {t : Tree} (order : t.kids.Pairwise fun a b => a.name = [] → b.name = [])
      (h : ∀ k ∈ t.kids, NamedFirst k) : NamedFirst t

theorem settles_iff {old new : Var} :
    (copyValue true old new).eqv new = true ↔ Settles old new := by
  rw [copyValue, Settles, Bool.true_and]
  split_ifs with h <;> simp [h]

theorem copyValue_isNull (old new : Var) : (copyValue true old new).isNull = new.isNull := by
  rw [copyValue, Bool.true_and]
  split_ifs with h
  · cases old <;> cases new <;> first | rfl | cases h
  · rfl

theorem settles_null {old new : Var} (h : new.isNull = true) : Settles old new := by
  cases new with
  | none => exact .inr rfl
  | _ => cases h

section Copy

variable {d s : Tree}

theorem copyTree_names : ((copyTree true true true s d).kids.map Tree.name).Perm
    (s.kids.map Tree.name) := by
  have hmap : (copyTree true true true s d).kids.map Tree.name =
      (landed Tree.name Tree.name d.kids s.kids).map fun q => q.1.1 := by
    rw [copyTree_landed, List.map_map]
    exact List.map_congr_left fun q _ => by simp
  have hkeys : (keyed Tree.name s.kids).map (fun q => q.1.1) = s.kids.map Tree.name := keyed_names
  rw [hmap, ← hkeys]
  exact (landed_perm Tree.name Tree.name d.kids s.kids).map _

theorem copyTree_leaf (hs : s.kids = []) : (copyTree true true true s d).kids = [] := by
  have hperm := @copyTree_names d s
  rw [hs] at hperm
  exact List.map_eq_nil_iff.mp hperm.eq_nil

/-- The first child that is left. -/
theorem copyTree_first {k : Tree} {ks : List Tree} (hs : s.kids = k :: ks) :
    ∃ q r rs, (landed Tree.name Tree.name d.kids s.kids).head? = some q ∧ r.name = q.1.1 ∧
      (copyTree true true true s d).kids = r :: rs := by
  have hlen := (landed_perm Tree.name Tree.name d.kids s.kids).length_eq
  have hkids := copyTree_landed true d s
  cases hl : landed Tree.name Tree.name d.kids s.kids with
  | nil =>
    rw [hl, hs] at hlen
    cases hlen
  | cons q l =>
    rw [hl, List.map_cons] at hkids
    exact ⟨q, _, _, rfl, by simp, hkids⟩

/-- Read as lists, with the children in the order of the request. -/
theorem reads_list {k : Tree} {ks : List Tree} (hs : s.kids = k :: ks) (ha : k.name = [])
    (order : landed Tree.name Tree.name d.kids s.kids = keyed Tree.name s.kids) :
    ReadsLike (copyTree true true true s d) s ↔ ∀ nm i x, (s.named nm)[i]? = some x →
      ReadsLike (copyTree true true true x (partner d nm i)) x := by
  have hkids := copyTree_landed true d s
  rw [order] at hkids
  obtain ⟨q, r, rs, hq, hr, hrs⟩ := @copyTree_first d s k ks hs
  have hra : r.name = [] := by
    have hfirst : (keyed Tree.name s.kids).head? = some (([], 0), k) := by
      rw [hs, keyed, keyedFrom, List.head?_cons, ha]
      rfl
    rw [order, hfirst] at hq
    rw [hr, ← Option.some.inj hq]
  have hown : s.kids = (keyed Tree.name s.kids).map Prod.snd := (keyed_snd _ _).symm
  rw [ReadsLike, nodeToVar_of_anonymous hs ha, nodeToVar_of_anonymous hrs hra, Var.eqv, hkids,
    List.map_map, hown, List.map_map, ← hown, Var.eqvList_map]
  constructor
  · intro h nm i x hx
    exact h _ (s.mem_keyed_kids.mpr hx)
  · rintro h ⟨⟨nm, i⟩, x⟩ hx
    exact h nm i x (s.mem_keyed_kids.mp hx)

theorem reads_dict {k : Tree} {ks : List Tree} (hp : PlainKids s.kids) (hs : s.kids = k :: ks)
    (hn : k.name ≠ []) (first : ∀ q ∈ (landed Tree.name Tree.name d.kids s.kids).head?, q.1.1 ≠ [])
    (order : ∀ i, i < (s.named []).length →
      landing Tree.name Tree.name d.kids s.kids [] i = i) :
    ReadsLike (copyTree true true true s d) s ↔ Settles d.value s.value ∧
      ∀ nm i x, (s.named nm)[i]? = some x →
        ReadsLike (copyTree true true true x (partner d nm i)) x := by
  obtain ⟨q, r, rs, hq, hr, hrs⟩ := @copyTree_first d s k ks hs
  have hvalue : ((copyTree true true true s d).value.isNull = false →
      (copyTree true true true s d).value.eqv s.value = true) ↔ Settles d.value s.value := by
    rw [copyTree_value, copyValue_isNull, settles_iff]
    refine ⟨fun h => ?_, fun h _ => h⟩
    cases hnull : s.value.isNull with
    | true => exact settles_null hnull
    | false => exact h hnull
  have hlanding : ∀ {i x}, (s.named [])[i]? = some x →
      ((copyTree true true true s d).named [])[i]? =
        some (copyTree true true true x (partner d [] i)) := by
    intro i x hx
    have h := copyTree_landing true d s hx
    rwa [order i (List.getElem?_eq_some_iff.mp hx).1] at h
  rw [ReadsLike, nodeToVar_of_named hs hn, nodeToVar_of_named hrs (hr ▸ first q hq),
    eqv_dictOf hp copyTree_names (by rw [copyTree_value, copyValue_isNull]), hvalue]
  refine and_congr_right fun _ => ?_
  rw [anonymous_exported, anonymous_exported, Var.eqvList_getElem]
  constructor
  · rintro ⟨hnamed, -, hanon⟩ nm i x hx
    by_cases ha : nm = []
    · subst ha
      refine hanon i _ _ ?_ ?_
      · rw [List.getElem?_map]
        exact congrArg _ (hlanding hx)
      · rw [List.getElem?_map]
        exact congrArg _ hx
    · obtain ⟨hmem, hname⟩ := Tree.named_mem _ (copyTree_landing true d s hx)
      obtain ⟨hx', hxn⟩ := s.named_mem hx
      exact hnamed _ hmem x hx' (by rwa [hname]) (hname.trans hxn.symm)
  · intro h
    refine ⟨fun x hx y hy ha hxy => ?_, ?_, fun i v w hv hw => ?_⟩
    · -- there is one child of the name on each side
      have hx' : x ∈ (copyTree true true true s d).named x.name :=
        List.mem_filter.mpr ⟨hx, by simp⟩
      have hy' : y ∈ s.named x.name := List.mem_filter.mpr ⟨hy, by simp [hxy]⟩
      obtain ⟨j, hj⟩ := List.getElem?_of_mem hx'
      obtain ⟨j', hj'⟩ := List.getElem?_of_mem hy'
      obtain ⟨i, y', hi, -, hcopy⟩ := copyTree_landing_surj true d s hj
      have hone := hp.named ha
      have hi0 := (List.getElem?_eq_some_iff.mp hi).1
      have hj0 := (List.getElem?_eq_some_iff.mp hj').1
      obtain rfl : i = j' := by omega
      obtain rfl : y' = y := Option.some.inj (hi.symm.trans hj')
      rw [hcopy]
      exact h _ i y' hi
    · rw [List.length_map, List.length_map]
      exact copyTree_named_length true d s []
    · rw [List.getElem?_map, Option.map_eq_some_iff] at hv hw
      obtain ⟨x, hx, rfl⟩ := hv
      obtain ⟨y, hy, rfl⟩ := hw
      have hcopy := hx.symm.trans (hlanding hy)
      rw [Option.some.inj hcopy]
      exact h [] i y hy

/-- Anonymous children that stand last keep their order. -/
theorem landing_named_first (h : s.kids.Pairwise fun a b => a.name = [] → b.name = []) {i : Nat}
    (hi : i < (s.named []).length) : landing Tree.name Tree.name d.kids s.kids [] i = i := by
  have hmono : ∀ {j k : Nat}, j < k → k < (s.named []).length →
      anchor Tree.name Tree.name d.kids s.kids ([], j) ≤
        anchor Tree.name Tree.name d.kids s.kids ([], k) := fun hjk hk =>
    anchor_last_mono h hjk (by rwa [Tree.count_names])
  exact landing_inPlace hi (fun j hj => hmono hj hi) fun j hj hlt => hmono hj hlt

/-- Anonymous children alone land in their order. -/
theorem landed_anonymous (h : ∀ k ∈ s.kids, k.name = []) :
    landed Tree.name Tree.name d.kids s.kids = keyed Tree.name s.kids := by
  have horder : s.kids.Pairwise fun a b => a.name = [] → b.name = [] :=
    List.pairwise_iff_forall_sublist.mpr fun hsub _ => h _ (hsub.subset (by simp))
  have hnamed : s.named [] = s.kids := List.filter_eq_self.mpr fun k hk => by simpa using h k hk
  have hlen : ∀ t : Tree, (landed Tree.name Tree.name t.kids s.kids).length = s.kids.length := by
    intro t
    rw [(landed_perm Tree.name Tree.name t.kids s.kids).length_eq,
      ← List.length_map (f := Prod.snd), keyed_snd]
  -- whatever the stored children are, the `i`-th lands at place `i`
  have hat : ∀ (t : Tree) (i : Nat) (hi : i < s.kids.length),
      (landed Tree.name Tree.name t.kids s.kids)[i]? = some (([], i), s.kids[i]) := by
    intro t i hi
    have hx : (s.named [])[i]? = some s.kids[i] := by
      rw [hnamed]
      exact List.getElem?_eq_getElem hi
    have hland := landed_landing Tree.name Tree.name t.kids s.kids (s.mem_keyed_kids.mpr hx)
    rw [landing_named_first horder (by rwa [hnamed]), List.filter_eq_self.mpr] at hland
    · exact hland
    · rintro ⟨⟨nm, j⟩, x⟩ hq
      have hmem := (landed_perm Tree.name Tree.name t.kids s.kids).mem_iff.mp hq
      have hx := s.named_mem (s.mem_keyed_kids.mp hmem)
      simpa using hx.2.symm.trans (h x hx.1)
  have hown : keyed Tree.name s.kids = landed Tree.name Tree.name (Tree.blank []).kids s.kids :=
    (landed_nil Tree.name Tree.name s.kids).symm
  rw [hown]
  refine List.ext_getElem? fun i => ?_
  by_cases hi : i < s.kids.length
  · rw [hat d i hi, hat _ i hi]
  · rw [List.getElem?_eq_none (by rw [hlen]; omega), List.getElem?_eq_none (by rw [hlen]; omega)]

end Copy

/-- **Exactly what a put overwrites.** -/
theorem readsLike_copyTree {s : Tree} (hp : s.Plain) : ∀ d,
    (Overwritten d s → ReadsLike (copyTree true true true s d) s) ∧
      (s.NamedFirst → ReadsLike (copyTree true true true s d) s → Overwritten d s) := by
  induction s using Tree.ind with
  | h s ih =>
    intro d
    obtain ⟨hkids, hplain⟩ := hp
    have hmem : ∀ {nm : Str} {i : Nat} {x : Tree}, (s.named nm)[i]? = some x → x ∈ s.kids :=
      fun h => (s.named_mem h).1
    constructor
    · intro h
      cases h with
      | leaf hs hv =>
        have hr : (copyTree true true true s d).kids = [] := copyTree_leaf hs
        rw [ReadsLike, nodeToVar_of_leaf hs, nodeToVar_of_leaf hr, copyTree_value, settles_iff]
        exact hv
      | list hs ha order h =>
        exact (reads_list hs ha order).mpr fun nm i x hx =>
          (ih x (hmem hx) (hplain x (hmem hx)) _).1 (h nm i x hx)
      | dict hs hn first order hv h =>
        exact (reads_dict hkids hs hn first order).mpr ⟨hv, fun nm i x hx =>
          (ih x (hmem hx) (hplain x (hmem hx)) _).1 (h nm i x hx)⟩
    · rintro ⟨horder, hfirst⟩ hr
      have hrec : (∀ nm i x, (s.named nm)[i]? = some x →
          ReadsLike (copyTree true true true x (partner d nm i)) x) →
          ∀ nm i x, (s.named nm)[i]? = some x → Overwritten (partner d nm i) x :=
        fun h nm i x hx => (ih x (hmem hx) (hplain x (hmem hx)) _).2 (hfirst x (hmem hx))
          (h nm i x hx)
      cases hs : s.kids with
      | nil =>
        have hk : (copyTree true true true s d).kids = [] := copyTree_leaf hs
        rw [ReadsLike, nodeToVar_of_leaf hs, nodeToVar_of_leaf hk, copyTree_value,
          settles_iff] at hr
        exact .leaf hs hr
      | cons k ks =>
        by_cases ha : k.name = []
        · have hall : ∀ x ∈ s.kids, x.name = [] := by
            rw [hs] at horder ⊢
            exact List.forall_mem_cons.mpr ⟨ha, fun x hx => (List.pairwise_cons.mp horder).1 x hx ha⟩
          have horder' := @landed_anonymous d s hall
          exact .list hs ha horder' (hrec ((reads_list hs ha horder').mp hr))
        · have hlanding := fun i hi => @landing_named_first d s horder i hi
          have hf : ∀ q ∈ (landed Tree.name Tree.name d.kids s.kids).head?, q.1.1 ≠ [] := by
            -- an anonymous first child would be read as a list
            obtain ⟨q, r, rs, hq, hrn, hrs⟩ := @copyTree_first d s k ks hs
            intro q' hq' he
            rw [hq, Option.mem_some_iff] at hq'
            rw [ReadsLike, nodeToVar_of_anonymous hrs (hrn.trans (hq' ▸ he)),
              nodeToVar_of_named hs ha] at hr
            cases hr
          obtain ⟨hv, h⟩ := (reads_dict hkids hs ha hf hlanding).mp hr
          exact .dict hs ha hf hlanding hv (hrec h)

/-! ## Requests without containers as values -/

/-- No node has a container as its value. -/
inductive Tree.Scalar : Tree → Prop
  | intro {t : Tree} (value : t.value.isContainer = false) (h : ∀ k ∈ t.kids, Scalar k) : Scalar t

/-- The entries of a node, with any children: those with a name, then the anonymous children. -/
theorem dictOf_shape {v : Var} {visible : List (Str × Var)} : ∃ d : List (Str × Var),
    dictOf v visible = d ++ anonymousEntry (anonymous visible) ∧ (d.map Prod.fst).Nodup ∧
      ∀ p ∈ d, p.1 ≠ [] ∧ (p = (valueKey, v) ∨ p ∈ visible) := by
  have hall : ∀ (l d : List (Str × Var)), (∀ p ∈ l, p.1 ≠ [] ∧ p ∈ visible) →
      ((d.map Prod.fst).Nodup ∧ ∀ p ∈ d, p.1 ≠ [] ∧ (p = (valueKey, v) ∨ p ∈ visible)) →
      ((assignAll d l).map Prod.fst).Nodup ∧
        ∀ p ∈ assignAll d l, p.1 ≠ [] ∧ (p = (valueKey, v) ∨ p ∈ visible) := by
    intro l
    induction l with
    | nil => intro d _ h; exact h
    | cons q l ih =>
      intro d hl hd
      rw [List.forall_mem_cons] at hl
      rw [assignAll_cons]
      refine ih _ hl.2 ⟨assign_nodup hd.1, fun p hp => ?_⟩
      rcases mem_assign hp with rfl | hp
      · exact ⟨hl.1.1, .inr hl.1.2⟩
      · exact hd.2 p hp
  obtain ⟨hnd, hmem⟩ := hall (namedFirsts [] visible) (valueEntry v)
    (fun p hp => ⟨(mem_namedFirsts hp).2.1, (mem_namedFirsts hp).1⟩)
    ⟨by unfold valueEntry; split_ifs <;> simp, fun p hp => by
      rw [(mem_valueEntry hp).2]
      exact ⟨valueKey_ne, .inl rfl⟩⟩
  refine ⟨assignAll (valueEntry v) (namedFirsts [] visible), ?_, hnd, hmem⟩
  have hfirst : (if v.isNull then [] else assign [] valueKey v) = valueEntry v := rfl
  rw [dictOf]
  simp only [hfirst, anonymousEntry]
  split_ifs with ha
  · rw [List.append_nil]
  · refine assign_new _ fun hm => ?_
    obtain ⟨p, hp, he⟩ := List.mem_map.mp hm
    exact (hmem p hp).1 he

theorem dictOf_keys {v : Var} {visible : List (Str × Var)} :
    ((dictOf v visible).map Prod.fst).Nodup := by
  obtain ⟨d, hd, hnd, hmem⟩ := @dictOf_shape v visible
  rw [hd, List.map_append, List.nodup_append]
  refine ⟨hnd, ?_, ?_⟩
  · unfold anonymousEntry
    split_ifs <;> simp
  · intro a ha b hb he
    obtain ⟨p, hp, rfl⟩ := List.mem_map.mp ha
    obtain ⟨q, hq, rfl⟩ := List.mem_map.mp hb
    rw [(mem_anonymousEntry hq).2] at he
    exact (hmem p hp).1 he

theorem isContainer_wf {v : Var} (h : v.isContainer = false) : v.WF := by
  cases v <;> trivial

/-- The dictionaries of such a request have distinct keys. -/
theorem nodeToVar_wf {t : Tree} (h : t.Scalar) : (nodeToVar .default t).WF := by
  induction t using Tree.ind with
  | h t ih =>
    obtain ⟨hv, hkids⟩ := h
    have hall : ∀ ks : List Tree, (∀ k ∈ ks, k ∈ t.kids) →
        ∀ x ∈ ks.map (nodeToVar .default), x.WF := fun ks hks =>
      List.forall_mem_map.mpr fun k hk => ih k (hks k hk) (hkids k (hks k hk))
    cases hk : t.kids with
    | nil =>
      rw [nodeToVar_of_leaf hk]
      exact isContainer_wf hv
    | cons k ks =>
      by_cases ha : k.name = []
      · rw [nodeToVar_of_anonymous hk ha, Var.WF_list]
        exact hall t.kids fun _ h => h
      · rw [nodeToVar_of_named hk ha, Var.WF_dict]
        refine ⟨dictOf_keys, fun p hp => ?_⟩
        obtain ⟨d, hd, -, hmem⟩ := @dictOf_shape t.value (t.kids.map Tree.exported)
        rw [hd] at hp
        rcases List.mem_append.mp hp with hp | hp
        · rcases (hmem p hp).2 with rfl | hp
          · exact isContainer_wf hv
          · obtain ⟨k, hk, rfl⟩ := List.mem_map.mp hp
            exact ih k hk (hkids k hk)
        · rw [(mem_anonymousEntry hp).2, Var.WF_list, anonymous_exported]
          exact hall _ fun _ h => List.mem_of_mem_filter h

/-- **Such a request is parsed into a tree whose anonymous children stand last.** -/
theorem treeOf_namedFirst {t : Tree} (h : t.Scalar) :
    ∀ nm, (treeOf nm (nodeToVar .default t)).NamedFirst := by
  induction t using Tree.ind with
  | h t ih =>
    intro nm
    obtain ⟨hv, hkids⟩ := h
    have hlist : ∀ ks : List Tree, (∀ k ∈ ks, k ∈ t.kids) →
        ∀ x ∈ (ks.map (nodeToVar .default)).map (treeOf []), x.name = [] ∧ x.NamedFirst := by
      intro ks hks x hx
      obtain ⟨v, hv, rfl⟩ := List.mem_map.mp hx
      obtain ⟨k, hk, rfl⟩ := List.mem_map.mp hv
      exact ⟨treeOf_name _ _, ih k (hks k hk) (hkids k (hks k hk)) []⟩
    have hpair : ∀ l : List Tree, (∀ x ∈ l, x.name = []) →
        l.Pairwise fun a b => a.name = [] → b.name = [] := fun l hl =>
      List.pairwise_iff_forall_sublist.mpr fun hsub _ => hl _ (hsub.subset (by simp))
    cases hk : t.kids with
    | nil =>
      rw [nodeToVar_of_leaf hk, treeOf_leaf hv]
      exact .intro .nil fun k hk => (by cases hk)
    | cons k ks =>
      by_cases ha : k.name = []
      · rw [nodeToVar_of_anonymous hk ha, treeOf_list]
        have hall := hlist t.kids fun _ h => h
        exact .intro (hpair _ fun x hx => (hall x hx).1) fun x hx => (hall x hx).2
      · obtain ⟨d, hd, -, hmem⟩ := @dictOf_shape t.value (t.kids.map Tree.exported)
        rw [nodeToVar_of_named hk ha, treeOf_dict nm dictOf_keys, hd, List.flatMap_append,
          entryKids_anonymousEntry, anonymous_exported]
        have hanon := hlist (t.kids.filter fun k => k.name = []) fun _ h => List.mem_of_mem_filter h
        have hnamed : ∀ x ∈ d.flatMap entryKids, x.name ≠ [] ∧ x.NamedFirst := by
          intro x hx
          obtain ⟨p, hp, hx⟩ := List.mem_flatMap.mp hx
          refine ⟨entryKids_name hx ▸ (hmem p hp).1, ?_⟩
          rw [entryKids, if_neg (hmem p hp).1] at hx
          split_ifs at hx with hvk
          · cases hx
          · have hvis := (hmem p hp).2.resolve_left fun he => hvk (he ▸ rfl)
            obtain ⟨k, hk, rfl⟩ := List.mem_map.mp hvis
            rw [List.mem_singleton.mp hx]
            exact ih k hk (hkids k hk) _
        refine .intro (List.pairwise_append.mpr ⟨?_, hpair _ fun x hx => (hanon x hx).1, ?_⟩) ?_
        · refine List.pairwise_iff_forall_sublist.mpr fun {x y} hsub hx => ?_
          exact absurd hx (hnamed x (hsub.subset (by simp))).1
        · exact fun x hx _ _ he => absurd he (hnamed x hx).1
        · intro x hx
          rcases List.mem_append.mp hx with hx | hx
          · exact (hnamed x hx).2
          · exact (hanon x hx).2

/-! ## The law -/

/-- What the request is parsed into. -/
def parsedRequest (tree : Var) : Tree := treeOf (ascii "var_import") tree

theorem nodePut_blank (nm : Str) (v : Var) :
    nodePut (.blank nm) v = .node nm (parsedRequest v).value (parsedRequest v).kids :=
  copyTree_blank _ _ _ nm

theorem nodePut_readsLike {v : Var} (h : v.WF) (target : Tree) (nm : Str) :
    (Overwritten target (parsedRequest v) →
      ReadsLike (nodePut target v) (nodePut (.blank nm) v)) ∧
    ((parsedRequest v).NamedFirst → ReadsLike (nodePut target v) (nodePut (.blank nm) v) →
      Overwritten target (parsedRequest v)) := by
  have hname : ∀ t u : Tree, ReadsLike t (.node nm u.value u.kids) ↔ ReadsLike t u := by
    rintro t ⟨nm', v, ks⟩
    exact Iff.rfl
  rw [nodePut_blank, hname]
  exact readsLike_copyTree (treeOf_plain _ h) target

/-- **After a put the stored tree reads as if it were put on a fresh node exactly when it is
overwritten**: for every value that is enough, and for every request without containers as values it
is necessary, too. -/
theorem put_overwrites (target : Tree) (nm : Str) :
    (∀ v : Var, v.WF → Overwritten target (parsedRequest v) →
      ReadsLike (nodePut target v) (nodePut (.blank nm) v)) ∧
    (∀ v : Var, v.WF → (parsedRequest v).NamedFirst →
      (ReadsLike (nodePut target v) (nodePut (.blank nm) v) ↔
        Overwritten target (parsedRequest v))) ∧
    ∀ treeNode : Tree, treeNode.Scalar →
      (ReadsLike (nodePut target (nodeToVar .default treeNode))
          (nodePut (.blank nm) (nodeToVar .default treeNode)) ↔
        Overwritten target (parsedRequest (nodeToVar .default treeNode))) := by
  have hiff : ∀ v : Var, v.WF → (parsedRequest v).NamedFirst →
      (ReadsLike (nodePut target v) (nodePut (.blank nm) v) ↔
        Overwritten target (parsedRequest v)) := fun v hv hn =>
    ⟨(nodePut_readsLike hv target nm).2 hn, (nodePut_readsLike hv target nm).1⟩
  exact ⟨fun v hv => (nodePut_readsLike hv target nm).1, hiff, fun treeNode h =>
    hiff _ (nodeToVar_wf h) (treeOf_namedFirst h _)⟩

/-- A stored list, and a request for a node with one named child. -/
theorem put_overwrites_sample :
    let target := Tree.node (ascii "t") .none [.node [] (.int 1) []]
    let treeNode := Tree.node (ascii "tree") (.int 5) [.node (ascii "a") (.int 2) []]
    ReadsLike (nodePut target (nodeToVar .default treeNode))
      (nodePut (.blank (ascii "f")) (nodeToVar .default treeNode)) ↔
        Overwritten target (parsedRequest (nodeToVar .default treeNode)) := by
  refine (put_overwrites _ _).2.2 _ (.intro rfl fun k hk => ?_)
  rw [List.mem_singleton.mp hk]
  exact .intro rfl fun k hk => (by cases hk)

/-- A stored anonymous child before a stored `a` stays the first: the dictionary of the request is
read as a list. -/
theorem put_keeps_order : ¬ ∀ (target : Tree) (v : Var) (nm : Str), v.WF →
    ReadsLike (nodePut target v) (nodePut (.blank nm) v) := by
  intro h
  have hbad := h (.node (ascii "t") .none [.node [] (.int 1) [], .node (ascii "a") .none []])
    (.dict [(ascii "a", .int 2), ([], .list [.int 3])]) (ascii "f")
    (Var.WF_dict.mpr ⟨by decide, by simp [Var.WF, Var.WFList]⟩)
  rw [ReadsLike, nodePut_blank] at hbad
  cases hbad

end VersatileEngine
