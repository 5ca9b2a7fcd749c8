import VersatileEngine.Node.Route

/-!
# VersatileEngine.Node.Grown

Trees that only gain nodes, the new ones behind the children that were there.

* `Grows`           — every place stays, and the children of its node keep their names and their order.
* `findPath_grows`  — what a path led to, it still leads to.
* `ensurePath_grows`, `modifyAt_grows` — what makes a tree grow.
-/

namespace VersatileEngine

namespace Tree

/-- Every node of `t` is at its place in `t'`, with at least its children. -/
def Grows (t t' : Tree) : Prop :=
  ∀ p k, t.sub p = some k → ∃ k', t'.sub p = some k' ∧ k.kids.map name <+: k'.kids.map name

section Grows

variable {t t' u : Tree} {ks ks' : List Tree} {sep : UInt8} {i : Nat}

theorem Grows.refl (t : Tree) : Grows t t := fun _ k hk => ⟨k, hk, List.prefix_refl _⟩

theorem Grows.trans (h : Grows t u) (h' : Grows u t') : Grows t t' := by
  intro p k hk
  obtain ⟨k', hk', hpre⟩ := h p k hk
  obtain ⟨k'', hk'', hpre'⟩ := h' p k' hk'
  exact ⟨k'', hk'', hpre.trans hpre'⟩

/-- The tree below a child. -/
theorem Grows.kid {k k' : Tree} (h : Grows t t') (hk : t.kids[i]? = some k) (hk' : t'.kids[i]? = some k') :
    Grows k k' := by
  intro p c hc
  obtain ⟨c', hc', hpre⟩ := h (i :: p) c (by rw [sub_cons, hk]; exact hc)
  rw [sub_cons, hk'] at hc'
  exact ⟨c', hc', hpre⟩

/-- The tree below a place. -/
theorem Grows.sub {p : List Nat} {k : Tree} (h : Grows t t') (hk : t.sub p = some k) :
    ∃ k', t'.sub p = some k' ∧ Grows k k' := by
  obtain ⟨k', hk', -⟩ := h p k hk
  refine ⟨k', hk', fun q c hc => ?_⟩
  obtain ⟨c', hc', hpre⟩ := h (p ++ q) c (by rw [sub_append, hk]; exact hc)
  rw [sub_append, hk'] at hc'
  exact ⟨c', hc', hpre⟩

theorem Grows.name_eq {p : List Nat} {i : Nat} {k : Tree} (h : Grows t t') (hk : t.sub (p ++ [i]) = some k) :
    (t'.sub (p ++ [i])).map name = some k.name := by
  rw [sub_append] at hk ⊢
  obtain ⟨c, hc, hk⟩ := Option.bind_eq_some_iff.mp hk
  obtain ⟨c', hc', l, hl⟩ := h p c hc
  have hget : c.kids[i]? = some k := by
    rw [sub_cons] at hk
    obtain ⟨d, hd, hk⟩ := Option.bind_eq_some_iff.mp hk
    obtain rfl := Option.some.inj hk
    exact hd
  have hname : (c'.kids.map name)[i]? = some k.name := by
    have hlt : i < (c.kids.map name).length := by
      rw [List.length_map]
      exact (List.getElem?_eq_some_iff.mp hget).1
    rw [← hl, List.getElem?_append_left hlt, List.getElem?_map, hget]
    rfl
  rw [List.getElem?_map] at hname
  rw [hc', Option.bind_some, sub_cons]
  obtain ⟨d, hd, hname⟩ := Option.map_eq_some_iff.mp hname
  rw [hd]
  exact congrArg some hname

/-- New children behind the old ones, each of which has grown. -/
theorem grows_of_kids (hnames : t.kids.map name <+: t'.kids.map name)
    (h : ∀ (i : Nat) (k : Tree), t.kids[i]? = some k → ∃ k', t'.kids[i]? = some k' ∧ Grows k k') : Grows t t' := by
  intro p k hk
  cases p with
  | nil =>
    obtain rfl := Option.some.inj hk
    exact ⟨t', rfl, hnames⟩
  | cons i p =>
    rw [sub_cons] at hk
    obtain ⟨c, hc, hk⟩ := Option.bind_eq_some_iff.mp hk
    obtain ⟨c', hc', hgrows⟩ := h i c hc
    obtain ⟨k', hk', hpre⟩ := hgrows p k hk
    exact ⟨k', by rw [sub_cons, hc']; exact hk', hpre⟩

theorem grows_same_kids (h : t'.kids = t.kids) : Grows t t' :=
  grows_of_kids (by simp [h]) fun i k hk => ⟨k, by rw [h]; exact hk, .refl k⟩

theorem grows_append (nm : Str) (v : Var) (new : List Tree) : Grows t (node nm v (t.kids ++ new)) := by
  refine grows_of_kids (by simp) fun i k hk => ⟨k, ?_, .refl k⟩
  rw [kids_node, List.getElem?_append_left (List.getElem?_eq_some_iff.mp hk).1, hk]

/-- The node at a place is replaced by one that it grows to. -/
theorem grows_replace {k k' : Tree} (hname : k'.name = k.name) (h : Grows k k') : ∀ {p : List Nat} {t : Tree},
    t.sub p = some k → Grows t (t.modifyAt (fun _ => k') p) := by
  intro p
  induction p with
  | nil =>
    rintro t ⟨⟩
    exact h
  | cons i p ih =>
    intro t hk
    obtain ⟨c, hc, hk⟩ := Option.bind_eq_some_iff.mp hk
    have hnm : (c.modifyAt (fun _ => k') p).name = c.name := modifyAt_name_of_sub hname hk
    have hnames : (t.kids.modify i (modifyAt (fun _ => k') p)).map name = t.kids.map name := by
      refine List.ext_getElem? fun j => ?_
      rw [List.getElem?_map, List.getElem?_map, List.getElem?_modify]
      by_cases hij : i = j
      · subst hij
        simp [hc, hnm]
      · simp [hij]
    refine grows_of_kids ?_ fun j d hd => ?_
    · simp [modifyAt_cons, hnames]
    · rw [modifyAt_cons, kids_node, List.getElem?_modify, hd]
      by_cases hij : i = j
      · subst hij
        obtain rfl := Option.some.inj (hc.symm.trans hd)
        exact ⟨_, by simp, ih hk⟩
      · exact ⟨d, by simp [hij], .refl d⟩

theorem findKey_append {b : List Tree} {key : Str} (h : findKey sep ks key = some i) :
    findKey sep (ks ++ b) key = some i := by
  have hat : ∀ {index : Int}, 0 ≤ index → childAt ks index = some i → childAt (ks ++ b) index = some i := by
    intro index h0 h
    unfold childAt at h ⊢
    dsimp only at h ⊢
    simp only [if_neg (not_lt.mpr h0), List.length_append, Nat.cast_add] at h ⊢
    by_cases hout : index < 0 ∨ (ks.length : Int) ≤ index
    · rw [if_pos hout] at h
      cases h
    · rw [if_neg hout] at h
      rw [if_neg (by omega), h]
  have hnamed : ∀ {nm : Str} {overlap : Int}, 0 ≤ overlap → childNamed ks nm overlap = some i →
      childNamed (ks ++ b) nm overlap = some i := by
    intro nm overlap h0 h
    rw [childNamed] at h ⊢
    split_ifs at h ⊢ with hn hneg
    · exact hat h0 h
    · rw [Option.map_eq_some_iff] at h ⊢
      obtain ⟨j, hj, rfl⟩ := h
      refine ⟨j, ?_, rfl⟩
      rw [positions_append, List.getElem?_append_left (List.getElem?_eq_some_iff.mp hj).1, hj]
  obtain ⟨⟨nm, idx⟩, hkey, h⟩ := Option.bind_eq_some_iff.mp h
  unfold findKey
  rw [hkey, Option.bind_some]
  dsimp only at h ⊢
  split_ifs at h ⊢ with h1 h2
  · exact hat h1.2 h
  · exact hnamed (Int.le_refl 0) h
  · exact hnamed (not_lt.mp h2) h

theorem findKey_grown (hpre : ks.map name <+: ks'.map name) {key : Str} (h : findKey sep ks key = some i) :
    findKey sep ks' key = some i := by
  have hnames : ks.map name = (ks'.take ks.length).map name := by
    rw [List.map_take, ← @List.length_map _ _ _ name, ← List.prefix_iff_eq_take.mp hpre]
  rw [findKey_congr hnames] at h
  have hfound := @findKey_append _ sep i (ks'.drop ks.length) key h
  rwa [List.take_append_drop] at hfound

theorem findSegments_grows (segs : List Str) : ∀ {t t' : Tree} {p : List Nat}, Grows t t' →
    findSegments sep segs t = some p → findSegments sep segs t' = some p := by
  induction segs with
  | nil => exact fun _ h => h
  | cons seg segs ih =>
    intro t t' p hg h
    rw [findSegments] at h ⊢
    split_ifs at h ⊢
    · exact ih hg h
    · obtain ⟨i, hi, h⟩ := Option.bind_eq_some_iff.mp h
      obtain ⟨k, hk, h⟩ := Option.bind_eq_some_iff.mp h
      obtain ⟨q, hq, rfl⟩ := Option.map_eq_some_iff.mp h
      obtain ⟨t₁, ht₁, hpre⟩ := hg [] t rfl
      obtain rfl := Option.some.inj ht₁
      obtain ⟨k', hk', -⟩ := hg [i] k (by rw [sub_cons, hk]; rfl)
      have hkid : t'.kids[i]? = some k' := by
        rw [sub_cons] at hk'
        obtain ⟨c, hc, hk'⟩ := Option.bind_eq_some_iff.mp hk'
        obtain rfl := Option.some.inj hk'
        exact hc
      rw [findKey_grown hpre hi, Option.bind_some, hkid, Option.bind_some, ih (hg.kid hk hkid) hq]
      rfl

theorem findSegments_sub (segs : List Str) : ∀ {t : Tree} {p : List Nat}, findSegments sep segs t = some p →
    ∃ k, t.sub p = some k := by
  induction segs with
  | nil =>
    rintro t p ⟨⟩
    exact ⟨t, rfl⟩
  | cons seg segs ih =>
    intro t p h
    rw [findSegments] at h
    split_ifs at h
    · exact ih h
    · obtain ⟨i, hi, h⟩ := Option.bind_eq_some_iff.mp h
      obtain ⟨k, hk, h⟩ := Option.bind_eq_some_iff.mp h
      obtain ⟨q, hq, rfl⟩ := Option.map_eq_some_iff.mp h
      obtain ⟨c, hc⟩ := ih hq
      exact ⟨c, by rw [sub_cons, hk]; exact hc⟩

/-- A path leads to the same place in a tree that has grown. -/
theorem findPath_grows {path_sep key_sep : UInt8} {path : Str} {p : List Nat} (h : Grows t t')
    (hp : findPath path_sep key_sep path t = some p) : findPath path_sep key_sep path t' = some p :=
  findSegments_grows _ h hp

end Grows

/-! ### Paths that are made -/

section Ensured

variable {t t' : Tree} {ks : List Tree} {sep : UInt8} {p : List Nat}

theorem set_modifyAt (nm : Str) (v : Var) (ks : List Tree) (i : Nat) (k : Tree) :
    node nm v (ks.set i k) = (node nm v ks).modifyAt (fun _ => k) [i] := by
  rw [modifyAt_cons, List.set_eq_modify]
  rfl

/-- One segment: new children behind the old ones, and then one of them is replaced. -/
theorem ensureSegments_cons {seg : Str} {segs : List Str} (hseg : seg ≠ [])
    (h : ensureSegments sep (seg :: segs) t = (t', some p)) :
    ∃ nm n i k k' q, ensureKeyBy sep t.kids seg = some (t.kids ++ List.replicate n (blank nm), i) ∧
      (node t.name t.value (t.kids ++ List.replicate n (blank nm))).sub [i] = some k ∧
      ensureSegments sep segs k = (k', some q) ∧ p = i :: q ∧
      t' = (node t.name t.value (t.kids ++ List.replicate n (blank nm))).modifyAt (fun _ => k') [i] := by
  rw [ensureSegments, if_neg hseg] at h
  split at h
  · cases h
  · rename_i ks i hlook
    obtain ⟨nm, n, rfl⟩ := (ensureKeyBy_made hlook).kept
    split at h
    · cases h
    · rename_i k hk
      rw [Prod.mk.injEq, Option.map_eq_some_iff] at h
      obtain ⟨rfl, q, hq, rfl⟩ := h
      exact ⟨nm, n, i, k, _, q, hlook, by rw [sub_cons, kids_node, hk]; rfl, by rw [← hq], rfl,
        set_modifyAt _ _ _ _ _⟩

theorem ensureSegments_grows (segs : List Str) : ∀ {t t' : Tree} {p : List Nat},
    ensureSegments sep segs t = (t', some p) → Grows t t' := by
  induction segs with
  | nil =>
    rintro t t' p ⟨⟩
    exact .refl t
  | cons seg segs ih =>
    intro t t' p h
    by_cases hseg : seg = []
    · rw [ensureSegments, if_pos hseg] at h
      exact ih h
    · obtain ⟨nm, n, i, k, k', q, -, hk, hq, -, rfl⟩ := ensureSegments_cons hseg h
      have hname : k'.name = k.name := by
        have hname := @ensureSegments_name sep segs k
        rwa [hq] at hname
      exact (grows_append _ _ _).trans (grows_replace hname (ih hq) hk)

/-- A key whose number is an `int`, in all its segments. -/
def IntKeys (path_sep key_sep : UInt8) (path : Str) : Prop :=
  ∀ seg ∈ path.splitOn path_sep, ∀ r ∈ parseKey key_sep seg, 0 ≤ r.2

instance (path_sep key_sep : UInt8) (path : Str) : Decidable (IntKeys path_sep key_sep path) :=
  inferInstanceAs (Decidable (∀ seg ∈ path.splitOn path_sep, ∀ r ∈ parseKey key_sep seg, 0 ≤ r.2))

theorem ensureKeyBy_finds {ks' : List Tree} {i : Nat} {key : Str}
    (hfit : ∀ r ∈ parseKey sep key, 0 ≤ r.2) (h : ensureKeyBy sep ks key = some (ks', i)) :
    findKey sep ks' key = some i := by
  obtain ⟨⟨nm, idx⟩, hkey, h⟩ := Option.bind_eq_some_iff.mp h
  have h0 : 0 ≤ idx := hfit (nm, idx) hkey
  unfold findKey
  rw [hkey, Option.bind_some]
  dsimp only at h ⊢
  rw [if_neg (not_lt.mpr h0)]
  split_ifs at h ⊢
  · exact (ensureIndex_spec h).1
  · exact (ensureNamed_spec h).1

theorem childAt_last {index : Int} (h0 : 0 ≤ index) (h : childAt ks index = none) {ks' : List Tree}
    (happ : append ks [] (index - ks.length) = some ks') (hi : childAt ks' index = some i) : i + 1 = ks'.length := by
  unfold childAt at h hi
  dsimp only at h hi
  rw [if_neg (not_lt.mpr h0)] at h hi
  rw [append] at happ
  split_ifs at happ with hneg
  obtain rfl := Option.some.inj happ
  split_ifs at h with hout
  split_ifs at hi with hin
  obtain rfl := Option.some.inj hi
  simp only [List.length_append, List.length_replicate] at hin ⊢
  omega

theorem childNamed_last {nm : Str} {overlap : Int} (hn : nm ≠ []) (h0 : 0 ≤ overlap) {ks' : List Tree}
    (happ : append ks nm (overlap - countNamed ks nm) = some ks') (hi : childNamed ks' nm overlap = some i) :
    i + 1 = ks'.length := by
  rw [append, countNamed, if_neg hn] at happ
  split_ifs at happ with hneg
  obtain rfl := Option.some.inj happ
  set m := (overlap - ((ks.filter fun k => k.name = nm).length : Int)).toNat with hm
  have hsplit : ks ++ List.replicate (m + 1) (blank nm) = (ks ++ List.replicate m (blank nm)) ++ [blank nm] := by
    rw [List.replicate_succ', List.append_assoc]
  have hcount : (positions (fun k : Tree => k.name = nm) 0 (ks ++ List.replicate m (blank nm))).length =
      overlap.toNat := by
    have hall : (List.replicate m (blank nm)).filter (fun k => k.name = nm) = List.replicate m (blank nm) :=
      List.filter_eq_self.mpr fun k hk => by simp [List.eq_of_mem_replicate hk, blank]
    rw [length_positions, List.filter_append, hall, List.length_append, List.length_replicate]
    omega
  have hnew : positions (fun k : Tree => k.name = nm) (0 + (ks ++ List.replicate m (blank nm)).length) [blank nm] =
      [((ks ++ List.replicate m (blank nm)).length : Int)] := by
    simp [positions, blank]
  rw [childNamed, if_neg hn, if_neg (not_lt.mpr h0), hsplit, positions_append, hnew,
    ← hcount, List.getElem?_concat_length] at hi
  obtain rfl := Option.some.inj hi
  rw [hsplit]
  simp only [Int.toNat_natCast, List.length_append, List.length_singleton]

/-- What is found is the last child, when children were made for it. -/
theorem ensureKeyBy_last {ks' : List Tree} {key : Str} (h : ensureKeyBy sep ks key = some (ks', i)) :
    ks' = ks ∨ i + 1 = ks'.length := by
  obtain ⟨⟨nm, idx⟩, -, h⟩ := Option.bind_eq_some_iff.mp h
  dsimp only at h
  split_ifs at h with hc
  · obtain ⟨hfound, rfl | ⟨hnone, h0, happ⟩⟩ := ensureIndex_spec h
    · exact .inl rfl
    · exact .inr (childAt_last h0 hnone happ hfound)
  · obtain ⟨hfound, rfl | ⟨-, h0, happ⟩⟩ := ensureNamed_spec h
    · exact .inl rfl
    · exact .inr (childNamed_last (fun he => hc ⟨he, h0⟩) h0 happ hfound)

theorem ensureSegments_finds {segs : List Str}
    (hfit : ∀ seg ∈ segs, ∀ r ∈ parseKey sep seg, 0 ≤ r.2) :
    ∀ {t t' : Tree} {p : List Nat}, ensureSegments sep segs t = (t', some p) → findSegments sep segs t' = some p := by
  induction segs with
  | nil =>
    rintro t t' p ⟨⟩
    rfl
  | cons seg segs ih =>
    obtain ⟨hseg', hfit⟩ := List.forall_mem_cons.mp hfit
    intro t t' p h
    by_cases hseg : seg = []
    · rw [ensureSegments, if_pos hseg] at h
      rw [findSegments, if_pos hseg]
      exact ih hfit h
    · obtain ⟨nm, n, i, k, k', q, hlook, hk, hq, rfl, rfl⟩ := ensureSegments_cons hseg h
      have hname : k'.name = k.name := by
        have hname := @ensureSegments_name sep segs k
        rwa [hq] at hname
      have hkid : (t.kids ++ List.replicate n (blank nm))[i]? = some k := by
        obtain ⟨c, hc, hck⟩ := Option.bind_eq_some_iff.mp hk
        obtain rfl := Option.some.inj hck
        exact hc
      have hlt := (List.getElem?_eq_some_iff.mp hkid).1
      have hnames := map_name_set hkid hname
      rw [← set_modifyAt, findSegments, if_neg hseg, kids_node,
        findKey_congr hnames, ensureKeyBy_finds hseg' hlook, Option.bind_some, List.getElem?_set_self hlt,
        Option.bind_some, ih hfit hq]
      rfl

end Ensured

end Tree

end VersatileEngine
