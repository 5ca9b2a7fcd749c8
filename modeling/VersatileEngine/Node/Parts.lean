import VersatileEngine.Node.Grown

/-!
# VersatileEngine.Node.Parts

Nodes whose children of certain names belong to them, and others that stand among them.

* `part`, `partAt`  — the first child of a name.
* `Alike`           — two nodes with the same value and the same parts, whatever their other children.
* `Extends p t t'`  — what may happen when something is put at the place `p`: nodes are made on the way
  to it and in its parts, and a node elsewhere stays alike, unless one of the two is in a part of the other.
* `extends_at`      — putting something at a place, from what happens to the node there.
-/

namespace VersatileEngine

namespace Tree

/-- The first child of a name, or what is made for it when there is none. -/
def part (nm : Str) (t : Tree) : Tree := (t.kids.find? fun k => k.name = nm).getD (blank nm)

def partAt (nm : Str) (t : Tree) : Option Nat := t.kids.findIdx? fun k => k.name = nm

/-- The node at a place, or a blank one. -/
def nodeAt (p : List Nat) (t : Tree) : Tree := (t.sub p).getD (blank [])

section Parts

variable (names : List Str)

structure Alike (t t' : Tree) : Prop where
  value : t'.value = t.value
  part : ∀ nm ∈ names, t'.part nm = t.part nm

/-- The child at `i` of the node at `p` is one of its parts. -/
def IsPart (t : Tree) (p : List Nat) (i : Nat) : Prop :=
  ∃ k, t.sub p = some k ∧ ∃ nm ∈ names, k.partAt nm = some i

/-- The place `q` is in a part of the node at `p`. -/
def InPart (t : Tree) (p q : List Nat) : Prop := ∃ i, IsPart names t p i ∧ p ++ [i] <+: q

/-- On the way to the place `p`, or an earlier child of the same name as one that is. -/
def OnWay (t : Tree) (p r : List Nat) : Prop :=
  ∃ q i j k, r = q ++ [i] ∧ q ++ [j] <+: p ∧ i ≤ j ∧ t.sub (q ++ [j]) = some k ∧ (t.sub r).map name = some k.name

structure Extends (p : List Nat) (t t' : Tree) : Prop where
  grows : Grows t t'
  frame : ∀ r, r ≠ p → ¬ InPart names t' r p → ¬ InPart names t' p r → Alike names (t.nodeAt r) (t'.nodeAt r)
  made : ∀ r k, t'.sub r = some k → (∃ k, t.sub r = some k) ∨ OnWay t' p r ∨ InPart names t' p r

end Parts

section Lemmas

variable {names : List Str} {t t' u k k' : Tree} {p q r : List Nat} {i : Nat} {nm : Str}

theorem Alike.refl (t : Tree) : Alike names t t := ⟨rfl, fun _ _ => rfl⟩

theorem Alike.trans (h : Alike names t u) (h' : Alike names u t') : Alike names t t' :=
  ⟨h'.value.trans h.value, fun nm hnm => (h'.part nm hnm).trans (h.part nm hnm)⟩

theorem partAt_grown (h : t.kids.map name <+: t'.kids.map name) (hi : t.partAt nm = some i) :
    t'.partAt nm = some i := by
  have hat : ∀ u : Tree, u.partAt nm = (u.kids.map name).findIdx? fun x => x = nm := by
    intro u
    rw [partAt, List.findIdx?_map]
    rfl
  obtain ⟨l, hl⟩ := h
  rw [hat] at hi ⊢
  rw [← hl, List.findIdx?_append, hi]
  rfl

theorem IsPart.grows (h : IsPart names t p i) (hg : Grows t t') : IsPart names t' p i := by
  obtain ⟨k, hk, nm, hnm, hi⟩ := h
  obtain ⟨k', hk', hpre⟩ := hg p k hk
  exact ⟨k', hk', nm, hnm, partAt_grown hpre hi⟩

theorem InPart.grows (h : InPart names t p q) (hg : Grows t t') : InPart names t' p q := by
  obtain ⟨i, hi, hpre⟩ := h
  exact ⟨i, hi.grows hg, hpre⟩

theorem OnWay.grows (h : OnWay t p r) (hg : Grows t t') : OnWay t' p r := by
  obtain ⟨q, i, j, k, rfl, hpre, hij, hk, hname⟩ := h
  obtain ⟨k', hk', -⟩ := hg _ k hk
  have hsame := hg.name_eq hk
  obtain ⟨c, hc, hcn⟩ := Option.map_eq_some_iff.mp hname
  refine ⟨q, i, j, k', rfl, hpre, hij, hk', ?_⟩
  rw [hg.name_eq hc, hcn]
  rw [hk'] at hsame
  exact hsame.symm

theorem onWay_cons (hk : t.kids[i]? = some k) (h : OnWay k p r) : OnWay t (i :: p) (i :: r) := by
  obtain ⟨q, j, l, c, rfl, hpre, hij, hc, hname⟩ := h
  refine ⟨i :: q, j, l, c, rfl, List.cons_prefix_cons.mpr ⟨rfl, hpre⟩, hij, ?_, ?_⟩
  · rw [List.cons_append, sub_cons, hk]
    exact hc
  · rw [sub_cons, hk]
    exact hname

theorem isPart_cons (hk : t.kids[i]? = some k) {j : Nat} : IsPart names t (i :: p) j ↔ IsPart names k p j := by
  rw [IsPart, IsPart, sub_cons, hk]
  rfl

theorem inPart_cons (hk : t.kids[i]? = some k) : InPart names t (i :: p) (i :: q) ↔ InPart names k p q := by
  rw [InPart, InPart]
  refine exists_congr fun j => and_congr (isPart_cons hk) ?_
  rw [List.cons_append, List.cons_prefix_cons]
  exact and_iff_right rfl

theorem nodeAt_cons (hk : t.kids[i]? = some k) : t.nodeAt (i :: p) = k.nodeAt p := by
  rw [nodeAt, nodeAt, sub_cons, hk]
  rfl

theorem Extends.refl (p : List Nat) (t : Tree) : Extends names p t t :=
  ⟨.refl t, fun _ _ _ _ => .refl _, fun _ k hk => .inl ⟨k, hk⟩⟩

theorem Extends.trans (h : Extends names p t u) (h' : Extends names p u t') : Extends names p t t' := by
  refine ⟨h.grows.trans h'.grows, fun r hr hin hout => ?_, fun r k hk => ?_⟩
  · exact (h.frame r hr (fun hp => hin (hp.grows h'.grows)) fun hp => hout (hp.grows h'.grows)).trans
      (h'.frame r hr hin hout)
  · rcases h'.made r k hk with ⟨k', hk'⟩ | hway | hpart
    · rcases h.made r k' hk' with hold | hway | hpart
      · exact .inl hold
      · exact .inr (.inl (hway.grows h'.grows))
      · exact .inr (.inr (hpart.grows h'.grows))
    · exact .inr (.inl hway)
    · exact .inr (.inr hpart)

theorem find_modify {α : Type} {test : α → Bool} {g : α → α} : ∀ {l : List α} {i : Nat},
    (∀ a ∈ l[i]?, test (g a) = test a) → l.findIdx? test ≠ some i → (l.modify i g).find? test = l.find? test := by
  intro l
  induction l with
  | nil =>
    intro i _ _
    rw [List.modify_nil]
  | cons a l ih =>
    intro i hg hi
    cases i with
    | zero =>
      have htest : test a = false := by
        cases hta : test a with
        | false => rfl
        | true => exact absurd (by rw [List.findIdx?_cons, hta]; rfl) hi
      rw [List.modify_zero_cons, List.find?_cons, List.find?_cons, hg a rfl, htest]
    | succ i =>
      rw [List.modify_succ_cons, List.find?_cons, List.find?_cons]
      cases hta : test a with
      | true => rfl
      | false =>
        refine ih hg fun he => hi ?_
        rw [List.findIdx?_cons, hta, he]
        rfl

/-- A child that is no part is replaced. -/
theorem alike_modify {g : Tree → Tree} (hname : ∀ c ∈ t.kids[i]?, (g c).name = c.name)
    (hi : ∀ nm ∈ names, t.partAt nm ≠ some i) : Alike names t (node t.name t.value (t.kids.modify i g)) := by
  refine ⟨rfl, fun nm hnm => ?_⟩
  rw [part, part, kids_node, find_modify (fun c hc => by rw [hname c hc]) (hi nm hnm)]

/-- New blank children are parts like those that are not there. -/
theorem alike_append (n : Nat) (nm : Str) :
    Alike names t (node t.name t.value (t.kids ++ List.replicate n (blank nm))) := by
  refine ⟨rfl, fun nm' _ => ?_⟩
  rw [part, part, kids_node, List.find?_append]
  cases t.kids.find? fun k => k.name = nm' with
  | some k => rfl
  | none =>
    rw [Option.none_or]
    cases hfind : (List.replicate n (blank nm)).find? fun k => k.name = nm' with
    | none => rfl
    | some k =>
      have hk := List.eq_of_mem_replicate (List.mem_of_find?_eq_some hfind)
      have hnm : k.name = nm' := by simpa using List.find?_some hfind
      rw [hk] at hnm
      rw [hk, ← hnm]
      rfl

section Append

variable (n : Nat) (nm : Str)

/-- A child that came last is blank. -/
theorem new_child (hnone : t.kids[i]? = none) (hk : (t.kids ++ List.replicate n (blank nm))[i]? = some k) :
    k = blank nm := by
  rw [List.getElem?_append_right (List.getElem?_eq_none_iff.mp hnone)] at hk
  exact List.eq_of_mem_replicate (List.mem_of_getElem? hk)

theorem nodeAt_append (r : List Nat) :
    Alike names (t.nodeAt r) ((node t.name t.value (t.kids ++ List.replicate n (blank nm))).nodeAt r) := by
  cases r with
  | nil => exact alike_append n nm
  | cons i r =>
    cases hi : t.kids[i]? with
    | some c =>
      have hi' : (node t.name t.value (t.kids ++ List.replicate n (blank nm))).kids[i]? = some c := by
        rw [kids_node, List.getElem?_append_left (List.getElem?_eq_some_iff.mp hi).1, hi]
      rw [nodeAt_cons hi, nodeAt_cons hi']
      exact .refl _
    | none =>
      have hold : t.nodeAt (i :: r) = blank [] := by
        rw [nodeAt, sub_cons, hi]
        rfl
      rw [hold, nodeAt, sub_cons, kids_node]
      cases hi' : (t.kids ++ List.replicate n (blank nm))[i]? with
      | none => exact .refl _
      | some c =>
        obtain rfl := new_child n nm hi hi'
        cases r with
        | nil => exact ⟨rfl, fun _ _ => rfl⟩
        | cons j r => exact .refl _

theorem made_append (hk : (node t.name t.value (t.kids ++ List.replicate n (blank nm))).sub r = some k) :
    (∃ k, t.sub r = some k) ∨ k = blank nm ∧ ∃ i, r = [i] ∧ t.kids.length ≤ i ∧ i < t.kids.length + n := by
  cases r with
  | nil => exact .inl ⟨t, rfl⟩
  | cons i r =>
    rw [sub_cons, kids_node] at hk
    obtain ⟨c, hc, hk⟩ := Option.bind_eq_some_iff.mp hk
    cases hi : t.kids[i]? with
    | some d =>
      rw [List.getElem?_append_left (List.getElem?_eq_some_iff.mp hi).1, hi] at hc
      refine .inl ⟨k, ?_⟩
      rw [sub_cons, hi, hc]
      exact hk
    | none =>
      have hlt := (List.getElem?_eq_some_iff.mp hc).1
      rw [List.length_append, List.length_replicate] at hlt
      obtain rfl := new_child n nm hi hc
      cases r with
      | nil => exact .inr ⟨(Option.some.inj hk).symm, i, rfl, List.getElem?_eq_none_iff.mp hi, hlt⟩
      | cons j r => cases hk

/-- New blank children on the way to a place below. -/
theorem extends_append (hlast : n = 0 ∨ i + 1 = t.kids.length + n) :
    Extends names (i :: p) t (node t.name t.value (t.kids ++ List.replicate n (blank nm))) := by
  refine ⟨grows_append _ _ _, fun r _ _ _ => nodeAt_append n nm r, fun r k hk => ?_⟩
  rcases made_append n nm hk with hold | ⟨rfl, j, rfl, hge, hlt⟩
  · exact .inl hold
  · have hi : i + 1 = t.kids.length + n := hlast.resolve_left (by omega)
    have hget : (node t.name t.value (t.kids ++ List.replicate n (blank nm))).sub [i] = some (blank nm) := by
      rw [sub_cons, kids_node, List.getElem?_append_right (by omega), List.getElem?_replicate_of_lt (by omega)]
      rfl
    refine .inr (.inl ⟨[], j, i, blank nm, rfl, List.cons_prefix_cons.mpr ⟨rfl, List.nil_prefix⟩, by omega, hget, ?_⟩)
    rw [hk]
    rfl

end Append

/-- What is done to a child, for the tree. -/
theorem extends_kid (hname : k'.name = k.name) (hk : t.kids[i]? = some k) (h : Extends names p k k') :
    Extends names (i :: p) t (t.modifyAt (fun _ => k') [i]) := by
  have hsub : t.sub [i] = some k := by
    rw [sub_cons, hk]
    rfl
  have hgrows := grows_replace hname h.grows hsub
  have hkid : (t.modifyAt (fun _ => k') [i]).kids[i]? = some k' := by
    rw [modifyAt_cons, kids_node, List.getElem?_modify_eq, hk]
    rfl
  have hother : ∀ {j : Nat}, j ≠ i → (t.modifyAt (fun _ => k') [i]).kids[j]? = t.kids[j]? := by
    intro j hj
    rw [modifyAt_cons, kids_node, List.getElem?_modify_ne _ _ (Ne.symm hj)]
  refine ⟨hgrows, fun r hr hin hout => ?_, fun r c hc => ?_⟩
  · cases r with
    | nil =>
      show Alike names t (node t.name t.value (t.kids.modify i (modifyAt (fun _ => k') [])))
      refine alike_modify (fun c hc => ?_) fun nm hnm he =>
        hin ⟨i, IsPart.grows ⟨t, rfl, nm, hnm, he⟩ hgrows, List.cons_prefix_cons.mpr ⟨rfl, List.nil_prefix⟩⟩
      rw [Option.mem_def, hk] at hc
      rw [← Option.some.inj hc]
      exact hname
    | cons j r =>
      by_cases hj : j = i
      · subst hj
        rw [nodeAt_cons hk, nodeAt_cons hkid]
        exact h.frame r (fun he => hr (by rw [he])) (fun hp => hin ((inPart_cons hkid).mpr hp))
          fun hp => hout ((inPart_cons hkid).mpr hp)
      · rw [nodeAt, nodeAt, sub_cons, sub_cons, hother hj]
        exact .refl _
  · cases r with
    | nil => exact .inl ⟨t, rfl⟩
    | cons j r =>
      by_cases hj : j = i
      · subst hj
        rw [sub_cons, hkid] at hc
        rcases h.made r c hc with ⟨d, hd⟩ | hway | hpart
        · exact .inl ⟨d, by rw [sub_cons, hk]; exact hd⟩
        · exact .inr (.inl (onWay_cons hkid hway))
        · exact .inr (.inr ((inPart_cons hkid).mpr hpart))
      · rw [sub_cons, hother hj] at hc
        exact .inl ⟨c, by rw [sub_cons]; exact hc⟩

/-- What is done to the node at a place, for the tree. -/
theorem extends_below (hname : k'.name = k.name) (h : Extends names q k k') : ∀ {p : List Nat} {t : Tree},
    t.sub p = some k → Extends names (p ++ q) t (t.modifyAt (fun _ => k') p) := by
  intro p
  induction p with
  | nil =>
    rintro t ⟨⟩
    exact h
  | cons i p ih =>
    intro t hk
    obtain ⟨c, hc, hk⟩ := Option.bind_eq_some_iff.mp hk
    have hnm : (c.modifyAt (fun _ => k') p).name = c.name := modifyAt_name_of_sub hname hk
    have hkid := extends_kid hnm hc (ih hk)
    have hsub : t.sub [i] = some c := by
      rw [sub_cons, hc]
      rfl
    have hsame : t.modifyAt (fun _ => c.modifyAt (fun _ => k') p) [i] = t.modifyAt (modifyAt (fun _ => k') p) [i] :=
      modifyAt_congr hsub rfl
    rw [hsame] at hkid
    exact hkid

/-- The way to a place is made. -/
theorem ensureSegments_extends {sep : UInt8} (segs : List Str) : ∀ {t t' : Tree} {p : List Nat},
    ensureSegments sep segs t = (t', some p) → Extends names p t t' ∧ Alike names (t.nodeAt p) (t'.nodeAt p) ∧
      ∃ k, t'.sub p = some k := by
  induction segs with
  | nil =>
    rintro t t' p ⟨⟩
    exact ⟨.refl _ t, .refl _, t, rfl⟩
  | cons seg segs ih =>
    intro t t' p h
    by_cases hseg : seg = []
    · rw [ensureSegments, if_pos hseg] at h
      exact ih h
    · obtain ⟨nm, n, i, k, k', q, hlook, hk, hq, rfl, rfl⟩ := ensureSegments_cons hseg h
      obtain ⟨hext, halike, c, hc⟩ := ih hq
      have hlast : n = 0 ∨ i + 1 = t.kids.length + n := by
        refine (ensureKeyBy_last hlook).imp (fun he => ?_) fun he => ?_
        · simpa using he
        · simpa using he
      have hname : k'.name = k.name := by
        have hname := @ensureSegments_name sep segs k
        rwa [hq] at hname
      have hkid : (t.kids ++ List.replicate n (blank nm))[i]? = some k := by
        obtain ⟨d, hd, hdk⟩ := Option.bind_eq_some_iff.mp hk
        obtain rfl := Option.some.inj hdk
        exact hd
      have hkid' : ((node t.name t.value (t.kids ++ List.replicate n (blank nm))).modifyAt
          (fun _ => k') [i]).kids[i]? = some k' := by
        rw [modifyAt_cons, kids_node, kids_node, List.getElem?_modify_eq, hkid]
        rfl
      refine ⟨(extends_append n nm hlast).trans (extends_below hname hext hk), ?_, c, ?_⟩
      · refine (nodeAt_append n nm _).trans ?_
        rw [nodeAt_cons hkid', nodeAt_cons (by rw [kids_node]; exact hkid)]
        exact halike
      · rw [sub_cons, hkid']
        exact hc

end Lemmas

/-! ### Writing a part -/

/-- What is done to the node that `at(path)` returns. -/
def withAt (path : Str) (f : Tree → Option Tree) (t : Tree) : Option Tree :=
  let r := ensurePath pathSep keySep path t
  r.2.bind fun p => (r.1.sub p).bind fun k => (f k).map fun k' => r.1.modifyAt (fun _ => k') p

section Writes

variable {names : List Str} {t t' k k' : Tree} {nm : Str} {f : Tree → Option Tree}

/-- The part `nm` of `t` is now `k`. -/
structure Written (names : List Str) (nm : Str) (k t t' : Tree) : Prop where
  name : t'.name = t.name
  value : t'.value = t.value
  part : t'.part nm = k
  others : ∀ nm', nm' ≠ nm → t'.part nm' = t.part nm'
  all : Extends names [] t t'

/-- A name is looked up among the children. -/
theorem ensurePath_name (hn : isName nm = true) (t : Tree) : ∃ n i,
    ensurePath pathSep keySep nm t = (node t.name t.value (t.kids ++ List.replicate n (blank nm)), some [i]) ∧
      (node t.name t.value (t.kids ++ List.replicate n (blank nm))).kids[i]? = some (t.part nm) ∧
      (node t.name t.value (t.kids ++ List.replicate n (blank nm))).partAt nm = some i ∧
      ∀ j, j ≠ i → (t.kids ++ List.replicate n (blank nm))[j]? = t.kids[j]? := by
  obtain ⟨hne, hsep, -⟩ := isName_spec hn
  have hpath : ∀ {ks : List Tree} {i : Nat} {k : Tree}, ensureKey t.kids nm = some (ks, i) → ks[i]? = some k →
      ensurePath pathSep keySep nm t = (node t.name t.value ks, some [i]) := by
    intro ks i k hlook hk
    rw [ensurePath, List.splitOn_eq_singleton hsep]
    unfold ensureSegments
    rw [if_neg hne, ensureKeyBy_keySep, hlook]
    simp only [hk]
    unfold ensureSegments
    rw [set_same hk]
    rfl
  cases hfind : t.kids.find? fun k => k.name = nm with
  | some k =>
    obtain ⟨hk, a, b, hkids, ha⟩ := List.find?_eq_some_iff_append.mp hfind
    have hk : k.name = nm := by simpa using hk
    have ha : ∀ x ∈ a, x.name ≠ nm := fun x hx => by simpa using ha x hx
    have hget : t.kids[a.length]? = some k := by simp [hkids]
    have hat : t.partAt nm = some a.length := by
      rw [partAt, hkids, List.findIdx?_append, List.findIdx?_eq_none_iff.mpr (by simpa using ha)]
      simp [List.findIdx?_cons, hk]
    refine ⟨0, a.length, ?_, ?_, ?_, fun j _ => ?_⟩
    · rw [List.replicate_zero, List.append_nil]
      refine hpath ?_ hget
      rw [hkids, ensureKey_found hn ha hk]
    · rw [List.replicate_zero, List.append_nil, kids_node, hget, part, hfind]
      rfl
    · rw [List.replicate_zero, List.append_nil, eta, hat]
    · rw [List.replicate_zero, List.append_nil]
  | none =>
    have hno : ∀ x ∈ t.kids, x.name ≠ nm := by simpa using List.find?_eq_none.mp hfind
    have hget : (t.kids ++ [blank nm])[t.kids.length]? = some (blank nm) := by simp
    refine ⟨1, t.kids.length, hpath (ensureKey_new hn hno) hget, ?_, ?_, fun j hj => ?_⟩
    · rw [kids_node, part, hfind]
      exact hget
    · rw [partAt, kids_node, List.findIdx?_append, List.findIdx?_eq_none_iff.mpr (by simpa using hno)]
      simp [List.findIdx?_cons, blank]
    · rw [List.getElem?_append]
      split_ifs with hlt
      · rfl
      · rw [List.getElem?_eq_none (by simp; omega), List.getElem?_eq_none (by omega)]

theorem part_name {i : Nat} (h : t.partAt nm = some i) (hk : t.kids[i]? = some k) : k.name = nm := by
  obtain ⟨hlt, htest, -⟩ := List.findIdx?_eq_some_iff_getElem.mp h
  rw [List.getElem?_eq_getElem hlt] at hk
  obtain rfl := Option.some.inj hk
  simpa using htest

theorem part_of_at {i : Nat} (h : t.partAt nm = some i) (hk : t.kids[i]? = some k) : t.part nm = k := by
  obtain ⟨hlt, htest, hfirst⟩ := List.findIdx?_eq_some_iff_getElem.mp h
  rw [List.getElem?_eq_getElem hlt] at hk
  have hfind : (t.kids.find? fun k => k.name = nm) = some t.kids[i] :=
    List.find?_eq_some_iff_getElem.mpr ⟨htest, i, hlt, rfl, fun j hj => by simpa using hfirst j hj⟩
  rw [part, hfind]
  exact Option.some.inj hk

theorem withAt_name (hn : isName nm = true) (h : withAt nm f t = some t')
    (hf : ∀ k k', f k = some k' → k'.name = k.name ∧ Grows k k') (hnm : nm ∈ names) :
    ∃ k, f (t.part nm) = some k ∧ Written names nm k t t' := by
  obtain ⟨n, i, hpath, hget, hat, hsame⟩ := ensurePath_name hn t
  have hpart : (t.part nm).name = nm := by
    rw [part]
    cases hfind : t.kids.find? fun k => k.name = nm with
    | some k => simpa using List.find?_some hfind
    | none => rfl
  set u := node t.name t.value (t.kids ++ List.replicate n (blank nm)) with hu
  have hsub : u.sub [i] = some (t.part nm) := by
    rw [sub_cons, hget]
    rfl
  rw [withAt, hpath] at h
  simp only [Option.bind_some, hsub] at h
  obtain ⟨k, hk, rfl⟩ := Option.map_eq_some_iff.mp h
  obtain ⟨hname, hgrows⟩ := hf _ _ hk
  have hnm' : k.name = nm := hname.trans hpart
  have hall := grows_replace hname hgrows hsub
  have hat' : (u.modifyAt (fun _ => k) [i]).partAt nm = some i := by
    obtain ⟨u', hu', hpre⟩ := hall [] u rfl
    obtain rfl := Option.some.inj hu'
    exact partAt_grown hpre hat
  have hkid : (u.modifyAt (fun _ => k) [i]).kids[i]? = some k := by
    rw [modifyAt_cons, kids_node, List.getElem?_modify_eq, hget]
    rfl
  have hother : ∀ j, j ≠ i → (u.modifyAt (fun _ => k) [i]).kids[j]? = t.kids[j]? := by
    intro j hj
    rw [modifyAt_cons, kids_node, List.getElem?_modify_ne _ _ (Ne.symm hj)]
    exact hsame j hj
  have hin : ∀ r, InPart names (u.modifyAt (fun _ => k) [i]) [] (i :: r) := fun r =>
    ⟨i, ⟨_, rfl, nm, hnm, hat'⟩, List.cons_prefix_cons.mpr ⟨rfl, List.nil_prefix⟩⟩
  refine ⟨k, hk, rfl, rfl, part_of_at hat' hkid, fun nm' hne => ?_, (grows_append _ _ _).trans hall,
    fun r hr _ hout => ?_, fun r c hc => ?_⟩
  · have halike : Alike [nm'] u (u.modifyAt (fun _ => k) [i]) := by
      refine alike_modify (fun c hc => ?_) fun x hx he => ?_
      · rw [Option.mem_def, hget] at hc
        rw [← Option.some.inj hc]
        exact hname
      · rw [List.mem_singleton.mp hx] at he
        exact hne ((part_name he hget).symm.trans hpart)
    rw [halike.part nm' (List.mem_singleton_self _)]
    exact (@alike_append [nm'] t n nm).part nm' (List.mem_singleton_self _)
  · cases r with
    | nil => exact absurd rfl hr
    | cons j r =>
      by_cases hj : j = i
      · subst hj
        exact absurd (hin r) hout
      · rw [nodeAt, nodeAt, sub_cons, sub_cons, hother j hj]
        exact .refl _
  · cases r with
    | nil => exact .inl ⟨t, rfl⟩
    | cons j r =>
      by_cases hj : j = i
      · subst hj
        exact .inr (.inr (hin r))
      · rw [sub_cons, hother j hj] at hc
        exact .inl ⟨c, by rw [sub_cons]; exact hc⟩

theorem extends_set (t : Tree) (v : Var) : Extends names [] t (t.set v) := by
  have hsub : ∀ r, r ≠ [] → (t.set v).sub r = t.sub r := by
    intro r hr
    cases r with
    | nil => exact absurd rfl hr
    | cons i r => rw [sub_cons, sub_cons, set_kids]
  refine ⟨grows_same_kids (set_kids t v), fun r hr _ _ => ?_, fun r k hk => ?_⟩
  · rw [nodeAt, nodeAt, hsub r hr]
    exact .refl _
  · cases r with
    | nil => exact .inl ⟨t, rfl⟩
    | cons i r =>
      rw [hsub _ (by simp)] at hk
      exact .inl ⟨k, hk⟩

/-- A path of one name leads to the first child of that name. -/
theorem findPath_child (hn : isName nm = true) (t : Tree) : findPath pathSep keySep nm t =
    (childNamed t.kids nm 0).bind fun i => t.kids[i]?.map fun _ => [i] := by
  obtain ⟨hne, hsep, -⟩ := isName_spec hn
  rw [findPath, List.splitOn_eq_singleton hsep]
  unfold findSegments
  rw [if_neg hne, findKey, parseKey_name hn, Option.bind_some]
  simp only [hne, false_and, if_false, lt_irrefl]
  refine congrArg _ (funext fun i => ?_)
  cases t.kids[i]? <;> rfl

/-- `find(name)` on a tree. -/
theorem findPath_name (hn : isName nm = true) (t : Tree) :
    ((findPath pathSep keySep nm t).bind fun p => t.sub p) = t.kids.find? fun k => k.name = nm := by
  obtain ⟨hne, -⟩ := isName_spec hn
  rw [findPath_child hn]
  cases hfind : t.kids.find? fun k => k.name = nm with
  | some k =>
    obtain ⟨hk, a, b, hkids, ha⟩ := List.find?_eq_some_iff_append.mp hfind
    rw [hkids, childNamed_found hne (fun x hx => by simpa using ha x hx) (by simpa using hk), Option.bind_some]
    simp [sub_cons, hkids]
  | none =>
    rw [childNamed_none hne (by simpa using List.find?_eq_none.mp hfind)]
    rfl

end Writes

end Tree

end VersatileEngine
