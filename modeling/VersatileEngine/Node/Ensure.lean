import VersatileEngine.Node.Edit
import VersatileEngine.Node.Path

/-!
# VersatileEngine.Node.Ensure

`at(path, false)` on a tree: the lookup that creates what is missing. It has no result where the code
returns a null pointer.

* `Tree.ensureIndex`, `Tree.ensureNamed`, `Tree.ensureKey` — `atKey`, with the children afterwards
  and the position of the one that is found.
* `Tree.atPath`        — what is done to the node that `at(path)` returns; the tree is its own root.
* `atPath_name`        — a path that is a name leads to the first child of that name, or to a new one.
* `atPath_kids`        — the names of the children that any other path makes are shorter than it.
-/

namespace VersatileEngine

namespace Tree

/-- `child(index)`: a negative index counts from the end. -/
def childAt (ks : List Tree) (index : Int) : Option Nat :=
  let index := if index < 0 then index + ks.length else index
  if index < 0 ∨ (ks.length : Int) ≤ index then none else some index.toNat

/-- `child(name, overlap)`. -/
def childNamed (ks : List Tree) (nm : Str) (overlap : Int) : Option Nat :=
  if nm = [] then childAt ks overlap
  else if overlap < 0 then none
  else (positions (fun k : Tree => k.name = nm) 0 ks)[overlap.toNat]?.map Int.toNat

/-- `count(name)`. -/
def countNamed (ks : List Tree) (nm : Str) : Nat :=
  if nm = [] then ks.length else (ks.filter fun k => k.name = nm).length

/-- `append(name, overlap)`. -/
def append (ks : List Tree) (nm : Str) (overlap : Int) : Option (List Tree) :=
  if overlap < 0 then none else some (ks ++ List.replicate (overlap.toNat + 1) (blank nm))

/-- `atKey(index, false)`. -/
def ensureIndex (ks : List Tree) (index : Int) : Option (List Tree × Nat) :=
  match childAt ks index with
  | some i => some (ks, i)
  | none =>
    if index < 0 then none
    else (append ks [] (index - ks.length)).bind fun ks => (childAt ks index).map fun i => (ks, i)

/-- `atKey(name, overlap, false)`. -/
def ensureNamed (ks : List Tree) (nm : Str) (overlap : Int) : Option (List Tree × Nat) :=
  match childNamed ks nm overlap with
  | some i => some (ks, i)
  | none =>
    if overlap < 0 then none
    else (append ks nm (overlap - countNamed ks nm)).bind fun ks =>
      (childNamed ks nm overlap).map fun i => (ks, i)

/-- `atKey(key, false)`. -/
def ensureKey (ks : List Tree) (key : Str) : Option (List Tree × Nat) :=
  (parseKey keySep key).bind fun (nm, idx) =>
    if nm = [] ∧ 0 ≤ idx then ensureIndex ks idx else ensureNamed ks nm idx

/-- The loop of `atPath` over the segments, and what is done at the end of it. -/
def atSegments (f : Tree → Tree) : List Str → Tree → Option Tree
  | [], t => some (f t)
  | seg :: segs, t =>
    if seg = [] then atSegments f segs t
    else (ensureKey t.kids seg).bind fun (ks, i) => ks[i]?.bind fun k =>
      (atSegments f segs k).map fun k => node t.name t.value (ks.set i k)

/-- `atPath(path, false)`. -/
def atPath (path : Str) (f : Tree → Tree) (t : Tree) : Option Tree :=
  match path with
  | [] => some (f t)
  | c :: rest =>
    if c = pathSep then if rest = [] then some (f t) else atSegments f (rest.splitOn pathSep) t
    else atSegments f ((c :: rest).splitOn pathSep) t

/-! ### A path that is a name -/

section Name

variable {nm : Str} {f : Tree → Tree} {a b ks : List Tree} {k t t' : Tree}

theorem childNamed_found (hn : nm ≠ []) (ha : ∀ x ∈ a, x.name ≠ nm) (hk : k.name = nm) :
    childNamed (a ++ k :: b) nm 0 = some a.length := by
  have hnone : positions (fun k : Tree => k.name = nm) 0 a = [] :=
    positions_eq_nil.mpr fun x hx => decide_eq_false (ha x hx)
  rw [childNamed, if_neg hn, if_neg (by omega), positions_append, hnone, positions, if_pos (by simpa using hk)]
  simp

theorem childNamed_none (hn : nm ≠ []) (h : ∀ x ∈ ks, x.name ≠ nm) : childNamed ks nm 0 = none := by
  have hnone : positions (fun k : Tree => k.name = nm) 0 ks = [] :=
    positions_eq_nil.mpr fun x hx => decide_eq_false (h x hx)
  rw [childNamed, if_neg hn, if_neg (by omega), hnone]
  rfl

theorem ensureKey_found (hn : isName nm = true) (ha : ∀ x ∈ a, x.name ≠ nm) (hk : k.name = nm) :
    ensureKey (a ++ k :: b) nm = some (a ++ k :: b, a.length) := by
  have hne := (isName_spec hn).1
  rw [ensureKey, parseKey_name hn, Option.bind_some]
  simp only [hne, false_and, if_false]
  rw [ensureNamed, childNamed_found hne ha hk]

theorem ensureKey_new (hn : isName nm = true) (h : ∀ x ∈ ks, x.name ≠ nm) :
    ensureKey ks nm = some (ks ++ [blank nm], ks.length) := by
  have hne := (isName_spec hn).1
  have hcount : countNamed ks nm = 0 := by
    rw [countNamed, if_neg hne, List.length_eq_zero_iff, List.filter_eq_nil_iff]
    simpa using h
  have hnew : childNamed (ks ++ [blank nm]) nm 0 = some ks.length := childNamed_found hne h rfl
  rw [ensureKey, parseKey_name hn, Option.bind_some]
  simp only [hne, false_and, if_false]
  rw [ensureNamed, childNamed_none hne h]
  simp only [hcount]
  rw [if_neg (by omega), append, if_neg (by omega), Option.bind_some]
  show (childNamed (ks ++ [blank nm]) nm 0).map _ = _
  rw [hnew, Option.map_some]
  rfl

theorem atPath_name (hn : isName nm = true) : atPath nm f t = atSegments f [nm] t := by
  obtain ⟨hne, hsep, -⟩ := isName_spec hn
  obtain ⟨c, rest, rfl⟩ := List.exists_cons_of_ne_nil hne
  have hc : c ≠ pathSep := fun he => hsep (by simp [he])
  rw [atPath, if_neg hc, List.splitOn_eq_singleton hsep]

/-- The first child of the name. -/
theorem atPath_found (hn : isName nm = true) (h : t.kids = a ++ k :: b) (ha : ∀ x ∈ a, x.name ≠ nm)
    (hk : k.name = nm) : atPath nm f t = some (node t.name t.value (a ++ f k :: b)) := by
  rw [atPath_name hn, atSegments, if_neg (isName_spec hn).1, h, ensureKey_found hn ha hk,
    Option.bind_some]
  simp [atSegments]

/-- A new child at the end. -/
theorem atPath_new (hn : isName nm = true) (h : ∀ x ∈ t.kids, x.name ≠ nm) :
    atPath nm f t = some (node t.name t.value (t.kids ++ [f (blank nm)])) := by
  rw [atPath_name hn, atSegments, if_neg (isName_spec hn).1, ensureKey_new hn h, Option.bind_some]
  simp [atSegments]

end Name

/-! ### Any path -/

section Path

variable {f : Tree → Tree} {ks ks' : List Tree} {k t t' : Tree} {key nm path : Str}

theorem append_mem {overlap : Int} (h : append ks nm overlap = some ks') (hk : k ∈ ks') :
    k ∈ ks ∨ k.name = nm := by
  rw [append] at h
  split_ifs at h
  cases h
  rcases List.mem_append.mp hk with hk | hk
  · exact .inl hk
  · exact .inr (congrArg name (List.eq_of_mem_replicate hk))

/-- The child is found in what a lookup leaves: the children that were there, or these and new ones. -/
theorem ensureIndex_spec {index : Int} {i : Nat} (h : ensureIndex ks index = some (ks', i)) :
    childAt ks' index = some i ∧ (ks' = ks ∨
      childAt ks index = none ∧ 0 ≤ index ∧ append ks [] (index - ks.length) = some ks') := by
  rw [ensureIndex] at h
  split at h
  case h_1 hfound =>
    cases h
    exact ⟨hfound, .inl rfl⟩
  case h_2 hnone =>
    split_ifs at h with hneg
    obtain ⟨l, happ, h⟩ := Option.bind_eq_some_iff.mp h
    obtain ⟨j, hfound, h⟩ := Option.map_eq_some_iff.mp h
    cases h
    exact ⟨hfound, .inr ⟨hnone, not_lt.mp hneg, happ⟩⟩

theorem ensureNamed_spec {overlap : Int} {i : Nat} (h : ensureNamed ks nm overlap = some (ks', i)) :
    childNamed ks' nm overlap = some i ∧ (ks' = ks ∨
      childNamed ks nm overlap = none ∧ 0 ≤ overlap ∧ append ks nm (overlap - countNamed ks nm) = some ks') := by
  rw [ensureNamed] at h
  split at h
  case h_1 hfound =>
    cases h
    exact ⟨hfound, .inl rfl⟩
  case h_2 hnone =>
    split_ifs at h with hneg
    obtain ⟨l, happ, h⟩ := Option.bind_eq_some_iff.mp h
    obtain ⟨j, hfound, h⟩ := Option.map_eq_some_iff.mp h
    cases h
    exact ⟨hfound, .inr ⟨hnone, not_lt.mp hneg, happ⟩⟩

theorem ensureIndex_mem {index : Int} {i : Nat} (h : ensureIndex ks index = some (ks', i)) (hk : k ∈ ks') :
    k ∈ ks ∨ k.name = [] := by
  obtain ⟨-, rfl | ⟨-, -, happ⟩⟩ := ensureIndex_spec h
  · exact .inl hk
  · exact append_mem happ hk

theorem ensureNamed_mem {overlap : Int} {i : Nat} (h : ensureNamed ks nm overlap = some (ks', i))
    (hk : k ∈ ks') : k ∈ ks ∨ k.name = nm := by
  obtain ⟨-, rfl | ⟨-, -, happ⟩⟩ := ensureNamed_spec h
  · exact .inl hk
  · exact append_mem happ hk

theorem rsplit_length {sep : UInt8} {s before after : Str} (h : rsplit sep s = some (before, after)) :
    before.length < s.length := by
  obtain ⟨rfl, -⟩ := rsplit_spec h
  simp

theorem parseKey_length {idx : Int} (h : parseKey keySep key = some (nm, idx)) :
    nm.length < key.length ∨ nm = key ∧ keySep ∉ key := by
  rw [parseKey] at h
  split_ifs at h with hempty
  split at h
  · next hr =>
    cases h
    exact .inr ⟨rfl, rsplit_eq_none hr⟩
  · next b d hr =>
    have hlt := rsplit_length hr
    split_ifs at h <;> cases h <;> exact .inl hlt

theorem splitOn_length {sep : UInt8} {s seg : Str} (h : seg ∈ s.splitOn sep) :
    seg.length < s.length ∨ seg = s ∧ sep ∉ s := by
  induction hn : s.length using Nat.strong_induction_on generalizing s with
  | _ n ih =>
    subst hn
    by_cases hsep : sep ∈ s
    · obtain ⟨a, b, rfl, ha⟩ := List.eq_append_cons_of_mem hsep
      rw [List.splitOn_append_cons_self_of_not_mem ha] at h
      have hlen : (a ++ sep :: b).length = a.length + b.length + 1 := by simp [Nat.add_assoc]
      refine .inl ?_
      rcases List.mem_cons.mp h with rfl | h
      · omega
      · rcases ih b.length (by omega) h rfl with hlt | ⟨rfl, -⟩ <;> omega
    · rw [List.splitOn_eq_singleton hsep] at h
      exact .inr ⟨List.mem_singleton.mp h, hsep⟩

/-- Where the names of the children come from: they were there, or a segment asks for them. -/
theorem atSegments_kids (hname : ∀ t, (f t).name = t.name) (hkids : ∀ t, (f t).kids = t.kids)
    {segs : List Str} : ∀ {t t' : Tree}, atSegments f segs t = some t' → t'.name = t.name ∧
      ∀ k ∈ t'.kids, (∃ k' ∈ t.kids, k'.name = k.name) ∨ k.name = [] ∨
        ∃ seg ∈ segs, ∃ idx, parseKey keySep seg = some (k.name, idx) := by
  induction segs with
  | nil =>
    intro t t' h
    cases h
    exact ⟨hname t, fun k hk => .inl ⟨k, hkids t ▸ hk, rfl⟩⟩
  | cons seg segs ih =>
    intro t t' h
    rw [atSegments] at h
    split_ifs at h with hseg
    · obtain ⟨hn, hk⟩ := ih h
      refine ⟨hn, fun k hmem => ?_⟩
      rcases hk k hmem with hold | hnil | ⟨s, hs, hp⟩
      · exact .inl hold
      · exact .inr (.inl hnil)
      · exact .inr (.inr ⟨s, List.mem_cons_of_mem _ hs, hp⟩)
    · obtain ⟨⟨ks, i⟩, hkey, h⟩ := Option.bind_eq_some_iff.mp h
      obtain ⟨c, hc, h⟩ := Option.bind_eq_some_iff.mp h
      obtain ⟨c', hc', rfl⟩ := Option.map_eq_some_iff.mp h
      have hcname := (ih hc').1
      refine ⟨rfl, fun k hk => ?_⟩
      obtain ⟨k₀, hk₀, hkn⟩ : ∃ k₀ ∈ ks, k₀.name = k.name := by
        rcases List.mem_or_eq_of_mem_set hk with hk | rfl
        · exact ⟨k, hk, rfl⟩
        · exact ⟨c, List.mem_of_getElem? hc, hcname.symm⟩
      rw [ensureKey] at hkey
      obtain ⟨⟨nm, idx⟩, hp, hkey⟩ := Option.bind_eq_some_iff.mp hkey
      simp only at hkey
      split_ifs at hkey with hidx
      · rcases ensureIndex_mem hkey hk₀ with hold | hnil
        · exact .inl ⟨k₀, hold, hkn⟩
        · exact .inr (.inl (hkn.symm.trans hnil))
      · rcases ensureNamed_mem hkey hk₀ with hold | hnm
        · exact .inl ⟨k₀, hold, hkn⟩
        · exact .inr (.inr ⟨seg, List.mem_cons_self .., idx, by rw [hp, ← hkn, hnm]⟩)

/-- The children that a path makes: one of the very name, or some with shorter names if the path is no
name. -/
theorem atPath_kids (hname : ∀ t, (f t).name = t.name) (hkids : ∀ t, (f t).kids = t.kids)
    (hpath : path ≠ []) (h : atPath path f t = some t') (hk : k ∈ t'.kids) :
    (∃ k' ∈ t.kids, k'.name = k.name) ∨ k.name = [] ∨ (isName path = true ∧ k.name = path) ∨
      isName path = false ∧ k.name.length < path.length := by
  by_cases hn : isName path = true
  · rw [atPath_name hn] at h
    rcases (atSegments_kids hname hkids h).2 k hk with hold | hnil | ⟨seg, hseg, idx, hp⟩
    · exact .inl hold
    · exact .inr (.inl hnil)
    · rw [List.mem_singleton.mp hseg, parseKey_name hn] at hp
      cases hp
      exact .inr (.inr (.inl ⟨hn, rfl⟩))
  have hfalse : isName path = false := by simpa using hn
  -- a key that is as long as the path would be a name
  have hshort : ∀ segs : List Str, (∀ seg ∈ segs, seg.length < path.length ∨ seg = path ∧ pathSep ∉ path) →
      atSegments f segs t = some t' → (∃ k' ∈ t.kids, k'.name = k.name) ∨ k.name = [] ∨
        k.name.length < path.length := by
    intro segs hsegs hrun
    rcases (atSegments_kids hname hkids hrun).2 k hk with hold | hnil | ⟨seg, hseg, idx, hp⟩
    · exact .inl hold
    · exact .inr (.inl hnil)
    · refine .inr (.inr ?_)
      rcases parseKey_length hp with hlt | ⟨he, hkey⟩
      · rcases hsegs seg hseg with hlt' | ⟨rfl, -⟩ <;> omega
      · rcases hsegs seg hseg with hlt' | ⟨rfl, hsep⟩
        · rwa [he]
        · exact absurd (by simp [isName, hpath, hsep, hkey]) hn
  have hgoal : (∃ k' ∈ t.kids, k'.name = k.name) ∨ k.name = [] ∨ k.name.length < path.length := by
    obtain ⟨c, rest, rfl⟩ := List.exists_cons_of_ne_nil hpath
    rw [atPath] at h
    split_ifs at h with hc hrest
    · cases h
      exact .inl ⟨k, hkids t ▸ hk, rfl⟩
    · refine hshort _ (fun seg hseg => .inl ?_) h
      rw [List.length_cons]
      rcases splitOn_length hseg with hlt | ⟨rfl, -⟩ <;> omega
    · exact hshort _ (fun seg hseg => splitOn_length hseg) h
  rcases hgoal with hold | hnil | hlt
  · exact .inl hold
  · exact .inr (.inl hnil)
  · exact .inr (.inr (.inr ⟨hfalse, hlt⟩))

theorem childAt_natCast (ks : List Tree) (n : Nat) :
    childAt ks n = if n < ks.length then some n else none := by
  have hpos : ¬ (n : Int) < 0 := by omega
  rw [childAt]
  simp only [hpos, if_false, false_or, Int.toNat_natCast]
  by_cases hn : n < ks.length
  · rw [if_pos hn, if_neg (by omega)]
  · rw [if_neg hn, if_pos (by omega)]

/-- `at(count())`. -/
theorem ensureIndex_end : ensureIndex ks ks.length = some (ks ++ [blank []], ks.length) := by
  have hlast : childAt (ks ++ [blank []]) ks.length = some ks.length := by
    rw [childAt_natCast, if_pos (by simp)]
  rw [ensureIndex, childAt_natCast, if_neg (Nat.lt_irrefl _)]
  simp only
  rw [if_neg (by omega), Int.sub_self]
  show (childAt (ks ++ [blank []]) ks.length).map _ = _
  rw [hlast, Option.map_some]
  rfl

end Path

end Tree

end VersatileEngine
