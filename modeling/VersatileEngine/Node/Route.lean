import VersatileEngine.Node.Ensure

/-!
# VersatileEngine.Node.Route

Lookups on a tree with separators of the caller, and where they lead.

* `Tree.sub`, `Tree.modifyAt`   — the node at a place, which is the list of positions on the way to it.
* `Tree.findPath`               — `atPath(path, ..) const`.
* `Tree.ensurePath`             — `atPath(path, ..)`, with what it leaves when a segment fails.
* `Tree.pathOf`                 — `path(root)` of the node at a place.
* `ensurePath_again`            — the path that a node was made for leads back to it.
-/

namespace VersatileEngine

namespace Tree

/-- The node at a place. -/
def sub : List Nat → Tree → Option Tree
  | [], t => some t
  | i :: p, t => t.kids[i]?.bind (sub p)

/-- What is done to the node at a place. -/
def modifyAt (f : Tree → Tree) : List Nat → Tree → Tree
  | [], t => f t
  | i :: p, t => node t.name t.value (t.kids.modify i (modifyAt f p))

/-- `atKey(key, false, sep) const`. -/
def findKey (sep : UInt8) (ks : List Tree) (key : Str) : Option Nat :=
  (parseKey sep key).bind fun (nm, idx) =>
    if nm = [] ∧ 0 ≤ idx then childAt ks idx else childNamed ks nm (if idx < 0 then 0 else idx)

/-- `atKey(key, false, sep)`, with the children afterwards; a lookup that fails adds none. -/
def ensureKeyBy (sep : UInt8) (ks : List Tree) (key : Str) : Option (List Tree × Nat) :=
  (parseKey sep key).bind fun (nm, idx) =>
    if nm = [] ∧ 0 ≤ idx then ensureIndex ks idx else ensureNamed ks nm idx

def findSegments (sep : UInt8) : List Str → Tree → Option (List Nat)
  | [], _ => some []
  | seg :: segs, t =>
    if seg = [] then findSegments sep segs t
    else (findKey sep t.kids seg).bind fun i => t.kids[i]?.bind fun k => (findSegments sep segs k).map (i :: ·)

def ensureSegments (sep : UInt8) : List Str → Tree → Tree × Option (List Nat)
  | [], t => (t, some [])
  | seg :: segs, t =>
    if seg = [] then ensureSegments sep segs t
    else
      match ensureKeyBy sep t.kids seg with
      | none => (t, none)
      | some (ks, i) =>
        match ks[i]? with
        | none => (node t.name t.value ks, none)
        | some k =>
          let r := ensureSegments sep segs k
          (node t.name t.value (ks.set i r.1), r.2.map (i :: ·))

/-- `atPath(path, false, path_sep, key_sep) const`. The tree is its own root, so the separator in front
is one more empty segment. -/
def findPath (path_sep key_sep : UInt8) (path : Str) (t : Tree) : Option (List Nat) :=
  findSegments key_sep (path.splitOn path_sep) t

/-- `atPath(path, false, path_sep, key_sep)`: the tree afterwards, and the place of the node. -/
def ensurePath (path_sep key_sep : UInt8) (path : Str) (t : Tree) : Tree × Option (List Nat) :=
  ensureSegments key_sep (path.splitOn path_sep) t

/-- `keyOf(child)`, for the child at a position. -/
def keyAt (ks : List Tree) (i : Nat) : Str :=
  match ks[i]? with
  | none => []
  | some c =>
    if c.name = [] then toKey keySep [] i
    else if countNamed ks c.name ≤ 1 then c.name
    else toKey keySep c.name (countNamed (ks.take i) c.name)

/-- `path(root)` of the node at a place, behind the path of the node it starts from. -/
def pathBehind (pp : Str) : List Nat → Tree → Str
  | [], _ => pp
  | i :: p, t =>
    match t.kids[i]? with
    | none => pp
    | some k => pathBehind (if pp = [] then keyAt t.kids i else pp ++ pathSep :: keyAt t.kids i) p k

def pathOf (p : List Nat) (t : Tree) : Str := pathBehind [] p t

theorem ensureKeyBy_keySep (ks : List Tree) (key : Str) : ensureKeyBy keySep ks key = ensureKey ks key := rfl

/-! ### Places -/

section Places

variable {f : Tree → Tree} {p q : List Nat} {i : Nat} {t k : Tree}

@[simp] theorem sub_nil (t : Tree) : t.sub [] = some t := rfl

theorem sub_cons (i : Nat) (p : List Nat) (t : Tree) : t.sub (i :: p) = t.kids[i]?.bind (sub p) := rfl

@[simp] theorem modifyAt_nil (f : Tree → Tree) (t : Tree) : t.modifyAt f [] = f t := rfl

theorem modifyAt_cons (f : Tree → Tree) (i : Nat) (p : List Nat) (t : Tree) :
    t.modifyAt f (i :: p) = node t.name t.value (t.kids.modify i (modifyAt f p)) := rfl

theorem sub_append (p q : List Nat) : ∀ t : Tree, t.sub (p ++ q) = (t.sub p).bind (sub q) := by
  induction p with
  | nil => exact fun t => rfl
  | cons i p ih =>
    intro t
    rw [List.cons_append, sub_cons, sub_cons, Option.bind_assoc]
    exact congrArg _ (funext ih)

theorem sub_kid {root : Tree} (ht : root.sub p = some t) (hk : t.kids[i]? = some k) :
    root.sub (p ++ [i]) = some k := by
  rw [sub_append, ht, Option.bind_some, sub_cons, hk]
  rfl

/-- What was done at a place is found there. -/
theorem sub_modifyAt : ∀ {p : List Nat} {t : Tree}, t.sub p = some k → (t.modifyAt f p).sub p = some (f k) := by
  intro p
  induction p with
  | nil =>
    rintro t ⟨⟩
    rfl
  | cons i p ih =>
    intro t h
    rw [sub_cons, Option.bind_eq_some_iff] at h
    obtain ⟨c, hc, hk⟩ := h
    rw [modifyAt_cons, sub_cons, kids_node, List.getElem?_modify_eq, hc]
    exact ih hk

theorem modifyAt_congr {g : Tree → Tree} : ∀ {p : List Nat} {t : Tree}, t.sub p = some k → f k = g k →
    t.modifyAt f p = t.modifyAt g p := by
  intro p
  induction p with
  | nil =>
    rintro t ⟨⟩ h
    exact h
  | cons i p ih =>
    intro t hk h
    obtain ⟨c, hc, hk⟩ := Option.bind_eq_some_iff.mp hk
    rw [modifyAt_cons, modifyAt_cons]
    refine congrArg _ (List.ext_getElem? fun j => ?_)
    rw [List.getElem?_modify, List.getElem?_modify]
    by_cases hij : i = j
    · subst hij
      simp only [if_true, hc, Option.map_eq_map, Option.map_some, ih hk h]
    · simp only [if_neg hij]

theorem modifyAt_id : ∀ (p : List Nat) (t : Tree), t.modifyAt id p = t := by
  intro p
  induction p with
  | nil => exact fun t => rfl
  | cons i p ih =>
    intro t
    rw [modifyAt_cons, funext ih]
    show node t.name t.value (t.kids.modify i id) = t
    rw [List.modify_id, eta]

theorem modifyAt_name (hf : ∀ t, (f t).name = t.name) (p : List Nat) (t : Tree) :
    (t.modifyAt f p).name = t.name := by
  cases p with
  | nil => exact hf t
  | cons i p => rfl

theorem modifyAt_name_of_sub (hname : (f k).name = k.name) (h : t.sub p = some k) :
    (t.modifyAt f p).name = t.name := by
  cases p with
  | nil =>
    obtain rfl := Option.some.inj h
    exact hname
  | cons i p => rfl

theorem map_name_modify (hf : ∀ t, (f t).name = t.name) (ks : List Tree) (i : Nat) (p : List Nat) :
    (ks.modify i (modifyAt f p)).map name = ks.map name := by
  refine List.ext_getElem? fun j => ?_
  rw [List.getElem?_map, List.getElem?_map, List.getElem?_modify]
  cases ks[j]? with
  | none => rfl
  | some k =>
    by_cases hij : i = j
    · simp only [hij, if_true, Option.map_eq_map, Option.map_some, modifyAt_name hf]
    · simp only [hij, if_false, Option.map_eq_map, Option.map_some]

end Places

/-! ### Children and their names -/

section Names

variable {ks ks' : List Tree} {nm key : Str} {sep : UInt8} {i : Nat}

theorem childAt_congr (h : ks.map name = ks'.map name) (index : Int) : childAt ks index = childAt ks' index := by
  have hlen : ks.length = ks'.length := by simpa using congrArg List.length h
  rw [childAt, childAt, hlen]

theorem positions_congr (h : ks.map name = ks'.map name) : ∀ n : Int,
    positions (fun k : Tree => k.name = nm) n ks = positions (fun k : Tree => k.name = nm) n ks' := by
  induction ks generalizing ks' with
  | nil =>
    intro n
    rw [List.map_nil, eq_comm, List.map_eq_nil_iff] at h
    rw [h]
  | cons k ks ih =>
    intro n
    cases ks' with
    | nil => cases h
    | cons k' ks' =>
      rw [List.map_cons, List.map_cons, List.cons.injEq] at h
      rw [positions, positions, h.1, ih h.2]

theorem childNamed_congr (h : ks.map name = ks'.map name) (nm : Str) (overlap : Int) :
    childNamed ks nm overlap = childNamed ks' nm overlap := by
  rw [childNamed, childNamed, childAt_congr h, positions_congr h]

theorem findKey_congr (h : ks.map name = ks'.map name) (key : Str) : findKey sep ks key = findKey sep ks' key := by
  unfold findKey
  simp only [childAt_congr h, childNamed_congr h]

theorem childAt_lt {index : Int} (h : childAt ks index = some i) : i < ks.length := by
  unfold childAt at h
  dsimp only at h
  split_ifs at h <;> cases h <;> omega

/-- The child that a lookup by name leads to. -/
theorem childNamed_get {overlap : Int} (h : childNamed ks nm overlap = some i) :
    ∃ k, ks[i]? = some k ∧ (nm ≠ [] → k.name = nm) := by
  rw [childNamed] at h
  split_ifs at h with hn
  · exact ⟨_, List.getElem?_eq_getElem (childAt_lt h), fun hne => absurd hn hne⟩
  · rw [Option.map_eq_some_iff] at h
    obtain ⟨j, hj, rfl⟩ := h
    obtain ⟨i, k, hk, hnm, rfl⟩ := mem_positions.mp (List.mem_of_getElem? hj)
    rw [Int.zero_add, Int.toNat_natCast]
    exact ⟨k, hk, fun _ => of_decide_eq_true hnm⟩

theorem append_eq {overlap : Int} (h : append ks nm overlap = some ks') :
    ∃ n : Nat, ks' = ks ++ List.replicate (n + 1) (blank nm) := by
  rw [append] at h
  split_ifs at h
  exact ⟨_, (Option.some.inj h).symm⟩

/-- What a lookup by key leaves: the children that were there, and new ones behind them. -/
structure Made (ks : List Tree) (look : List Tree → Option (List Tree × Nat)) (ks' : List Tree) (i : Nat) :
    Prop where
  kept : ∃ nm n, ks' = ks ++ List.replicate n (blank nm)
  lt : i < ks'.length
  again : ∀ ks'' : List Tree, ks''.map name = ks'.map name → look ks'' = some (ks'', i)

theorem ensureIndex_made {index : Int} (h : ensureIndex ks index = some (ks', i)) :
    Made ks (fun ks => ensureIndex ks index) ks' i := by
  have hagain : childAt ks' index = some i → ∀ ks'' : List Tree, ks''.map name = ks'.map name →
      ensureIndex ks'' index = some (ks'', i) := by
    intro hfound ks'' hnames
    rw [ensureIndex, childAt_congr hnames, hfound]
  obtain ⟨hfound, rfl | ⟨-, -, happ⟩⟩ := ensureIndex_spec h
  · exact ⟨⟨[], 0, by simp⟩, childAt_lt hfound, hagain hfound⟩
  · obtain ⟨n, rfl⟩ := append_eq happ
    exact ⟨⟨[], n + 1, rfl⟩, childAt_lt hfound, hagain hfound⟩

theorem ensureNamed_made {overlap : Int} (h : ensureNamed ks nm overlap = some (ks', i)) :
    Made ks (fun ks => ensureNamed ks nm overlap) ks' i := by
  have hagain : childNamed ks' nm overlap = some i → ∀ ks'' : List Tree, ks''.map name = ks'.map name →
      ensureNamed ks'' nm overlap = some (ks'', i) := by
    intro hfound ks'' hnames
    rw [ensureNamed, childNamed_congr hnames, hfound]
  have hlt : childNamed ks' nm overlap = some i → i < ks'.length := by
    intro hfound
    obtain ⟨k, hk, -⟩ := childNamed_get hfound
    exact (List.getElem?_eq_some_iff.mp hk).1
  obtain ⟨hfound, rfl | ⟨-, -, happ⟩⟩ := ensureNamed_spec h
  · exact ⟨⟨[], 0, by simp⟩, hlt hfound, hagain hfound⟩
  · obtain ⟨n, rfl⟩ := append_eq happ
    exact ⟨⟨nm, n + 1, rfl⟩, hlt hfound, hagain hfound⟩

theorem ensureKeyBy_made (h : ensureKeyBy sep ks key = some (ks', i)) :
    Made ks (fun ks => ensureKeyBy sep ks key) ks' i := by
  obtain ⟨⟨nm, idx⟩, hkey, h⟩ := Option.bind_eq_some_iff.mp h
  have hlook : ∀ ks, ensureKeyBy sep ks key =
      if nm = [] ∧ 0 ≤ idx then ensureIndex ks idx else ensureNamed ks nm idx := by
    intro ks
    rw [ensureKeyBy, hkey, Option.bind_some]
  dsimp only at h
  split_ifs at h with hc
  · simp only [funext hlook, if_pos hc]
    exact ensureIndex_made h
  · simp only [funext hlook, if_neg hc]
    exact ensureNamed_made h

end Names

/-! ### Paths -/

section Paths

variable {f : Tree → Tree} {key_sep path_sep : UInt8} {segs : List Str} {p : List Nat} {t t' : Tree}

theorem ensureSegments_name (segs : List Str) :
    ∀ t : Tree, (ensureSegments key_sep segs t).1.name = t.name := by
  induction segs with
  | nil => exact fun t => rfl
  | cons seg segs ih =>
    intro t
    rw [ensureSegments]
    split_ifs
    · exact ih t
    · split
      · rfl
      · split <;> rfl

theorem set_same {α : Type} {l : List α} {i : Nat} {a : α} (h : l[i]? = some a) : l.set i a = l := by
  obtain ⟨hlt, rfl⟩ := List.getElem?_eq_some_iff.mp h
  exact List.set_getElem_self hlt

theorem map_name_set {ks : List Tree} {i : Nat} {k k' : Tree} (hk : ks[i]? = some k) (h : k'.name = k.name) :
    (ks.set i k').map name = ks.map name := by
  rw [List.map_set, h]
  exact set_same (by rw [List.getElem?_map, hk, Option.map_some])

/-- The segments that a node was made for lead back to it, whatever is done to it. -/
theorem ensureSegments_again (hf : ∀ t, (f t).name = t.name) :
    ∀ {segs : List Str} {t t' : Tree} {p : List Nat}, ensureSegments key_sep segs t = (t', some p) →
      (∃ k, t'.sub p = some k) ∧
      ensureSegments key_sep segs (t'.modifyAt f p) = (t'.modifyAt f p, some p) := by
  intro segs
  induction segs with
  | nil =>
    rintro t t' p ⟨⟩
    exact ⟨⟨t, rfl⟩, rfl⟩
  | cons seg segs ih =>
    intro t t' p h
    rw [ensureSegments] at h
    split_ifs at h with hseg
    · obtain ⟨hk, h⟩ := ih h
      exact ⟨hk, by rw [ensureSegments, if_pos hseg, h]⟩
    split at h
    · cases h
    rename_i ks i hlook
    have hmade := ensureKeyBy_made hlook
    split at h
    · cases h
    rename_i k hk
    rw [Prod.mk.injEq, Option.map_eq_some_iff] at h
    obtain ⟨rfl, p, hp, rfl⟩ := h
    have hr : ensureSegments key_sep segs k = ((ensureSegments key_sep segs k).1, some p) := by rw [← hp]
    obtain ⟨⟨c, hc⟩, h⟩ := ih hr
    have hset : (ks.set i (ensureSegments key_sep segs k).1)[i]? = some (ensureSegments key_sep segs k).1 :=
      List.getElem?_set_self hmade.lt
    refine ⟨⟨c, by rw [sub_cons, kids_node, hset]; exact hc⟩, ?_⟩
    set r := (ensureSegments key_sep segs k).1 with hr'
    -- the children after `f`, at the same names
    have hnames : ((ks.set i r).modify i (modifyAt f p)).map name = ks.map name := by
      rw [map_name_modify hf, map_name_set hk (ensureSegments_name segs k)]
    have hget : ((ks.set i r).modify i (modifyAt f p))[i]? = some (r.modifyAt f p) := by
      rw [List.getElem?_modify_eq, hset]
      rfl
    rw [modifyAt_cons, ensureSegments, if_neg hseg]
    simp only [kids_node, name_node, value_node, hmade.again _ hnames, hget, h, Option.map_some]
    rw [set_same hget]

/-- **The path that a node was made for leads back to it**, whatever is done to the node. -/
theorem ensurePath_again (hf : ∀ t, (f t).name = t.name) {path : Str}
    (h : ensurePath path_sep key_sep path t = (t', some p)) :
    (∃ k, t'.sub p = some k) ∧
      ensurePath path_sep key_sep path (t'.modifyAt f p) = (t'.modifyAt f p, some p) :=
  ensureSegments_again hf h

end Paths

end Tree

end VersatileEngine
