import VersatileEngine.Node.Grown

/-!
# VersatileEngine.Node.Resolve

What a path leads to when it is put together of parts.

* `findPath_append`  — a path behind a path is looked up at the node the first one leads to.
* `findPath_segment` — one segment is a lookup by key.
* `childNamed_first` — a plain name leads to the first child of that name, and to no other.
* `keyAt_segment`    — the key of a child is one segment of a path.
* `findPath_pathOf`  — **the path of a node leads to it**; a path of bare names does where every node on
  the way is the first of its name (`FirstOnWay`, `findPath_first`).
-/

namespace VersatileEngine

theorem parseKey_plain {sep : UInt8} {key : Str} (hne : key ≠ []) (h : sep ∉ key) :
    parseKey sep key = some (key, 0) := by
  rw [parseKey, if_neg hne, rsplit_none h]

namespace Tree

section Paths

variable {sep path_sep key_sep : UInt8} {t : Tree} {p : List Nat}

theorem findSegments_append (a b : List Str) : ∀ t : Tree,
    findSegments sep (a ++ b) t =
      (findSegments sep a t).bind fun p => (t.sub p).bind fun k => (findSegments sep b k).map (p ++ ·) := by
  induction a with
  | nil =>
    intro t
    cases h : findSegments sep b t <;> simp [findSegments, h]
  | cons seg a ih =>
    intro t
    rw [List.cons_append, findSegments, findSegments]
    split_ifs
    · exact ih t
    · cases hi : findKey sep t.kids seg with
      | none => rfl
      | some i =>
        rw [Option.bind_some, Option.bind_some]
        cases hk : t.kids[i]? with
        | none => rfl
        | some k =>
          rw [Option.bind_some, Option.bind_some, ih k]
          cases hp : findSegments sep a k with
          | none => rfl
          | some p =>
            rw [Option.bind_some, Option.map_some, Option.bind_some, sub_cons, hk, Option.bind_some]
            cases hc : k.sub p with
            | none => rfl
            | some c =>
              rw [Option.bind_some, Option.bind_some, Option.map_map]
              rfl

theorem findPath_append (a b : Str) (t : Tree) :
    findPath path_sep key_sep (a ++ path_sep :: b) t =
      (findPath path_sep key_sep a t).bind fun p =>
        (t.sub p).bind fun k => (findPath path_sep key_sep b k).map (p ++ ·) := by
  rw [findPath, List.splitOn_append_cons_self, findSegments_append]
  rfl

theorem findKey_get {ks : List Tree} {key : Str} {i : Nat} (h : findKey sep ks key = some i) :
    ∃ k, ks[i]? = some k := by
  obtain ⟨⟨nm, idx⟩, -, h⟩ := Option.bind_eq_some_iff.mp h
  dsimp only at h
  split_ifs at h
  · exact ⟨_, List.getElem?_eq_getElem (childAt_lt h)⟩
  all_goals
    obtain ⟨k, hk, -⟩ := childNamed_get h
    exact ⟨k, hk⟩

theorem findPath_segment {seg : Str} (hne : seg ≠ []) (hsep : path_sep ∉ seg) :
    findPath path_sep key_sep seg t = (findKey key_sep t.kids seg).map ([·]) := by
  rw [findPath, List.splitOn_eq_singleton hsep, findSegments, if_neg hne]
  cases hi : findKey key_sep t.kids seg with
  | none => rfl
  | some i =>
    obtain ⟨k, hk⟩ := findKey_get hi
    rw [Option.bind_some, hk]
    rfl

end Paths

section Names

variable {sep : UInt8} {ks : List Tree} {i : Nat} {k : Tree} {nm key : Str}

theorem split_at (hk : ks[i]? = some k) : ks = ks.take i ++ k :: ks.drop (i + 1) := by
  rw [← (List.getElem?_eq_some_iff.mp hk).2, List.getElem_cons_drop, List.take_append_drop]

theorem childNamed_first (hn : nm ≠ []) :
    childNamed ks nm 0 = some i ↔
      (∃ k, ks[i]? = some k ∧ k.name = nm) ∧ ∀ x ∈ ks.take i, x.name ≠ nm := by
  constructor
  · intro h
    obtain ⟨k, hk, hname⟩ := childNamed_get h
    refine ⟨⟨k, hk, hname hn⟩, fun x hx hxn => ?_⟩
    obtain ⟨m, hlt, rfl⟩ := List.mem_take_iff_getElem.mp hx
    obtain ⟨hlt, hlen⟩ := lt_min_iff.mp hlt
    have hm := List.getElem?_eq_getElem hlen
    -- the positions ascend, so the first of them is not behind `m`
    have hmem : (m : Int) ∈ positions (fun k : Tree => k.name = nm) 0 ks :=
      mem_positions.mpr ⟨m, _, hm, decide_eq_true hxn, by omega⟩
    rw [childNamed, if_neg hn, if_neg (by omega), Option.map_eq_some_iff] at h
    obtain ⟨j, hj, rfl⟩ := h
    have hsorted := positions_pairwise (fun k : Tree => k.name = nm) ks 0
    cases hl : positions (fun k : Tree => k.name = nm) 0 ks with
    | nil => rw [hl] at hmem; cases hmem
    | cons a l =>
      rw [hl] at hj hmem hsorted
      obtain rfl : a = j := by simpa using hj
      rcases List.mem_cons.mp hmem with hma | hml
      · omega
      · have := List.rel_of_pairwise_cons hsorted hml
        omega
  · rintro ⟨⟨k, hk, hname⟩, hbefore⟩
    have hlt := (List.getElem?_eq_some_iff.mp hk).1
    rw [split_at hk, childNamed_found hn hbefore hname, List.length_take, min_eq_left hlt.le]

/-- A child whose name is alone is the first of its name. -/
theorem alone_first (hn : k.name ≠ []) (hk : ks[i]? = some k) (h : countNamed ks k.name ≤ 1) :
    ∀ x ∈ ks.take i, x.name ≠ k.name := by
  intro x hx hname
  rw [countNamed, if_neg hn, split_at hk, List.filter_append, List.length_append,
    List.filter_cons_of_pos (by simp), List.length_cons] at h
  have hmem : x ∈ (ks.take i).filter fun c => c.name = k.name :=
    List.mem_filter.mpr ⟨hx, by simpa using hname⟩
  have := List.length_pos_of_mem hmem
  omega

theorem keyAt_segment (hk : ks[i]? = some k) (hname : k.name = [] ∨ isName k.name = true) :
    keyAt ks i ≠ [] ∧ pathSep ∉ keyAt ks i := by
  have hindex : ∀ n : Nat, pathSep ∉ keySep :: natChars n := fun n h =>
    (List.mem_cons.mp h).elim (by decide) (sep_not_mem_natChars n).2
  unfold keyAt
  rw [hk]
  dsimp only
  split_ifs with hn halone
  · rw [toKey, if_pos rfl]
    exact ⟨by simp, hindex i⟩
  · exact ⟨hn, (isName_spec (hname.resolve_left hn)).2.1⟩
  · rw [toKey, if_neg hn, if_neg (by omega)]
    refine ⟨by simp, ?_⟩
    rw [List.mem_append, not_or]
    exact ⟨(isName_spec (hname.resolve_left hn)).2.1, hindex _⟩

theorem childAt_iff {index : Int} (h0 : 0 ≤ index) (hi : i < ks.length) :
    childAt ks index = some i ↔ index = i := by
  unfold childAt
  dsimp only
  rw [if_neg (not_lt.mpr h0)]
  constructor
  · intro h
    split_ifs at h
    cases h
    omega
  · rintro rfl
    rw [if_neg (by omega), Int.toNat_natCast]

/-- A key without a name is a position, the first where the digits overflow. -/
theorem findKey_position {d : Int} (hparse : parseKey sep key = some ([], d)) (hi : i < ks.length) :
    findKey sep ks key = some i ↔ max d 0 = i := by
  rw [findKey, hparse, Option.bind_some]
  dsimp only
  rw [childNamed, if_pos rfl]
  by_cases hd : d < 0
  · rw [if_neg (by omega), if_pos hd, childAt_iff (by omega) hi, max_eq_right hd.le]
  · rw [if_pos ⟨rfl, not_lt.mp hd⟩, childAt_iff (not_lt.mp hd) hi, max_eq_left (not_lt.mp hd)]

theorem findKey_named {n : Nat} (hparse : parseKey sep key = some (nm, (n : Int))) (hn : nm ≠ []) :
    findKey sep ks key = childNamed ks nm n := by
  rw [findKey, hparse, Option.bind_some]
  dsimp only
  rw [if_neg (fun h => hn h.1), if_neg (by omega)]

/-- A child is found by the number of those of its name in front of it. -/
theorem childNamed_before (hn : k.name ≠ []) (hk : ks[i]? = some k) :
    childNamed ks k.name (countNamed (ks.take i) k.name) = some i := by
  have hlt := (List.getElem?_eq_some_iff.mp hk).1
  have hsplit : positions (fun c : Tree => c.name = k.name) 0 ks =
      positions (fun c : Tree => c.name = k.name) 0 (ks.take i) ++
        (i : Int) :: positions (fun c : Tree => c.name = k.name) (i + 1) (ks.drop (i + 1)) := by
    rw [congrArg (positions _ 0) (split_at hk), positions_append, positions, if_pos (by simp), List.length_take,
      min_eq_left hlt.le, Int.zero_add]
  rw [childNamed, if_neg hn, if_neg (by omega), Int.toNat_natCast, countNamed, if_neg hn, hsplit,
    ← length_positions _ _ 0, List.getElem?_append_right le_rfl, Nat.sub_self]
  rfl

/-- The key of a child leads to it. -/
theorem findKey_keyAt (hk : ks[i]? = some k) (hname : k.name = [] ∨ isName k.name = true)
    (hlen : ks.length < 2147483648) : findKey keySep ks (keyAt ks i) = some i := by
  have hi := (List.getElem?_eq_some_iff.mp hk).1
  unfold keyAt
  rw [hk]
  dsimp only
  split_ifs with hn halone
  · have hparse := parseKey_toKey [] (by omega : i < 2147483648)
    rw [toKey, if_pos rfl]
    exact (findKey_position hparse hi).mpr (max_eq_left (by omega))
  · rw [@findKey_named keySep _ _ _ 0 (parseKey_name (hname.resolve_left hn)) hn]
    exact (childNamed_first hn).mpr ⟨⟨k, hk, rfl⟩, alone_first hn hk halone⟩
  · have hle : countNamed (ks.take i) k.name ≤ i := by
      rw [countNamed, if_neg hn]
      exact (List.length_filter_le _ _).trans (List.length_take_le i ks)
    have hparse := parseKey_toKey k.name (by omega : countNamed (ks.take i) k.name < 2147483648)
    rw [toKey, if_neg hn, if_neg (by omega)]
    exact (findKey_named hparse hn).trans (childNamed_before hn hk)

end Names

/-! ### The path of a place -/

/-- The names are valid or empty, and the positions fit the `int` they are counted in. -/
structure Addressable (t : Tree) : Prop where
  names : ∀ p k, t.sub p = some k → p ≠ [] → k.name = [] ∨ isName k.name = true
  counts : ∀ p k, t.sub p = some k → k.kids.length < 2147483648

section Addressed

variable {root t k : Tree} {p q : List Nat} {i : Nat}

theorem addressable_node {nm : Str} {v : Var} {ks : List Tree} (hlen : ks.length < 2147483648)
    (h : ∀ k ∈ ks, (k.name = [] ∨ isName k.name = true) ∧ Addressable k) : Addressable (node nm v ks) := by
  have hdown : ∀ {i p k}, (node nm v ks).sub (i :: p) = some k → ∃ c ∈ ks, c.sub p = some k := by
    intro i p k hk
    obtain ⟨c, hc, hk⟩ := Option.bind_eq_some_iff.mp ((sub_cons i p _).symm.trans hk)
    exact ⟨c, List.mem_of_getElem? hc, hk⟩
  constructor
  · rintro (_ | ⟨i, p⟩) k hk hne
    · exact absurd rfl hne
    · obtain ⟨c, hc, hk⟩ := hdown hk
      by_cases hp : p = []
      · subst hp
        cases hk
        exact (h k hc).1
      · exact (h c hc).2.names p k hk hp
  · rintro (_ | ⟨i, p⟩) k hk
    · cases hk
      exact hlen
    · obtain ⟨c, hc, hk⟩ := hdown hk
      exact (h c hc).2.counts p k hk

theorem Addressable.kid (h : Addressable root) (ht : root.sub p = some t) (hk : t.kids[i]? = some k) :
    k.name = [] ∨ isName k.name = true := h.names (p ++ [i]) k (sub_kid ht hk) (by simp)

/-- One more segment on a path that leads to a node. -/
theorem findPath_step {sep : UInt8} {pp seg : Str} (hfind : findPath pathSep sep pp root = some p)
    (ht : root.sub p = some t) (hne : seg ≠ []) (hsep : pathSep ∉ seg) (hkey : findKey sep t.kids seg = some i) :
    findPath pathSep sep (if pp = [] then seg else pp ++ pathSep :: seg) root = some (p ++ [i]) := by
  split_ifs with hpp
  · subst hpp
    obtain rfl : [] = p := Option.some.inj hfind
    obtain rfl : root = t := Option.some.inj ht
    rw [findPath_segment hne hsep, hkey]
    rfl
  · rw [findPath_append, hfind, Option.bind_some, ht, Option.bind_some, findPath_segment hne hsep, hkey]
    rfl

theorem findPath_pathBehind (h : Addressable root) : ∀ {q p : List Nat} {pp : Str} {t k : Tree},
    findPath pathSep keySep pp root = some p → root.sub p = some t → t.sub q = some k →
    findPath pathSep keySep (pathBehind pp q t) root = some (p ++ q) := by
  intro q
  induction q with
  | nil =>
    intro p pp t k hfind ht hk
    rw [List.append_nil]
    exact hfind
  | cons i q ih =>
    intro p pp t k hfind ht hk
    obtain ⟨c, hc, hk⟩ := Option.bind_eq_some_iff.mp ((sub_cons i q t).symm.trans hk)
    have hsub := sub_kid ht hc
    rw [pathBehind, hc]
    obtain ⟨hne, hsep⟩ := keyAt_segment hc (h.kid ht hc)
    have hkey := findKey_keyAt hc (h.kid ht hc) (h.counts p t ht)
    have := ih (findPath_step hfind ht hne hsep hkey) hsub hk
    rwa [List.append_assoc] at this

/-- The path of a node leads to it. -/
theorem findPath_pathOf (h : Addressable root) (hk : root.sub p = some k) :
    findPath pathSep keySep (root.pathOf p) root = some p :=
  @findPath_pathBehind root h p [] [] root k rfl rfl hk

/-- No slash in front and none behind. -/
def Bare (pp : Str) : Prop := pp.head? ≠ some pathSep ∧ pp.getLast? ≠ some pathSep

theorem bare_segment {seg : Str} (h : pathSep ∉ seg) : Bare seg :=
  ⟨fun hhead => h (List.mem_of_mem_head? hhead), fun hlast => h (List.mem_of_getLast? hlast)⟩

theorem bare_pathBehind (h : Addressable root) : ∀ {q p : List Nat} {pp : Str} {t : Tree},
    Bare pp → root.sub p = some t → Bare (pathBehind pp q t) := by
  intro q
  induction q with
  | nil => exact fun hpp _ => hpp
  | cons i q ih =>
    intro p pp t hpp ht
    rw [pathBehind]
    cases hc : t.kids[i]? with
    | none => exact hpp
    | some c =>
      have hsub := sub_kid ht hc
      obtain ⟨hne, hsep⟩ := keyAt_segment hc (h.kid ht hc)
      refine ih ?_ hsub
      split_ifs with h0
      · exact bare_segment hsep
      · refine ⟨?_, ?_⟩
        · rw [List.head?_append_of_ne_nil _ h0]
          exact hpp.1
        · rw [List.getLast?_append_of_ne_nil _ (by simp), List.getLast?_cons_of_ne_nil hne]
          exact (bare_segment hsep).2

theorem bare_pathOf (h : Addressable root) (p : List Nat) : Bare (root.pathOf p) :=
  @bare_pathBehind root h p [] [] root ⟨by simp, by simp⟩ rfl

/-- Every node on the way has a name and is the first child of that name. -/
def FirstOnWay : List Nat → Tree → Prop
  | [], _ => True
  | i :: q, t => ∃ k, t.kids[i]? = some k ∧ k.name ≠ [] ∧ (∀ x ∈ t.kids.take i, x.name ≠ k.name) ∧ FirstOnWay q k

/-- One more name on a path that leads to a node. -/
theorem findPath_first (h : Addressable root) {pp : Str} (hfind : findPath pathSep keySep pp root = some p)
    (ht : root.sub p = some t) (hk : t.kids[i]? = some k) (hn : k.name ≠ [])
    (hfirst : ∀ x ∈ t.kids.take i, x.name ≠ k.name) :
    findPath pathSep keySep (if pp = [] then k.name else pp ++ pathSep :: k.name) root = some (p ++ [i]) := by
  have hvalid := (h.kid ht hk).resolve_left hn
  have hkey : findKey keySep t.kids k.name = some i := by
    rw [@findKey_named keySep _ _ _ 0 (parseKey_name hvalid) hn]
    exact (childNamed_first hn).mpr ⟨⟨k, hk, rfl⟩, hfirst⟩
  exact findPath_step hfind ht hn (isName_spec hvalid).2.1 hkey

end Addressed

end Tree

end VersatileEngine
