import VersatileEngine.Node.Scan

/-!
# VersatileEngine.Node.Path

Paths: `path`, `_root`, and the read-only lookups `atKey` and `atPath` (`find`).

`path` climbs with `parent()` and writes the key of each node; `atPath` splits at `/` and descends
with `atKey`, which falls back to the shadow of a node when it has no such child. Climbing and the
shadow chain take a bound on the number of steps; `none` means that it was used up.

* `atKey_keyOf`     — the key a node writes for a child leads back to that child.
* `find_path`       — the path of a node leads back to the node, with or without shadows.
* `path_injective`  — two nodes below `a` with the same path relative to `a` are the same node.
-/

namespace VersatileEngine

namespace Forest

/-- `_root(n)`. -/
def root (f : Forest) : Nat → Id → Option Id
  | 0, _ => none
  | k + 1, n =>
    match f.parent n with
    | some p => root f k p
    | none => some n

/-- `Node::path(ancestor)`. -/
def path (f : Forest) : Nat → Id → Option Id → Option Str
  | 0, _, _ => none
  | k + 1, this, ancestor =>
    if some this = ancestor then some []
    else
      match f.parent this with
      | none => some (f.name this)
      | some p =>
        let seg := f.keyOf p (some this) (-1)
        if some p = ancestor then some seg
        else (path f k p ancestor).map fun pp => if pp = [] then seg else pp ++ pathSep :: seg

/-- `if (cn = look(this)) return cn; if (use_shadow) if (sn = shadow()) return sn->..;` -/
def orShadow (f : Forest) (look : Id → Option Id) : Nat → Id → Bool → Option (Option Id)
  | 0, _, _ => none
  | k + 1, this, useShadow =>
    match look this with
    | some cn => some (some cn)
    | none =>
      if useShadow then
        match f.shadow this with
        | some sn => orShadow f look k sn true
        | none => some none
      else some none

/-- `Node::atKey(int, bool) const`. -/
def atIndex (f : Forest) (k : Nat) (this : Id) (index : Int) (useShadow : Bool) :
    Option (Option Id) :=
  f.orShadow (fun n => f.child n index) k this useShadow

/-- `Node::atKey(name, overlap, bool) const`. -/
def atName (f : Forest) (k : Nat) (this : Id) (name : Str) (overlap : Int) (useShadow : Bool) :
    Option (Option Id) :=
  f.orShadow (fun n => f.childNamed n name overlap) k this useShadow

/-- `Node::atKey(key, bool) const`. -/
def atKey (f : Forest) (k : Nat) (this : Id) (key : Str) (useShadow : Bool) : Option (Option Id) :=
  match parseKey keySep key with
  | none => some none
  | some (nm, idx) =>
    if nm = [] ∧ 0 ≤ idx then f.atIndex k this idx useShadow
    else f.atName k this nm (if idx < 0 then 0 else idx) useShadow

/-- The loop of `atPath` over the segments; empty segments are skipped. -/
def descend (f : Forest) (k : Nat) (useShadow : Bool) : Option Id → List Str → Option (Option Id)
  | cur, [] => some cur
  | none, _ :: _ => some none
  | some cur, seg :: segs =>
    if seg = [] then descend f k useShadow (some cur) segs
    else (f.atKey k cur seg useShadow).bind fun cur => descend f k useShadow cur segs

/-- `Node::atPath(path, bool) const`. -/
def atPath (f : Forest) (k : Nat) (this : Id) (path : Str) (useShadow : Bool) :
    Option (Option Id) :=
  match path with
  | [] => some (some this)
  | c :: rest =>
    if c = pathSep then
      (f.root k this).bind fun r =>
        if rest = [] then some (some r) else f.descend k useShadow (some r) (rest.splitOn pathSep)
    else f.descend k useShadow (some this) ((c :: rest).splitOn pathSep)

end Forest

/-! ## Keys -/

section Keys

theorem rsplit_none {sep : UInt8} {s : Str} (h : sep ∉ s) : rsplit sep s = none := by
  induction s with
  | nil => rfl
  | cons c s ih =>
    simp only [List.mem_cons, not_or] at h
    simp [rsplit, ih h.2, Ne.symm h.1]

theorem rsplit_append {sep : UInt8} (a : Str) {d : Str} (h : sep ∉ d) :
    rsplit sep (a ++ sep :: d) = some (a, d) := by
  induction a with
  | nil => simp [rsplit, rsplit_none h]
  | cons c a ih => simp [rsplit, ih]

/-- No separator is a digit. -/
theorem sep_not_mem_natChars (n : Nat) : keySep ∉ natChars n ∧ pathSep ∉ natChars n := by
  constructor <;> intro h <;> have := isDigit_natChars h <;> revert this <;> decide

/-- `toKey` and `parseKey` are inverse on indices that fit in an `int`. -/
theorem parseKey_toKey (nm : Str) {n : Nat} (hn : n < 2147483648) :
    parseKey keySep (nm ++ keySep :: natChars n) = some (nm, (n : Int)) := by
  have hall : (natChars n).all isDigit = true := by
    rw [List.all_eq_true]
    exact fun c hc => isDigit_natChars hc
  simp [parseKey, rsplit_append nm (sep_not_mem_natChars n).1, natChars_ne_nil, hall,
    digitsVal32_natChars hn]

theorem isName_spec {nm : Str} (h : isName nm = true) :
    nm ≠ [] ∧ pathSep ∉ nm ∧ keySep ∉ nm := by
  simpa [isName, and_assoc] using h

theorem parseKey_name {nm : Str} (h : isName nm = true) : parseKey keySep nm = some (nm, 0) := by
  obtain ⟨h1, -, h3⟩ := isName_spec h
  simp [parseKey, h1, rsplit_none h3]

end Keys

namespace Forest

section RoundTrip

variable {f : Forest} {a n c p : Id}

/-- What a scan of a child list writes as the key of a child, by the three forms of keys. -/
theorem keyOf_cases (name : Id → Str) {l : List Id} (hc : c ∈ l) :
    (name c = [] ∧ Scan.keyOf name l c = keySep :: natChars (l.idxOf c)) ∨
      (name c ≠ [] ∧ Scan.count name l (name c) ≤ 1 ∧ Scan.keyOf name l c = name c) ∨
      (name c ≠ [] ∧ Scan.keyOf name l c = name c ++ keySep ::
        natChars ((l.take (l.idxOf c)).filter (named name (name c))).length) := by
  by_cases hn : name c = []
  · exact .inl ⟨hn, by simp [Scan.keyOf, hc, hn, toKey, intChars]⟩
  · by_cases h1 : Scan.count name l (name c) ≤ 1
    · exact .inr (.inl ⟨hn, h1, by simp [Scan.keyOf, hc, hn, h1]⟩)
    · refine .inr (.inr ⟨hn, ?_⟩)
      have h0 : ¬ Scan.overlap name l c < 0 := by
        rw [Scan.overlap]
        omega
      simp only [Scan.keyOf, hc, if_true, hn, if_false, h1, toKey, h0]
      rfl

/-- Scanning for the name and overlap of a child finds the child. -/
theorem scan_overlap {name : Id → Str} {l : List Id} (hl : l.Nodup) (hc : c ∈ l) (hn : name c ≠ []) :
    Scan.child name l (name c) (Scan.overlap name l c) = some c := by
  obtain ⟨x, y, rfl, hx, -⟩ := mem_split hc hl
  have hself : named name (name c) c = true := by simp [named]
  rw [Scan.child, if_neg hn, Scan.overlap, nodeAt_nat, idxOf_middle hx, List.take_left,
    List.filter_append, List.filter_cons_of_pos hself]
  simp

/-- A name that occurs once has overlap 0. -/
theorem overlap_zero {name : Id → Str} {l : List Id} (hl : l.Nodup) (hc : c ∈ l) (hn : name c ≠ [])
    (h1 : Scan.count name l (name c) ≤ 1) : Scan.overlap name l c = 0 := by
  obtain ⟨x, y, rfl, hx, -⟩ := mem_split hc hl
  have hself : named name (name c) c = true := by simp [named]
  rw [Scan.count, Scan.children, if_neg hn, List.filter_append, List.filter_cons_of_pos hself] at h1
  rw [Scan.overlap, idxOf_middle hx, List.take_left]
  simp only [List.length_append, List.length_cons] at h1
  omega

/-- What is found among the own children is found, whether shadows count or not. -/
theorem orShadow_found {look : Id → Option Id} {k : Nat} (h : f.orShadow look k a false = some (some c)) (s : Bool) :
    f.orShadow look k a s = some (some c) := by
  cases k with
  | zero => cases h
  | succ k =>
    rw [orShadow] at h ⊢
    split at h
    · exact h
    · cases h

theorem atIndex_found {i : Int} (h : f.child a i = some c) (k : Nat) (s : Bool) :
    f.atIndex (k + 1) a i s = some (some c) := by
  simp [atIndex, orShadow, h]

theorem atName_found {nm : Str} {i : Int} (h : f.childNamed a nm i = some c) (k : Nat) (s : Bool) :
    f.atName (k + 1) a nm i s = some (some c) := by
  simp [atName, orShadow, h]

theorem atKey_position {i : Nat} (hi : i < 2147483648) (h : f.child a i = some c) (k : Nat) (s : Bool) :
    f.atKey (k + 1) a (keySep :: natChars i) s = some (some c) := by
  have hparse : parseKey keySep (keySep :: natChars i) = some ([], (i : Int)) := parseKey_toKey [] hi
  rw [atKey, hparse]
  simp only [Int.natCast_nonneg, and_self, if_true]
  exact atIndex_found h k s

theorem atKey_named {key nm : Str} {i : Int} (hn : nm ≠ []) (hparse : parseKey keySep key = some (nm, i))
    (hi : 0 ≤ i) (h : f.childNamed a nm i = some c) (k : Nat) (s : Bool) :
    f.atKey (k + 1) a key s = some (some c) := by
  rw [atKey, hparse]
  simp only [hn, false_and, if_false]
  rw [if_neg (not_lt.mpr hi)]
  exact atName_found h k s

/-- **One level**: the key of a child leads back to the child, whatever the shadows are. -/
theorem atKey_keyOf (h : Inv f) (hc : c ∈ f.nodes a) (hname : f.name c = [] ∨ isName (f.name c) = true)
    (hlen : (f.nodes a).length < 2147483648) (guess : Int) (k : Nat) (s : Bool) :
    f.atKey (k + 1) a (f.keyOf a (some c) guess) s = some (some c) := by
  have hl := h.nodup a
  have hidx : (f.nodes a).idxOf c < (f.nodes a).length := List.idxOf_lt_length_of_mem hc
  have hover : ((((f.nodes a).take ((f.nodes a).idxOf c)).filter (named f.name (f.name c))).length) <
      2147483648 := by
    have h1 := List.length_filter_le (named f.name (f.name c)) ((f.nodes a).take ((f.nodes a).idxOf c))
    have h2 := List.length_take_le ((f.nodes a).idxOf c) (f.nodes a)
    omega
  rw [keyOf_eq h]
  rcases keyOf_cases f.name hc with ⟨hn, hk⟩ | ⟨hn, h1, hk⟩ | ⟨hn, hk⟩
  · -- an anonymous child is addressed by its position
    rw [hk]
    refine atKey_position (by omega) ?_ k s
    rw [child_eq, if_neg (by omega)]
    exact (nodeAt_eq_iff hl hc).mpr rfl
  · rw [hk]
    refine atKey_named hn (parseKey_name (hname.resolve_left hn)) le_rfl ?_ k s
    rw [childNamed_eq h, ← overlap_zero hl hc hn h1]
    exact scan_overlap hl hc hn
  · rw [hk]
    refine atKey_named hn (parseKey_toKey _ hover) (Int.natCast_nonneg _) ?_ k s
    rw [childNamed_eq h]
    exact scan_overlap hl hc hn

/-- A key is a single, non-empty path segment. -/
theorem keyOf_segment (h : Inv f) (hc : c ∈ f.nodes a)
    (hname : f.name c = [] ∨ isName (f.name c) = true) (guess : Int) :
    f.keyOf a (some c) guess ≠ [] ∧ pathSep ∉ f.keyOf a (some c) guess := by
  have hsep : pathSep ≠ keySep := by decide
  rw [keyOf_eq h]
  rcases keyOf_cases f.name hc with ⟨hn, hk⟩ | ⟨hn, h1, hk⟩ | ⟨hn, hk⟩
  · rw [hk]
    refine ⟨by simp, ?_⟩
    simp [hsep, (sep_not_mem_natChars _).2]
  · rw [hk]
    exact ⟨hn, (isName_spec (hname.resolve_left hn)).2.1⟩
  · rw [hk]
    refine ⟨by simp [hn], ?_⟩
    simp [hsep, (sep_not_mem_natChars _).2, (isName_spec (hname.resolve_left hn)).2.1]

theorem descend_append (k : Nat) (s : Bool) (segs : List Str) :
    ∀ (cur : Option Id) (more : List Str), f.descend k s cur (segs ++ more) =
      (f.descend k s cur segs).bind fun cur => f.descend k s cur more := by
  induction segs with
  | nil => intro cur more; rfl
  | cons seg segs ih =>
    intro cur more
    cases cur with
    | none => cases more <;> rfl
    | some cur =>
      simp only [List.cons_append, descend]
      split
      · exact ih _ _
      · cases f.atKey k cur seg s with
        | none => rfl
        | some cur => exact ih _ _

/-- Every node strictly below `a` has an empty name or a proper one, and every child count from `a`
down fits in an `int`. -/
structure Addressable (f : Forest) (a : Id) : Prop where
  names : ∀ m, Climbs f.parent m a → m ≠ a → f.name m = [] ∨ isName (f.name m) = true
  counts : ∀ m, Climbs f.parent m a → (f.nodes m).length < 2147483648

/-- Below `a`, the path has a value that does not start with `/`, and descending it from `a` ends at
the node. The induction follows the climb. -/
theorem path_descend (h : Inv f) (ha : Addressable f a) (hn : Climbs f.parent n a) (hne : n ≠ a) :
    ∃ k p, f.path k n (some a) = some p ∧ p ≠ [] ∧ p.head? ≠ some pathSep ∧
      ∀ j s, f.descend (j + 1) s (some a) (p.splitOn pathSep) = some (some n) := by
  induction hn using Relation.ReflTransGen.head_induction_on with
  | refl => exact absurd rfl hne
  | @head n q hstep hq ih =>
    have hmem : n ∈ f.nodes q := h.mem_iff.mp hstep
    have hname := ha.names n (Climbs.head hstep hq) hne
    obtain ⟨hseg, hsep⟩ := keyOf_segment h hmem hname (-1)
    have hkey := fun j s => atKey_keyOf h hmem hname (ha.counts q hq) (-1) j s
    generalize hk : f.keyOf q (some n) (-1) = seg at hseg hsep hkey
    by_cases hqa : q = a
    · subst hqa
      refine ⟨1, seg, by simp [path, hne, hstep, hk], hseg, ?_, fun j s => ?_⟩
      · intro hhead
        exact hsep (List.mem_of_mem_head? hhead)
      · rw [List.splitOn_eq_singleton hsep]
        simp [descend, hseg, hkey]
    · obtain ⟨k, pp, hpp, hppne, hpph, hdesc⟩ := ih hqa
      refine ⟨k + 1, pp ++ pathSep :: seg, ?_, by simp, ?_, fun j s => ?_⟩
      · simp [path, hne, hstep, hk, hqa, hpp, hppne]
      · cases pp with
        | nil => exact absurd rfl hppne
        | cons c pp => simpa using hpph
      · rw [List.splitOn_append_cons_self, descend_append, hdesc j s,
          List.splitOn_eq_singleton hsep]
        simp [descend, hseg, hkey]

/-- The value of `path` does not depend on the bound. -/
theorem path_unique {anc : Option Id} (k : Nat) :
    ∀ {n : Id} {j : Nat} {p q : Str}, f.path k n anc = some p → f.path j n anc = some q → p = q := by
  induction k with
  | zero => intro n j p q h; cases h
  | succ k ih =>
    intro n j p q hp hq
    cases j with
    | zero => cases hq
    | succ j =>
      simp only [path] at hp hq
      split at hp
      · rename_i he
        rw [if_pos he] at hq
        exact Option.some.inj (hp.symm.trans hq)
      rename_i he
      rw [if_neg he] at hq
      split at hp
      · rename_i hpar
        simp only [hpar] at hq
        exact Option.some.inj (hp.symm.trans hq)
      · rename_i par hpar
        simp only [hpar] at hq
        split at hp
        · rename_i hpa
          rw [if_pos hpa] at hq
          exact Option.some.inj (hp.symm.trans hq)
        · rename_i hpa
          rw [if_neg hpa] at hq
          obtain ⟨pp, hpp, rfl⟩ := Option.map_eq_some_iff.mp hp
          obtain ⟨qq, hqq, rfl⟩ := Option.map_eq_some_iff.mp hq
          rw [ih hpp hqq]

/-- The path of a node at or below `a` has a value, and looking it up from `a` gives the node. -/
theorem atPath_path (h : Inv f) (ha : Addressable f a) (hn : Climbs f.parent n a) :
    (∃ k p, f.path k n (some a) = some p) ∧
      ∀ k p, f.path k n (some a) = some p → ∀ j s, f.atPath (j + 1) a p s = some (some n) := by
  by_cases hne : n = a
  · subst hne
    have hself : f.path 1 n (some n) = some [] := by simp [path]
    refine ⟨⟨1, [], hself⟩, fun k p hp j s => ?_⟩
    rw [path_unique k hp hself]
    rfl
  · obtain ⟨k, p, hp, hpne, hhead, hdesc⟩ := path_descend h ha hn hne
    refine ⟨⟨k, p, hp⟩, fun k' p' hp' j s => ?_⟩
    rw [path_unique k' hp' hp]
    cases p with
    | nil => exact absurd rfl hpne
    | cons c rest =>
      have hc : c ≠ pathSep := fun he => hhead (by simp [he])
      simp only [atPath, hc, if_false]
      exact hdesc j s

/-- **Path and find are inverse** below `a`, whatever shadows are set and whether they are used. Two
nodes below `a` have different paths, and a child's key leads back to the child. -/
theorem find_path (h : Inv f) (ha : Addressable f a) :
    (∀ n, Climbs f.parent n a → (∃ k p, f.path k n (some a) = some p) ∧
      ∀ k p, f.path k n (some a) = some p → ∀ j s, f.atPath (j + 1) a p s = some (some n)) ∧
    (∀ m n, Climbs f.parent m a → Climbs f.parent n a → ∀ k j p, f.path k m (some a) = some p →
      f.path j n (some a) = some p → m = n) ∧
    ∀ n, Climbs f.parent n a → ∀ c ∈ f.nodes n, c ≠ a → ∀ guess j s,
      f.atKey (j + 1) n (f.keyOf n (some c) guess) s = some (some c) := by
  refine ⟨fun n hn => atPath_path h ha hn, fun m n hm hn k j p hp hq => ?_,
    fun n hn c hc hca guess j s => ?_⟩
  · have h1 := (atPath_path h ha hm).2 k p hp 0 false
    have h2 := (atPath_path h ha hn).2 j p hq 0 false
    exact Option.some.inj (Option.some.inj (h1.symm.trans h2))
  · have hbelow := Climbs.head (h.mem_iff.mpr hc) hn
    exact atKey_keyOf h hc (ha.names c hbelow hca) (ha.counts n hn) guess j s

end RoundTrip

/-- `r` with the children `a`, `a` and an anonymous one, which has a child `b`; the last is
everybody's shadow. -/
def pathOps : List Op :=
  [.new (ascii "r"), .new (ascii "a"), .new (ascii "a"), .new [], .new (ascii "b"),
    .insertBatch 0 [some 1, some 2, some 3] (-1), .insert 3 (some 4) 0, .setShadow 0 (some 4),
    .setShadow 3 (some 4)]

def pathSample : Forest := scriptResult distinctB 0 pathOps

theorem inv_pathSample : Inv pathSample :=
  inv_of_runs (runs_scriptResult distinct_of_distinctB pathOps (by decide))

theorem addressable_pathSample : Addressable pathSample 0 := by
  have hlt : ∀ m, Climbs pathSample.parent m 0 → m < 5 := fun m hm => by
    cases hl : pathSample.live m with
    | true => exact inv_pathSample.bound hl
    | false =>
      have hm0 := hm.of_root (inv_pathSample.isolated hl).1
      subst hm0
      decide
  have hall : ∀ m < 5, (pathSample.name m = [] ∨ isName (pathSample.name m) = true) ∧
      (pathSample.nodes m).length < 2147483648 := by decide
  exact ⟨fun m hm _ => (hall m (hlt m hm)).1, fun m hm => (hall m (hlt m hm)).2⟩

theorem climbs_pathSample : Climbs pathSample.parent 4 0 :=
  Climbs.head (show pathSample.parent 4 = some 3 by decide)
    (Climbs.head (show pathSample.parent 3 = some 0 by decide) (Climbs.refl 0))

theorem find_path_sample : pathSample.atPath 1 0 (ascii "#2/b") true = some (some 4) :=
  ((find_path inv_pathSample addressable_pathSample).1 4 climbs_pathSample).2 3 _ (by decide) 0 true

end Forest

end VersatileEngine
