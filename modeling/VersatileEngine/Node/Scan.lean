import VersatileEngine.Node.Ops

/-!
# VersatileEngine.Node.Scan

The read interface of a node is what a plain scan of its ordered child list computes.

`Scan` holds the plain scans; they look at the child list and the names only, never at an index map.
For every forest that can be reached, `index_refines` says that the index map is the map of
positions, and that `child`, `count`, `children`, `indexOf` (with any guess) and `keyOf` return what
the scans return.

* `indexOf_eq` — the three searches of `indexOf`: through the index map, outward from the guess, and
  forward.
-/

namespace VersatileEngine

/-! ## The plain scans -/

namespace Scan

variable (name : Id → Str) (l : List Id)

def child (nm : Str) (k : Int) : Option Id :=
  if nm = [] then nodeAt l (if k < 0 then k + l.length else k)
  else nodeAt (l.filter (named name nm)) k

def children (nm : Str) : List Id := if nm = [] then l else l.filter (named name nm)

def count (nm : Str) : Int := (children name l nm).length

def indexOf (c : Id) : Int := if c ∈ l then (l.idxOf c : Int) else -1

/-- How many children of the same name stand before `c`. -/
def overlap (c : Id) : Int := ((l.take (l.idxOf c)).filter (named name (name c))).length

def keyOf (c : Id) : Str :=
  if c ∈ l then
    if name c = [] then toKey keySep [] (l.idxOf c)
    else if count name l (name c) ≤ 1 then name c
    else toKey keySep (name c) (overlap name l c)
  else []

end Scan

/-! ## Searching -/

section Search

variable {l a b : List Id} {c : Id}

theorem idxOf_middle (ha : c ∉ a) : (a ++ c :: b).idxOf c = a.length := by
  simp [List.idxOf_append_of_notMem ha]

/-- In a list without repetitions `c` stands at one position only. -/
theorem nodeAt_eq_iff (hl : l.Nodup) (hc : c ∈ l) {i : Int} :
    nodeAt l i = some c ↔ i = l.idxOf c := by
  have hlt := List.idxOf_lt_length_of_mem hc
  have hget : l[l.idxOf c]? = some c := by
    rw [List.getElem?_eq_getElem hlt, List.getElem_idxOf]
  constructor
  · intro h
    simp only [nodeAt] at h
    split at h
    · rename_i h0
      have hi : i.toNat < l.length := (List.getElem?_eq_some_iff.mp h).1
      have := (List.getElem?_inj hi hl).mp (h.trans hget.symm)
      omega
    · cases h
  · rintro rfl
    rw [nodeAt_nat, hget]

theorem nodeAt_ne (hc : c ∉ l) (i : Int) : nodeAt l i ≠ some c := fun h => hc (Forest.nodeAt_mem h)

theorem forwardScan_eq (l : List Id) (c : Id) (hl : l.Nodup) :
    Forest.forwardScan c 0 l = Scan.indexOf l c := by
  by_cases hc : c ∈ l
  · obtain ⟨a, b, rfl, ha, -⟩ := Forest.mem_split hc hl
    simp [Scan.indexOf, forwardScan_middle ha, idxOf_middle ha]
  · simp [Scan.indexOf, hc, forwardScan_not_mem hc]

theorem expandOutward_absent (hc : c ∉ l) (guess : Int) (k : Nat) :
    ∀ d, Forest.expandOutward l c guess k d = -1 := by
  induction k with
  | zero => intro d; rfl
  | succ k ih => intro d; simp [Forest.expandOutward, nodeAt_ne hc, ih]

/-- The outward search, at a distance from the guess that is not past the child yet. -/
theorem expandOutward_eq (hl : l.Nodup) (hc : c ∈ l) {guess : Int} (k : Nat) :
    ∀ d : Int, 0 < d → d ≤ ((l.idxOf c : Int) - guess).natAbs →
      ((l.idxOf c : Int) - guess).natAbs < d + k →
      Forest.expandOutward l c guess k d = l.idxOf c := by
  have hlt : (l.idxOf c : Int) < l.length := by
    exact_mod_cast List.idxOf_lt_length_of_mem hc
  induction k with
  | zero => intro d _ h1 h2; omega
  | succ k ih =>
    intro d h0 h1 h2
    simp only [Forest.expandOutward, nodeAt_eq_iff hl hc]
    split
    · omega
    split
    · omega
    split
    · -- both ends are out of the list, the child lies between them
      omega
    · exact ih (d + 1) (by omega) (by omega) (by omega)

end Search

/-! ## The index map -/

section Indexed

variable {name : Id → Str} {ch : Children}

theorem Children.Indexed.some_iff (h : ch.Indexed name) {nm : Str} {iv : List Int} :
    ch.indices nm = some iv ↔
      nm ≠ [] ∧ iv ≠ [] ∧ iv = positions (named name nm) 0 ch.nodes := by
  rw [h nm]
  by_cases hn : nm = []
  · simp [hn]
  · simp only [hn, if_false, ne_eq, not_false_eq_true, true_and, entry]
    split
    · rename_i hnil
      rw [hnil]
      exact ⟨fun h => (by cases h), fun h => absurd h.2 h.1⟩
    · rename_i hne
      constructor
      · intro h
        cases h
        exact ⟨hne, rfl⟩
      · rintro ⟨-, rfl⟩
        rfl

theorem Children.Indexed.none_iff (h : ch.Indexed name) {nm : Str} (hn : nm ≠ []) :
    ch.indices nm = none ↔ ch.nodes.filter (named name nm) = [] := by
  rw [h nm, if_neg hn, List.filter_eq_nil_iff, entry]
  simp [positions_eq_nil]

end Indexed

namespace Forest

section Reads

variable {f : Forest} {this : Id}

theorem child_eq (f : Forest) (this : Id) (k : Int) :
    f.child this k = nodeAt (f.nodes this) (if k < 0 then k + (f.nodes this).length else k) := by
  simp only [child]
  split
  · rename_i hch
    simp [nodes_of_none hch, nodeAt]
  · rename_i ch hch
    have hns : f.nodes this = ch.nodes := by rw [nodes, kids_of_some hch]
    rw [hns]
    generalize (if k < 0 then k + (ch.nodes.length : Int) else k) = i
    split
    · rename_i hi
      rcases hi with hi | hi
      · rw [nodeAt, if_neg (by omega)]
      · rw [nodeAt]
        split
        · rw [List.getElem?_eq_none (by omega)]
        · rfl
    · rfl

theorem childNamed_indexed {this : Id} (h : (f.kids this).Indexed f.name) (nm : Str) (k : Int) :
    f.childNamed this nm k = Scan.child f.name (f.nodes this) nm k := by
  simp only [childNamed, Scan.child]
  split
  · exact child_eq f this k
  rename_i hn
  split
  · rename_i hch
    simp [nodes_of_none hch, nodeAt]
  rename_i ch hch
  have hidx : ch.Indexed f.name := kids_of_some hch ▸ h
  have hns : f.nodes this = ch.nodes := by rw [nodes, kids_of_some hch]
  rw [hns]
  by_cases hk : k < 0
  · simp [hk, nodeAt, show ¬ 0 ≤ k by omega]
  obtain ⟨j, rfl⟩ := Int.eq_ofNat_of_zero_le (show 0 ≤ k by omega)
  rw [if_neg hk, nodeAt_nat, getElem?_positions (named f.name nm) ch.nodes 0 j]
  cases hiv : ch.indices nm with
  | none =>
    have := (hidx.none_iff hn).mp hiv
    have hnil : positions (named f.name nm) 0 ch.nodes = [] := by
      rw [← List.length_eq_zero_iff, length_positions, this]; rfl
    simp [hnil]
  | some iv =>
    obtain ⟨-, -, rfl⟩ := hidx.some_iff.mp hiv
    cases hj : (positions (named f.name nm) 0 ch.nodes)[j]? with
    | none => simp [List.getD, hj, nodeAt]
    | some i =>
      have h0 := positions_ge (List.mem_of_getElem? hj)
      simp [List.getD, hj, nodeAt, h0]

theorem childNamed_eq (h : Inv f) (this : Id) (nm : Str) (k : Int) :
    f.childNamed this nm k = Scan.child f.name (f.nodes this) nm k :=
  childNamed_indexed (h.indexed this) nm k

theorem childrenNamed_eq (h : Inv f) (this : Id) (nm : Str) :
    f.childrenNamed this nm = (Scan.children f.name (f.nodes this) nm).map some := by
  have hlist : f.childList this = f.nodes this := by
    simp only [childList]
    split
    · rename_i hch; rw [nodes_of_none hch]
    · rename_i ch hch; rw [nodes, kids_of_some hch]
  simp only [childrenNamed, Scan.children]
  split
  · rw [hlist]
  rename_i hn
  split
  · rename_i hch
    simp [nodes_of_none hch]
  rename_i ch hch
  have hidx : ch.Indexed f.name := kids_of_some hch ▸ h.indexed this
  have hns : f.nodes this = ch.nodes := by rw [nodes, kids_of_some hch]
  rw [hns]
  cases hiv : ch.indices nm with
  | none => simp [(hidx.none_iff hn).mp hiv]
  | some iv =>
    obtain ⟨-, -, rfl⟩ := hidx.some_iff.mp hiv
    refine List.ext_getElem? fun j => ?_
    rw [List.getElem?_map, List.getElem?_map, getElem?_positions (named f.name nm) ch.nodes 0 j]
    cases hj : (positions (named f.name nm) 0 ch.nodes)[j]? with
    | none => rfl
    | some i =>
      obtain ⟨c, -, hat, -⟩ := nodeAt_positions (List.mem_of_getElem? hj)
      have h0 := positions_ge (List.mem_of_getElem? hj)
      have hget : ch.nodes[i.toNat]? = some c := by simpa [nodeAt, h0] using hat
      simp [hat, hget]

theorem countNamed_eq (h : Inv f) (this : Id) (nm : Str) :
    f.countNamed this nm = Scan.count f.name (f.nodes this) nm := by
  simp only [countNamed, count, Scan.count, Scan.children]
  by_cases hn : nm = []
  · simp only [hn, if_true]
    split
    · rename_i hch; simp [nodes_of_none hch]
    · rename_i ch hch; rw [nodes, kids_of_some hch]
  simp only [hn, if_false]
  split
  · rename_i hch
    simp [nodes_of_none hch]
  rename_i ch hch
  have hidx : ch.Indexed f.name := kids_of_some hch ▸ h.indexed this
  have hns : f.nodes this = ch.nodes := by rw [nodes, kids_of_some hch]
  rw [hns]
  cases hiv : ch.indices nm with
  | none => simp [(hidx.none_iff hn).mp hiv]
  | some iv =>
    obtain ⟨-, -, rfl⟩ := hidx.some_iff.mp hiv
    simp [length_positions]

theorem indexOf_null (f : Forest) (this : Id) (guess : Int) : f.indexOf this none guess = -1 := by
  simp [indexOf]

/-- The search through the index map. -/
theorem find?_positions {l : List Id} (hl : l.Nodup) {c : Id} {p : Id → Bool} (hp : p c) :
    ((positions p 0 l).find? fun i => nodeAt l i = some c).getD (-1) = Scan.indexOf l c := by
  by_cases hc : c ∈ l
  · have hex : ((positions p 0 l).find? fun i => nodeAt l i = some c) = some (l.idxOf c : Int) := by
      have hmem : (l.idxOf c : Int) ∈ positions p 0 l := mem_positions.mpr ⟨l.idxOf c, c, by
        rw [List.getElem?_eq_getElem (List.idxOf_lt_length_of_mem hc), List.getElem_idxOf], hp, by simp⟩
      simp only [nodeAt_eq_iff hl hc]
      cases hf : (positions p 0 l).find? fun i => decide (i = (l.idxOf c : Int)) with
      | none =>
        have := List.find?_eq_none.mp hf _ hmem
        simp at this
      | some i =>
        have := List.find?_some hf
        simpa using this
    simp [hex, Scan.indexOf, hc]
  · have hnone : ((positions p 0 l).find? fun i => nodeAt l i = some c) = none := by
      simp [List.find?_eq_none, nodeAt_ne hc]
    simp [hnone, Scan.indexOf, hc]

/-- **indexOf** with any guess is the plain scan. -/
theorem indexOf_eq (h : Inv f) (this c : Id) (guess : Int) :
    f.indexOf this (some c) guess = Scan.indexOf (f.nodes this) c := by
  have hl := h.nodup this
  simp only [indexOf]
  split
  · rename_i c' ch hcc hch
    cases hcc
    have hidx : ch.Indexed f.name := kids_of_some hch ▸ h.indexed this
    have hns : f.nodes this = ch.nodes := by rw [nodes, kids_of_some hch]
    rw [hns] at hl ⊢
    split
    · rename_i hn
      cases hiv : ch.indices (f.name c) with
      | none =>
        have hnil := (hidx.none_iff hn).mp hiv
        have hc : c ∉ ch.nodes := fun hc => by
          have : c ∈ ch.nodes.filter (named f.name (f.name c)) := by simp [hc, named]
          simp [hnil] at this
        simp [Scan.indexOf, hc]
      | some iv =>
        obtain ⟨-, -, rfl⟩ := hidx.some_iff.mp hiv
        exact find?_positions hl (by simp [named])
    · split
      · rename_i hg
        split
        · rename_i hat
          have hc := nodeAt_mem hat
          rw [Scan.indexOf, if_pos hc]
          exact (nodeAt_eq_iff hl hc).mp hat
        · rename_i hat
          by_cases hc : c ∈ ch.nodes
          · have hlt := List.idxOf_lt_length_of_mem hc
            have hne : guess ≠ ch.nodes.idxOf c := fun he => hat ((nodeAt_eq_iff hl hc).mpr he)
            rw [expandOutward_eq hl hc _ 1 (by omega) (by omega) (by omega)]
            simp [Scan.indexOf, hc]
          · rw [expandOutward_absent hc]
            simp [Scan.indexOf, hc]
      · exact forwardScan_eq ch.nodes c hl
  · rename_i hno
    cases hch : (f.node this).children with
    | none => simp [Scan.indexOf, nodes_of_none hch]
    | some ch => exact absurd hch (hno c ch rfl)

theorem keyOf_null (f : Forest) (this : Id) (guess : Int) : f.keyOf this none guess = [] := by
  simp [keyOf]

/-- The place of a child's own position in the index list of its name. -/
theorem findIdx?_idxOf {l : List Id} (hl : l.Nodup) {c : Id} (hc : c ∈ l) {p : Id → Bool}
    (hp : p c) : (positions p 0 l).findIdx? (fun i => i = (l.idxOf c : Int)) =
      some ((l.take (l.idxOf c)).filter p).length := by
  obtain ⟨a, b, rfl, ha, -⟩ := mem_split hc hl
  have hnone : (positions p 0 a).findIdx? (fun i => decide (i = (a.length : Int))) = none := by
    rw [List.findIdx?_eq_none_iff]
    intro i hi
    have := positions_lt hi
    simp only [decide_eq_false_iff_not]
    omega
  rw [idxOf_middle ha, positions_append, List.findIdx?_append, hnone, List.take_left,
    ← length_positions p a 0]
  simp [positions, hp, List.findIdx?_cons]

/-- **keyOf** with any guess is the plain scan. -/
theorem keyOf_eq (h : Inv f) (this c : Id) (guess : Int) :
    f.keyOf this (some c) guess = Scan.keyOf f.name (f.nodes this) c := by
  cases hch : (f.node this).children with
  | none => simp [keyOf, hch, Scan.keyOf, nodes_of_none hch]
  | some ch =>
    have hidx : ch.Indexed f.name := kids_of_some hch ▸ h.indexed this
    have hns : f.nodes this = ch.nodes := by rw [nodes, kids_of_some hch]
    have hl := h.nodup this
    simp only [keyOf, hch, indexOf_eq h]
    rw [hns] at hl ⊢
    by_cases hc : c ∈ ch.nodes
    · simp only [Scan.indexOf, Scan.keyOf, hc, if_true, show ¬ ((ch.nodes.idxOf c : Int) < 0) by omega,
        if_false]
      split
      · rfl
      rename_i hn
      have hiv : ch.indices (f.name c) = some (positions (named f.name (f.name c)) 0 ch.nodes) := by
        refine hidx.some_iff.mpr ⟨hn, fun hnil => ?_, rfl⟩
        have := positions_eq_nil.mp hnil c hc
        simp [named] at this
      have hcount : (positions (named f.name (f.name c)) 0 ch.nodes).length ≤ 1 ↔
          Scan.count f.name ch.nodes (f.name c) ≤ 1 := by
        simp only [Scan.count, Scan.children, hn, if_false, length_positions]
        omega
      have hfind := findIdx?_idxOf hl hc (p := named f.name (f.name c)) (by simp [named])
      simp only [hiv, hcount, hfind, Scan.overlap]
    · simp [Scan.indexOf, Scan.keyOf, hc]

end Reads

/-- The index map of a child list `l`: its keys, and the list at each of them. -/
structure IndexMap (name : Id → Str) (l : List Id) (indices : Str → Option (List Int)) : Prop where
  keys : ∀ nm, (indices nm).isSome = true ↔ nm ≠ [] ∧ ∃ c ∈ l, name c = nm
  nonempty : ∀ nm iv, indices nm = some iv → iv ≠ []
  increasing : ∀ nm iv, indices nm = some iv → iv.Pairwise (· < ·)
  positions : ∀ nm iv, indices nm = some iv →
    ∀ i, i ∈ iv ↔ ∃ (j : Nat) (c : Id), l[j]? = some c ∧ name c = nm ∧ i = j

theorem Inv.indexMap {f : Forest} (h : Inv f) (this : Id) :
    IndexMap f.name (f.nodes this) (f.kids this).indices := by
  have hidx := h.indexed this
  refine ⟨fun nm => ?_, fun nm iv hiv => (hidx.some_iff.mp hiv).2.1, fun nm iv hiv => ?_,
    fun nm iv hiv i => ?_⟩
  · by_cases hn : nm = []
    · simp [hn, hidx.nil]
    · rw [Option.isSome_iff_ne_none, Ne, hidx.none_iff hn]
      simp [hn, named, nodes]
  · rw [(hidx.some_iff.mp hiv).2.2]
    exact positions_pairwise _ _ _
  · rw [(hidx.some_iff.mp hiv).2.2, mem_positions]
    simp [named, nodes]

/-- The state invariant holds in every run without repeated nodes in a batch. -/
theorem inv_of_runs {f : Forest} {ops : List Op} (hr : Runs (Guarded Distinct Step) init ops f) :
    Inv f := by
  have hinv : Inv f ∧ True := hr.invariant (I := fun f => Inv f ∧ True)
    (fun h hs => Step.preserves (C := Distinct) (fun _ hf => hf.distinct) Distinct.places
      (fun _ _ _ _ _ => trivial) h hs) ⟨inv_init, trivial⟩
  exact hinv.1

/-- **The index map of every node is the map of positions, and every read is the plain scan.** -/
theorem index_refines {f : Forest} {ops : List Op} (hr : Runs (Guarded Distinct Step) init ops f)
    (this : Id) :
    IndexMap f.name (f.nodes this) (f.kids this).indices ∧
      (∀ nm k, f.childNamed this nm k = Scan.child f.name (f.nodes this) nm k) ∧
      (∀ nm, f.countNamed this nm = Scan.count f.name (f.nodes this) nm) ∧
      (∀ nm, f.childrenNamed this nm = (Scan.children f.name (f.nodes this) nm).map some) ∧
      (∀ guess, f.indexOf this none guess = -1 ∧ f.keyOf this none guess = []) ∧
      (∀ c guess, f.indexOf this (some c) guess = Scan.indexOf (f.nodes this) c) ∧
      ∀ c guess, f.keyOf this (some c) guess = Scan.keyOf f.name (f.nodes this) c := by
  have h := inv_of_runs hr
  exact ⟨h.indexMap this, childNamed_eq h this, countNamed_eq h this, childrenNamed_eq h this,
    fun guess => ⟨indexOf_null f this guess, keyOf_null f this guess⟩, indexOf_eq h this,
    keyOf_eq h this⟩

def distinctB (_ : Forest) (op : Op) : Bool :=
  match op.inserts with
  | some (_, cs, _) => cs.Nodup
  | none => true

theorem distinct_of_distinctB {f : Forest} {op : Op} (h : distinctB f op = true) : Distinct f op := by
  intro this cs index hins
  simpa [distinctB, hins] using h

/-- A node `r` with the children `a`, `a`, `b`, the first of them inserted last. -/
def sampleOps : List Op :=
  [.new (ascii "r"), .new (ascii "a"), .new (ascii "b"), .new (ascii "a"),
    .insertBatch 0 [some 1, some 2] (-1), .insert 0 (some 3) 0]

theorem index_refines_sample : (scriptResult distinctB 0 sampleOps).keyOf 0 (some 1) 7 = ascii "a#1" :=
  ((index_refines (runs_scriptResult distinct_of_distinctB sampleOps (by decide)) 0).2.2.2.2.2.2 1 7).trans (by decide)

end Forest

end VersatileEngine
