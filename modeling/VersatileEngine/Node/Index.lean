import VersatileEngine.Node.Manage

/-!
# VersatileEngine.Node.Index

The index map of one child container. `Children.Indexed` says that the map holds, for every
non-empty name that occurs among the children, the increasing list of all positions at which it
occurs, and nothing else. Each container operation keeps it:

* `insertOne_spec`  — `insert(child, index)`, appending or in the middle.
* `insertMany_spec` — `insert(children, index)`, with repeated names inside the batch.
* `takeOne_mem`, `takeOne_not_mem` — `take(child)`.
-/

namespace VersatileEngine

/-- A list as a map entry: an empty list is no entry. -/
def entry (iv : List Int) : Option (List Int) := if iv = [] then none else some iv

@[simp] theorem entry_map_shift (start delta : Int) (iv : List Int) :
    (entry iv).map (shiftFrom start delta) = entry (shiftFrom start delta iv) := by
  cases iv <;> simp [entry, shiftFrom]

@[simp] theorem entry_getD (iv : List Int) : (entry iv).getD [] = iv := by
  cases iv <;> simp [entry]

theorem entry_of_ne_nil {iv : List Int} (h : iv ≠ []) : entry iv = some iv := by simp [entry, h]

/-- Has this name. -/
def named (name : Id → Str) (nm : Str) (c : Id) : Bool := name c = nm

/-! ## Searching a child list -/

theorem forwardScan_middle {c : Id} {a b : List Id} (ha : c ∉ a) (i : Int) :
    Forest.forwardScan c i (a ++ c :: b) = i + a.length := by
  induction a generalizing i with
  | nil => simp [Forest.forwardScan]
  | cons x a ih =>
    have hx : x ≠ c := fun h => ha (by simp [h])
    have := ih (fun h => ha (by simp [h])) (i + 1)
    simp only [List.cons_append, Forest.forwardScan, hx, if_false, this, List.length_cons]
    push_cast
    ring

theorem forwardScan_not_mem {c : Id} {l : List Id} (hc : c ∉ l) (i : Int) :
    Forest.forwardScan c i l = -1 := by
  induction l generalizing i with
  | nil => rfl
  | cons x l ih =>
    have hx : x ≠ c := fun h => hc (by simp [h])
    simp [Forest.forwardScan, hx, ih (fun h => hc (by simp [h]))]

theorem nodeAt_nat (l : List Id) (i : Nat) : nodeAt l i = l[i]? := by simp [nodeAt]

/-- A recorded position leads to a child that satisfies the predicate. -/
theorem nodeAt_positions {p : Id → Bool} {l : List Id} {i : Int} (h : i ∈ positions p 0 l) :
    ∃ c ∈ l, nodeAt l i = some c ∧ p c := by
  obtain ⟨j, c, hj, hc, rfl⟩ := mem_positions.mp h
  exact ⟨c, List.mem_of_getElem? hj, by simpa [nodeAt] using hj, hc⟩

theorem findIdx?_positions {c : Id} {a b : List Id} (p : Id → Bool) (ha : c ∉ a) (hc : p c) :
    (positions p 0 (a ++ c :: b)).findIdx? (fun i => nodeAt (a ++ c :: b) i = some c) =
      some (positions p 0 a).length := by
  have hnone : (positions p 0 a).findIdx? (fun i => nodeAt (a ++ c :: b) i = some c) = none := by
    rw [List.findIdx?_eq_none_iff]
    intro i hi
    obtain ⟨j, x, hj, _, rfl⟩ := mem_positions.mp hi
    have hx : x ∈ a := List.mem_of_getElem? hj
    have hlt : j < a.length := (List.getElem?_eq_some_iff.mp hj).1
    have : (a ++ c :: b)[j]? = some x := by rw [List.getElem?_append_left hlt, hj]
    simp only [Int.zero_add, nodeAt_nat, this, decide_eq_false_iff_not, Option.some.injEq]
    rintro rfl
    exact ha hx
  rw [positions_append, List.findIdx?_append, hnone]
  simp [positions, hc, List.findIdx?_cons, nodeAt_nat]

theorem eraseIdx_middle (a b : List Id) (c : Id) : (a ++ c :: b).eraseIdx a.length = a ++ b := by
  rw [List.eraseIdx_append_of_length_le (Nat.le_refl _)]
  simp

theorem eraseIdx_positions {c : Id} {a b : List Id} (p : Id → Bool) (hc : p c) :
    (positions p 0 (a ++ c :: b)).eraseIdx (positions p 0 a).length =
      positions p 0 a ++ positions p (a.length + 1) b := by
  rw [positions_append, List.eraseIdx_append_of_length_le (Nat.le_refl _)]
  simp [positions, hc]

/-! ## The index map of a container -/

namespace Children

variable {name : Id → Str} {ch : Children}

def Indexed (ch : Children) (name : Id → Str) : Prop :=
  ∀ nm, ch.indices nm = if nm = [] then none else entry (positions (named name nm) 0 ch.nodes)

theorem Indexed.nil (h : ch.Indexed name) : ch.indices [] = none := by simp [h []]

theorem indexed_empty : empty.Indexed name := by
  intro nm; simp [empty, positions, entry]

theorem Indexed.indexList (h : ch.Indexed name) {nm : Str} (hn : nm ≠ []) :
    ch.indexList nm = positions (named name nm) 0 ch.nodes := by
  simp [Children.indexList, h nm, hn]

theorem Indexed.congr {name' : Id → Str} (h : ch.Indexed name)
    (hname : ∀ c ∈ ch.nodes, name' c = name c) : ch.Indexed name' := by
  intro nm
  rw [h nm, positions_congr (q := named name' nm) fun c hc => by simp [named, hname c hc]]

/-- Opening a gap of `delta` places at `i` in the index map. -/
theorem shift_indices (h : ch.Indexed name) {i : Nat} (hi : i ≤ ch.nodes.length) (delta : Int)
    (nm : Str) : (ch.shift i delta).indices nm = if nm = [] then none else
      entry (positions (named name nm) 0 (ch.nodes.take i) ++
        positions (named name nm) (i + delta) (ch.nodes.drop i)) := by
  have key := shiftFrom_positions_append (named name nm) (ch.nodes.take i) (ch.nodes.drop i) delta
  rw [List.take_append_drop, List.length_take_of_le hi] at key
  by_cases hn : nm = []
  · simp [shift, hn, h.nil]
  · simp [shift, h nm, hn, key]

/-- **insert(child, index)** on the container: the child stands at `index`, the index map fits. -/
theorem insertOne_spec (h : ch.Indexed name) (c : Id) {i : Nat} (hi : i ≤ ch.nodes.length) :
    (ch.insertOne name c i).1.nodes = ch.nodes.insertIdx i c ∧
      (ch.insertOne name c i).1.Indexed name := by
  by_cases hend : i = ch.nodes.length
  · subst hend
    have hp : ∀ nm, positions (named name nm) 0 (ch.nodes ++ [c]) =
        positions (named name nm) 0 ch.nodes ++ if name c = nm then [(ch.nodes.length : Int)] else [] := by
      intro nm; by_cases hc : name c = nm <;> simp [positions_append, positions, named, hc]
    have hnodes : ch.nodes.insertIdx ch.nodes.length c = ch.nodes ++ [c] := by simp
    by_cases hnm : name c = []
    · refine ⟨by simp [insertOne, hnm, hnodes], fun nm => ?_⟩
      by_cases hn : nm = []
      · simp [insertOne, hnm, h.nil, hn]
      · simp [insertOne, hnm, h nm, hn, hp, Ne.symm hn]
    · refine ⟨by simp [insertOne, hnm, hnodes, record], fun nm => ?_⟩
      by_cases hcn : nm = name c
      · subst hcn
        simp [insertOne, hnm, record, hp, h.indexList hnm, entry]
      · simp [insertOne, hnm, record, hcn, h nm, hp, Ne.symm hcn]
  · have hend' : (i : Int) ≠ ch.nodes.length := by omega
    have hp : ∀ nm, positions (named name nm) 0 (ch.nodes.insertIdx i c) =
        positions (named name nm) 0 (ch.nodes.take i) ++
          ((if name c = nm then [(i : Int)] else []) ++
            positions (named name nm) (i + 1) (ch.nodes.drop i)) := by
      intro nm
      rw [insertIdx_eq_take_drop _ _ hi, positions_append, List.length_take_of_le hi]
      by_cases hc : name c = nm <;> simp [positions, named, hc]
    have hs := shift_indices h hi 1
    by_cases hnm : name c = []
    · refine ⟨by simp [insertOne, hend', hnm], fun nm => ?_⟩
      by_cases hn : nm = []
      · simp [insertOne, hend', hnm, shift, h.nil, hn]
      · simp [insertOne, hend', hnm, hs nm, hn, hp, Ne.symm hn]
    · refine ⟨by simp [insertOne, hend', hnm, record], fun nm => ?_⟩
      by_cases hcn : nm = name c
      · subst hcn
        have hl : (ch.shift i 1).indexList (name c) = positions (named name (name c)) 0 (ch.nodes.take i) ++
            positions (named name (name c)) (i + 1) (ch.nodes.drop i) := by
          simp [Children.indexList, hs, hnm]
        have hlow : ∀ j ∈ positions (named name (name c)) 0 (ch.nodes.take i), j < i := by
          intro j hj; have := positions_lt hj; simp at this; omega
        have hhigh : ∀ j ∈ positions (named name (name c)) (i + 1) (ch.nodes.drop i), (i : Int) ≤ j := by
          intro j hj; have := positions_ge hj; omega
        have hins := insertIdx_lowerBound hlow hhigh
        have hl' : Children.indexList { ch.shift i 1 with nodes := ch.nodes.insertIdx i c } (name c) =
            (ch.shift i 1).indexList (name c) := rfl
        simp [insertOne, hend', hnm, record, hp, hl', hl, hins, entry]
      · simp [insertOne, hend', hnm, record, hcn, hs nm, hp, Ne.symm hcn]

/-! ## Batches -/

/-- The index map while a batch is recorded: the children of `done` stand in the gap, the first of
them at `i`, and the children behind the gap are moved by the size of the whole batch. -/
def Recorded (ch : Children) (name : Id → Str) (before after : List Id) (size : Nat)
    (done : List Id) : Prop :=
  ∀ nm, ch.indices nm = if nm = [] then none else
    entry (positions (named name nm) 0 (before ++ done) ++
      positions (named name nm) (before.length + size) after)

theorem recordBatch_nodes (cs : List Id) :
    ∀ (ch : Children) (gi : Int), (recordBatch name ch gi cs).nodes = ch.nodes := by
  induction cs with
  | nil => intro ch gi; rfl
  | cons c cs ih =>
    intro ch gi
    simp only [recordBatch]
    rw [ih]
    split <;> rfl

theorem recordBatch_recorded {before after : List Id} {size : Nat} (cs : List Id) :
    ∀ {ch : Children} {done : List Id}, done.length + cs.length = size →
      ch.Recorded name before after size done →
      (recordBatch name ch (before.length + done.length) cs).Recorded name before after size
        (done ++ cs) := by
  induction cs with
  | nil => intro ch done _ h; simpa [recordBatch] using h
  | cons c cs ih =>
    intro ch done hsize h
    have hc : ∀ nm, positions (named name nm) 0 (before ++ (done ++ [c])) =
        positions (named name nm) 0 (before ++ done) ++
          if name c = nm then [(before.length + done.length : Int)] else [] := by
      intro nm
      rw [← List.append_assoc, positions_append (l := before ++ done)]
      by_cases hc : name c = nm <;> simp [positions, named, hc]
    have hstep : (if name c = [] then ch else ch.record (name c) (some
          ((ch.indexList (name c)).insertIdx
            (lowerBound (ch.indexList (name c)) (before.length + done.length))
            (before.length + done.length)))).Recorded name before after size (done ++ [c]) := by
      intro nm
      by_cases hnm : name c = []
      · by_cases hn : nm = []
        · have := h []
          simp_all
        · simp [hnm, h nm, hn, hc, Ne.symm hn]
      · by_cases hcn : nm = name c
        · subst hcn
          have hlow : ∀ j ∈ positions (named name (name c)) 0 (before ++ done),
              j < before.length + done.length := by
            intro j hj; have := positions_lt hj; simp at this; omega
          have hhigh : ∀ j ∈ positions (named name (name c)) (before.length + size) after,
              (before.length + done.length : Int) ≤ j := by
            intro j hj
            have := positions_ge hj
            simp at hsize
            omega
          have hins := insertIdx_lowerBound hlow hhigh
          have hl : ch.indexList (name c) = positions (named name (name c)) 0 (before ++ done) ++
              positions (named name (name c)) (before.length + size) after := by
            simp [Children.indexList, h (name c), hnm]
          simp [hnm, record, hc, hl, hins, entry]
        · simp [hnm, record, hcn, h nm, hc, Ne.symm hcn]
    have hnext := ih (by simp at hsize ⊢; omega) hstep
    have hlen : (before.length + (done ++ [c]).length : Int) = before.length + done.length + 1 := by
      simp; omega
    rw [hlen] at hnext
    simpa [recordBatch] using hnext

/-- **insert(children, index)** on the container: the batch stands at `index` in its own order. -/
theorem insertMany_spec (h : ch.Indexed name) (cs : List Id) {i : Nat} (hi : i ≤ ch.nodes.length) :
    (ch.insertMany name cs i).1.nodes = ch.nodes.take i ++ cs ++ ch.nodes.drop i ∧
      (ch.insertMany name cs i).1.Indexed name := by
  let ch₁ := if (i : Int) < ch.nodes.length then ch.shift i cs.length else ch
  let ch₂ : Children := { ch₁ with nodes := ch.nodes.take i ++ cs ++ ch.nodes.drop i }
  have hch₁ : ch₁.nodes = ch.nodes := by simp only [ch₁]; split <;> rfl
  have hopen : ch₂.Recorded name (ch.nodes.take i) (ch.nodes.drop i) cs.length [] := by
    intro nm
    have hind : ch₂.indices nm = ch₁.indices nm := rfl
    rw [hind, List.length_take_of_le hi, List.append_nil]
    by_cases hlt : i < ch.nodes.length
    · have := shift_indices h hi cs.length nm
      simpa [ch₁, hlt] using this
    · have hlen : i = ch.nodes.length := by omega
      simp [ch₁, h nm, hlen, positions]
  have hall := recordBatch_recorded cs (by simp) hopen
  have heq : (ch.insertMany name cs i).1 = recordBatch name ch₂ i cs := by
    show recordBatch name { ch₁ with
      nodes := ch₁.nodes.take (i : Int).toNat ++ cs ++ ch₁.nodes.drop (i : Int).toNat } i cs = _
    rw [hch₁, Int.toNat_natCast]
  have hat : ((ch.nodes.take i).length + ([] : List Id).length : Int) = i := by
    simp [Nat.min_eq_left hi]
  rw [hat] at hall
  refine ⟨by rw [heq, recordBatch_nodes], fun nm => ?_⟩
  have hn : (recordBatch name ch₂ i cs).nodes = ch.nodes.take i ++ cs ++ ch.nodes.drop i := by
    rw [recordBatch_nodes]
  rw [heq, hall nm, hn, positions_append (l := ch.nodes.take i ++ cs)]
  simp [Nat.min_eq_left hi]

/-! ## Taking a child -/

/-- Closing the place of `c`, once its position has left the index map. -/
theorem removeAt_indexed {a b : List Id} {c : Id} (hn : ch.nodes = a ++ c :: b)
    (hnil : ch.indices [] = none)
    (hi : ∀ nm, nm ≠ [] → ch.indices nm = entry (positions (named name nm) 0 a ++
      positions (named name nm) (a.length + 1) b)) :
    (ch.removeAt a.length).nodes = a ++ b ∧ (ch.removeAt a.length).Indexed name := by
  have hnodes : (ch.removeAt a.length).nodes = a ++ b := by
    simp [removeAt, shift, hn, eraseIdx_middle]
  refine ⟨hnodes, fun nm => ?_⟩
  have hs : shiftFrom a.length (-1) (positions (named name nm) 0 a ++
      positions (named name nm) (a.length + 1) b) = positions (named name nm) 0 (a ++ b) := by
    rw [shiftFrom_append, shiftFrom_below fun i hi => by simpa using positions_lt hi,
      shiftFrom_positions _ b (by omega), positions_append]
    simp
  rw [hnodes]
  by_cases he : nm = []
  · simp [removeAt, shift, hnil, he]
  · simp [removeAt, shift, hi nm he, he, hs]

/-- The overlap index `oi` leads to `c` behind the children `a`: it counts the children of the same name
in `a`, or is `-1` where there are none. -/
def Announced (name : Id → Str) (a : List Id) (c : Id) (oi : Int) : Prop :=
  name c ≠ [] → oi = (a.filter (named name (name c))).length ∨ oi = -1 ∧ a.filter (named name (name c)) = []

/-- **take(child)** on the container, for a child that is there. -/
theorem takeOne_mem (h : ch.Indexed name) {a b : List Id} {c : Id} (hn : ch.nodes = a ++ c :: b)
    (ha : c ∉ a) :
    (∃ oi, (ch.takeOne name c).2 = some ((a.length : Int), oi) ∧ Announced name a c oi) ∧
      (ch.takeOne name c).1.nodes = a ++ b ∧ (ch.takeOne name c).1.Indexed name := by
  have hother : ∀ nm, nm ≠ [] → nm ≠ name c → ch.indices nm =
      entry (positions (named name nm) 0 a ++ positions (named name nm) (a.length + 1) b) := by
    intro nm he hne
    rw [h nm, hn, positions_append]
    simp [positions, named, he, Ne.symm hne]
  by_cases hnm : name c = []
  · have hscan : Forest.forwardScan c 0 ch.nodes = a.length := by
      rw [hn, forwardScan_middle ha]; simp
    have hneg : ¬ ((a.length : Int) < 0) := by omega
    have htake : ch.takeOne name c = (ch.removeAt a.length, some ((a.length : Int), -1)) := by
      simp [takeOne, hnm, hscan, hneg]
    rw [htake]
    exact ⟨⟨-1, rfl, fun hne => absurd hnm hne⟩, removeAt_indexed hn h.nil fun nm he => hother nm he (hnm ▸ he)⟩
  · let ivec := positions (named name (name c)) 0 ch.nodes
    let j := (positions (named name (name c)) 0 a).length
    have hc : named name (name c) c := by simp [named]
    have hne : ivec ≠ [] := fun h0 => by
      have := positions_eq_nil.mp h0 c (by simp [hn])
      simp [hc] at this
    have hget : ch.indices (name c) = some ivec := by
      rw [h (name c), if_neg hnm, entry_of_ne_nil hne]
    have hfind : (ivec.findIdx? fun i => nodeAt ch.nodes i = some c) = some j := by
      simp only [ivec, hn]
      exact findIdx?_positions _ ha hc
    have hpos : ivec[j]?.getD (-1) = a.length := by
      simp [ivec, j, hn, positions_append, positions, hc]
    have hrest : ivec.eraseIdx j = positions (named name (name c)) 0 a ++
        positions (named name (name c)) (a.length + 1) b := by
      simp only [ivec, hn]
      exact eraseIdx_positions _ hc
    let ch' := ch.record (name c) (if ivec.eraseIdx j = [] then none else some (ivec.eraseIdx j))
    have htake : ch.takeOne name c =
        (ch'.removeAt a.length, some ((a.length : Int), if 1 < ivec.length then (j : Int) else -1)) := by
      simp [takeOne, hnm, hget, hfind, hpos, ch']
    rw [htake]
    have hj : j = (a.filter (named name (name c))).length := length_positions _ _ _
    refine ⟨⟨_, rfl, fun _ => ?_⟩, removeAt_indexed hn ?_ fun nm he => ?_⟩
    · split_ifs with hsole
      · exact .inl (by rw [hj])
      · have hlen : ivec.length = j + (1 + (positions (named name (name c)) (a.length + 1) b).length) := by
          simp [ivec, j, hn, positions_append, positions, hc]
          omega
        exact .inr ⟨rfl, List.length_eq_zero_iff.mp (by omega)⟩
    · simp [ch', record, Ne.symm hnm, h.nil]
    · by_cases hcn : nm = name c
      · subst hcn
        simp only [ch', record, hrest, if_true]
        rfl
      · simp only [ch', record, hcn, if_false]
        exact hother nm he hcn

/-- **take(child)** on the container, for a child that is not there. -/
theorem takeOne_not_mem (h : ch.Indexed name) {c : Id} (hc : c ∉ ch.nodes) :
    ch.takeOne name c = (ch, none) := by
  by_cases hnm : name c = []
  · simp [takeOne, hnm, forwardScan_not_mem hc]
  · cases hget : ch.indices (name c) with
    | none => simp [takeOne, hnm, hget]
    | some ivec =>
      have hentry := h (name c)
      rw [if_neg hnm, hget] at hentry
      have hne : ivec ≠ [] := by
        rintro rfl
        revert hentry
        unfold entry
        split <;> simp_all
      have hiv : ivec = positions (named name (name c)) 0 ch.nodes := by
        revert hentry
        unfold entry
        split <;> simp
      have hfind : (ivec.findIdx? fun i => nodeAt ch.nodes i = some c) = none := by
        rw [List.findIdx?_eq_none_iff]
        intro i hi
        rw [hiv] at hi
        obtain ⟨x, hx, hat, _⟩ := nodeAt_positions hi
        simp only [hat, Option.some.injEq, decide_eq_false_iff_not]
        rintro rfl
        exact hc hx
      simp [takeOne, hnm, hget, hfind, hne]

end Children

end VersatileEngine
