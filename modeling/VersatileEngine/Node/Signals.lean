import VersatileEngine.Node.Path

/-!
# VersatileEngine.Node.Signals

The keys that NODE_ADDED and NODE_REMOVED carry.

* `insertOne_announced`, `insertMany_announced` — the overlap index counts the children of the same name in
  front, or is `-1` where there are none.
* `atKey_announced`  — such a key leads to the child.
* `signals_resolve`  — the key of every insertion leads to the first child inserted, after it; the key of
  every `take` to the child taken, before it.
-/

namespace VersatileEngine

namespace Children

variable {name : Id → Str} {ch : Children}

/-- The positions of one name in front of a gap, and behind it. -/
theorem lowerBound_gap {nm : Str} {i : Nat} (hi : i ≤ ch.nodes.length) (size : Nat) :
    lowerBound (positions (named name nm) 0 (ch.nodes.take i) ++
      positions (named name nm) (i + size) (ch.nodes.drop i)) i =
        ((ch.nodes.take i).filter (named name nm)).length := by
  rw [lowerBound_append, length_positions]
  · intro j hj
    have hlt := positions_lt hj
    rw [List.length_take_of_le hi] at hlt
    omega
  · intro j hj
    have hge := positions_ge hj
    omega

theorem indexList_shift (h : ch.Indexed name) {i : Nat} (hi : i ≤ ch.nodes.length) {nm : Str} (hn : nm ≠ [])
    (size : Nat) : (ch.shift i size).indexList nm =
      positions (named name nm) 0 (ch.nodes.take i) ++ positions (named name nm) (i + size) (ch.nodes.drop i) := by
  simp [Children.indexList, shift_indices h hi, hn]

theorem insertOne_announced (h : ch.Indexed name) (c : Id) {i : Nat} (hi : i ≤ ch.nodes.length) :
    Announced name (ch.nodes.take i) c (ch.insertOne name c i).2 := by
  intro hn
  by_cases hend : i = ch.nodes.length
  · subst hend
    have hlen := length_positions (named name (name c)) ch.nodes 0
    simp only [insertOne, if_true, if_neg hn, h.indexList hn, List.length_append, List.length_singleton, hlen,
      List.take_length]
    split_ifs with hsole
    · exact .inl (by omega)
    · exact .inr ⟨rfl, List.length_eq_zero_iff.mp (by omega)⟩
  · have hlist : Children.indexList { ch.shift i 1 with nodes := ch.nodes.insertIdx i c } (name c) = _ :=
      indexList_shift h hi hn 1
    have hat := @lowerBound_gap name ch (name c) i hi 1
    have hlen := length_positions (named name (name c)) (ch.nodes.take i) 0
    simp only [insertOne, show ¬ (i : Int) = ch.nodes.length by omega, if_false, if_neg hn, Int.toNat_natCast,
      hlist, hat]
    split_ifs with hsole
    · refine .inr ⟨rfl, List.length_eq_zero_iff.mp ?_⟩
      rw [List.length_insertIdx_of_le_length (by simp [hlen]), List.length_append, hlen] at hsole
      omega
    · exact .inl rfl

theorem insertMany_announced (h : ch.Indexed name) (c : Id) (cs : List Id) {i : Nat} (hi : i ≤ ch.nodes.length) :
    Announced name (ch.nodes.take i) c (ch.insertMany name (c :: cs) i).2 := by
  intro hn
  have hlist : ∀ ns, Children.indexList { (if (i : Int) < ch.nodes.length then ch.shift i (c :: cs).length else ch)
      with nodes := ns } (name c) = positions (named name (name c)) 0 (ch.nodes.take i) ++
        positions (named name (name c)) (i + (c :: cs).length) (ch.nodes.drop i) := by
    intro ns
    split_ifs with hlt
    · exact indexList_shift h hi hn _
    · have hall : i = ch.nodes.length := by omega
      have hplain : Children.indexList { ch with nodes := ns } (name c) = _ := h.indexList hn
      simp [hplain, hall, positions]
  have hlow := @lowerBound_gap name ch (name c) i hi (c :: cs).length
  simp only [insertMany, firstOverlap, List.headD_cons, hn, false_or, hlist, hlow]
  split_ifs with hnil
  · rw [List.length_append, length_positions] at hnil
    exact .inr ⟨rfl, List.length_eq_zero_iff.mp (by omega)⟩
  · exact .inl rfl

end Children

namespace Forest

open Children (Announced)

section Lookup

variable {f : Forest} {this c : Id} {a b : List Id} {oi : Int}

/-- A key made of the position, or of a name and an announced overlap index, leads to the child. -/
theorem atKey_announced (hidx : (f.kids this).Indexed f.name) (hn : f.nodes this = a ++ c :: b)
    (hname : f.name c = [] ∨ isName (f.name c) = true) (hlen : a.length < 2147483648)
    (hoi : Announced f.name a c oi) (k : Nat) (s : Bool) :
    f.atKey (k + 1) this (toKey keySep (f.name c) (if f.name c = [] then a.length else oi)) s =
      some (some c) := by
  by_cases hnil : f.name c = []
  · rw [hnil, if_pos rfl]
    refine atKey_position hlen ?_ k s
    rw [child_eq, if_neg (by omega), hn, nodeAt_nat]
    simp
  · have hnm := hname.resolve_left hnil
    have hself : named f.name (f.name c) c = true := by simp [named]
    have hover : (a.filter (named f.name (f.name c))).length < 2147483648 :=
      Nat.lt_of_le_of_lt (List.length_filter_le _ _) hlen
    have hchild : f.childNamed this (f.name c) (a.filter (named f.name (f.name c))).length = some c := by
      rw [childNamed_indexed hidx, Scan.child, if_neg hnil, hn, List.filter_append,
        List.filter_cons_of_pos hself, nodeAt_nat]
      simp
    rw [if_neg hnil]
    rcases hoi hnil with rfl | ⟨rfl, hfirst⟩
    · have hparse : parseKey keySep (toKey keySep (f.name c) (a.filter (named f.name (f.name c))).length) =
          some (f.name c, ((a.filter (named f.name (f.name c))).length : Int)) := by
        rw [toKey, if_neg hnil, if_neg (by omega)]
        exact parseKey_toKey _ hover
      exact atKey_named hnil hparse (Int.natCast_nonneg _) hchild k s
    · rw [hfirst, List.length_nil] at hchild
      have hkey : toKey keySep (f.name c) (-1) = f.name c := by rw [toKey, if_neg hnil, if_pos (by omega)]
      rw [hkey]
      exact atKey_named hnil (parseKey_name hnm) le_rfl hchild k s

end Lookup

/-! ## The log -/

/-- The receiver, the key and the second argument of a NODE_ADDED. -/
def Emission.added (e : Emission) : Option (Id × Str × Int) :=
  match e.signal with
  | .added key overlap => some (e.source, key, overlap)
  | _ => none

/-- The same of a NODE_REMOVED. -/
def Emission.removed (e : Emission) : Option (Id × Str × Int) :=
  match e.signal with
  | .removed key overlap => some (e.source, key, overlap)
  | _ => none

/-- What was emitted between two states. -/
def since (f f' : Forest) : List Emission := f'.log.drop f.log.length

section Log

variable {f : Forest} {this c : Id} {cs : List Id} {index i : Int}

theorem setParents_log (cs : List Id) (p : Option Id) : ∀ f : Forest, (f.setParents cs p).log = f.log := by
  induction cs with
  | nil => exact fun f => rfl
  | cons c cs ih => exact fun f => ih (f.setParent c p)

theorem detach_log (f : Forest) (c : Id) :
    ∃ es, (f.detach c).log = f.log ++ es ∧ es.filterMap Emission.added = [] := by
  simp only [detach]
  split
  · next q _ =>
    simp only [take]
    split
    · split
      · exact ⟨[], by simp [setChildren, setNode], rfl⟩
      · exact ⟨_, rfl, by simp [Emission.added]⟩
    · exact ⟨[], by simp, rfl⟩
  · exact ⟨[], by simp, rfl⟩

theorem detachAll_log (cs : List Id) :
    ∀ f : Forest, ∃ es, (f.detachAll cs).log = f.log ++ es ∧ es.filterMap Emission.added = [] := by
  induction cs with
  | nil => exact fun f => ⟨[], by simp [detachAll], rfl⟩
  | cons c cs ih =>
    intro f
    obtain ⟨es, hes, hnone⟩ := detach_log f c
    obtain ⟨es', hes', hnone'⟩ := ih (f.detach c)
    refine ⟨es ++ es', ?_, by rw [List.filterMap_append, hnone, hnone', List.append_nil]⟩
    rw [← List.append_assoc, ← hes]
    exact hes'

/-- One NODE_ADDED of `this` was emitted, whose key leads to `c` afterwards. -/
def Announces (f f' : Forest) (this c : Id) (overlap : Int) : Prop :=
  ∃ key, (since f f').filterMap Emission.added = [(this, key, overlap)] ∧
    ∀ k, f'.atKey (k + 1) this key false = some (some c)

/-- What both forms of `insert` do, with the container `ch` that they compute. -/
theorem announces_place (h : Inv f) {ch : Children} {a b : List Id} {oi overlap : Int}
    (hidx : ch.Indexed f.name) (hn : ch.nodes = a ++ c :: b) (hoi : Announced f.name a c oi)
    (hname : f.name c = [] ∨ isName (f.name c) = true) (hlen : ch.nodes.length < 2147483648) (cs ds : List Id) :
    Announces f (((((f.detachAll cs).ensureChildren this).setChildren this (some ch)).setParents ds (some this)).emit
      this (.added (toKey keySep (f.name c) (if f.name c = [] then a.length else oi)) overlap)) this c overlap := by
  obtain ⟨hr, -⟩ := prepare_spec h cs this
  let f₁ := (f.detachAll cs).ensureChildren this
  obtain ⟨-, hk, hnm, -⟩ := setParents_spec ds (some this) (f₁.setChildren this (some ch))
  obtain ⟨es, hes, hnone⟩ := detachAll_log cs f
  refine ⟨toKey keySep (f.name c) (if f.name c = [] then a.length else oi), ?_, fun k => ?_⟩
  · have hlog : ((f₁.setChildren this (some ch)).setParents ds (some this)).log = f.log ++ es := by
      rw [setParents_log]
      exact hes
    rw [since, emit, hlog, List.append_assoc, List.drop_left, List.filterMap_append, hnone]
    rfl
  · have hlt : a.length < 2147483648 := by
      rw [hn, List.length_append, List.length_cons] at hlen
      omega
    have hnamed : ((f₁.setChildren this (some ch)).setParents ds (some this)).name = f.name := by
      rw [hnm, setChildren_name]
      exact hr.name
    have hkids : ((f₁.setChildren this (some ch)).setParents ds (some this)).kids this = ch := by
      rw [hk]
      simp
    let f₂ := ((f₁.setChildren this (some ch)).setParents ds (some this)).emit this
      (.added (toKey keySep (f.name c) (if f.name c = [] then a.length else oi)) overlap)
    have hkids₂ : f₂.kids this = ch := hkids
    have hname₂ : f₂.name = f.name := hnamed
    have hat := @atKey_announced f₂ this c a b oi (by rw [hkids₂, hname₂]; exact hidx)
      (by rw [Forest.nodes, hkids₂]; exact hn) (by rw [hname₂]; exact hname) hlt (by rw [hname₂]; exact hoi) k false
    rw [hname₂] at hat
    exact hat

theorem place_nodes (g : Forest) (ch : Children) (ds : List Id) (p : Option Id) (sig : Signal) :
    (((g.setChildren this (some ch)).setParents ds p).emit this sig).nodes this = ch.nodes := by
  rw [emit_nodes, nodes, (setParents_spec ds p _).2.1, setChildren_kids, if_pos rfl]
  rfl

theorem insert_announces (h : Inv f) (hname : f.name c = [] ∨ isName (f.name c) = true)
    (hok : (f.insert this (some c) index).2 = true)
    (hlen : ((f.insert this (some c) index).1.nodes this).length < 2147483648) :
    Announces f (f.insert this (some c) index).1 this c 0 := by
  obtain ⟨hr, hinv⟩ := prepare_spec h [c] this
  cases hi : f.insertAt this [c] index with
  | none =>
    rw [(insert_fails h hi).1] at hok
    cases hok
  | some i =>
    let f₁ := (f.detachAll [c]).ensureChildren this
    have hres : resolveIndex index (((f.detach c).ensureChildren this).nodes this).length = some i := by
      rw [show ((f.detach c).ensureChildren this).nodes = _ from hr.nodes]
      exact hi
    obtain ⟨h0, hile⟩ := resolveIndex_some hres
    obtain ⟨i, rfl⟩ := Int.eq_ofNat_of_zero_le h0
    have hle : i ≤ (f₁.kids this).nodes.length := Int.ofNat_le.mp hile
    have heq : f.insert this (some c) index =
        (((f₁.setChildren this (some ((f₁.kids this).insertOne f₁.name c i).1)).setParents [c] (some this)).emit this
          (.added (toKey keySep (f₁.name c) (if f₁.name c = [] then i
            else ((f₁.kids this).insertOne f₁.name c i).2)) 0), true) := by
      simp only [insert, hres]
      rfl
    obtain ⟨hnodes, hidx⟩ := Children.insertOne_spec (hinv.indexed this) c hle
    have hann := Children.insertOne_announced (hinv.indexed this) c hle
    rw [insertIdx_eq_take_drop _ _ hle] at hnodes
    rw [heq, place_nodes] at hlen
    rw [heq]
    rw [show f₁.name = f.name from hr.name] at hlen ⊢
    rw [show ((f.detachAll [c]).ensureChildren this).name = f.name from hr.name] at hnodes hidx hann
    have hplace := @announces_place f this c h _ _ _ _ 0 hidx hnodes hann hname hlen [c] [c]
    rw [List.length_take_of_le hle] at hplace
    exact hplace

theorem insertBatch_announces (h : Inv f) (hname : f.name c = [] ∨ isName (f.name c) = true)
    {children : List (Option Id)} (hok : (f.insertBatch this (some c :: children) index).2 = true)
    (hlen : ((f.insertBatch this (some c :: children) index).1.nodes this).length < 2147483648) :
    Announces f (f.insertBatch this (some c :: children) index).1 this c children.length := by
  cases hnull : nonNull children with
  | none => simp [insertBatch, nonNull, hnull] at hok
  | some cs =>
    obtain ⟨hr, hinv⟩ := prepare_spec h (c :: cs) this
    have hcs : nonNull (some c :: children) = some (c :: cs) := by simp [nonNull, hnull]
    cases hi : f.insertAt this (c :: cs) index with
    | none =>
      rw [(insertBatch_fails h (List.cons_ne_nil _ _) hcs hi).1] at hok
      cases hok
    | some i =>
      let f₁ := (f.detachAll (c :: cs)).ensureChildren this
      have hres : resolveIndex index (f₁.nodes this).length = some i := by
        rw [show f₁.nodes = _ from hr.nodes]
        exact hi
      obtain ⟨h0, hile⟩ := resolveIndex_some hres
      obtain ⟨i, rfl⟩ := Int.eq_ofNat_of_zero_le h0
      have hle : i ≤ (f₁.kids this).nodes.length := Int.ofNat_le.mp hile
      have heq : f.insertBatch this (some c :: children) index =
          (((f₁.setChildren this (some ((f₁.kids this).insertMany f₁.name (c :: cs) i).1)).setParents (c :: cs)
            (some this)).emit this (.added (toKey keySep (f₁.name c) (if f₁.name c = [] then i
              else ((f₁.kids this).insertMany f₁.name (c :: cs) i).2)) children.length), true) := by
        have hcount : ((c :: cs).length : Int) - 1 = children.length := by
          rw [nonNull_some hnull, List.length_cons, List.length_map]
          omega
        simp only [insertBatch, List.cons_ne_nil, if_false, hcs]
        rw [hres, hcount]
        rfl
      obtain ⟨hnodes, hidx⟩ := Children.insertMany_spec (hinv.indexed this) (c :: cs) hle
      have hann := Children.insertMany_announced (hinv.indexed this) c cs hle
      rw [List.append_assoc, List.cons_append] at hnodes
      rw [heq, place_nodes] at hlen
      rw [heq]
      rw [show f₁.name = f.name from hr.name] at hlen ⊢
      rw [show ((f.detachAll (c :: cs)).ensureChildren this).name = f.name from hr.name] at hnodes hidx hann
      have hplace := @announces_place f this c h _ _ _ _ children.length hidx hnodes hann hname hlen (c :: cs)
        (c :: cs)
      rw [List.length_take_of_le hle] at hplace
      exact hplace

theorem take_announces (h : Inv f) (hname : f.name c = [] ∨ isName (f.name c) = true)
    (hok : (f.take this (some c)).2 ≠ none) (hlen : (f.nodes this).length < 2147483648) :
    ∃ key, (since f (f.take this (some c)).1).filterMap Emission.removed = [(this, key, 0)] ∧
      ∀ k, f.atKey (k + 1) this key false = some (some c) := by
  cases hch : (f.node this).children with
  | none => simp [take, hch] at hok
  | some ch =>
    have hkids := kids_of_some hch
    have hidx : ch.Indexed f.name := hkids ▸ h.indexed this
    have hns : f.nodes this = ch.nodes := by rw [nodes, hkids]
    by_cases hc : c ∈ ch.nodes
    · obtain ⟨a, b, hab, ha, -⟩ := mem_split hc (hns ▸ h.nodup this)
      obtain ⟨⟨oi, htake, hann⟩, -⟩ := Children.takeOne_mem hidx hab ha
      obtain ⟨ch', hch'⟩ : ∃ ch', ch.takeOne f.name c = (ch', some ((a.length : Int), oi)) :=
        ⟨_, Prod.ext rfl htake⟩
      refine ⟨toKey keySep (f.name c) (if f.name c = [] then a.length else oi), ?_, fun k => ?_⟩
      · simp only [take, hch, hch', since]
        rw [emit, show ((f.setChildren this (some ch')).setParent c none).log = f.log from rfl, List.drop_left]
        rfl
      · have hlt : a.length < 2147483648 := by
          rw [hns, hab, List.length_append, List.length_cons] at hlen
          omega
        exact atKey_announced (h.indexed this) (hns.trans hab) hname hlt hann k false
    · simp [take, hch, Children.takeOne_not_mem hidx hc] at hok

/-- **Signal keys resolve**: of every insertion after it, whatever was inserted where, and of every `take`
before it. -/
theorem signals_resolve (h : Inv f) (this c : Id) (hname : f.name c = [] ∨ isName (f.name c) = true) :
    (∀ index, (f.insert this (some c) index).2 = true →
      ((f.insert this (some c) index).1.nodes this).length < 2147483648 →
        Announces f (f.insert this (some c) index).1 this c 0) ∧
    (∀ children index, (f.insertBatch this (some c :: children) index).2 = true →
      ((f.insertBatch this (some c :: children) index).1.nodes this).length < 2147483648 →
        Announces f (f.insertBatch this (some c :: children) index).1 this c
          ((some c :: children).length - 1)) ∧
    ((f.take this (some c)).2 ≠ none → (f.nodes this).length < 2147483648 →
      ∃ key, (since f (f.take this (some c)).1).filterMap Emission.removed = [(this, key, 0)] ∧
        ∀ k, f.atKey (k + 1) this key false = some (some c)) := by
  refine ⟨fun index hok hlen => insert_announces h hname hok hlen, fun children index hok hlen => ?_,
    fun hok hlen => take_announces h hname hok hlen⟩
  have hcount : ((some c :: children).length : Int) - 1 = children.length := by
    rw [List.length_cons]
    omega
  rw [hcount]
  exact insertBatch_announces h hname hok hlen

/-- A second `a` goes in front of the anonymous child. -/
theorem signals_resolve_sample : Announces pathSample (pathSample.insert 0 (some 2) 1).1 0 2 0 :=
  (@signals_resolve pathSample inv_pathSample 0 2 (by decide)).1 1 (by decide) (by decide)

end Log

end Forest

end VersatileEngine
