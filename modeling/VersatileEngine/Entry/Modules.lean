import VersatileEngine.Lib.Dict
import VersatileEngine.Lib.Kahn
import VersatileEngine.Node.Access

/-!
# VersatileEngine.Entry.Modules

The modules of `entry.cpp`: `buildModuleGraph`, `resolveDepends`, `init` and `deinit`.

The registered modules are given as `registered`, the enabled keys of the factory with their
priorities, and the configuration as `depends`, the keys below `depends` of a module's node.

* `climb_eq_some`   — the walk over parent keys finds the nearest registered ancestor.
* `mem_graphEdges`  — the edges of the graph are what the modules need.
* `start_order`     — the order of the modules, and what `init` and `deinit` run in it.
-/

namespace VersatileEngine

structure ModuleSlot where
  key : Str
  priority : Int
  inst : Option Nat
  deriving DecidableEq

/-- What happens to the instance of a module. -/
inductive ModuleEvent where
  | created (key : Str)
  | init (key : Str)
  | ready (key : Str)
  | deinit (key : Str)
  | destroyed (key : Str)
  deriving DecidableEq

structure EntryState where
  modules : List ModuleSlot
  log : List ModuleEvent

namespace Entry

def parentKey (key : Str) : Str :=
  match rsplit 46 key with
  | none => []
  | some (before, _) => before

def keyDepth (key : Str) : Nat := key.count 46

/-- `while (!pk.empty()) { ..find(pk).. pk = parentKey(pk); }`. -/
def climb {α : Type} (find : Str → Option α) : Nat → Str → Option α
  | 0, _ => none
  | k + 1, pk =>
    if pk = [] then none
    else
      match find pk with
      | some a => some a
      | none => climb find k (parentKey pk)

/-- `find` on the nearest ancestor of `key` for which it has a result. -/
def ancestor {α : Type} (find : Str → Option α) (key : Str) : Option α :=
  climb find key.length (parentKey key)

/-- `eff_pri`: no module has a smaller priority than its nearest ancestor. -/
def effectivePri (base : List (Str × Int)) (keys : List Str) : List (Str × Int) :=
  keys.foldl (fun eff key =>
    let own := (base.lookup key).getD 0
    assign eff key (match ancestor (fun pk => eff.lookup pk) key with
      | some p => if own < p then p else own
      | none => own)) []

def slotBefore (a b : ModuleSlot) : Bool :=
  if a.priority ≠ b.priority then a.priority < b.priority else keyDepth a.key < keyDepth b.key

/-- `buildModuleGraph`, from the enabled keys with their own priorities. -/
def buildModuleGraph (registered : List (Str × Int)) : List ModuleSlot :=
  let base := assignAll [] registered
  let keys := (base.map Prod.fst).mergeSort fun a b => !decide (keyDepth b < keyDepth a)
  let eff := effectivePri base keys
  (keys.map fun key => (⟨key, (eff.lookup key).getD 0, none⟩ : ModuleSlot)).mergeSort fun a b =>
    !slotBefore b a

def keyToIdx (slots : List ModuleSlot) : List (Str × Nat) :=
  assignAll [] (slots.zipIdx.map fun p => (p.1.key, p.2))

/-- The edges in the order in which they are added: from the nearest ancestors, then from `depends`. -/
def graphEdges (depends : Str → List Str) (slots : List ModuleSlot) : List (Nat × Nat) :=
  let idx := keyToIdx slots
  slots.zipIdx.filterMap (fun p =>
    (ancestor (fun pk => idx.lookup pk) p.1.key).map fun u => (u, p.2)) ++
  slots.flatMap fun slot =>
    match idx.lookup slot.key with
    | none => []
    | some v => (depends slot.key).filterMap fun dep => (idx.lookup dep).map fun u => (u, v)

/-- The comparison of the queue: `a` comes out after `b`. -/
def cmp (slots : List ModuleSlot) (a b : Nat) : Bool :=
  match slots[a]?, slots[b]? with
  | some x, some y =>
    if x.priority ≠ y.priority then x.priority > y.priority
    else if keyDepth x.key ≠ keyDepth y.key then keyDepth x.key > keyDepth y.key
    else a > b
  | _, _ => a > b

/-- `pq.top(); pq.pop();`. -/
def popTop (after : Nat → Nat → Bool) : List Nat → Option (Nat × List Nat)
  | [] => none
  | a :: l =>
    let top := l.foldl (fun m b => if after m b then b else m) a
    some (top, (a :: l).erase top)

def resolveDepends (depends : Str → List Str) (slots : List ModuleSlot) : List ModuleSlot :=
  let g := Digraph.ofEdges (graphEdges depends slots)
  let n := slots.length
  match kahn (popTop (cmp slots)) g.adj (n + 1) g.indegree
      ((List.range n).filter fun i => g.indegree i = 0) [] with
  | none => slots
  | some order => if order.length ≠ n then slots else order.filterMap fun i => slots[i]?

/-- One of the loops over the modules that have an instance. -/
def forInstances (event : Str → ModuleEvent) (slots : List ModuleSlot) (log : List ModuleEvent) :
    List ModuleEvent :=
  slots.foldl (fun log slot => if slot.inst.isSome then log ++ [event slot.key] else log) log

/-- `init`, before which there are no modules. `create` is the factory: it may have no instance. -/
def init (registered : List (Str × Int)) (depends : Str → List Str) (create : Str → Option Nat) :
    EntryState :=
  let slots := resolveDepends depends (buildModuleGraph registered)
  let modules := slots.map fun slot => { slot with inst := create slot.key }
  let log := forInstances .created modules []
  let log := forInstances .init modules log
  ⟨modules, forInstances .ready modules.reverse log⟩

def deinit (g : EntryState) : EntryState :=
  let log := forInstances .deinit g.modules.reverse g.log
  ⟨[], forInstances .destroyed g.modules.reverse log⟩

/-! ### What the order is for -/

/-- `a` is one of the dotted prefixes of `key`. -/
def Above (a key : Str) : Prop := ∃ r, key = a ++ 46 :: r

/-- The longest dotted prefix of `key` that is registered. -/
def NearestAncestor (keys : List Str) (key a : Str) : Prop :=
  a ∈ keys ∧ a ≠ [] ∧ Above a key ∧ ∀ c ∈ keys, c ≠ [] → Above c key → c.length ≤ a.length

/-- The module `key` has to come after the module `a`. -/
def Needs (depends : Str → List Str) (keys : List Str) (a key : Str) : Prop :=
  key ∈ keys ∧ (NearestAncestor keys key a ∨ a ∈ depends key ∧ a ∈ keys)

def Acyclic (depends : Str → List Str) (keys : List Str) : Prop :=
  ∀ key, ¬ Relation.TransGen (Needs depends keys) key key

/-! ### Ancestors -/

/-- A key without a dot has no prefixes and the empty parent; otherwise the parent is one of them. -/
theorem parentKey_cases (key : Str) :
    (parentKey key = [] ∧ ∀ a, ¬ Above a key) ∨
      (Above (parentKey key) key ∧ ∀ a, Above a key → a = parentKey key ∨ Above a (parentKey key)) := by
  rw [parentKey]
  cases h : rsplit 46 key with
  | none =>
    refine .inl ⟨rfl, ?_⟩
    rintro a ⟨r, rfl⟩
    exact rsplit_eq_none h (by simp)
  | some p =>
    obtain ⟨b, d⟩ := p
    obtain ⟨rfl, hd⟩ := rsplit_spec h
    refine .inr ⟨⟨d, rfl⟩, ?_⟩
    rintro a ⟨r, hr⟩
    rcases List.append_eq_append_iff.mp hr with ⟨t, ha, ht⟩ | ⟨t, hb, ht⟩
    · cases t with
      | nil => exact .inl (by simpa using ha)
      | cons c t =>
        rw [List.cons_append, List.cons.injEq] at ht
        exact absurd (ht.2 ▸ by simp) hd
    · cases t with
      | nil => exact .inl (by simpa using hb.symm)
      | cons c t =>
        rw [List.cons_append, List.cons.injEq] at ht
        exact .inr ⟨t, by rw [hb, ht.1]⟩

theorem Above.length_lt {a key : Str} (h : Above a key) : a.length < key.length := by
  obtain ⟨r, rfl⟩ := h
  simp

theorem Above.trans {a b c : Str} (h : Above a b) (h' : Above b c) : Above a c := by
  obtain ⟨r, rfl⟩ := h
  obtain ⟨r', rfl⟩ := h'
  exact ⟨r ++ 46 :: r', by simp⟩

/-- `b` is `pk` or one of its dotted prefixes. -/
def UpTo (b pk : Str) : Prop := b = pk ∨ Above b pk

theorem upTo_nil {b : Str} (h : UpTo b []) : b = [] := by
  rcases h with h | ⟨r, h⟩
  · exact h
  · simp at h

theorem upTo_parent {pk b : Str} (hb : b ≠ []) (hne : b ≠ pk) : UpTo b pk ↔ UpTo b (parentKey pk) := by
  rcases parentKey_cases pk with ⟨hnil, hno⟩ | ⟨hpar, hall⟩
  · constructor
    · rintro (h | h)
      · exact absurd h hne
      · exact absurd h (hno b)
    · rw [hnil]
      exact fun h => absurd (upTo_nil h) hb
  · constructor
    · rintro (h | h)
      · exact absurd h hne
      · exact hall b h
    · rintro (rfl | h)
      · exact .inr hpar
      · exact .inr (h.trans hpar)

theorem parentKey_length_lt {pk : Str} (h : pk ≠ []) : (parentKey pk).length < pk.length := by
  rcases parentKey_cases pk with ⟨hnil, -⟩ | ⟨hpar, -⟩
  · rw [hnil]
    exact List.length_pos_iff.mpr h
  · exact hpar.length_lt

section Climb

variable {α : Type} {find : Str → Option α}

/-- The walk ends at the longest prefix that is found. -/
theorem climb_eq_some : ∀ {k : Nat} {pk : Str}, pk.length ≤ k → ∀ u, climb find k pk = some u ↔
    ∃ b, b ≠ [] ∧ find b = some u ∧ UpTo b pk ∧
      ∀ c, c ≠ [] → UpTo c pk → (find c).isSome → c.length ≤ b.length := by
  intro k
  induction k with
  | zero =>
    intro pk hk u
    obtain rfl : pk = [] := List.length_eq_zero_iff.mp (Nat.le_zero.mp hk)
    rw [climb]
    constructor
    · intro h
      cases h
    · rintro ⟨b, hb, -, hup, -⟩
      exact absurd (upTo_nil hup) hb
  | succ k ih =>
    intro pk hk u
    rw [climb]
    by_cases hnil : pk = []
    · rw [if_pos hnil, hnil]
      constructor
      · intro h
        cases h
      · rintro ⟨b, hb, -, hup, -⟩
        exact absurd (upTo_nil hup) hb
    · rw [if_neg hnil]
      cases hf : find pk with
      | some a =>
        constructor
        · intro h
          refine ⟨pk, hnil, hf.trans h, .inl rfl, ?_⟩
          rintro c - (rfl | h) -
          · exact le_rfl
          · exact h.length_lt.le
        · rintro ⟨b, -, hb, hup, hmax⟩
          have hlen := hmax pk hnil (.inl rfl) (by rw [hf]; rfl)
          rcases hup with rfl | h
          · exact hf.symm.trans hb
          · exact absurd h.length_lt hlen.not_gt
      | none =>
        have hpar : ∀ b, b ≠ [] → (find b).isSome → (UpTo b pk ↔ UpTo b (parentKey pk)) := by
          intro b hb hfb
          exact upTo_parent hb fun h => by simp [h, hf] at hfb
        rw [show (match (none : Option α) with
          | some a => some a
          | none => climb find k (parentKey pk)) = climb find k (parentKey pk) from rfl,
          ih (Nat.le_of_lt_succ ((parentKey_length_lt hnil).trans_le hk)) u]
        constructor
        · rintro ⟨b, hb, hfb, hup, hmax⟩
          exact ⟨b, hb, hfb, (hpar b hb (by rw [hfb]; rfl)).mpr hup,
            fun c hc hup hfc => hmax c hc ((hpar c hc hfc).mp hup) hfc⟩
        · rintro ⟨b, hb, hfb, hup, hmax⟩
          exact ⟨b, hb, hfb, (hpar b hb (by rw [hfb]; rfl)).mp hup,
            fun c hc hup hfc => hmax c hc ((hpar c hc hfc).mpr hup) hfc⟩

theorem ancestor_eq_some {keys : List Str} (hfind : ∀ c, (find c).isSome ↔ c ∈ keys) (key : Str)
    (u : α) : ancestor find key = some u ↔ ∃ a, NearestAncestor keys key a ∧ find a = some u := by
  have hup : ∀ b, b ≠ [] → (UpTo b (parentKey key) ↔ Above b key) := by
    intro b hb
    rcases parentKey_cases key with ⟨hnil, hno⟩ | ⟨hpar, hall⟩
    · rw [hnil]
      exact ⟨fun h => absurd (upTo_nil h) hb, fun h => absurd h (hno b)⟩
    · refine ⟨?_, hall b⟩
      rintro (rfl | h)
      · exact hpar
      · exact h.trans hpar
  have hlen : (parentKey key).length ≤ key.length := by
    rcases parentKey_cases key with ⟨hnil, -⟩ | ⟨hpar, -⟩
    · simp [hnil]
    · exact hpar.length_lt.le
  rw [ancestor, climb_eq_some hlen]
  constructor
  · rintro ⟨b, hb, hfb, h, hmax⟩
    refine ⟨b, ⟨(hfind b).mp (by rw [hfb]; rfl), hb, (hup b hb).mp h, ?_⟩, hfb⟩
    exact fun c hc hcn h => hmax c hcn ((hup c hcn).mpr h) ((hfind c).mpr hc)
  · rintro ⟨a, ⟨-, ha, h, hmax⟩, hfa⟩
    refine ⟨a, ha, hfa, (hup a ha).mpr h, ?_⟩
    exact fun c hcn h hc => hmax c ((hfind c).mp hc) hcn ((hup c hcn).mp h)

end Climb

/-! ### The graph -/

section Graph

variable {depends : Str → List Str} {slots : List ModuleSlot}

def keysOf (slots : List ModuleSlot) : List Str := slots.map ModuleSlot.key

theorem keyToIdx_keys (slots : List ModuleSlot) :
    (slots.zipIdx.map fun p => (p.1.key, p.2)).map Prod.fst = keysOf slots := by
  rw [List.map_map, keysOf]
  conv_rhs => rw [← List.zipIdx_map_fst 0 slots, List.map_map]
  rfl

theorem keyToIdx_lookup (hk : (keysOf slots).Nodup) (key : Str) (i : Nat) :
    (keyToIdx slots).lookup key = some i ↔ ∃ slot, slots[i]? = some slot ∧ slot.key = key := by
  have hnd : ((slots.zipIdx.map fun p => (p.1.key, p.2)).map Prod.fst).Nodup := by
    rw [keyToIdx_keys]
    exact hk
  have hidx : keyToIdx slots = slots.zipIdx.map fun p => (p.1.key, p.2) := by
    rw [keyToIdx, assignAll_new hnd (by simp), List.nil_append]
  have hmem : (keyToIdx slots).lookup key = some i ↔
      (key, i) ∈ slots.zipIdx.map fun p => (p.1.key, p.2) := by
    rw [hidx]
    exact ⟨mem_of_lookup, lookup_of_mem hnd⟩
  rw [hmem, List.mem_map]
  constructor
  · rintro ⟨⟨slot, j⟩, hp, he⟩
    obtain ⟨rfl, rfl⟩ := Prod.mk.inj he
    exact ⟨slot, List.mem_zipIdx_iff_getElem?.mp hp, rfl⟩
  · rintro ⟨slot, hs, rfl⟩
    exact ⟨(slot, i), List.mem_zipIdx_iff_getElem?.mpr hs, rfl⟩

theorem keyToIdx_isSome (hk : (keysOf slots).Nodup) (key : Str) :
    ((keyToIdx slots).lookup key).isSome ↔ key ∈ keysOf slots := by
  rw [Option.isSome_iff_exists]
  constructor
  · rintro ⟨i, h⟩
    obtain ⟨slot, hs, rfl⟩ := (keyToIdx_lookup hk key i).mp h
    exact List.mem_map_of_mem (List.mem_of_getElem? hs)
  · intro h
    obtain ⟨slot, hs, rfl⟩ := List.mem_map.mp h
    obtain ⟨i, hi⟩ := List.mem_iff_getElem?.mp hs
    exact ⟨i, (keyToIdx_lookup hk slot.key i).mpr ⟨slot, hi, rfl⟩⟩

theorem mem_ancestorEdges (hk : (keysOf slots).Nodup) (u v : Nat) :
    (u, v) ∈ slots.zipIdx.filterMap (fun p =>
        (ancestor (fun pk => (keyToIdx slots).lookup pk) p.1.key).map fun u => (u, p.2)) ↔
      ∃ x y, slots[u]? = some x ∧ slots[v]? = some y ∧ NearestAncestor (keysOf slots) y.key x.key := by
  have hfind := keyToIdx_isSome hk
  rw [List.mem_filterMap]
  constructor
  · rintro ⟨⟨y, j⟩, hp, he⟩
    obtain ⟨w, hw, he⟩ := Option.map_eq_some_iff.mp he
    obtain ⟨rfl, rfl⟩ := Prod.mk.inj he
    obtain ⟨a, hnear, ha⟩ := (ancestor_eq_some hfind y.key w).mp hw
    obtain ⟨x, hx, rfl⟩ := (keyToIdx_lookup hk a w).mp ha
    exact ⟨x, y, hx, List.mem_zipIdx_iff_getElem?.mp hp, hnear⟩
  · rintro ⟨x, y, hx, hy, hnear⟩
    have hw := (ancestor_eq_some hfind y.key u).mpr
      ⟨x.key, hnear, (keyToIdx_lookup hk x.key u).mpr ⟨x, hx, rfl⟩⟩
    exact ⟨(y, v), List.mem_zipIdx_iff_getElem?.mpr hy, by simp only [hw, Option.map_some]⟩

theorem mem_dependsEdges (hk : (keysOf slots).Nodup) (u v : Nat) :
    (u, v) ∈ (slots.flatMap fun slot =>
        match (keyToIdx slots).lookup slot.key with
        | none => []
        | some v => (depends slot.key).filterMap fun dep =>
            ((keyToIdx slots).lookup dep).map fun u => (u, v)) ↔
      ∃ x y, slots[u]? = some x ∧ slots[v]? = some y ∧ x.key ∈ depends y.key := by
  rw [List.mem_flatMap]
  constructor
  · rintro ⟨y, hy, he⟩
    obtain ⟨j, hj⟩ := List.mem_iff_getElem?.mp hy
    have hv := (keyToIdx_lookup hk y.key j).mpr ⟨y, hj, rfl⟩
    rw [hv] at he
    obtain ⟨dep, hdep, he⟩ := List.mem_filterMap.mp he
    obtain ⟨w, hw, he⟩ := Option.map_eq_some_iff.mp he
    obtain ⟨rfl, rfl⟩ := Prod.mk.inj he
    obtain ⟨x, hx, rfl⟩ := (keyToIdx_lookup hk dep w).mp hw
    exact ⟨x, y, hx, hj, hdep⟩
  · rintro ⟨x, y, hx, hy, hdep⟩
    refine ⟨y, List.mem_of_getElem? hy, ?_⟩
    rw [(keyToIdx_lookup hk y.key v).mpr ⟨y, hy, rfl⟩]
    refine List.mem_filterMap.mpr ⟨x.key, hdep, ?_⟩
    rw [(keyToIdx_lookup hk x.key u).mpr ⟨x, hx, rfl⟩]
    rfl

/-- The edges are what the modules need. -/
theorem mem_graphEdges (hk : (keysOf slots).Nodup) (u v : Nat) :
    (u, v) ∈ graphEdges depends slots ↔ ∃ x y, slots[u]? = some x ∧ slots[v]? = some y ∧
      Needs depends (keysOf slots) x.key y.key := by
  have hkey : ∀ {i : Nat} {x : ModuleSlot}, slots[i]? = some x → x.key ∈ keysOf slots := fun h =>
    List.mem_map_of_mem (List.mem_of_getElem? h)
  rw [graphEdges, List.mem_append, mem_ancestorEdges hk, mem_dependsEdges hk]
  constructor
  · rintro (⟨x, y, hx, hy, h⟩ | ⟨x, y, hx, hy, h⟩)
    · exact ⟨x, y, hx, hy, hkey hy, .inl h⟩
    · exact ⟨x, y, hx, hy, hkey hy, .inr ⟨h, hkey hx⟩⟩
  · rintro ⟨x, y, hx, hy, -, h | ⟨h, -⟩⟩
    · exact .inl ⟨x, y, hx, hy, h⟩
    · exact .inr ⟨x, y, hx, hy, h⟩

theorem graphEdges_lt (hk : (keysOf slots).Nodup) :
    ∀ e ∈ graphEdges depends slots, e.1 ∈ List.range slots.length ∧ e.2 ∈ List.range slots.length := by
  rintro ⟨u, v⟩ he
  obtain ⟨x, y, hx, hy, -⟩ := (mem_graphEdges hk u v).mp he
  simp only [List.mem_range]
  exact ⟨(List.getElem?_eq_some_iff.mp hx).1, (List.getElem?_eq_some_iff.mp hy).1⟩

theorem Needs.left_mem {keys : List Str} {a key : Str} (h : Needs depends keys a key) : a ∈ keys := by
  rcases h.2 with h | h
  · exact h.1
  · exact h.2

/-- The indices have a cycle exactly when the keys have one. -/
theorem noCycle_iff (hk : (keysOf slots).Nodup) :
    NoCycle (graphEdges depends slots) ↔ Acyclic depends (keysOf slots) := by
  have hslot : ∀ {key}, key ∈ keysOf slots →
      ∃ x, slots[(keysOf slots).idxOf key]? = some x ∧ x.key = key := by
    intro key h
    have hget := List.getElem?_idxOf h
    generalize (keysOf slots).idxOf key = i at hget ⊢
    rw [keysOf, List.getElem?_map] at hget
    exact Option.map_eq_some_iff.mp hget
  constructor
  · intro h key hkey
    refine h ((keysOf slots).idxOf key)
      (Relation.TransGen.lift (fun key => (keysOf slots).idxOf key) (fun a b hab => ?_) key key hkey)
    obtain ⟨x, hx, hxk⟩ := hslot hab.left_mem
    obtain ⟨y, hy, hyk⟩ := hslot hab.1
    exact (mem_graphEdges hk _ _).mpr ⟨x, y, hx, hy, by rwa [hxk, hyk]⟩
  · intro h v hv
    refine h ((keysOf slots)[v]?.getD [])
      (Relation.TransGen.lift (fun v => (keysOf slots)[v]?.getD []) (fun a b hab => ?_) v v hv)
    obtain ⟨x, y, hx, hy, hxy⟩ := (mem_graphEdges hk a b).mp hab
    simpa only [Function.onFun, keysOf, List.getElem?_map, hx, hy, Option.map_some, Option.getD_some]
      using hxy

/-! ### The order -/

theorem popTop_picks (after : Nat → Nat → Bool) : Picks (popTop after) := by
  have hmem : ∀ (l : List Nat) (a : Nat), l.foldl (fun m b => if after m b then b else m) a ∈ a :: l := by
    intro l
    induction l with
    | nil => exact fun a => List.mem_singleton_self a
    | cons b l ih =>
      intro a
      rw [List.foldl_cons]
      have := ih (if after a b then b else a)
      split_ifs at this ⊢ with h
      · exact List.mem_cons_of_mem _ this
      · rcases List.mem_cons.mp this with h | h
        · rw [h]
          exact List.mem_cons_self
        · exact List.mem_cons_of_mem _ (List.mem_cons_of_mem _ h)
  intro l
  cases l with
  | nil => rfl
  | cons a l => exact List.perm_cons_erase (hmem l a)

/-- The modules of `sorted` come after all they need. -/
def InOrder (depends : Str → List Str) (keys : List Str) (sorted : List ModuleSlot) : Prop :=
  ∀ l₁ s l₂, sorted = l₁ ++ s :: l₂ → ∀ a, Needs depends keys a s.key → a ∈ keysOf l₁

theorem filterMap_getElem {order : List Nat} (h : ∀ i ∈ order, i < slots.length) :
    (order.filterMap fun i => slots[i]?).map some = order.map fun i => slots[i]? := by
  induction order with
  | nil => rfl
  | cons i order ih =>
    have hi := h i List.mem_cons_self
    rw [List.filterMap_cons, List.getElem?_eq_getElem hi, List.map_cons, List.map_cons,
      List.getElem?_eq_getElem hi, ih fun j hj => h j (List.mem_cons_of_mem _ hj)]

theorem filterMap_range (slots : List ModuleSlot) :
    ((List.range slots.length).filterMap fun i => slots[i]?) = slots := by
  have hget := filterMap_getElem fun i (hi : i ∈ List.range slots.length) => List.mem_range.mp hi
  have hall : (List.range slots.length).map (fun i => slots[i]?) = slots.map some := by
    refine List.ext_getElem (by simp) fun i h₁ h₂ => ?_
    simp only [List.getElem_map, List.getElem_range]
    exact List.getElem?_eq_getElem _
  exact List.map_injective_iff.mpr (Option.some_injective _) (hget.trans hall)

/-- An order of the indices that follows the edges is an order of the modules that follows their
needs. -/
theorem inOrder_of_ordered (hk : (keysOf slots).Nodup) {order : List Nat}
    (hlt : ∀ i ∈ order, i < slots.length) (hord : Ordered (graphEdges depends slots) order) :
    InOrder depends (keysOf slots) (order.filterMap fun i => slots[i]?) := by
  intro l₁ s l₂ he a ha
  have hget := filterMap_getElem hlt
  rw [he, List.map_append, List.map_cons] at hget
  obtain ⟨o₁, o₂, rfl, ho₁, ho₂⟩ := List.map_eq_append_iff.mp hget.symm
  obtain ⟨i, o₂, rfl, hi, -⟩ := List.map_eq_cons_iff.mp ho₂
  obtain ⟨x, hx, rfl⟩ := List.mem_map.mp ha.left_mem
  obtain ⟨u, hu⟩ := List.mem_iff_getElem?.mp hx
  have hmem := hord o₁ i o₂ rfl u ((mem_graphEdges hk u i).mpr ⟨x, s, hu, hi, ha⟩)
  have hx₁ : slots[u]? ∈ l₁.map some := ho₁ ▸ List.mem_map_of_mem hmem
  rw [hu] at hx₁
  obtain ⟨x', hx', hxx⟩ := List.mem_map.mp hx₁
  cases hxx
  exact List.mem_map_of_mem hx'

/-- **`resolveDepends`** puts the modules in order when there is no cycle, and leaves them alone when
there is one. -/
theorem resolveDepends_spec (hk : (keysOf slots).Nodup) :
    (resolveDepends depends slots).Perm slots ∧
      (Acyclic depends (keysOf slots) → InOrder depends (keysOf slots) (resolveDepends depends slots)) ∧
      (¬ Acyclic depends (keysOf slots) → resolveDepends depends slots = slots) := by
  obtain ⟨order, hrun, hnd, hsub, hord, hlen⟩ := kahn_spec (popTop_picks (cmp slots))
    (List.nodup_range (n := slots.length)) (@graphEdges_lt depends slots hk)
  rw [List.length_range] at hrun hlen
  rw [noCycle_iff hk] at hlen
  simp only [resolveDepends, hrun]
  by_cases hfull : order.length = slots.length
  · have hacyc := hlen.mp hfull
    have hlt : ∀ i ∈ order, i < slots.length := fun i hi => List.mem_range.mp (hsub i hi)
    have hperm : order.Perm (List.range slots.length) :=
      (hnd.subperm hsub).perm_of_length_le (by rw [List.length_range, hfull])
    rw [if_neg (not_not.mpr hfull)]
    refine ⟨?_, fun _ => inOrder_of_ordered hk hlt hord, fun h => absurd hacyc h⟩
    have h := hperm.filterMap fun i => slots[i]?
    rwa [filterMap_range] at h
  · have hcyc : ¬ Acyclic depends (keysOf slots) := fun h => hfull (hlen.mpr h)
    rw [if_pos hfull]
    exact ⟨List.Perm.refl _, fun h => absurd h hcyc, fun _ => rfl⟩

end Graph

/-- The first slot depends on the last one; the one in between is the child of the last. -/
example : keysOf (resolveDepends (fun key => if key = [97] then [[99]] else [])
    [⟨[97], 1, none⟩, ⟨[99, 46, 98], 2, none⟩, ⟨[99], 3, none⟩]) = [[99], [97], [99, 46, 98]] := by
  decide

/-! ### `init` and `deinit` -/

/-- Whatever the priorities are, there is one slot for each registered key. -/
theorem buildModuleGraph_keys (registered : List (Str × Int)) :
    (keysOf (buildModuleGraph registered)).Nodup ∧
      ∀ key, key ∈ keysOf (buildModuleGraph registered) ↔ key ∈ registered.map Prod.fst := by
  have hperm : (keysOf (buildModuleGraph registered)).Perm ((assignAll [] registered).map Prod.fst) := by
    refine ((List.mergeSort_perm _ _).map ModuleSlot.key).trans ?_
    rw [List.map_map]
    show (List.map (fun key => key) _).Perm _
    rw [List.map_id']
    exact List.mergeSort_perm _ _
  refine ⟨hperm.nodup_iff.mpr (assignAll_nodup List.nodup_nil), fun key => ?_⟩
  rw [hperm.mem_iff, mem_assignAll_keys]
  simp

theorem forInstances_eq (event : Str → ModuleEvent) (slots : List ModuleSlot) (log : List ModuleEvent) :
    forInstances event slots log =
      log ++ ((slots.filter fun slot => slot.inst.isSome).map fun slot => event slot.key) := by
  induction slots generalizing log with
  | nil => simp [forInstances]
  | cons slot slots ih =>
    rw [forInstances, List.foldl_cons, ← forInstances, ih, List.filter_cons]
    split_ifs <;> simp

/-- The keys of the modules that get an instance, in the order of the slots. -/
def started (create : Str → Option Nat) (slots : List ModuleSlot) : List Str :=
  (slots.filter fun slot => (create slot.key).isSome).map ModuleSlot.key

theorem forInstances_created (event : Str → ModuleEvent) (create : Str → Option Nat)
    (slots : List ModuleSlot) (log : List ModuleEvent) :
    forInstances event (slots.map fun slot => { slot with inst := create slot.key }) log =
        log ++ (started create slots).map event ∧
      forInstances event (slots.map fun slot => { slot with inst := create slot.key }).reverse log =
        log ++ (started create slots).reverse.map event := by
  have h : ∀ slots : List ModuleSlot,
      ((slots.map fun slot => { slot with inst := create slot.key }).filter fun slot =>
        slot.inst.isSome).map (fun slot => event slot.key) = (started create slots).map event := by
    intro slots
    rw [started, List.filter_map, List.map_map, List.map_map]
    rfl
  refine ⟨by rw [forInstances_eq, h], ?_⟩
  rw [forInstances_eq, ← List.map_reverse, h, started, List.filter_reverse, List.map_reverse, started]

/-- **The start of the modules.** `resolveDepends` permutes the slots: each module comes after its
nearest registered ancestor and all that it depends on, or, if these needs have a cycle, stays where it
was. `INIT` runs in that order, `READY`, `DEINIT` and the destructors in the reverse one. -/
theorem start_order (registered : List (Str × Int)) (depends : Str → List Str)
    (create : Str → Option Nat) :
    let slots := buildModuleGraph registered
    let keys := keysOf slots
    let sorted := resolveDepends depends slots
    let modules := started create sorted
    (keys.Nodup ∧ ∀ key, key ∈ keys ↔ key ∈ registered.map Prod.fst) ∧ sorted.Perm slots ∧
      (Acyclic depends keys → ∀ l₁ s l₂, sorted = l₁ ++ s :: l₂ →
        (∀ a, NearestAncestor keys s.key a → a ∈ keysOf l₁) ∧
          ∀ a ∈ depends s.key, a ∈ keys → a ∈ keysOf l₁) ∧
      (¬ Acyclic depends keys → sorted = slots) ∧
      (init registered depends create).log =
        modules.map .created ++ modules.map .init ++ modules.reverse.map .ready ∧
      (deinit (init registered depends create)).log =
        (init registered depends create).log ++ modules.reverse.map .deinit ++
          modules.reverse.map .destroyed := by
  intro slots keys sorted modules
  have hkeys := buildModuleGraph_keys registered
  obtain ⟨hperm, horder, hcycle⟩ := @resolveDepends_spec depends slots hkeys.1
  have hevents := fun event => forInstances_created event create sorted
  refine ⟨hkeys, hperm, ?_, hcycle, ?_, ?_⟩
  · intro hacyc l₁ s l₂ he
    have hmem : s ∈ sorted := by
      rw [he]
      simp
    have hs : s.key ∈ keys := (hperm.map ModuleSlot.key).mem_iff.mp (List.mem_map_of_mem hmem)
    have hall := horder hacyc l₁ s l₂ he
    exact ⟨fun a ha => hall a ⟨hs, .inl ha⟩, fun a ha hk => hall a ⟨hs, .inr ⟨ha, hk⟩⟩⟩
  · show forInstances .ready _ (forInstances .init _ (forInstances .created _ [])) = _
    rw [(hevents .created []).1, (hevents .init _).1, (hevents .ready _).2, List.nil_append]
  · have hmodules : (init registered depends create).modules =
        sorted.map fun slot => { slot with inst := create slot.key } := rfl
    simp only [deinit, hmodules]
    rw [(hevents .deinit _).2, (hevents .destroyed _).2]

end Entry

end VersatileEngine
