import VersatileEngine.Lib.Arrange
import VersatileEngine.Node.Scan

/-!
# VersatileEngine.Node.Tree

Trees as values, and the nodes of a forest that hold them.

* `Tree`     — a name, a value and the ordered children: what a subtree says, apart from addresses.
* `copyTree` — what `copy` makes of two trees. It is the abstract statement of `Node::copy`: children
  are matched by name and occurrence and arranged in the order of the destination.
* `Held`     — a tree together with the nodes that hold it, and `Forest.Holds`, which says that a
  forest holds it there.

`Holds.agrees` is the frame rule: a forest that agrees on the nodes of a tree holds the tree.
-/

namespace VersatileEngine

inductive Tree where
  | node (name : Str) (value : Var) (kids : List Tree)

namespace Tree

def name : Tree → Str
  | node nm _ _ => nm

def value : Tree → Var
  | node _ v _ => v

def kids : Tree → List Tree
  | node _ _ ts => ts

/-- A freshly created node. -/
def blank (nm : Str) : Tree := node nm .none []

/-- The children of one name, in order. -/
def named (t : Tree) (nm : Str) : List Tree := t.kids.filter fun k => k.name = nm

theorem eta (t : Tree) : node t.name t.value t.kids = t := by cases t; rfl

/-- Induction over a tree through its children. -/
theorem ind {P : Tree → Prop} (h : ∀ t, (∀ k ∈ t.kids, P k) → P t) (t : Tree) : P t := by
  refine @Tree.rec P (fun ts => ∀ k ∈ ts, P k) ?_ ?_ ?_ t
  · intro nm v ts ih
    exact h (node nm v ts) ih
  · intro k hk
    cases hk
  · intro t ts ht hts k hk
    rcases List.mem_cons.mp hk with rfl | hk
    · exact ht
    · exact hts k hk

end Tree

/-- The value after `auto_update ? update(v) : set(v)`. -/
def copyValue (autoUpdate : Bool) (old new : Var) : Var :=
  if autoUpdate && old.eqv new then old else new

/-- The tree in a slot of the arrangement, when `(name, cp)` stands for a source child: its name and
what copying it makes of a destination. -/
def runSlot : Slot Tree (Str × (Tree → Tree)) → Tree
  | .old d => d
  | .joined d s => s.2 d
  | .fresh s => s.2 (Tree.blank s.1)

section CopyTree

variable (autoInsert autoRemove autoUpdate : Bool)

mutual
/-- What `dst.copy(src, ..)` makes of `dst`, for the source given first. -/
def copyTree : Tree → Tree → Tree
  | .node _ v ss, d =>
    .node d.name (copyValue autoUpdate d.value v)
      ((arrange Tree.name Prod.fst autoInsert autoRemove d.kids (copyEach ss)).map runSlot)

def copyEach : List Tree → List (Str × (Tree → Tree))
  | [] => []
  | s :: ss => (s.name, fun d => copyTree s d) :: copyEach ss
end

theorem copyEach_eq (ss : List Tree) : copyEach autoInsert autoRemove autoUpdate ss =
    ss.map fun s => (s.name, copyTree autoInsert autoRemove autoUpdate s) := by
  induction ss with
  | nil => rfl
  | cons s ss ih => rw [copyEach, ih]; rfl

/-- The tree in a slot that holds trees. -/
def copySlot : Slot Tree Tree → Tree
  | .old d => d
  | .joined d s => copyTree autoInsert autoRemove autoUpdate s d
  | .fresh s => copyTree autoInsert autoRemove autoUpdate s (Tree.blank s.name)

theorem copyTree_eq (s d : Tree) : copyTree autoInsert autoRemove autoUpdate s d =
    .node d.name (copyValue autoUpdate d.value s.value)
      ((arrange Tree.name Tree.name autoInsert autoRemove d.kids s.kids).map
        (copySlot autoInsert autoRemove autoUpdate)) := by
  obtain ⟨nm, v, ss⟩ := s
  have hmap := arrange_map Tree.name Prod.fst autoInsert autoRemove (fun d : Tree => d)
    (fun s : Tree => (s.name, copyTree autoInsert autoRemove autoUpdate s)) d.kids ss
  rw [List.map_id'] at hmap
  rw [copyTree, copyEach_eq, hmap, List.map_map]
  congr 1
  refine List.map_congr_left fun x _ => ?_
  cases x <;> rfl

@[simp] theorem copyTree_name (s d : Tree) :
    (copyTree autoInsert autoRemove autoUpdate s d).name = d.name := by
  rw [copyTree_eq]; rfl

@[simp] theorem copyTree_value (s d : Tree) :
    (copyTree autoInsert autoRemove autoUpdate s d).value = copyValue autoUpdate d.value s.value := by
  rw [copyTree_eq]; rfl

theorem copyTree_kids (s d : Tree) : (copyTree autoInsert autoRemove autoUpdate s d).kids =
    (arrange Tree.name Tree.name autoInsert autoRemove d.kids s.kids).map
      (copySlot autoInsert autoRemove autoUpdate) := by
  rw [copyTree_eq]; rfl

end CopyTree

/-! ## Trees in a forest -/

/-- A tree with the nodes that hold it. -/
inductive Held where
  | node (id : Id) (name : Str) (value : Var) (kids : List Held)

namespace Held

def id : Held → Id
  | node i _ _ _ => i

def name : Held → Str
  | node _ nm _ _ => nm

def value : Held → Var
  | node _ _ v _ => v

def kids : Held → List Held
  | node _ _ _ ks => ks

theorem ind {P : Held → Prop} (h : ∀ t, (∀ k ∈ t.kids, P k) → P t) (t : Held) : P t := by
  refine @Held.rec P (fun ts => ∀ k ∈ ts, P k) ?_ ?_ ?_ t
  · intro i nm v ts ih
    exact h (node i nm v ts) ih
  · intro k hk
    cases hk
  · intro t ts ht hts k hk
    rcases List.mem_cons.mp hk with rfl | hk
    · exact ht
    · exact hts k hk

mutual
/-- The tree that is held. -/
def tree : Held → Tree
  | node _ nm v ks => .node nm v (trees ks)

def trees : List Held → List Tree
  | [] => []
  | k :: ks => tree k :: trees ks
end

mutual
/-- The nodes that hold it. -/
def ids : Held → List Id
  | node i _ _ ks => i :: idsAll ks

def idsAll : List Held → List Id
  | [] => []
  | k :: ks => ids k ++ idsAll ks
end

mutual
def height : Held → Nat
  | node _ _ _ ks => heights ks + 1

def heights : List Held → Nat
  | [] => 0
  | k :: ks => max (height k) (heights ks)
end

theorem trees_eq (ks : List Held) : trees ks = ks.map tree := by
  induction ks with
  | nil => rfl
  | cons k ks ih => rw [trees, ih]; rfl

theorem idsAll_eq (ks : List Held) : idsAll ks = ks.flatMap ids := by
  induction ks with
  | nil => rfl
  | cons k ks ih => rw [idsAll, ih]; rfl

@[simp] theorem tree_name (t : Held) : t.tree.name = t.name := by cases t; rfl
@[simp] theorem tree_value (t : Held) : t.tree.value = t.value := by cases t; rfl
@[simp] theorem tree_kids (t : Held) : t.tree.kids = t.kids.map tree := by
  cases t; exact trees_eq _

theorem tree_eq (t : Held) : t.tree = .node t.name t.value (t.kids.map tree) := by
  rw [← tree_name, ← tree_value, ← tree_kids, Tree.eta]

theorem ids_eq (t : Held) : t.ids = t.id :: t.kids.flatMap ids := by
  cases t
  rw [ids, idsAll_eq]
  rfl

theorem id_mem_ids (t : Held) : t.id ∈ t.ids := by simp [ids_eq t]

theorem kid_ids {t k : Held} (hk : k ∈ t.kids) {m : Id} (hm : m ∈ k.ids) : m ∈ t.ids := by
  rw [ids_eq]
  exact List.mem_cons_of_mem _ (List.mem_flatMap.mpr ⟨k, hk, hm⟩)

theorem height_pos (t : Held) : 0 < t.height := by
  cases t
  simp [height]

theorem le_heights {ks : List Held} {k : Held} (hk : k ∈ ks) : k.height ≤ heights ks := by
  induction ks with
  | nil => cases hk
  | cons a ks ih =>
    simp only [heights]
    rcases List.mem_cons.mp hk with rfl | hk
    · omega
    · have := ih hk
      omega

theorem height_kid {t k : Held} (hk : k ∈ t.kids) : k.height < t.height := by
  cases t with
  | node i nm v ks =>
    have := le_heights hk
    simp only [kids] at this
    simp only [height]
    omega

end Held

namespace Forest

mutual
/-- The forest holds this tree at its nodes. -/
def Holds (f : Forest) : Held → Prop
  | .node i nm v ks =>
    f.live i = true ∧ f.name i = nm ∧ f.value i = v ∧ f.nodes i = ks.map Held.id ∧ HoldsAll f ks

def HoldsAll (f : Forest) : List Held → Prop
  | [] => True
  | k :: ks => Holds f k ∧ HoldsAll f ks
end

theorem holdsAll_iff {f : Forest} {ks : List Held} : HoldsAll f ks ↔ ∀ k ∈ ks, Holds f k := by
  induction ks with
  | nil => simp [HoldsAll]
  | cons k ks ih => simp [HoldsAll, ih]

theorem holds_iff {f : Forest} {t : Held} : Holds f t ↔ f.live t.id = true ∧ f.name t.id = t.name ∧
    f.value t.id = t.value ∧ f.nodes t.id = t.kids.map Held.id ∧ ∀ k ∈ t.kids, Holds f k := by
  cases t
  rw [Holds, holdsAll_iff]
  rfl

/-- The nodes below `n`, down to `k` levels. -/
def toTree : Nat → Forest → Id → Option Tree
  | 0, _, _ => none
  | k + 1, f, n => ((f.nodes n).mapM (toTree k f)).map (.node (f.name n) (f.value n))

/-- The two forests have the same node there, as far as a tree goes. -/
structure Agrees (f f' : Forest) (m : Id) : Prop where
  live : f'.live m = f.live m
  name : f'.name m = f.name m
  value : f'.value m = f.value m
  nodes : f'.nodes m = f.nodes m

theorem Agrees.refl (f : Forest) (m : Id) : Agrees f f m := ⟨rfl, rfl, rfl, rfl⟩

theorem Agrees.trans {f g h : Forest} {m : Id} (h₁ : Agrees f g m) (h₂ : Agrees g h m) :
    Agrees f h m :=
  ⟨h₂.live.trans h₁.live, h₂.name.trans h₁.name, h₂.value.trans h₁.value, h₂.nodes.trans h₁.nodes⟩

/-- **The frame rule.** -/
theorem Holds.agrees {f f' : Forest} {t : Held} (h : Holds f t)
    (ha : ∀ m ∈ t.ids, Agrees f f' m) : Holds f' t := by
  induction t using Held.ind with
  | h t ih =>
    obtain ⟨h1, h2, h3, h4, h5⟩ := holds_iff.mp h
    have hself := ha t.id t.id_mem_ids
    refine holds_iff.mpr ⟨hself.live.trans h1, hself.name.trans h2, hself.value.trans h3,
      hself.nodes.trans h4, fun k hk => ih k hk (h5 k hk) fun m hm => ha m (Held.kid_ids hk hm)⟩

theorem Holds.live {f : Forest} {t : Held} (h : Holds f t) : ∀ m ∈ t.ids, f.live m = true := by
  induction t using Held.ind with
  | h t ih =>
    obtain ⟨h1, -, -, -, h5⟩ := holds_iff.mp h
    intro m hm
    rw [Held.ids_eq] at hm
    rcases List.mem_cons.mp hm with rfl | hm
    · exact h1
    · obtain ⟨k, hk, hm⟩ := List.mem_flatMap.mp hm
      exact ih k hk (h5 k hk) m hm

/-- A node holds one tree only. -/
theorem Holds.unique {f : Forest} {t : Held} (h : Holds f t) :
    ∀ {t' : Held}, Holds f t' → t'.id = t.id → t' = t := by
  induction t using Held.ind with
  | h t ih =>
    intro t' h' hid
    obtain ⟨-, hname, hvalue, hnodes, hkids⟩ := holds_iff.mp h
    obtain ⟨-, hname', hvalue', hnodes', hkids'⟩ := holds_iff.mp h'
    rw [hid] at hname' hvalue' hnodes'
    have hids : t'.kids.map Held.id = t.kids.map Held.id := hnodes'.symm.trans hnodes
    have hall : ∀ ks ks' : List Held, (∀ k ∈ ks, k ∈ t.kids) → (∀ k ∈ ks', Holds f k) →
        ks'.map Held.id = ks.map Held.id → ks' = ks := by
      intro ks
      induction ks with
      | nil => intro ks' _ _ he; simpa using he
      | cons k ks ihks =>
        intro ks' hsub hh he
        cases ks' with
        | nil => cases he
        | cons k' ks' =>
          simp only [List.map_cons, List.cons.injEq] at he
          have hk := hsub k (by simp)
          rw [ih k hk (hkids k hk) (hh k' (by simp)) he.1,
            ihks ks' (fun c hc => hsub c (by simp [hc])) (fun c hc => hh c (by simp [hc])) he.2]
    have hks := hall t.kids t'.kids (fun _ hk => hk) hkids' hids
    cases t
    cases t'
    simp only [Held.id, Held.name, Held.value, Held.kids] at hid hname hvalue hname' hvalue' hks
    rw [hid, hks, ← hname, ← hvalue, hname', hvalue']

/-- A node of a held tree holds a part of it. -/
theorem Holds.part {f : Forest} {t : Held} (h : Holds f t) {m : Id} (hm : m ∈ t.ids) :
    ∃ t', Holds f t' ∧ t'.id = m ∧ t'.height ≤ t.height := by
  induction t using Held.ind with
  | h t ih =>
    rw [Held.ids_eq] at hm
    rcases List.mem_cons.mp hm with rfl | hm
    · exact ⟨t, h, rfl, Nat.le_refl _⟩
    · obtain ⟨k, hk, hm⟩ := List.mem_flatMap.mp hm
      obtain ⟨t', h', hid, hle⟩ := ih k hk ((holds_iff.mp h).2.2.2.2 k hk) hm
      exact ⟨t', h', hid, Nat.le_trans hle (Nat.le_of_lt (Held.height_kid hk))⟩

/-- No node is below itself. -/
theorem Holds.above {f : Forest} {t k : Held} (h : Holds f t) (hk : k ∈ t.kids) : t.id ∉ k.ids :=
  fun hm => by
    obtain ⟨t', h', hid, hle⟩ := ((holds_iff.mp h).2.2.2.2 k hk).part hm
    have hlt := Held.height_kid hk
    rw [h.unique h' hid] at hle
    omega

theorem Holds.parent_kid {f : Forest} (hi : Inv f) {t k : Held} (h : Holds f t) (hk : k ∈ t.kids) :
    f.parent k.id = some t.id := by
  refine hi.mem_iff.mpr ?_
  rw [(holds_iff.mp h).2.2.2.1]
  exact List.mem_map.mpr ⟨k, hk, rfl⟩

/-- Climbing from below the root of a held tree stays in it. -/
theorem Holds.climb {f : Forest} (hi : Inv f) {t : Held} (h : Holds f t) {m p : Id} (hm : m ∈ t.ids)
    (hne : m ≠ t.id) (hp : f.parent m = some p) : p ∈ t.ids := by
  induction t using Held.ind with
  | h t ih =>
    rw [Held.ids_eq] at hm
    obtain ⟨k, hk, hm⟩ := List.mem_flatMap.mp ((List.mem_cons.mp hm).resolve_left hne)
    by_cases hmk : m = k.id
    · rw [hmk, h.parent_kid hi hk] at hp
      exact Option.some.inj hp ▸ t.id_mem_ids
    · exact Held.kid_ids hk (ih k hk ((holds_iff.mp h).2.2.2.2 k hk) hm hmk)

/-- Of two trees that share a node one contains the root of the other. -/
theorem Holds.nested {f : Forest} (hi : Inv f) {t c : Held} (ht : Holds f t) (hc : Holds f c) {m : Id}
    (hmc : m ∈ c.ids) (hmt : m ∈ t.ids) : c.id ∈ t.ids ∨ t.id ∈ c.ids := by
  induction c using Held.ind with
  | h c ih =>
    rw [Held.ids_eq] at hmc
    rcases List.mem_cons.mp hmc with rfl | hmc
    · exact .inl hmt
    · obtain ⟨k, hk, hmc⟩ := List.mem_flatMap.mp hmc
      rcases ih k hk ((holds_iff.mp hc).2.2.2.2 k hk) hmc with hin | hin
      · by_cases he : k.id = t.id
        · exact .inr (he ▸ Held.kid_ids hk k.id_mem_ids)
        · exact .inl (ht.climb hi hin he (hc.parent_kid hi hk))
      · exact .inr (Held.kid_ids hk hin)

/-- The nodes of a held tree are distinct. -/
theorem Holds.nodup {f : Forest} (hi : Inv f) {t : Held} (h : Holds f t) : t.ids.Nodup := by
  induction t using Held.ind with
  | h t ih =>
    obtain ⟨-, -, -, hnodes, hkids⟩ := holds_iff.mp h
    rw [Held.ids_eq, List.nodup_cons, List.nodup_flatMap]
    have hnd : (t.kids.map Held.id).Nodup := hnodes ▸ hi.nodup t.id
    rw [List.Nodup, List.pairwise_map] at hnd
    refine ⟨fun hm => ?_, fun k hk => ih k hk (hkids k hk), ?_⟩
    · obtain ⟨k, hk, hm⟩ := List.mem_flatMap.mp hm
      exact h.above hk hm
    · -- a child below another one would put `t` below itself
      have hbelow : ∀ {a b : Held}, a ∈ t.kids → b ∈ t.kids → a.id ≠ b.id → a.id ∉ b.ids :=
        fun ha hb hne hm => h.above hb ((hkids _ hb).climb hi hm hne (h.parent_kid hi ha))
      refine hnd.imp_of_mem fun {a b} ha hb hne m hma hmb => ?_
      rcases (hkids b hb).nested hi (hkids a ha) hma hmb with hin | hin
      · exact hbelow ha hb hne hin
      · exact hbelow hb ha hne.symm hin

end Forest

end VersatileEngine
