import VersatileEngine.Node.Residue

/-!
# VersatileEngine.Node.Writes

`set(path, v)` and `update(path, v)`, which write where `at(path)` leads.

* `setPath`, `updatePath`, `getPath` — the three calls; a call through a null pointer has no result.
* `Local`            — the data of all other nodes is the same, and new nodes stand below the receiver.
* `Borrowed`         — the nodes that lookups reach through shadows.
* `OwnWalk`          — the path is followed, or created, without help of a shadow.
* `ownWalk_run`      — such a walk stays below the node it starts at, and a second one finds the same node.
* `write_stays_iff`  — a write stays in the receiver's tree exactly along such a walk, or where it writes the
  value that is there.
-/

namespace VersatileEngine

namespace Forest

/-- `Node::get(path)`. -/
def getPath (f : Forest) (k : Nat) (this : Id) (path : Str) : Option Var :=
  (f.atPath k this path true).map fun
    | some n => f.value n
    | none => .none

/-- `Node::set(path, v)`. -/
def setPath (f : Forest) (k : Nat) (this : Id) (path : Str) (v : Var) : Option Forest :=
  (f.ensurePath k this path true).bind fun r => r.2.map fun n => r.1.set n v

/-- `Node::update(path, v)`. -/
def updatePath (f : Forest) (k : Nat) (this : Id) (path : Str) (v : Var) : Option (Forest × Bool) :=
  (f.getPath k this path).bind fun w =>
    if w.eqv v then some (f, false) else (f.setPath k this path v).map fun g => (g, true)

/-- Outside of what stands below `top` nothing changed, and what came stands below `top`. -/
structure Local (f f' : Forest) (top : Id) : Prop where
  kept : ∀ m, f.live m = true → ¬ Climbs f.parent m top → f'.live m = true ∧ f'.node m = f.node m
  came : ∀ m, f'.live m = true → f.live m = false → Climbs f'.parent m top

/-- A write stays below `top`, and `get(path)` reads what was written. -/
def Stays (f f' : Forest) (k : Nat) (this : Id) (path : Str) (top : Id) (v : Var) : Prop :=
  Local f f' top ∧ ∃ w, f'.getPath k this path = some w ∧ (w = v ∨ w.eqv v = true)

/-- The nodes that the lookups below `top` reach through shadows. -/
inductive Borrowed (f : Forest) (top : Id) : Id → Prop
  | shadow {m s : Id} : Climbs f.parent m top → f.shadow m = some s → Borrowed f top s
  | child {p c : Id} : Borrowed f top p → c ∈ f.nodes p → Borrowed f top c
  | next {m s : Id} : Borrowed f top m → f.shadow m = some s → Borrowed f top s

/-- No segment's number is read as a negative one. -/
def Plain (segs : List Str) : Prop := ∀ seg ∈ segs, ∀ nm i, parseKey keySep seg = some (nm, i) → 0 ≤ i

/-- Every segment is skipped, or is a key that is created where it is missing. -/
def AllCreatable (segs : List Str) : Prop := ∀ seg ∈ segs, seg = [] ∨ Creatable seg

/-- The walk goes to own children as far as there are any. From there on every key can be created, and no
shadow of the node reached has the first of them. -/
def OwnWalk (f : Forest) (k : Nat) : Id → List Str → Prop
  | _, [] => True
  | cur, seg :: segs =>
    if seg = [] then OwnWalk f k cur segs
    else
      match f.lookupKey k cur seg false with
      | some (some c) => OwnWalk f k c segs
      | _ => Creatable seg ∧ f.lookupKey k cur seg true = some none ∧ AllCreatable segs

section Lookups

variable {f g : Forest} {k : Nat} {this c : Id} {s : Bool} {seg : Str} {segs : List Str}

/-- `lookupKey` is one lookup by name, whatever the key. -/
theorem lookupKey_parsed {nm : Str} {i : Int} (h : parseKey keySep seg = some (nm, i)) :
    f.lookupKey k this seg s = f.orShadow (fun n => f.childNamed n nm i) k this s := by
  rw [lookupKey, h]
  simp only
  split_ifs with hc
  · obtain ⟨rfl, -⟩ := hc
    simp only [atIndex, childNamed, if_true]
  · rfl

/-- For a number that is not negative the two forms of `atKey` look up the same. -/
theorem atKey_lookupKey (h : ∀ nm i, parseKey keySep seg = some (nm, i) → 0 ≤ i) :
    f.atKey k this seg s = f.lookupKey k this seg s := by
  rw [atKey, lookupKey]
  cases hp : parseKey keySep seg with
  | none => rfl
  | some p =>
    obtain ⟨nm, i⟩ := p
    have hi := h nm i hp
    simp only [if_neg (show ¬ i < 0 by omega)]

theorem descend_lookup (hp : Plain segs) : ∀ cur, f.descend k s cur segs = f.lookup k s cur segs := by
  induction segs with
  | nil => exact fun cur => by cases cur <;> rfl
  | cons seg segs ih =>
    have hrest : Plain segs := fun x hx => hp x (List.mem_cons_of_mem _ hx)
    intro cur
    cases cur with
    | none => rfl
    | some cur =>
      rw [descend, lookup, atKey_lookupKey (hp seg (by simp)), ih hrest]
      congr 1
      congr 1
      exact funext fun cur => ih hrest cur

theorem atPath_eq (f : Forest) (k : Nat) (this : Id) (path : Str) (s : Bool) :
    f.atPath k this path s = (f.walkStart k this path).bind fun p => f.descend k s (some p.1) p.2 := by
  cases path with
  | nil => rfl
  | cons c rest =>
    rw [atPath, walkStart]
    split_ifs with hc hrest
    · cases f.root k this <;> rfl
    · cases f.root k this <;> rfl
    · rfl

/-- A node found among the own children is found, whatever the shadows. -/
theorem lookupKey_own (h : f.lookupKey k this seg false = some (some c)) (s : Bool) :
    f.lookupKey k this seg s = some (some c) := by
  cases hp : parseKey keySep seg with
  | none => simp [lookupKey, hp] at h
  | some p =>
    rw [lookupKey_parsed hp] at h ⊢
    exact orShadow_found h s

theorem lookupKey_child (h : f.lookupKey k this seg false = some (some c)) :
    ∃ nm i, parseKey keySep seg = some (nm, i) ∧ f.childNamed this nm i = some c ∧ 0 < k := by
  cases hp : parseKey keySep seg with
  | none => simp [lookupKey, hp] at h
  | some p =>
    rw [lookupKey_parsed hp] at h
    cases k with
    | zero => cases h
    | succ k =>
      rw [orShadow] at h
      split at h
      · next cn hl =>
        cases h
        exact ⟨_, _, rfl, hl, Nat.succ_pos k⟩
      · simp at h

theorem lookupKey_of_child {nm : Str} {i : Int} (hp : parseKey keySep seg = some (nm, i))
    (h : f.childNamed this nm i = some c) (hk : 0 < k) (s : Bool) : f.lookupKey k this seg s = some (some c) := by
  obtain ⟨k, rfl⟩ := Nat.exists_eq_succ_of_ne_zero (Nat.ne_of_gt hk)
  rw [lookupKey_parsed hp, orShadow, h]

/-- What the own children do not have is found nowhere, or through a shadow. -/
theorem orShadow_borrowed {look : Id → Option Id} {top : Id} (hl : ∀ n c, look n = some c → c ∈ f.nodes n)
    (hthis : Borrowed f top this) (h : f.orShadow look k this s = some (some c)) : Borrowed f top c := by
  induction k generalizing this s with
  | zero => cases h
  | succ k ih =>
    rw [orShadow] at h
    split at h
    · next cn hcn =>
      cases h
      exact hthis.child (hl _ _ hcn)
    · split_ifs at h
      · split at h
        · next sn hsn => exact ih (hthis.next hsn) h
        · cases h
      · cases h

theorem lookupKey_borrowed {top : Id} (hthis : Borrowed f top this)
    (h : f.lookupKey k this seg s = some (some c)) : Borrowed f top c := by
  cases hp : parseKey keySep seg with
  | none => simp [lookupKey, hp] at h
  | some p =>
    rw [lookupKey_parsed hp] at h
    exact orShadow_borrowed (fun n c hc => childNamed_mem hc) hthis h

theorem lookupKey_cases {top : Id} (hthis : Climbs f.parent this top)
    (h : f.lookupKey k this seg true = some (some c)) :
    f.lookupKey k this seg false = some (some c) ∨
      f.lookupKey k this seg false = some none ∧ Borrowed f top c := by
  cases hp : parseKey keySep seg with
  | none => simp [lookupKey, hp] at h
  | some p =>
    rw [lookupKey_parsed hp] at h ⊢
    cases k with
    | zero => cases h
    | succ k =>
      rw [orShadow] at h ⊢
      split at h
      · exact .inl h
      · rw [if_pos rfl] at h
        split at h
        · next sn hsn =>
          exact .inr ⟨by simp, orShadow_borrowed (fun n c hc => childNamed_mem hc) (.shadow hthis hsn) h⟩
        · cases h

/-- A node without children and shadow has nothing to find. -/
theorem lookupKey_bare (hk : 0 < k) (hn : f.nodes this = []) (hi : Inv f) (hs : f.shadow this = none) (s : Bool) :
    f.lookupKey k this seg s = some none := by
  cases hp : parseKey keySep seg with
  | none => simp [lookupKey, hp]
  | some p =>
    obtain ⟨k, rfl⟩ := Nat.exists_eq_succ_of_ne_zero (Nat.ne_of_gt hk)
    have hchild : f.childNamed this p.1 p.2 = none := by
      rw [childNamed_eq hi, hn, Scan.child]
      simp [nodeAt]
    rw [lookupKey_parsed hp, orShadow, hchild, hs]
    cases s <;> rfl

end Lookups

section Grow

variable {f g : Forest} {k : Nat} {this c top m : Id} {seg : Str} {segs : List Str}

theorem Extends.parent (he : Extends f g) (hm : f.live m = true) : g.parent m = f.parent m := by
  rw [Forest.parent, he.same m hm]
  rfl

theorem Extends.name (he : Extends f g) (hm : f.live m = true) : g.name m = f.name m := by
  rw [Forest.name, he.same m hm]
  rfl

/-- The nodes that were there climb as before. -/
theorem Extends.climbs (he : Extends f g) (h : Inv f) (hm : f.live m = true) :
    Climbs g.parent m top ↔ Climbs f.parent m top := by
  constructor
  · intro hc
    induction hc using Relation.ReflTransGen.head_induction_on with
    | refl => exact .refl top
    | @head x y hxy _ ih =>
      rw [he.parent hm] at hxy
      exact .head hxy (ih (h.live (h.mem_iff.mp hxy)).1)
  · intro hc
    induction hc using Relation.ReflTransGen.head_induction_on with
    | refl => exact .refl top
    | @head x y hxy _ ih =>
      exact .head ((he.parent hm).trans hxy) (ih (h.live (h.mem_iff.mp hxy)).1)

theorem nodeAt_prefix {l l' : List Id} (h : l <+: l') {n : Nat} (hc : nodeAt l n = some c) :
    nodeAt l' n = some c := by
  obtain ⟨t, rfl⟩ := h
  rw [nodeAt_nat] at hc ⊢
  rw [List.getElem?_append_left (List.getElem?_eq_some_iff.mp hc).1, hc]

/-- What is found by its place stays there. -/
theorem Extends.childNamed (he : Extends f g) (h : Inv f) (hg : Inv g) (ht : f.live this = true) {nm : Str} {i : Int}
    (hi : 0 ≤ i) (hc : f.childNamed this nm i = some c) : g.childNamed this nm i = some c := by
  obtain ⟨n, rfl⟩ := Int.eq_ofNat_of_zero_le hi
  obtain ⟨new, hnew⟩ := he.nodes this ht
  have hnames : (f.nodes this).filter (named g.name nm) = (f.nodes this).filter (named f.name nm) :=
    List.filter_congr fun x hx => by rw [named, named, he.name (h.live hx).2]
  rw [childNamed_eq h, Scan.child] at hc
  rw [childNamed_eq hg, Scan.child, ← hnew]
  split_ifs at hc ⊢ with hnm hneg
  · omega
  · exact nodeAt_prefix (List.prefix_append _ _) hc
  · rw [List.filter_append, hnames]
    exact nodeAt_prefix (List.prefix_append _ _) hc

theorem ownWalk_bare (hk : 0 < k) (hn : f.nodes this = []) (h : Inv f) (hs : f.shadow this = none) :
    AllCreatable segs → OwnWalk f k this segs := by
  induction segs with
  | nil => exact fun _ => trivial
  | cons seg segs ih =>
    intro hall
    have hrest : AllCreatable segs := fun x hx => hall x (List.mem_cons_of_mem _ hx)
    rw [OwnWalk]
    split_ifs with hseg
    · exact ih hrest
    · rw [lookupKey_bare hk hn h hs false]
      exact ⟨(hall seg (by simp)).resolve_left hseg, lookupKey_bare hk hn h hs true, hrest⟩

theorem ensureKey_found {s : Bool} (h : f.lookupKey k this seg s = some (some c)) :
    f.ensureKey k this seg s = some (f, some c) := by
  rw [lookupKey] at h
  rw [ensureKey]
  cases hp : parseKey keySep seg with
  | none =>
    rw [hp] at h
    cases h
  | some p =>
    rw [hp] at h
    simp only at h ⊢
    split_ifs at h ⊢
    · rw [ensureIndex, h]
      rfl
    · rw [ensureName, h]
      rfl

/-- What `atKey` returns where it creates. -/
theorem ensureKey_creates (h : Inv f) (ht : f.live this = true) (hseg : Creatable seg)
    (hnone : f.lookupKey k this seg true = some none) :
    ∃ g c nm i new, f.ensureKey k this seg true = some (g, some c) ∧ parseKey keySep seg = some (nm, i) ∧
      0 ≤ i ∧ g.childNamed this nm i = some c ∧ Appended f g this nm new ∧ c ∈ new := by
  obtain ⟨nm, i, hp, hi⟩ := hseg
  obtain ⟨n, rfl⟩ := Int.eq_ofNat_of_zero_le hi
  have hat : f.atName k this nm n true = some none := by
    rw [lookupKey_parsed hp] at hnone
    exact hnone
  obtain ⟨g, c, new, hnew, rfl, hc, happ, hne, hlen⟩ := append_missing h ht (orShadow_none hat)
  have hkey : f.ensureKey k this seg true = f.ensureName k this nm n true := by
    rw [ensureKey, hp]
    simp only
    split_ifs with hcond
    · rw [hcond.1, ensureIndex_eq]
    · rfl
  have hmem : c ∈ new := by
    have hin : c ∈ f.nodes this ++ new := happ.nodes ▸ childNamed_mem hc
    refine (List.mem_append.mp hin).resolve_left fun hold => ?_
    have hno := orShadow_none hat
    rw [childNamed_eq h, Scan.child] at hno
    rw [childNamed_eq happ.inv, Scan.child, happ.nodes] at hc
    have hnames : (f.nodes this).filter (named (f.append this nm (n - f.countNamed this nm)).1.name nm) =
        (f.nodes this).filter (named f.name nm) :=
      List.filter_congr fun x hx => by rw [named, named, happ.name (h.live hx).2]
    have hnd := happ.inv.nodup this
    rw [happ.nodes] at hnd
    have hdis := (List.nodup_append.mp hnd).2.2
    split_ifs at hno hc with hnm hneg
    · omega
    · rw [nodeAt_nat] at hno hc
      rw [List.getElem?_append_right (List.getElem?_eq_none_iff.mp hno)] at hc
      exact hdis c hold c (List.mem_of_getElem? hc) rfl
    · rw [nodeAt_nat] at hno hc
      rw [List.filter_append, hnames, List.getElem?_append_right (List.getElem?_eq_none_iff.mp hno)] at hc
      exact hdis c hold c (List.mem_filter.mp (List.mem_of_getElem? hc)).1 rfl
  refine ⟨_, c, nm, n, new, ?_, hp, hi, hc, happ, hmem⟩
  rw [hkey, ensureName, hat, Option.map_some]
  simp only
  rw [if_neg (by omega), if_neg hnew, hc]

end Grow

section Run

variable {f g g' : Forest} {k : Nat} {this c top t : Id} {seg nm : Str} {segs : List Str} {new : List Id}

/-- A walk from `cur` that ends at `t`, with everything it made below `cur`; a later walk ends at `t` too. -/
structure OwnRun (f : Forest) (k : Nat) (cur : Id) (segs : List Str) (g : Forest) (t : Id) : Prop where
  walk : ensureSegments k true f (some cur) segs = some (g, some t)
  inv : Inv g
  grows : Extends f g
  within : Local f g cur
  target : g.live t = true ∧ Climbs g.parent t cur
  again : ∀ g', Inv g' → Extends g g' → g'.lookup k true (some cur) segs = some (some t)

theorem OwnRun.skip {cur : Id} (h : OwnRun f k cur segs g t) (hseg : seg = []) : OwnRun f k cur (seg :: segs) g t where
  walk := by rw [ensureSegments, if_pos hseg, h.walk]
  inv := h.inv
  grows := h.grows
  within := h.within
  target := h.target
  again g' hg' he := by rw [lookup, if_pos hseg, h.again g' hg' he]

/-- A walk goes on from a child. -/
theorem OwnRun.enter {cur : Id} {f₁ : Forest} (h : OwnRun f₁ k c segs g t) (hseg : seg ≠ []) (hf : Inv f)
    (hcur : f.live cur = true) (hkey : f.ensureKey k cur seg true = some (f₁, some c)) (hgrow : Extends f f₁)
    (hin : Local f f₁ cur) (hlive : f₁.live c = true) (hpar : f₁.parent c = some cur) (hf₁ : Inv f₁)
    {nm : Str} {i : Int} (hp : parseKey keySep seg = some (nm, i)) (hi : 0 ≤ i) (hk : 0 < k)
    (hchild : f₁.childNamed cur nm i = some c) : OwnRun f k cur (seg :: segs) g t := by
  have hcurc : Climbs g.parent c cur := .head ((h.grows.parent hlive).trans hpar) (.refl cur)
  refine ⟨?_, h.inv, hgrow.trans h.grows, ⟨fun m hm hnot => ?_, fun m hm hdead => ?_⟩,
    ⟨h.target.1, h.target.2.trans hcurc⟩, fun g' hg' he => ?_⟩
  · rw [ensureSegments, if_neg hseg, hkey, Option.bind_some, h.walk]
  · obtain ⟨hm₁, hnode⟩ := hin.kept m hm hnot
    have hnot₁ : ¬ Climbs f₁.parent m c := fun hc =>
      hnot ((hgrow.climbs hf hm).mp (hc.trans (.head hpar (.refl cur))))
    obtain ⟨hm₂, hnode₂⟩ := h.within.kept m hm₁ hnot₁
    exact ⟨hm₂, hnode₂.trans hnode⟩
  · cases hl : f₁.live m with
    | true => exact (h.grows.climbs hf₁ hl).mpr (hin.came m hl hdead)
    | false => exact (h.within.came m hm hl).trans hcurc
  · have hstay := (h.grows.trans he).childNamed hf₁ hg' (hgrow.live cur hcur) hi hchild
    rw [lookup, if_neg hseg, lookupKey_of_child hp hstay hk, Option.bind_some, h.again g' hg' he]

theorem Local.refl (f : Forest) (top : Id) : Local f f top :=
  ⟨fun m hm _ => ⟨hm, rfl⟩, fun m hm hdead => by rw [hm] at hdead; cases hdead⟩

theorem Appended.local (ha : Appended f g this nm new) : Local f g this := by
  refine ⟨fun m hm hnot => ?_, fun m hm hdead => ?_⟩
  · have hmn : m ∉ new := fun hmem => by
      rw [(ha.fresh m hmem).1] at hm
      cases hm
    exact ⟨by rw [ha.live, hm, Bool.or_true], ha.others m hmn fun he => hnot (he ▸ .refl _)⟩
  · rw [ha.live, hdead, Bool.or_false, decide_eq_true_iff] at hm
    refine .head ?_ (.refl this)
    rw [Forest.parent, (ha.fresh m hm).2]

/-- A new node has no children and no shadow. -/
theorem Appended.bare (ha : Appended f g this nm new) (hc : c ∈ new) :
    g.live c = true ∧ g.nodes c = [] ∧ g.shadow c = none ∧ g.parent c = some this := by
  obtain ⟨-, hfresh⟩ := ha.fresh c hc
  refine ⟨?_, ?_, ?_, ?_⟩
  · rw [ha.live, decide_eq_true hc]
    rfl
  · rw [Forest.nodes, Forest.kids, hfresh]
    rfl
  · rw [Forest.shadow, hfresh]
    rfl
  · rw [Forest.parent, hfresh]

/-- **A walk without help of a shadow** ends, and stays below the node it starts at. -/
theorem ownWalk_run (hk : 0 < k) : ∀ {segs : List Str} {f : Forest} {cur : Id}, Inv f → f.live cur = true →
    Plain segs → OwnWalk f k cur segs → ∃ g t, OwnRun f k cur segs g t := by
  intro segs
  induction segs with
  | nil =>
    intro f cur h hcur _ _
    exact ⟨f, cur, rfl, h, .refl f, .refl f cur, ⟨hcur, .refl cur⟩, fun g' _ _ => rfl⟩
  | cons seg segs ih =>
    intro f cur h hcur hplain hwalk
    have hrest : Plain segs := fun x hx => hplain x (List.mem_cons_of_mem _ hx)
    rw [OwnWalk] at hwalk
    by_cases hseg : seg = []
    · rw [if_pos hseg] at hwalk
      obtain ⟨g, t, hrun⟩ := ih h hcur hrest hwalk
      exact ⟨g, t, hrun.skip hseg⟩
    rw [if_neg hseg] at hwalk
    split at hwalk
    · next c hfound =>
      -- the child is there
      obtain ⟨nm, i, hp, hchild, -⟩ := lookupKey_child hfound
      have hmem := childNamed_mem hchild
      obtain ⟨g, t, hrun⟩ := ih h (h.live hmem).2 hrest hwalk
      have hkey := ensureKey_found (lookupKey_own hfound true)
      exact ⟨g, t, hrun.enter hseg h hcur hkey (.refl f) (.refl f cur) (h.live hmem).2 (h.mem_iff.mpr hmem) h hp
        (hplain seg (by simp) nm i hp) hk hchild⟩
    · -- the child is created; what follows it is created below it
      obtain ⟨hcreate, hnone, hall⟩ := hwalk
      obtain ⟨f₁, c, nm, i, new, hkey, hp, hi, hchild, happ, hc⟩ := ensureKey_creates h hcur hcreate hnone
      obtain ⟨hlive, hnodes, hshadow, hpar⟩ := happ.bare hc
      obtain ⟨g, t, hrun⟩ := ih happ.inv hlive hrest (ownWalk_bare hk hnodes happ.inv hshadow hall)
      exact ⟨g, t, hrun.enter hseg h hcur hkey happ.extends happ.local hlive
        hpar happ.inv hp hi hk hchild⟩

end Run

section Exact

variable {f f' g : Forest} {k : Nat} {this c cur top t : Id} {s : Bool} {segs : List Str} {path : Str} {v : Var}

theorem lookup_ensure : ∀ {segs : List Str} {cur : Id}, f.lookup k s (some cur) segs = some (some t) →
    ensureSegments k s f (some cur) segs = some (f, some t) := by
  intro segs
  induction segs with
  | nil =>
    intro cur h
    cases h
    rfl
  | cons seg segs ih =>
    intro cur h
    rw [lookup] at h
    rw [ensureSegments]
    split_ifs at h ⊢
    · exact ih h
    · obtain ⟨found, hkey, h⟩ := Option.bind_eq_some_iff.mp h
      cases found with
      | none =>
        rw [lookup_none] at h
        cases h
      | some c =>
        rw [ensureKey_found hkey, Option.bind_some]
        exact ih h

/-- Below a bare node everything has to be created. -/
theorem bare_walk (hk : 0 < k) : ∀ {segs : List Str} {f : Forest} {cur : Id}, Inv f → f.live cur = true →
    f.nodes cur = [] → f.shadow cur = none → ensureSegments k true f (some cur) segs = some (g, some t) →
      AllCreatable segs := by
  intro segs
  induction segs with
  | nil => exact fun _ _ _ _ _ => fun x hx => (by cases hx)
  | cons seg segs ih =>
    intro f cur h hcur hn hs hwalk
    have hboth : (seg = [] ∨ Creatable seg) ∧ AllCreatable segs := by
      rw [ensureSegments] at hwalk
      split_ifs at hwalk with hseg
      · exact ⟨.inl hseg, ih h hcur hn hs hwalk⟩
      · obtain ⟨r, hkey, hwalk⟩ := Option.bind_eq_some_iff.mp hwalk
        have hbare : f.lookupKey k cur seg true = some none := lookupKey_bare hk hn h hs true
        by_cases hcr : Creatable seg
        · obtain ⟨f₁, c, nm, i, new, hmade, -, -, -, happ, hc⟩ := ensureKey_creates h hcur hcr hbare
          rw [hmade] at hkey
          cases hkey
          obtain ⟨hlive, hnodes, hshadow, -⟩ := happ.bare hc
          exact ⟨.inr hcr, ih happ.inv hlive hnodes hshadow hwalk⟩
        · rcases ensureKey_cases h hcur hkey with ⟨cn, hcn, -⟩ | ⟨-, -, rfl⟩ | ⟨-, hyes, -⟩
          · rw [hbare] at hcn
            cases hcn
          · rw [ensureSegments_none] at hwalk
            cases hwalk
          · exact absurd hyes hcr
    intro x hx
    rcases List.mem_cons.mp hx with rfl | hx
    · exact hboth.1
    · exact hboth.2 x hx

/-- A node that came below a node outside of `top` is outside of `top`. -/
theorem came_outside (h : Inv f) (he : Extends f g) {nm : Str} {new : List Id} {f₁ : Forest}
    (happ : Appended f f₁ cur nm new) (he₁ : Extends f₁ g) (hc : c ∈ new) (htop : f.live top = true)
    (hcur : f.live cur = true) (hout : ¬ Climbs f.parent cur top) : ¬ Climbs g.parent c top := by
  intro hclimb
  obtain ⟨hlive, -, -, hpar⟩ := happ.bare hc
  rcases hclimb.of_step ((he₁.parent hlive).trans hpar) with rfl | hup
  · rw [(happ.fresh c hc).1] at htop
    cases htop
  · exact hout ((he.climbs h hcur).mp hup)

/-- A walk that has left the tree and makes nothing outside of it makes nothing. -/
theorem borrowed_walk (h : Inv f) (htop : f.live top = true)
    (hdis : ∀ m, Borrowed f top m → ¬ Climbs f.parent m top)
    (hcame : ∀ m, g.live m = true → f.live m = false → Climbs g.parent m top) :
    ∀ {segs : List Str} {cur : Id}, f.live cur = true → Borrowed f top cur →
      ensureSegments k true f (some cur) segs = some (g, some t) →
        f.lookup k true (some cur) segs = some (some t) ∧ Borrowed f top t := by
  intro segs
  induction segs with
  | nil =>
    intro cur _ hb hwalk
    cases hwalk
    exact ⟨rfl, hb⟩
  | cons seg segs ih =>
    intro cur hcur hb hwalk
    have hext : Extends f g := (ensureSegments_spec h hcur hwalk).1
    rw [ensureSegments] at hwalk
    rw [lookup]
    split_ifs at hwalk ⊢
    · exact ih hcur hb hwalk
    · obtain ⟨r, hkey, hwalk⟩ := Option.bind_eq_some_iff.mp hwalk
      rcases ensureKey_cases h hcur hkey with ⟨cn, hcn, rfl⟩ | ⟨-, -, rfl⟩ | ⟨hno, hyes, -⟩
      · have hlive := (makes_ensureKey h hcur hkey).2 cn rfl
        rw [hcn, Option.bind_some]
        exact ih hlive (lookupKey_borrowed hb hcn) hwalk
      · rw [ensureSegments_none] at hwalk
        cases hwalk
      · obtain ⟨f₁, c, nm, i, new, hmade, -, -, -, happ, hc⟩ := ensureKey_creates h hcur hyes hno
        rw [hmade] at hkey
        cases hkey
        have hlive := (happ.bare hc).1
        have he₁ := (ensureSegments_spec happ.inv hlive hwalk).1
        exact absurd (hcame c (he₁.live c hlive) (happ.fresh c hc).1)
          (came_outside h hext happ he₁ hc htop hcur (hdis cur hb))

/-- A walk whose new nodes are all below `top` does without shadows, or finds everything. -/
theorem ownWalk_of_came (hk : 0 < k) (h : Inv f) (htop : f.live top = true)
    (hdis : ∀ m, Borrowed f top m → ¬ Climbs f.parent m top)
    (hcame : ∀ m, g.live m = true → f.live m = false → Climbs g.parent m top) :
    ∀ {segs : List Str} {cur : Id}, f.live cur = true → Climbs f.parent cur top →
      ensureSegments k true f (some cur) segs = some (g, some t) →
        OwnWalk f k cur segs ∨ f.lookup k true (some cur) segs = some (some t) ∧ Borrowed f top t := by
  intro segs
  induction segs with
  | nil => exact fun _ _ _ => .inl trivial
  | cons seg segs ih =>
    intro cur hcur hown hwalk
    rw [ensureSegments] at hwalk
    rw [OwnWalk, lookup]
    split_ifs at hwalk ⊢
    · exact ih hcur hown hwalk
    · obtain ⟨r, hkey, hwalk⟩ := Option.bind_eq_some_iff.mp hwalk
      rcases ensureKey_cases h hcur hkey with ⟨cn, hcn, rfl⟩ | ⟨-, -, rfl⟩ | ⟨hno, hyes, -⟩
      · have hlive := (makes_ensureKey h hcur hkey).2 cn rfl
        rw [hcn, Option.bind_some]
        rcases lookupKey_cases hown hcn with hmine | ⟨-, hb⟩
        · obtain ⟨nm, i, -, hchild, -⟩ := lookupKey_child hmine
          rw [hmine]
          exact ih hlive (.head (h.mem_iff.mpr (childNamed_mem hchild)) hown) hwalk
        · exact .inr (borrowed_walk h htop hdis hcame hlive hb hwalk)
      · rw [ensureSegments_none] at hwalk
        cases hwalk
      · left
        split
        · next c hfound =>
          rw [lookupKey_own hfound true] at hno
          cases hno
        · obtain ⟨f₁, c, nm, i, new, hmade, -, -, -, happ, hc⟩ := ensureKey_creates h hcur hyes hno
          rw [hmade] at hkey
          cases hkey
          obtain ⟨hlive, hnodes, hshadow, -⟩ := happ.bare hc
          exact ⟨hyes, hno, bare_walk hk happ.inv hlive hnodes hshadow hwalk⟩

/-! ## Writing -/

theorem orShadow_congr {look look' : Id → Option Id} (hl : ∀ n, look n = look' n) (hs : f'.shadow = f.shadow) :
    ∀ k this, f'.orShadow look k this s = f.orShadow look' k this s := by
  intro k
  induction k generalizing s with
  | zero => exact fun _ => rfl
  | succ k ih =>
    intro this
    simp only [orShadow, hl, hs, ih]

/-- Lookups do not read values. -/
theorem lookup_set (g : Forest) (t : Id) (v : Var) (k : Nat) (s : Bool) :
    ∀ segs cur, (g.set t v).lookup k s cur segs = g.lookup k s cur segs := by
  have hnode : ∀ n, ((g.set t v).node n).children = (g.node n).children := fun n => by
    simp only [set, emit_node, setValue, setNode_node]
    split_ifs with hn
    · rw [hn]
    · rfl
  have hshadow : (g.set t v).shadow = g.shadow := funext fun n => by simp [set]
  have hchild : ∀ n nm i, (g.set t v).childNamed n nm i = g.childNamed n nm i := fun n nm i => by
    simp only [childNamed, child, hnode]
  have hkey : ∀ this seg, (g.set t v).lookupKey k this seg s = g.lookupKey k this seg s := by
    intro this seg
    cases hp : parseKey keySep seg with
    | none => simp [lookupKey, hp]
    | some p =>
      rw [lookupKey_parsed hp, lookupKey_parsed hp]
      exact orShadow_congr (fun n => hchild n _ _) hshadow k this
  intro segs
  induction segs with
  | nil => exact fun cur => by cases cur <;> rfl
  | cons seg segs ih =>
    intro cur
    cases cur with
    | none => rfl
    | some cur =>
      simp only [lookup, hkey, ih]

theorem root_congr (h : Inv f) (hpar : ∀ m, f.live m = true → f'.parent m = f.parent m) :
    ∀ k this, f.live this = true → f'.root k this = f.root k this := by
  intro k
  induction k with
  | zero => exact fun _ _ => rfl
  | succ k ih =>
    intro this ht
    rw [root, root, hpar this ht]
    cases hp : f.parent this with
    | none => rfl
    | some p => exact ih p (h.live (h.mem_iff.mp hp)).1

theorem walkStart_congr (h : Inv f) (ht : f.live this = true)
    (hpar : ∀ m, f.live m = true → f'.parent m = f.parent m) (k : Nat) (path : Str) :
    f'.walkStart k this path = f.walkStart k this path := by
  cases path with
  | nil => rfl
  | cons c rest => rw [walkStart, walkStart, root_congr h hpar k this ht]

theorem ownWalk_lookup : ∀ {segs : List Str} {cur : Id}, OwnWalk f k cur segs →
    ∃ r, f.lookup k true (some cur) segs = some r := by
  intro segs
  induction segs with
  | nil => exact fun _ => ⟨_, rfl⟩
  | cons seg segs ih =>
    intro cur h
    rw [OwnWalk] at h
    rw [lookup]
    split_ifs at h ⊢
    · exact ih h
    · split at h
      · next c hc =>
        rw [lookupKey_own hc true, Option.bind_some]
        exact ih h
      · rw [h.2.1, Option.bind_some, lookup_none]
        exact ⟨none, rfl⟩

/-- Where the path leads already holds the value. -/
def Holding (f : Forest) (k : Nat) (this : Id) (path : Str) (v : Var) : Prop :=
  ∃ t, f.atPath k this path true = some (some t) ∧ f.value t = v

theorem setPath_stays (hk : 0 < k) (h : Inv f) (ht : f.live this = true)
    (hstart : f.walkStart k this path = some (top, segs)) (hplain : Plain segs)
    (hcond : OwnWalk f k top segs ∨ Holding f k this path v) :
    ∃ f', f.setPath k this path v = some f' ∧ Stays f f' k this path top v := by
  have htop := walkStart_live h ht hstart
  rw [setPath, ensurePath_eq, hstart, Option.bind_some]
  rcases hcond with hwalk | ⟨t, hfind, hval⟩
  · obtain ⟨g, t, hrun⟩ := ownWalk_run hk h htop hplain hwalk
    have hlook := hrun.again g hrun.inv (.refl g)
    have hstart' : (g.set t v).walkStart k this path = some (top, segs) :=
      (walkStart_congr h ht (fun m hm => by simp [set, hrun.grows.parent hm]) k path).trans hstart
    have hparent : (g.set t v).parent = g.parent := funext fun m => by simp [set]
    refine ⟨g.set t v, by rw [hrun.walk]; rfl, ⟨fun m hm hnot => ?_, fun m hm hdead => ?_⟩, v, ?_, .inl rfl⟩
    · have hmt : m ≠ t := fun he => hnot ((hrun.grows.climbs h hm).mp (he ▸ hrun.target.2))
      obtain ⟨hlive, hnode⟩ := hrun.within.kept m hm hnot
      exact ⟨hlive, by simp [set, setValue, hmt, hnode]⟩
    · rw [hparent]
      exact hrun.within.came m hm hdead
    · rw [getPath, atPath_eq, hstart', Option.bind_some, descend_lookup hplain, lookup_set, hlook]
      simp [set]
  · have hwalk : ensureSegments k true f (some top) segs = some (f, some t) := by
      rw [atPath_eq, hstart, Option.bind_some, descend_lookup hplain] at hfind
      exact lookup_ensure hfind
    have hnode : (f.set t v).node = f.node := funext fun m => by
      simp only [set, emit_node, setValue, setNode_node]
      split_ifs with hm
      · rw [hm, ← hval]
        rfl
      · rfl
    refine ⟨f.set t v, by rw [hwalk]; rfl, ⟨fun m hm _ => ⟨hm, congrFun hnode m⟩, fun m hm hdead => ?_⟩, v, ?_,
      .inl rfl⟩
    · rw [show (f.set t v).live m = f.live m from rfl, hdead] at hm
      cases hm
    · have hstart' : (f.set t v).walkStart k this path = some (top, segs) :=
        (walkStart_congr h ht (fun m _ => by simp [set]) k path).trans hstart
      rw [atPath_eq, hstart, Option.bind_some, descend_lookup hplain] at hfind
      rw [getPath, atPath_eq, hstart', Option.bind_some, descend_lookup hplain, lookup_set, hfind]
      simp [set]

theorem setPath_needs (hk : 0 < k) (h : Inv f) (ht : f.live this = true)
    (hstart : f.walkStart k this path = some (top, segs)) (hplain : Plain segs)
    (hdis : ∀ m, Borrowed f top m → ¬ Climbs f.parent m top) (hset : f.setPath k this path v = some f')
    (hlocal : Local f f' top) : OwnWalk f k top segs ∨ Holding f k this path v := by
  have htop := walkStart_live h ht hstart
  rw [setPath, ensurePath_eq, hstart, Option.bind_some] at hset
  obtain ⟨⟨g, r⟩, hwalk, hset⟩ := Option.bind_eq_some_iff.mp hset
  obtain ⟨t, rfl, rfl⟩ := Option.map_eq_some_iff.mp hset
  have hcame : ∀ m, g.live m = true → f.live m = false → Climbs g.parent m top := fun m hm hdead => by
    have hc := hlocal.came m hm hdead
    rwa [show (g.set t v).parent = g.parent from funext fun m => by simp [set]] at hc
  rcases ownWalk_of_came hk h htop hdis hcame htop (.refl top) hwalk with hown | ⟨hlook, hb⟩
  · exact .inl hown
  · have hg : g = f := ((ensureSegments_spec h htop hwalk).2.1 t rfl).mpr hlook
    subst hg
    have hlive := (makes_ensureSegments h (fun n hn => by cases hn; exact htop) hwalk).2 t rfl
    have hfind : g.atPath k this path true = some (some t) := by
      rw [atPath_eq, hstart, Option.bind_some, descend_lookup hplain, hlook]
    refine .inr ⟨t, hfind, ?_⟩
    rw [Forest.value, ← (hlocal.kept t hlive (hdis t hb)).2]
    simp [set, setValue]

/-- **A write stays in the receiver's tree** exactly where the path needs no shadow on its way, or leads to a
node that already holds the value; `update` also where `get(path)` equals it. -/
theorem write_stays_iff (h : Inv f) (ht : f.live this = true)
    (hstart : f.walkStart (k + 1) this path = some (top, segs)) (hplain : Plain segs)
    (hdis : ∀ m, Borrowed f top m → ¬ Climbs f.parent m top) (v : Var) :
    ((∃ f', f.setPath (k + 1) this path v = some f' ∧ Stays f f' (k + 1) this path top v) ↔
      OwnWalk f (k + 1) top segs ∨ Holding f (k + 1) this path v) ∧
    ((∃ f' b, f.updatePath (k + 1) this path v = some (f', b) ∧ Stays f f' (k + 1) this path top v) ↔
      OwnWalk f (k + 1) top segs ∨ Holding f (k + 1) this path v ∨
        ∃ w, f.getPath (k + 1) this path = some w ∧ w.eqv v = true) := by
  have hk := Nat.succ_pos k
  refine ⟨⟨?_, setPath_stays hk h ht hstart hplain⟩, ?_, fun hcond => ?_⟩
  · rintro ⟨f', hset, hstays⟩
    exact setPath_needs hk h ht hstart hplain hdis hset hstays.1
  · rintro ⟨f', b, hupdate, hstays⟩
    obtain ⟨w, hget, hupdate⟩ := Option.bind_eq_some_iff.mp hupdate
    split_ifs at hupdate with heq
    · exact .inr (.inr ⟨w, hget, heq⟩)
    · obtain ⟨g, hset, he⟩ := Option.map_eq_some_iff.mp hupdate
      cases he
      rcases setPath_needs hk h ht hstart hplain hdis hset hstays.1 with hown | hhold
      · exact .inl hown
      · exact .inr (.inl hhold)
  · obtain ⟨w, hget⟩ : ∃ w, f.getPath (k + 1) this path = some w := by
      rcases hcond with hown | ⟨t, hfind, -⟩ | ⟨w, hget, -⟩
      · obtain ⟨r, hr⟩ := ownWalk_lookup hown
        rw [getPath, atPath_eq, hstart, Option.bind_some, descend_lookup hplain, hr]
        exact ⟨_, rfl⟩
      · rw [getPath, hfind]
        exact ⟨_, rfl⟩
      · exact ⟨w, hget⟩
    rw [updatePath, hget, Option.bind_some]
    by_cases heq : w.eqv v = true
    · rw [if_pos heq]
      exact ⟨f, false, rfl, .refl f top, w, hget, .inr heq⟩
    · have hset : OwnWalk f (k + 1) top segs ∨ Holding f (k + 1) this path v := by
        rcases hcond with hown | hhold | ⟨w', hget', heq'⟩
        · exact .inl hown
        · exact .inr hhold
        · rw [hget] at hget'
          cases hget'
          exact absurd heq' heq
      obtain ⟨f', hf', hstays⟩ := setPath_stays hk h ht hstart hplain hset
      rw [if_neg heq, hf']
      exact ⟨f', true, rfl, hstays⟩

/-- Two nodes, the second the shadow of the first. -/
def shadowPair : Forest := ((init.newNode (ascii "n")).1.newNode (ascii "p")).1.setShadow 0 (some 1)

theorem inv_shadowPair : Inv shadowPair :=
  (newNode_spec (newNode_spec inv_init (ascii "n")) (ascii "p")).same (funext fun m => by simp [shadowPair])
    (funext fun m => by simp [shadowPair]) (by simp [shadowPair]) rfl rfl

theorem borrowed_shadowPair {m : Id} (hb : Borrowed shadowPair 0 m) : m = 1 := by
  have hshadow : ∀ n s, shadowPair.shadow n = some s → n = 0 ∧ s = 1 := by
    intro n s hs
    by_cases hn : n = 0
    · subst hn
      cases hs
      exact ⟨rfl, rfl⟩
    · simp [shadowPair, Forest.setShadow, Forest.shadow, hn, init, Node.fresh] at hs
      split_ifs at hs
  have hnodes : ∀ n, shadowPair.nodes n = [] := fun n => by
    simp only [shadowPair, Forest.nodes, setShadow_kids, newNode_kids]
    split_ifs <;> rfl
  induction hb with
  | shadow _ hs => exact (hshadow _ _ hs).2
  | child _ hc _ =>
    rw [hnodes] at hc
    cases hc
  | next _ hs _ => exact (hshadow _ _ hs).2

theorem write_stays_sample : ∃ f', shadowPair.setPath 2 0 (ascii "y") (.int 7) = some f' ∧
    Stays shadowPair f' 2 0 (ascii "y") 0 (.int 7) := by
  have hplain : Plain [ascii "y"] := by
    intro seg hseg nm i hp
    obtain rfl := List.mem_singleton.mp hseg
    cases hp
    decide
  have hdis : ∀ m, Borrowed shadowPair 0 m → ¬ Climbs shadowPair.parent m 0 := fun m hb hc => by
    obtain rfl := borrowed_shadowPair hb
    cases hc.of_root rfl
  refine (write_stays_iff inv_shadowPair rfl (show shadowPair.walkStart 2 0 (ascii "y") = some (0, [ascii "y"]) from rfl)
    hplain hdis (.int 7)).1.mpr (.inl ?_)
  exact ⟨⟨ascii "y", 0, rfl, by decide⟩, rfl, fun x hx => (by cases hx)⟩

/-- `n` with the shadow `p`, which has a child `x`. -/
def shadowOps : List Op :=
  [.new (ascii "n"), .new (ascii "p"), .new (ascii "x"), .insert 1 (some 2) (-1), .setShadow 0 (some 1)]

/-- `n.set("x", 7)` writes to the child of the shadow. -/
theorem written_through : ∃ f', (scriptResult distinctB 0 shadowOps).setPath 2 0 (ascii "x") (.int 7) = some f' ∧
    (scriptResult distinctB 0 shadowOps).value 2 = .none ∧ f'.value 2 = .int 7 ∧ f'.nodes 0 = [] ∧
      ¬ Local (scriptResult distinctB 0 shadowOps) f' 0 := by
  refine ⟨_, rfl, rfl, rfl, rfl, fun hlocal => ?_⟩
  have hout : ¬ Climbs (scriptResult distinctB 0 shadowOps).parent 2 0 := fun hc => by
    rcases hc.of_step (show (scriptResult distinctB 0 shadowOps).parent 2 = some 1 from rfl) with h | h
    · cases h
    · cases h.of_root rfl
  cases congrArg Node.value (hlocal.kept 2 rfl hout).2

end Exact

end Forest

end VersatileEngine
