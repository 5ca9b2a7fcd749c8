import VersatileEngine.Core.SmallVector

/-!
# VersatileEngine.Core.VectorPool

Many vectors of one type: the constructors, the assignments and the destructor of `SmallVectorImpl`,
and any sequence of operations.

* `VecOp.step`    — an operation on the vectors and the memory.
* `VecOp.refStep` — the same on plain lists; it has no result where an operation is used outside its
  bounds.
* `Pool.Rep`      — each vector has the elements of its list in blocks of its own, and there are no
  other blocks.
* `vectors_refine_lists` — operations within their bounds run, and keep `Rep`.
-/

namespace VersatileEngine

/-- The members `_data`, `_size` and `_capacity`. -/
structure Vec where
  data : Block
  size : Nat
  capacity : Nat

structure Pool (α : Type) where
  mem : Memory Block α
  next : Nat
  vecs : Nat → Option Vec

inductive VecOp (α : Type) where
  | create (i : Nat)
  | createFill (i count : Nat) (v : α)
  | createList (i : Nat) (init : List α)
  | createCopy (i j : Nat)
  | createMove (i j : Nat)
  | destroy (i : Nat)
  | copyAssign (i j : Nat)
  | moveAssign (i j : Nat)
  | pushBack (i : Nat) (v : α)
  | emplaceBack (i : Nat) (v : α)
  | insert (i index : Nat) (v : α)
  | erase (i index : Nat)
  | eraseSwap (i index : Nat)
  | popBack (i : Nat)
  | clear (i : Nat)
  | reserve (i n : Nat)
  | resize (i n : Nat) (fill : α)
  | shrinkToFit (i : Nat)

namespace Pool

variable {α : Type} (ty : VecType)

def empty : Pool α := ⟨fun _ => none, 0, fun _ => none⟩

def view (p : Pool α) (v : Vec) : View α := ⟨p.mem, p.next, v.data, v.size, v.capacity⟩

def put (p : Pool α) (i : Nat) (w : View α) : Pool α :=
  ⟨w.mem, w.next, Function.update p.vecs i (some ⟨w.data, w.size, w.capacity⟩)⟩

/-- An operation on the vector `i`. -/
def on (p : Pool α) (i : Nat) (f : View α → Option (View α)) : Option (Pool α) :=
  (p.vecs i).bind fun v => (f (p.view v)).map (p.put i)

/-- The default constructor. -/
def construct (p : Pool α) (i : Nat) : Option (Pool α) :=
  match p.vecs i with
  | some _ => none
  | none => some ⟨Function.update p.mem (.inline i) (some (Cell.deads ty.N)), p.next,
      Function.update p.vecs i (some ⟨.inline i, 0, ty.N⟩)⟩

def copyFrom (p : Pool α) (i j : Nat) : Option (Pool α) :=
  (p.vecs j).bind fun o => p.on i fun w => w.copyFrom ty i o.data o.size

/-- `_steal_from`. -/
def stealFrom (p : Pool α) (i j : Nat) : Option (Pool α) :=
  (p.vecs i).bind fun v => (p.vecs j).bind fun o =>
    if o.data = .inline j then
      (View.moveConstruct ty p.mem o.data o.size v.data).map fun m =>
        ⟨m, p.next, Function.update (Function.update p.vecs i (some { v with size := o.size })) j
          (some { o with size := 0 })⟩
    else some ⟨p.mem, p.next, Function.update (Function.update p.vecs i (some o)) j
      (some ⟨.inline j, 0, ty.N⟩)⟩

/-- The destructor, after which the inline storage is gone too. -/
def destruct (p : Pool α) (i : Nat) : Option (Pool α) :=
  (p.vecs i).bind fun v => ((p.view v).destroyRange ty 0 v.size).bind fun w =>
    (w.freeHeap ty i).bind fun w => (w.mem.release (.inline i)).map fun m =>
      ⟨m, w.next, Function.update p.vecs i none⟩

def pushAll (p : Pool α) (i : Nat) : List α → Option (Pool α)
  | [] => some p
  | v :: vs => (p.on i fun w => w.pushBack ty i v).bind fun p => p.pushAll i vs

end Pool

namespace VecOp

variable {α : Type} (ty : VecType)

def step (p : Pool α) : VecOp α → Option (Pool α)
  | .create i => p.construct ty i
  | .createFill i count v => (p.construct ty i).bind fun p => p.on i fun w => w.resize ty i count v
  | .createList i init => (p.construct ty i).bind fun p =>
      (p.on i fun w => w.reserve ty i init.length).bind fun p => p.pushAll ty i init
  | .createCopy i j => (p.construct ty i).bind fun p => p.copyFrom ty i j
  | .createMove i j => (p.construct ty i).bind fun p => p.stealFrom ty i j
  | .destroy i => p.destruct ty i
  | .copyAssign i j =>
    if i = j then some p else (p.on i fun w => w.clear ty).bind fun p => p.copyFrom ty i j
  | .moveAssign i j =>
    if i = j then some p else (p.on i fun w => w.reset ty i).bind fun p => p.stealFrom ty i j
  | .pushBack i v => p.on i fun w => w.pushBack ty i v
  | .emplaceBack i v => p.on i fun w => w.pushBack ty i v
  | .insert i index v => p.on i fun w => w.insert ty i index v
  | .erase i index => p.on i fun w => w.erase ty index
  | .eraseSwap i index => p.on i fun w => w.eraseSwap index
  | .popBack i => p.on i fun w => w.popBack
  | .clear i => p.on i fun w => w.clear ty
  | .reserve i n => p.on i fun w => w.reserve ty i n
  | .resize i n fill => p.on i fun w => w.resize ty i n fill
  | .shrinkToFit i => p.on i fun w => w.shrinkToFit ty i

def run (p : Pool α) : List (VecOp α) → Option (Pool α)
  | [] => some p
  | op :: ops => (op.step ty p).bind fun p => run p ops

/-- The elements that the live vectors should have. -/
abbrev Lists (α : Type) := Nat → Option (List α)

/-- A list in place of another, unless it is too long. -/
def change (L : Lists α) (i : Nat) (f : List α → Option (List α)) : Option (Lists α) :=
  (L i).bind fun xs => (f xs).bind fun ys =>
    if ys.length < 2 ^ 31 then some (Function.update L i (some ys)) else none

/-- A list for a new vector. -/
def add (L : Lists α) (i : Nat) (ys : List α) : Option (Lists α) :=
  if L i = none ∧ ys.length < 2 ^ 31 then some (Function.update L i (some ys)) else none

def refStep (L : Lists α) : VecOp α → Option (Lists α)
  | .create i => add L i []
  | .createFill i count v => add L i (List.replicate count v)
  | .createList i init => add L i init
  | .createCopy i j => (L j).bind fun ys => add L i ys
  | .createMove i j => (L j).bind fun ys => (add L i ys).map fun L => Function.update L j (some [])
  | .destroy i => (L i).map fun _ => Function.update L i none
  | .copyAssign i j => (L j).bind fun ys => change L i fun _ => some ys
  | .moveAssign i j =>
    if i = j then (L i).map fun _ => L
    else (L j).bind fun ys => (change L i fun _ => some ys).map fun L => Function.update L j (some [])
  | .pushBack i v => change L i fun xs => some (xs ++ [v])
  | .emplaceBack i v => change L i fun xs => some (xs ++ [v])
  | .insert i index v => change L i fun xs =>
      if index ≤ xs.length then some (xs.take index ++ v :: xs.drop index) else none
  | .erase i index => change L i fun xs => if index < xs.length then some (xs.eraseIdx index) else none
  | .eraseSwap i index => change L i fun xs =>
      if index < xs.length then (xs.getLast?).map fun y => (xs.set index y).dropLast else none
  | .popBack i => change L i fun xs => if 0 < xs.length then some xs.dropLast else none
  | .clear i => change L i fun _ => some []
  | .reserve i n => change L i fun xs => if n ≤ 2 ^ 31 then some xs else none
  | .resize i n fill => change L i fun xs => some (xs.take n ++ List.replicate (n - xs.length) fill)
  | .shrinkToFit i => change L i some

def refRun (L : Lists α) : List (VecOp α) → Option (Lists α)
  | [] => some L
  | op :: ops => (op.refStep L).bind fun L => refRun L ops

end VecOp

namespace Pool


variable {α : Type} {ty : VecType}

/-- The pool holds the lists `L`. -/
structure Rep (ty : VecType) (p : Pool α) (L : VecOp.Lists α) : Prop where
  absent : ∀ i, L i = none → p.vecs i = none ∧ p.mem (.inline i) = none
  present : ∀ i xs, L i = some xs →
    ∃ v, p.vecs i = some v ∧ View.Holds ty i (p.view v) xs ∧ xs.length < 2 ^ 31
  owned : ∀ k, p.mem (.heap k) ≠ none → ∃ i v, p.vecs i = some v ∧ v.data = .heap k
  apart : ∀ i j v w, p.vecs i = some v → p.vecs j = some w → v.data = w.data → i = j
  fresh : ∀ k, p.next ≤ k → p.mem (.heap k) = none

namespace Rep

variable {p p' : Pool α} {L : VecOp.Lists α} {i j : Nat} {v u : Vec} {xs ys zs : List α}

theorem vec_some (h : Rep ty p L) (hv : p.vecs i = some v) :
    ∃ xs, L i = some xs ∧ View.Holds ty i (p.view v) xs ∧ xs.length < 2 ^ 31 := by
  cases hL : L i with
  | none => rw [(h.absent i hL).1] at hv; cases hv
  | some xs =>
    obtain ⟨v', hv', hh, hlt⟩ := h.present i xs hL
    cases hv.symm.trans hv'
    exact ⟨xs, rfl, hh, hlt⟩

/-- The block of another vector has nothing to do with this one. -/
theorem data_apart (h : Rep ty p L) (hv : p.vecs i = some v) (hu : p.vecs j = some u) (hne : j ≠ i) :
    View.Apart i (p.view v) u.data ∧ View.Apart i (p.view v) (.inline j) := by
  obtain ⟨xs, -, hx, -⟩ := h.vec_some hv
  obtain ⟨zs, -, hz, -⟩ := h.vec_some hu
  refine ⟨⟨fun he => ?_, fun he => hne (h.apart j i u v hu hv he), fun k hk => hz.heap_lt hk⟩,
    fun he => hne (Block.inline.inj he), fun he => ?_, fun k hk => by cases hk⟩
  · rcases hz.place with ⟨hd, -⟩ | ⟨⟨k, hk, -⟩, -⟩
    · exact hne (Block.inline.inj (hd.symm.trans he))
    · cases hk.symm.trans he
  · rcases hx.place with ⟨hd, -⟩ | ⟨⟨k, hk, -⟩, -⟩
    · exact hne (Block.inline.inj (he.trans hd))
    · cases he.trans hk

/-- A vector is as before when its blocks are. -/
theorem holds_of_mem {w w' : View α} (h : View.Holds ty j w zs) (hd : w'.data = w.data)
    (hs : w'.size = w.size) (hc : w'.capacity = w.capacity) (hnext : w.next ≤ w'.next)
    (hdata : w'.mem w.data = w.mem w.data) (hinline : w'.mem (.inline j) = w.mem (.inline j))
    (hfresh : ∀ k, w'.next ≤ k → w'.mem (.heap k) = none) : View.Holds ty j w' zs := by
  refine ⟨hs.trans h.size, hc ▸ h.room, hc ▸ h.pos, hc ▸ h.small, ?_, ?_, hfresh⟩
  · rw [hd, hc, hdata]
    exact h.cells
  · rw [hd, hc, hinline]
    rcases h.place with hp | ⟨⟨k, hk, hlt⟩, hp⟩
    · exact .inl hp
    · exact .inr ⟨⟨k, hk, hlt.trans_le hnext⟩, hp⟩

/-- A vector with a block that no other has. -/
theorem apart_of (h : Rep ty p L) (hself : p'.vecs i = some v) (hvecs : ∀ j, j ≠ i → p'.vecs j = p.vecs j)
    (hother : ∀ j u, j ≠ i → p.vecs j = some u → v.data ≠ u.data) :
    ∀ a b s t, p'.vecs a = some s → p'.vecs b = some t → s.data = t.data → a = b := by
  intro a b s t ha hb he
  by_cases hai : a = i
  · by_cases hbi : b = i
    · rw [hai, hbi]
    · subst hai
      cases hself.symm.trans ha
      exact absurd he (hother b t hbi ((hvecs b hbi).symm.trans hb))
  · by_cases hbi : b = i
    · subst hbi
      cases hself.symm.trans hb
      exact absurd he.symm (hother a s hai ((hvecs a hai).symm.trans ha))
    · exact h.apart a b s t ((hvecs a hai).symm.trans ha) ((hvecs b hbi).symm.trans hb) he

/-- An operation on one vector changes its list. -/
theorem on (h : Rep ty p L) (hL : L i = some xs) {f : View α → Option (View α)}
    (hf : ∀ v, p.vecs i = some v → View.Holds ty i (p.view v) xs →
      View.Effect ty i (p.view v) (f (p.view v)) ys) (hlen : ys.length < 2 ^ 31) :
    ∃ p', p.on i f = some p' ∧ Rep ty p' (Function.update L i (some ys)) := by
  obtain ⟨v, hv, hx, -⟩ := h.present i xs hL
  obtain ⟨w, hr, hw, hfr⟩ := hf v hv hx
  have hrun : p.on i f = some (p.put i w) := by
    rw [Pool.on, hv, Option.bind_some, hr]
    rfl
  have hself : (p.put i w).vecs i = some ⟨w.data, w.size, w.capacity⟩ := Function.update_self ..
  have hvecs : ∀ j, j ≠ i → (p.put i w).vecs j = p.vecs j := fun j hj => Function.update_of_ne hj _ _
  refine ⟨_, hrun, ?_, ?_, ?_, ?_, hw.fresh⟩
  · intro j hj
    have hne : j ≠ i := by
      rintro rfl
      rw [Function.update_self] at hj
      cases hj
    rw [Function.update_of_ne hne] at hj
    obtain ⟨hn, hm⟩ := h.absent j hj
    refine ⟨(hvecs j hne).trans hn, ?_⟩
    have hb : View.Apart i (p.view v) (.inline j) := by
      refine ⟨fun he => hne (Block.inline.inj he), fun he => ?_, fun k hk => by cases hk⟩
      rcases hx.place with ⟨hd, -⟩ | ⟨⟨k, hk, -⟩, -⟩
      · exact hne (Block.inline.inj (he.trans hd))
      · cases he.trans hk
    exact (hfr.apart hb).1.trans hm
  · intro j zs hj
    by_cases hne : j = i
    · subst hne
      rw [Function.update_self] at hj
      cases hj
      exact ⟨_, hself, hw, hlen⟩
    · rw [Function.update_of_ne hne] at hj
      obtain ⟨u, hu, hz, hlt⟩ := h.present j zs hj
      obtain ⟨hd, hin⟩ := h.data_apart hv hu hne
      exact ⟨u, (hvecs j hne).trans hu, holds_of_mem hz rfl rfl rfl hfr.mono (hfr.apart hd).1
        (hfr.apart hin).1 hw.fresh, hlt⟩
  · intro k hk
    rcases hfr.heaps k hk with hd | ⟨hm, hd⟩
    · exact ⟨i, _, hself, hd⟩
    · obtain ⟨j, u, hu, hud⟩ := h.owned k hm
      have hne : j ≠ i := by
        rintro rfl
        cases hv.symm.trans hu
        exact hd hud
      exact ⟨j, u, (hvecs j hne).trans hu, hud⟩
  · have hother : ∀ j u, j ≠ i → p.vecs j = some u → w.data ≠ u.data := by
      intro j u hne hu he
      obtain ⟨hd, -⟩ := h.data_apart hv hu hne
      exact (hfr.apart hd).2.2.1 he.symm
    exact h.apart_of hself hvecs hother

theorem construct (h : Rep ty p L) (hL : L i = none) :
    ∃ p', p.construct ty i = some p' ∧ Rep ty p' (Function.update L i (some [])) ∧
      p'.vecs i = some ⟨.inline i, 0, ty.N⟩ := by
  obtain ⟨hnone, hmem⟩ := h.absent i hL
  have hrun : p.construct ty i = some ⟨Function.update p.mem (.inline i) (some (Cell.deads ty.N)), p.next,
      Function.update p.vecs i (some ⟨.inline i, 0, ty.N⟩)⟩ := by
    rw [Pool.construct, hnone]
  have hheap : ∀ k, Function.update p.mem (.inline i) (some (Cell.deads ty.N)) (.heap k) =
      p.mem (.heap k) := fun k => Function.update_of_ne (by simp) _ _
  have hnotdata : ∀ j u, p.vecs j = some u → u.data ≠ .inline i := by
    intro j u hu he
    obtain ⟨zs, -, hz, -⟩ := h.vec_some hu
    have hc := hz.cells
    rw [show (p.view u).data = .inline i from he, show (p.view u).mem = p.mem from rfl, hmem] at hc
    cases hc
  have hne : ∀ j u, p.vecs j = some u → j ≠ i := by
    rintro j u hu rfl
    rw [hnone] at hu
    cases hu
  refine ⟨_, hrun, ⟨?_, ?_, ?_, ?_, fun k hk => (hheap k).trans (h.fresh k hk)⟩, Function.update_self ..⟩
  · intro j hj
    have hji : j ≠ i := by
      rintro rfl
      rw [Function.update_self] at hj
      cases hj
    rw [Function.update_of_ne hji] at hj
    obtain ⟨hn, hm⟩ := h.absent j hj
    exact ⟨(Function.update_of_ne hji _ _).trans hn,
      (Function.update_of_ne (fun he => hji (Block.inline.inj he)) _ _).trans hm⟩
  · intro j zs hj
    by_cases hji : j = i
    · subst hji
      rw [Function.update_self] at hj
      cases hj
      exact ⟨_, Function.update_self .., ⟨rfl, Nat.zero_le _, ty.pos, ty.small, Function.update_self ..,
        .inl ⟨rfl, rfl⟩, fun k hk => (hheap k).trans (h.fresh k hk)⟩, by simp⟩
    · rw [Function.update_of_ne hji] at hj
      obtain ⟨u, hu, hz, hlt⟩ := h.present j zs hj
      refine ⟨u, (Function.update_of_ne hji _ _).trans hu, holds_of_mem hz rfl rfl rfl (Nat.le_refl _)
        (Function.update_of_ne (hnotdata j u hu) _ _)
        (Function.update_of_ne (fun he => hji (Block.inline.inj he)) _ _)
        (fun k hk => (hheap k).trans (h.fresh k hk)), hlt⟩
  · intro k hk
    obtain ⟨j, u, hu, hd⟩ := h.owned k (by rwa [← hheap k])
    exact ⟨j, u, (Function.update_of_ne (hne j u hu) _ _).trans hu, hd⟩
  · exact h.apart_of (Function.update_self ..) (fun j hj => Function.update_of_ne hj _ _)
      fun j u _ hu he => hnotdata j u hu he.symm

theorem copyFrom (h : Rep ty p L) (hi : L i = some []) (hj : L j = some ys) (hne : j ≠ i) :
    ∃ p', p.copyFrom ty i j = some p' ∧ Rep ty p' (Function.update L i (some ys)) := by
  obtain ⟨v, hv, -, -⟩ := h.present i [] hi
  obtain ⟨o, ho, hy, hlt⟩ := h.present j ys hj
  have hb := (h.data_apart hv ho hne).1
  obtain ⟨p', hr, hrep⟩ := h.on hi (f := fun w => w.copyFrom ty i o.data o.size) (fun v' hv' hx => by
    cases hv.symm.trans hv'
    rw [show o.size = ys.length from hy.size]
    exact View.copyFrom_effect hx hy.cells hb hlt) hlt
  exact ⟨p', by rw [Pool.copyFrom, ho, Option.bind_some, hr], hrep⟩

/-- The data of another vector is neither of two inline storages. -/
theorem data_ne_inline (h : Rep ty p L) (hu : p.vecs j = some u) (hne : j ≠ i) : u.data ≠ .inline i := by
  obtain ⟨zs, -, hz, -⟩ := h.vec_some hu
  intro he
  rcases hz.place with ⟨hd, -⟩ | ⟨⟨k, hk, -⟩, -⟩
  · exact hne (Block.inline.inj (hd.symm.trans he))
  · cases hk.symm.trans he

/-- Two vectors changed, of which the first, so far inline, may take the heap block of the second. -/
theorem pair (h : Rep ty p L) (hne : j ≠ i) (hv : p.vecs i = some v) (hdata : v.data = .inline i)
    {o v' o' : Vec} (ho : p.vecs j = some o) (hi' : p'.vecs i = some v') (hj' : p'.vecs j = some o')
    (hvecs : ∀ l, l ≠ i → l ≠ j → p'.vecs l = p.vecs l) (hnext : p'.next = p.next)
    (hmem : ∀ b, b ≠ .inline i → b ≠ .inline j → p'.mem b = p.mem b)
    (hoj : o'.data = .inline j)
    (hshare : v'.data = .inline i ∧ o.data = .inline j ∨ v'.data = o.data ∧ o.data ≠ .inline j)
    (hxi : View.Holds ty i (p'.view v') ys) (hyi : ys.length < 2 ^ 31)
    (hxj : View.Holds ty j (p'.view o') []) :
    Rep ty p' (Function.update (Function.update L i (some ys)) j (some [])) := by
  have hheap : ∀ k, p'.mem (.heap k) = p.mem (.heap k) := fun k => hmem _ (by simp) (by simp)
  have hfresh : ∀ k, p'.next ≤ k → p'.mem (.heap k) = none := fun k hk =>
    (hheap k).trans (h.fresh k (hnext ▸ hk))
  refine ⟨?_, ?_, ?_, ?_, hfresh⟩
  · intro l hl
    by_cases hlj : l = j
    · rw [hlj, Function.update_self] at hl
      cases hl
    · by_cases hli : l = i
      · rw [Function.update_of_ne hlj, hli, Function.update_self] at hl
        cases hl
      · rw [Function.update_of_ne hlj, Function.update_of_ne hli] at hl
        obtain ⟨hn, hm⟩ := h.absent l hl
        exact ⟨(hvecs l hli hlj).trans hn, (hmem _ (fun he => hli (Block.inline.inj he))
          (fun he => hlj (Block.inline.inj he))).trans hm⟩
  · intro l zs hl
    by_cases hlj : l = j
    · subst hlj
      rw [Function.update_self] at hl
      cases hl
      exact ⟨o', hj', hxj, by simp⟩
    · rw [Function.update_of_ne hlj] at hl
      by_cases hli : l = i
      · subst hli
        rw [Function.update_self] at hl
        cases hl
        exact ⟨v', hi', hxi, hyi⟩
      · rw [Function.update_of_ne hli] at hl
        obtain ⟨u, hu, hz, hlt⟩ := h.present l zs hl
        refine ⟨u, (hvecs l hli hlj).trans hu, holds_of_mem hz rfl rfl rfl hnext.ge
          (hmem _ (h.data_ne_inline hu hli) (h.data_ne_inline hu hlj))
          (hmem _ (fun he => hli (Block.inline.inj he)) (fun he => hlj (Block.inline.inj he))) hfresh, hlt⟩
  · intro k hk
    rw [hheap] at hk
    obtain ⟨l, u, hu, hd⟩ := h.owned k hk
    by_cases hlj : l = j
    · subst hlj
      cases ho.symm.trans hu
      rcases hshare with ⟨-, hin⟩ | ⟨hsame, -⟩
      · cases hin.symm.trans hd
      · exact ⟨i, v', hi', hsame.trans hd⟩
    · by_cases hli : l = i
      · subst hli
        cases hv.symm.trans hu
        cases hdata.symm.trans hd
      · exact ⟨l, u, (hvecs l hli hlj).trans hu, hd⟩
  · have hij : v'.data ≠ o'.data := by
      rw [hoj]
      rcases hshare with ⟨hd, -⟩ | ⟨hd, hout⟩
      · rw [hd]
        exact fun he => hne (Block.inline.inj he).symm
      · rwa [hd]
    have hiu : ∀ l u, l ≠ i → l ≠ j → p.vecs l = some u → v'.data ≠ u.data := by
      intro l u hli hlj hu
      rcases hshare with ⟨hd, -⟩ | ⟨hd, -⟩
      · rw [hd]
        exact (h.data_ne_inline hu hli).symm
      · rw [hd]
        exact fun he => hlj (h.apart j l o u ho hu he).symm
    have hju : ∀ l u, l ≠ j → p.vecs l = some u → o'.data ≠ u.data := by
      intro l u hlj hu
      rw [hoj]
      exact (h.data_ne_inline hu hlj).symm
    intro a b s t ha hb he
    by_cases hai : a = i
    · subst hai
      cases hi'.symm.trans ha
      by_contra hab
      by_cases hbj : b = j
      · subst hbj
        cases hj'.symm.trans hb
        exact hij he
      · exact hiu b t (Ne.symm hab) hbj ((hvecs b (Ne.symm hab) hbj).symm.trans hb) he
    · by_cases haj : a = j
      · subst haj
        cases hj'.symm.trans ha
        by_contra hab
        by_cases hbi : b = i
        · subst hbi
          cases hi'.symm.trans hb
          exact hij he.symm
        · exact hju b t (Ne.symm hab) ((hvecs b hbi (Ne.symm hab)).symm.trans hb) he
      · have hs := (hvecs a hai haj).symm.trans ha
        by_cases hbi : b = i
        · subst hbi
          cases hi'.symm.trans hb
          exact absurd he.symm (hiu a s hai haj hs)
        · by_cases hbj : b = j
          · subst hbj
            cases hj'.symm.trans hb
            exact absurd he.symm (hju a s haj hs)
          · exact h.apart a b s t hs ((hvecs b hbi hbj).symm.trans hb) he

/-- The elements go from one vector to another, empty one that is inline. -/
theorem stealFrom (h : Rep ty p L) (hi : L i = some []) (hv : p.vecs i = some v)
    (hdata : v.data = .inline i) (hcap : v.capacity = ty.N) (hj : L j = some ys) (hne : j ≠ i) :
    ∃ p', p.stealFrom ty i j = some p' ∧
      Rep ty p' (Function.update (Function.update L i (some ys)) j (some [])) := by
  obtain ⟨o, ho, hy, hlt⟩ := h.present j ys hj
  obtain ⟨xs, hx, hhx, -⟩ := h.vec_some hv
  cases hi.symm.trans hx
  have hself : p.mem (.inline i) = some (Cell.deads ty.N) := by
    have hc := hhx.cells
    rwa [show (p.view v).data = .inline i from hdata, show (p.view v).capacity = ty.N from hcap] at hc
  have hvi : ∀ (s t : Vec), Function.update (Function.update p.vecs i (some s)) j (some t) i = some s :=
    fun s t => (Function.update_of_ne (Ne.symm hne) _ _).trans (Function.update_self ..)
  have hvl : ∀ (s t : Vec) (l : Nat), l ≠ i → l ≠ j →
      Function.update (Function.update p.vecs i (some s)) j (some t) l = p.vecs l := fun s t l hli hlj =>
    (Function.update_of_ne hlj _ _).trans (Function.update_of_ne hli _ _)
  by_cases hin : o.data = .inline j
  · -- element by element, or with their bytes
    have hocap : o.capacity = ty.N := by
      rcases hy.place with ⟨-, hc⟩ | ⟨⟨k, hk, -⟩, -⟩
      · exact hc
      · cases hk.symm.trans hin
    have hroom : ys.length ≤ ty.N := hocap ▸ hy.room
    have hblocks : o.data ≠ v.data := by
      rw [hin, hdata]
      exact fun he => hne (Block.inline.inj he)
    have hmove := @View.moveConstruct_cells α ty ys _ _ _ hblocks _ _ hy.cells
      (by rw [hdata]; exact hself) hy.room hroom
    have hosize : o.size = ys.length := hy.size
    have hrun : p.stealFrom ty i j = some ⟨Function.update (Function.update p.mem o.data
        (some (Cell.deads o.capacity))) v.data (some (View.cellsOf ty.N ys)), p.next,
        Function.update (Function.update p.vecs i (some { v with size := o.size })) j
          (some { o with size := 0 })⟩ := by
      rw [Pool.stealFrom, hv, Option.bind_some, ho, Option.bind_some, if_pos hin, hosize]
      exact congrArg (Option.map _) hmove
    have hfresh : ∀ k, p.next ≤ k → Function.update (Function.update p.mem o.data
        (some (Cell.deads o.capacity))) v.data (some (View.cellsOf ty.N ys)) (.heap k) = none := by
      intro k hk
      rw [Function.update_of_ne (by rw [hdata]; simp), Function.update_of_ne (by rw [hin]; simp)]
      exact h.fresh k hk
    refine ⟨_, hrun, h.pair hne hv hdata ho (hvi _ _) (Function.update_self ..) (hvl _ _) rfl
      (fun b hb hb' => ?_) hin (.inl ⟨hdata, hin⟩) ?_ hlt ?_⟩
    · exact (Function.update_of_ne (hdata ▸ hb) _ _).trans (Function.update_of_ne (hin ▸ hb') _ _)
    · refine ⟨hosize, hcap ▸ hroom, hhx.pos, hhx.small, ?_, .inl ⟨hdata, hcap⟩, hfresh⟩
      rw [show v.capacity = ty.N from hcap]
      exact Function.update_self ..
    · refine ⟨rfl, Nat.zero_le _, hy.pos, hy.small, ?_, .inl ⟨hin, hocap⟩, hfresh⟩
      exact (Function.update_of_ne hblocks _ _).trans (Function.update_self ..)
  · -- with the heap block
    have hrun : p.stealFrom ty i j = some ⟨p.mem, p.next,
        Function.update (Function.update p.vecs i (some o)) j (some ⟨.inline j, 0, ty.N⟩)⟩ := by
      rw [Pool.stealFrom, hv, Option.bind_some, ho, Option.bind_some, if_neg hin]
    obtain ⟨hheap, hfree⟩ : (∃ k, o.data = .heap k ∧ k < p.next) ∧
        p.mem (.inline j) = some (Cell.deads ty.N) := by
      rcases hy.place with ⟨hd, -⟩ | hp
      · exact absurd hd hin
      · exact hp
    refine ⟨_, hrun, h.pair hne hv hdata ho (hvi _ _) (Function.update_self ..) (hvl _ _) rfl
      (fun _ _ _ => rfl) rfl (.inr ⟨rfl, hin⟩) ?_ hlt ?_⟩
    · exact ⟨hy.size, hy.room, hy.pos, hy.small, hy.cells, .inr ⟨hheap, hself⟩, h.fresh⟩
    · exact ⟨rfl, Nat.zero_le _, ty.pos, ty.small, hfree, .inl ⟨rfl, rfl⟩, h.fresh⟩

theorem destruct (h : Rep ty p L) (hL : L i = some xs) :
    ∃ p', p.destruct ty i = some p' ∧ Rep ty p' (Function.update L i none) := by
  obtain ⟨v, hv, hx, -⟩ := h.present i xs hL
  obtain ⟨w, hr, hw, hfr, hd, hc⟩ := View.reset_effect hx
  have hcells := hw.cells
  rw [hd, hc, View.cellsOf_nil] at hcells
  obtain ⟨d, hdr, hr⟩ := Option.bind_eq_some_iff.mp hr
  obtain ⟨e, her, rfl⟩ := Option.map_eq_some_iff.mp hr
  have hrel : e.mem.release (.inline i) = some (Function.update e.mem (.inline i) none) := by
    have hall : (Cell.deads ty.N : List (Cell α)).all Cell.isDead = true :=
      List.all_eq_true.mpr fun c hc => by rw [List.eq_of_mem_replicate hc]; rfl
    rw [Memory.release, hcells, Option.bind_some, if_pos hall]
  have hrun : p.destruct ty i = some ⟨Function.update e.mem (.inline i) none, e.next,
      Function.update p.vecs i none⟩ := by
    rw [Pool.destruct, hv, Option.bind_some, show v.size = (p.view v).size from rfl, hdr,
      Option.bind_some, her, Option.bind_some, hrel]
    rfl
  have hvecs : ∀ j, j ≠ i → Function.update p.vecs i none j = p.vecs j := fun j hj =>
    Function.update_of_ne hj _ _
  have hgone : ∀ j u, Function.update p.vecs i none j = some u → j ≠ i ∧ p.vecs j = some u := by
    intro j u hu
    by_cases hj : j = i
    · rw [hj, Function.update_self] at hu
      cases hu
    · exact ⟨hj, (hvecs j hj).symm.trans hu⟩
  have hfresh : ∀ k, e.next ≤ k → Function.update e.mem (.inline i) none (.heap k) = none := fun k hk =>
    (Function.update_of_ne (by simp) _ _).trans (hw.fresh k hk)
  refine ⟨_, hrun, ?_, ?_, ?_, ?_, hfresh⟩
  · intro j hj
    by_cases hji : j = i
    · subst hji
      exact ⟨Function.update_self .., Function.update_self ..⟩
    · rw [Function.update_of_ne hji] at hj
      obtain ⟨hn, hm⟩ := h.absent j hj
      have hb : View.Apart i (p.view v) (.inline j) := by
        refine ⟨fun he => hji (Block.inline.inj he), fun he => ?_, fun k hk => by cases hk⟩
        rcases hx.place with ⟨hd, -⟩ | ⟨⟨k, hk, -⟩, -⟩
        · exact hji (Block.inline.inj (he.trans hd))
        · cases he.trans hk
      exact ⟨(hvecs j hji).trans hn,
        (Function.update_of_ne hb.1 _ _).trans ((hfr.apart hb).1.trans hm)⟩
  · intro j zs hj
    have hji : j ≠ i := by
      rintro rfl
      rw [Function.update_self] at hj
      cases hj
    rw [Function.update_of_ne hji] at hj
    obtain ⟨u, hu, hz, hlt⟩ := h.present j zs hj
    obtain ⟨hdata, hin⟩ := h.data_apart hv hu hji
    exact ⟨u, (hvecs j hji).trans hu, holds_of_mem hz rfl rfl rfl hfr.mono
      ((Function.update_of_ne hdata.1 _ _).trans (hfr.apart hdata).1)
      ((Function.update_of_ne hin.1 _ _).trans (hfr.apart hin).1) hfresh, hlt⟩
  · intro k hk
    have hk' : e.mem (.heap k) ≠ none := by
      have : Function.update e.mem (.inline i) none (.heap k) = e.mem (.heap k) :=
        Function.update_of_ne (by simp) _ _
      exact this ▸ hk
    rcases hfr.heaps k hk' with hnew | ⟨hm, hold⟩
    · cases hnew
    · obtain ⟨j, u, hu, hud⟩ := h.owned k hm
      have hji : j ≠ i := by
        rintro rfl
        cases hv.symm.trans hu
        exact hold hud
      exact ⟨j, u, (hvecs j hji).trans hu, hud⟩
  · intro a b s t ha hb he
    exact h.apart a b s t (hgone a s ha).2 (hgone b t hb).2 he

end Rep

end Pool

/-! ### Any sequence of operations -/

namespace VecOp

open Pool

variable {α : Type} {ty : VecType} {p : Pool α} {L L' : VecOp.Lists α} {i j : Nat} {xs ys : List α}

theorem change_eq_some {f : List α → Option (List α)} (h : change L i f = some L') :
    ∃ xs ys, L i = some xs ∧ f xs = some ys ∧ ys.length < 2 ^ 31 ∧
      L' = Function.update L i (some ys) := by
  obtain ⟨xs, hL, h⟩ := Option.bind_eq_some_iff.mp h
  obtain ⟨ys, hf, h⟩ := Option.bind_eq_some_iff.mp h
  split_ifs at h with hlt
  exact ⟨xs, ys, hL, hf, hlt, (Option.some.inj h).symm⟩

theorem add_eq_some (h : add L i ys = some L') :
    L i = none ∧ ys.length < 2 ^ 31 ∧ L' = Function.update L i (some ys) := by
  rw [add] at h
  split_ifs at h with hc
  exact ⟨hc.1, hc.2, (Option.some.inj h).symm⟩

theorem pushAll_rep {vs : List α} : ∀ {p : Pool α} {L : VecOp.Lists α} {xs : List α}, Rep ty p L → L i = some xs →
    (xs ++ vs).length < 2 ^ 31 →
    ∃ p', p.pushAll ty i vs = some p' ∧ Rep ty p' (Function.update L i (some (xs ++ vs))) := by
  induction vs with
  | nil =>
    intro p L xs h hL _
    refine ⟨p, rfl, ?_⟩
    rw [List.append_nil, ← hL, Function.update_eq_self]
    exact h
  | cons v vs ih =>
    intro p L xs h hL hlen
    rw [List.append_cons] at hlen
    have hlen' := hlen
    rw [List.length_append, List.length_append, List.length_singleton] at hlen'
    obtain ⟨p', hr, hrep⟩ := h.on hL (f := fun w => w.pushBack ty i v)
      (fun u _ hx => View.pushBack_effect v hx (by omega))
      (by rw [List.length_append, List.length_singleton]; omega)
    obtain ⟨p'', hr', hrep'⟩ := ih hrep (Function.update_self ..) hlen
    rw [Function.update_idem, ← List.append_cons] at hrep'
    exact ⟨p'', by rw [Pool.pushAll, hr, Option.bind_some, hr'], hrep'⟩

/-- An operation on one vector within its bounds. -/
theorem change_rep {f : List α → Option (List α)} {g : View α → Option (View α)} (h : Rep ty p L)
    (hc : change L i f = some L')
    (hg : ∀ xs ys w, f xs = some ys → ys.length < 2 ^ 31 → View.Holds ty i w xs →
      View.Effect ty i w (g w) ys) : ∃ p', p.on i g = some p' ∧ Rep ty p' L' := by
  obtain ⟨xs, ys, hL, hf, hlen, rfl⟩ := change_eq_some hc
  exact h.on hL (fun v _ hx => hg xs ys _ hf hlen hx) hlen

theorem reserve_keeps {w : View α} {n : Nat} (h : View.Holds ty i w xs) (hn : n ≤ 2 ^ 31) :
    View.Effect ty i w (w.reserve ty i n) xs := by
  obtain ⟨w', hr, hw', hf, -⟩ := View.reserve_effect h hn
  exact ⟨w', hr, hw', hf⟩

theorem reset_empties {w : View α} (h : View.Holds ty i w xs) :
    View.Effect ty i w (w.reset ty i) [] := by
  obtain ⟨w', hr, hw', hf, -⟩ := View.reset_effect h
  exact ⟨w', hr, hw', hf⟩

theorem eraseSwap_rep {w : View α} {k : Nat} (h : View.Holds ty i w xs) (hk : k < xs.length) {y : α}
    (hy : xs.getLast? = some y) : View.Effect ty i w (w.eraseSwap k) (xs.set k y).dropLast := by
  obtain ⟨zs, rfl⟩ := List.getLast?_eq_some_iff.mp hy
  rw [List.length_append, List.length_singleton] at hk
  by_cases hlast : k = zs.length
  · subst hlast
    rw [List.set_append_right _ _ (Nat.le_refl _), Nat.sub_self, List.set_cons_zero,
      List.dropLast_concat]
    exact View.eraseSwap_last h
  · have hlt : k < zs.length := by omega
    have hsplit := List.take_append_drop k zs
    rw [List.drop_eq_getElem_cons hlt] at hsplit
    have hlen : (zs.take k).length = k := List.length_take_of_le hlt.le
    rw [List.set_append_left _ _ hlt, List.dropLast_concat, List.set_eq_take_append_cons_drop, if_pos hlt]
    have hh : View.Holds ty i w (zs.take k ++ zs[k] :: (zs.drop (k + 1) ++ [y])) := by
      rw [← List.cons_append, ← List.append_assoc, hsplit]
      exact h
    have heff := View.eraseSwap_middle hh
    rwa [hlen] at heff

theorem moveAssign_rep (h : Rep ty p L) (hi : L i = some xs) (hj : L j = some ys) (hne : j ≠ i) :
    ∃ p', ((p.on i fun w => w.reset ty i).bind fun p => p.stealFrom ty i j) = some p' ∧
      Rep ty p' (Function.update (Function.update L i (some ys)) j (some [])) := by
  obtain ⟨p', hr, hrep⟩ := h.on hi (f := fun w => w.reset ty i) (fun v _ hx => reset_empties hx) (by simp)
  obtain ⟨v, hv, hx, -⟩ := h.present i xs hi
  obtain ⟨w, hw, -, -, hd, hc⟩ := View.reset_effect hx
  have hp' : p' = p.put i w := by
    rw [Pool.on, hv, Option.bind_some, hw] at hr
    exact (Option.some.inj hr).symm
  have hv' : p'.vecs i = some ⟨w.data, w.size, w.capacity⟩ := by
    rw [hp']
    exact Function.update_self ..
  obtain ⟨p'', hr', hrep'⟩ := hrep.stealFrom (Function.update_self ..) hv' hd hc
    ((Function.update_of_ne hne _ _).trans hj) hne
  rw [Function.update_idem] at hrep'
  exact ⟨p'', by rw [hr, Option.bind_some, hr'], hrep'⟩

/-- One operation within its bounds. -/
theorem step_rep (h : Rep ty p L) {op : VecOp α} (hop : op.refStep L = some L') :
    ∃ p', op.step ty p = some p' ∧ Rep ty p' L' := by
  cases op with
  | create i =>
    obtain ⟨hL, -, rfl⟩ := add_eq_some hop
    obtain ⟨p', hr, hrep, -⟩ := h.construct hL
    exact ⟨p', hr, hrep⟩
  | createFill i count v =>
    obtain ⟨hL, hlen, rfl⟩ := add_eq_some hop
    obtain ⟨p₁, hr₁, hrep₁, -⟩ := h.construct hL
    rw [List.length_replicate] at hlen
    obtain ⟨p₂, hr₂, hrep₂⟩ := hrep₁.on (Function.update_self ..) (f := fun w => w.resize ty i count v)
      (fun u _ hx => View.resize_effect v hx hlen) (by simpa using hlen)
    rw [Function.update_idem] at hrep₂
    exact ⟨p₂, by rw [step, hr₁, Option.bind_some, hr₂], by simpa using hrep₂⟩
  | createList i init =>
    obtain ⟨hL, hlen, rfl⟩ := add_eq_some hop
    obtain ⟨p₁, hr₁, hrep₁, -⟩ := h.construct hL
    obtain ⟨p₂, hr₂, hrep₂⟩ := hrep₁.on (Function.update_self ..)
      (f := fun w => w.reserve ty i init.length) (fun u _ hx => reserve_keeps hx hlen.le) (by simp)
    obtain ⟨p₃, hr₃, hrep₃⟩ := pushAll_rep hrep₂ (Function.update_self ..)
      (by rw [List.nil_append]; exact hlen)
    rw [Function.update_idem, Function.update_idem, List.nil_append] at hrep₃
    exact ⟨p₃, by rw [step, hr₁, Option.bind_some, hr₂, Option.bind_some, hr₃], hrep₃⟩
  | createCopy i j =>
    obtain ⟨ys, hj, hop⟩ := Option.bind_eq_some_iff.mp hop
    obtain ⟨hL, hlen, rfl⟩ := add_eq_some hop
    have hne : j ≠ i := fun he => by rw [he, hL] at hj; cases hj
    obtain ⟨p₁, hr₁, hrep₁, -⟩ := h.construct hL
    obtain ⟨p₂, hr₂, hrep₂⟩ := hrep₁.copyFrom (Function.update_self ..)
      ((Function.update_of_ne hne _ _).trans hj) hne
    rw [Function.update_idem] at hrep₂
    exact ⟨p₂, by rw [step, hr₁, Option.bind_some, hr₂], hrep₂⟩
  | createMove i j =>
    obtain ⟨ys, hj, hop⟩ := Option.bind_eq_some_iff.mp hop
    obtain ⟨L₁, hadd, rfl⟩ := Option.map_eq_some_iff.mp hop
    obtain ⟨hL, hlen, rfl⟩ := add_eq_some hadd
    have hne : j ≠ i := fun he => by rw [he, hL] at hj; cases hj
    obtain ⟨p₁, hr₁, hrep₁, hv₁⟩ := h.construct hL
    obtain ⟨p₂, hr₂, hrep₂⟩ := hrep₁.stealFrom (Function.update_self ..) hv₁ rfl rfl
      ((Function.update_of_ne hne _ _).trans hj) hne
    rw [Function.update_idem] at hrep₂
    exact ⟨p₂, by rw [step, hr₁, Option.bind_some, hr₂], hrep₂⟩
  | destroy i =>
    obtain ⟨xs, hL, rfl⟩ := Option.map_eq_some_iff.mp hop
    exact h.destruct hL
  | copyAssign i j =>
    obtain ⟨ys, hj, hop⟩ := Option.bind_eq_some_iff.mp hop
    obtain ⟨xs, ys', hi, hys, hlen, rfl⟩ := change_eq_some hop
    cases hys
    by_cases hij : i = j
    · subst hij
      refine ⟨p, if_pos rfl, ?_⟩
      rw [← hj, Function.update_eq_self]
      exact h
    · obtain ⟨p₁, hr₁, hrep₁⟩ := h.on hi (f := fun w => w.clear ty)
        (fun v _ hx => View.clear_effect hx) (by simp)
      obtain ⟨p₂, hr₂, hrep₂⟩ := hrep₁.copyFrom (Function.update_self ..)
        ((Function.update_of_ne (Ne.symm hij) _ _).trans hj) (Ne.symm hij)
      rw [Function.update_idem] at hrep₂
      exact ⟨p₂, by rw [step, if_neg hij, hr₁, Option.bind_some, hr₂], hrep₂⟩
  | moveAssign i j =>
    by_cases hij : i = j
    · rw [refStep, if_pos hij] at hop
      obtain ⟨xs, hL, rfl⟩ := Option.map_eq_some_iff.mp hop
      exact ⟨p, if_pos hij, h⟩
    · rw [refStep, if_neg hij] at hop
      obtain ⟨ys, hj, hop⟩ := Option.bind_eq_some_iff.mp hop
      obtain ⟨L₁, hc, rfl⟩ := Option.map_eq_some_iff.mp hop
      obtain ⟨xs, ys', hi, hys, hlen, rfl⟩ := change_eq_some hc
      cases hys
      rw [step, if_neg hij]
      exact moveAssign_rep h hi hj (Ne.symm hij)
  | pushBack i v =>
    rw [step]
    refine change_rep h hop fun xs ys w hf hlen hx => ?_
    cases hf
    exact View.pushBack_effect v hx (by simpa using hlen)
  | emplaceBack i v =>
    rw [step]
    refine change_rep h hop fun xs ys w hf hlen hx => ?_
    cases hf
    exact View.pushBack_effect v hx (by simpa using hlen)
  | insert i k v =>
    rw [step]
    refine change_rep h hop fun xs ys w hf hlen hx => ?_
    split_ifs at hf with hk
    cases hf
    rw [List.length_append, List.length_cons, List.length_drop, List.length_take] at hlen
    have heff := @View.insert_effect α ty i w (xs.take k) (xs.drop k) v
      (by rw [List.take_append_drop]; exact hx) (by rw [List.take_append_drop]; omega)
    rwa [List.length_take_of_le hk] at heff
  | erase i k =>
    rw [step]
    refine change_rep h hop fun xs ys w hf hlen hx => ?_
    split_ifs at hf with hk
    cases hf
    have hsplit := List.take_append_drop k xs
    rw [List.drop_eq_getElem_cons hk] at hsplit
    have heff := @View.erase_effect α ty i w (xs.take k) (xs.drop (k + 1)) xs[k]
      (by rw [hsplit]; exact hx)
    rwa [List.length_take_of_le hk.le, ← List.eraseIdx_eq_take_drop_succ] at heff
  | eraseSwap i k =>
    rw [step]
    refine change_rep h hop fun xs ys w hf hlen hx => ?_
    split_ifs at hf with hk
    obtain ⟨y, hy, rfl⟩ := Option.map_eq_some_iff.mp hf
    exact eraseSwap_rep hx hk hy
  | popBack i =>
    rw [step]
    refine change_rep h hop fun xs ys w hf hlen hx => ?_
    split_ifs at hf with hpos
    cases hf
    have hne := List.ne_nil_of_length_pos hpos
    rw [← List.dropLast_append_getLast hne] at hx
    exact View.popBack_effect hx
  | clear i =>
    rw [step]
    refine change_rep h hop fun xs ys w hf hlen hx => ?_
    cases hf
    exact View.clear_effect hx
  | reserve i n =>
    rw [step]
    refine change_rep h hop fun xs ys w hf hlen hx => ?_
    split_ifs at hf with hn
    cases hf
    exact reserve_keeps hx hn
  | resize i n fill =>
    rw [step]
    refine change_rep h hop fun xs ys w hf hlen hx => ?_
    cases hf
    refine View.resize_effect fill hx ?_
    rw [List.length_append, List.length_take, List.length_replicate] at hlen
    omega
  | shrinkToFit i =>
    rw [step]
    refine change_rep h hop fun xs ys w hf hlen hx => ?_
    cases hf
    exact View.shrinkToFit_effect hx

theorem run_rep {ops : List (VecOp α)} : ∀ {p : Pool α} {L : VecOp.Lists α}, Rep ty p L →
    refRun L ops = some L' → ∃ p', run ty p ops = some p' ∧ Rep ty p' L' := by
  induction ops with
  | nil =>
    intro p L h hop
    cases hop
    exact ⟨p, rfl, h⟩
  | cons op ops ih =>
    intro p L h hop
    obtain ⟨L₁, hstep, hrest⟩ := Option.bind_eq_some_iff.mp hop
    obtain ⟨p₁, hr₁, hrep₁⟩ := step_rep h hstep
    obtain ⟨p', hr, hrep⟩ := ih hrep₁ hrest
    exact ⟨p', by rw [run, hr₁, Option.bind_some, hr], hrep⟩

theorem empty_rep : Rep ty (Pool.empty : Pool α) fun _ => none :=
  ⟨fun _ _ => ⟨rfl, rfl⟩, fun _ _ h => (by cases h), fun _ h => absurd rfl h,
    fun _ _ _ _ h => (by cases h), fun _ _ => rfl⟩

/-- **`SmallVector` refines a sequence.** Operations within their bounds run without a fault. After
them each vector has the elements of its list, live in the cells below its size; all other cells of its
block are dead, and so is its inline storage if it has a heap block. No heap block is shared, and none is
left over. -/
theorem vectors_refine_lists (ops : List (VecOp α)) (h : refRun (fun _ => none) ops = some L') :
    ∃ p, run ty Pool.empty ops = some p ∧
      (∀ i, L' i = none → p.vecs i = none ∧ p.mem (.inline i) = none) ∧
      (∀ i xs, L' i = some xs → ∃ v, p.vecs i = some v ∧ v.size = xs.length ∧ v.size ≤ v.capacity ∧
        p.mem v.data = some (Cell.lives xs ++ Cell.deads (v.capacity - v.size)) ∧
        (v.data = .inline i ∨ p.mem (.inline i) = some (Cell.deads ty.N))) ∧
      (∀ k, p.mem (.heap k) ≠ none → ∃ i v, p.vecs i = some v ∧ v.data = .heap k) ∧
      (∀ i j v w, p.vecs i = some v → p.vecs j = some w → v.data = w.data → i = j) := by
  obtain ⟨p, hr, hrep⟩ := @run_rep α ty L' ops _ _ empty_rep h
  refine ⟨p, hr, hrep.absent, fun i xs hi => ?_, hrep.owned, hrep.apart⟩
  obtain ⟨v, hv, hx, -⟩ := hrep.present i xs hi
  have hsize : v.size = xs.length := hx.size
  refine ⟨v, hv, hsize, hsize ▸ hx.room, ?_, ?_⟩
  · rw [hsize]
    exact hx.cells
  · exact hx.place.imp And.left And.right

/-- A vector that outgrows its inline storage in the middle of an insertion, and gives up its block. -/
theorem vectors_refine_lists_sample :
    let ty : VecType := ⟨1, false, false, by decide, by decide, by decide⟩
    ∃ p v w, run ty Pool.empty [.create 0, .pushBack 0 (7 : Nat), .insert 0 0 5, .createMove 1 0,
        .erase 1 1] = some p ∧
      p.vecs 0 = some v ∧ v.size = 0 ∧ p.vecs 1 = some w ∧ w.size = 1 ∧
      p.mem w.data = some (.live 5 :: Cell.deads (w.capacity - w.size)) := by
  intro ty
  have hrun : ∃ L, refRun (fun _ => none) [.create 0, .pushBack 0 (7 : Nat), .insert 0 0 5,
      .createMove 1 0, .erase 1 1] = some L ∧ L 0 = some [] ∧ L 1 = some [5] := ⟨_, rfl, rfl, rfl⟩
  obtain ⟨L, hrun, h₀, h₁⟩ := hrun
  obtain ⟨p, hr, -, hp, -⟩ := @vectors_refine_lists Nat ty L _ hrun
  obtain ⟨v, hv, hvs, -⟩ := hp 0 [] h₀
  obtain ⟨w, hw, hws, -, hm, -⟩ := hp 1 [5] h₁
  exact ⟨p, v, w, hr, hv, hvs, hw, hws, hm⟩

end VecOp

end VersatileEngine
