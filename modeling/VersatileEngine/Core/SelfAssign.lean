import Mathlib.Data.List.Perm.Subperm
import Mathlib.Data.List.Range
import VersatileEngine.Core.Ownership

/-!
# VersatileEngine.Core.SelfAssign

The assignments of `Var`, and `fromString`, `fromList` and `fromDict`, with an argument that lies inside the
`Var` that is assigned to.

* `Place`, `State`  — where a `Var` object is, and all of them.
* `destroy`         — what every assignment does first; `assignCopy`, `assignMove`, `fromRef` read their
  argument after it.
* `Stored`          — a `Var` with its value; `Inside`, `Refers` — the `Var`s inside of it, and the strings,
  lists and dictionaries.
* `outside_becomes` — **from outside, the assignments do what they have to**.
* `inside_never`    — **from inside they never do**: the argument has been deleted.
-/

namespace VersatileEngine

namespace Ownership

/-- A `Var` of its own, or one in a list or a dictionary. -/
inductive Place where
  | named (x : Nat)
  | item (loc i : Nat)
deriving DecidableEq

structure State extends Store where
  vars : Nat → Cell

namespace State

def load (s : State) : Place → Run Cell
  | .named x => .ok (s.vars x)
  | .item loc i => (s.heap.get loc).bind fun b =>
    match b.items[i]? with
    | some c => .ok c
    | none => .error .dangling

def put (s : State) (c : Cell) : Place → Run State
  | .named x => .ok { s with vars := Function.update s.vars x c }
  | .item loc i => (s.heap.get loc).bind fun b =>
    if i < b.items.length then
      .ok { s with heap := Function.update s.heap loc (some { b with items := b.items.set i c }) }
    else .error .dangling

/-- `destroy`. -/
def destroy (s : State) (this : Place) : Run State :=
  (s.load this).bind fun c => (release (s.next + 1) s.heap c).bind fun h =>
    { s with heap := h }.put (.scalar .none) this

/-- `_type = other._type`, then `copyFrom(other)`. -/
def copyFrom (s : State) (this other : Place) : Run State :=
  (s.load other).bind fun c => (clone (s.next + 1) s.toStore c).bind fun r =>
    { s with toStore := r.1 }.put r.2 this

/-- `_type = other._type`, then `moveFrom(other)`. -/
def moveFrom (s : State) (this other : Place) : Run State :=
  (s.load other).bind fun c => (s.put c this).bind fun s => s.put (.scalar .none) other

/-- `operator=(const Var&)`. -/
def assignCopy (s : State) (this other : Place) : Run State :=
  if this = other then .ok s else (s.destroy this).bind fun s => s.copyFrom this other

/-- `operator=(Var&&)`. -/
def assignMove (s : State) (this other : Place) : Run State :=
  if this = other then .ok s else (s.destroy this).bind fun s => s.moveFrom this other

end State

/-- What a reference can refer to besides a `Var`: the string, the list or the dictionary that one owns, or
a key of a dictionary. -/
inductive Ref where
  | owned (kind : Kind) (loc : Nat)
  | key (loc i : Nat)

def Ref.loc : Ref → Nat
  | owned _ loc => loc
  | key loc _ => loc

namespace State

def new (s : State) (b : Block) : State × Cell :=
  let r := s.toStore.alloc b
  ({ s with toStore := r.1 }, .owner b.payload.kind r.2)

/-- `new std::string(v)`, `new ListV(v)` or `new DictV(v)`. -/
def newCopy (s : State) : Ref → Run (State × Cell)
  | .owned kind loc => (s.heap.get loc).bind fun b =>
    if b.payload.kind = kind then
      (clone (s.next + 1) s.toStore (.owner kind loc)).map fun r => ({ s with toStore := r.1 }, r.2)
    else .error .dangling
  | .key loc i => (s.heap.get loc).bind fun b =>
    match b.payload with
    | .dict keys =>
      match keys[i]? with
      | some k => .ok (s.new ⟨.string k, []⟩)
      | none => .error .dangling
    | _ => .error .dangling

/-- What a string or a container says after it was moved from. -/
def emptied : Payload → Payload
  | .string _ => .string []
  | .dict _ => .dict []
  | payload => payload

/-- The same from `std::move(v)`; a key is constant. -/
def newMove (s : State) : Ref → Run (State × Cell)
  | .owned kind loc => (s.heap.get loc).bind fun b =>
    if b.payload.kind = kind then
      .ok ({ s with heap := Function.update s.heap loc (some ⟨emptied b.payload, []⟩) }.new b)
    else .error .dangling
  | .key loc i => s.newCopy (.key loc i)

/-- `destroy()`, then the new object. -/
def fromRef (make : State → Ref → Run (State × Cell)) (s : State) (this : Place) (v : Ref) : Run State :=
  (s.destroy this).bind fun s => (make s v).bind fun r => r.1.put r.2 this

/-- `fromString(const std::string&)`. -/
def fromString (s : State) (this : Place) (v : Ref) : Run State := fromRef newCopy s this v

/-- `fromString(std::string&&)`. -/
def fromStringMove (s : State) (this : Place) (v : Ref) : Run State := fromRef newMove s this v

/-- `fromList(const ListV&)`. -/
def fromList (s : State) (this : Place) (loc : Nat) : Run State := fromRef newCopy s this (.owned .list loc)

/-- `fromList(ListV&&)`. -/
def fromListMove (s : State) (this : Place) (loc : Nat) : Run State := fromRef newMove s this (.owned .list loc)

/-- `fromDict(const DictV&)`. -/
def fromDict (s : State) (this : Place) (loc : Nat) : Run State := fromRef newCopy s this (.owned .dict loc)

/-- `fromDict(DictV&&)`. -/
def fromDictMove (s : State) (this : Place) (loc : Nat) : Run State := fromRef newMove s this (.owned .dict loc)

end State

/-! ## A `Var` with its value -/

/-- The `Var` at a place holds a value, in blocks of which each is owned once, and none by itself. -/
structure Stored (s : State) (this : Place) (v : Obj) : Prop where
  loads : s.load this = .ok v.cell
  holds : v.Holds s.heap
  below : ∀ loc ∈ v.blocks, loc < s.next
  place : ∀ loc i, this = .item loc i → loc < s.next ∧ loc ∉ v.blocks

/-- After the operation the `Var` at the place has the value. -/
def Becomes (r : Run State) (this : Place) (val : Var) : Prop :=
  ∃ s' o, r = .ok s' ∧ Stored s' this o ∧ o.value = val

/-- The `Var`s inside a value, each with its place: the elements of a list, the values of a dictionary, and
what is inside of them. -/
inductive Inside : Obj → Place → Obj → Prop
  | item {loc : Nat} {payload : Payload} {kids : List Obj} {i : Nat} {w : Obj} (h : kids[i]? = some w) :
    Inside (.owner loc payload kids) (.item loc i) w
  | inner {loc : Nat} {payload : Payload} {kids : List Obj} {k : Obj} {other : Place} {w : Obj} (hk : k ∈ kids)
    (h : Inside k other w) : Inside (.owner loc payload kids) other w

/-- The strings, lists and dictionaries of a value, its own among them, and what they say. -/
inductive Refers : Obj → Ref → Var → Prop
  | owned (loc : Nat) (payload : Payload) (kids : List Obj) :
    Refers (.owner loc payload kids) (.owned payload.kind loc) (Obj.value (.owner loc payload kids))
  | key {loc i : Nat} {keys : List Str} {kids : List Obj} {k : Str} (h : keys[i]? = some k) :
    Refers (.owner loc (.dict keys) kids) (.key loc i) (.string k)
  | inner {loc : Nat} {payload : Payload} {kids : List Obj} {k : Obj} {r : Ref} {val : Var} (hk : k ∈ kids)
    (h : Refers k r val) : Refers (.owner loc payload kids) r val

theorem mem_blocks_owner {loc l : Nat} {payload : Payload} {kids : List Obj} {k : Obj} (hk : k ∈ kids)
    (h : l ∈ k.blocks) : l ∈ (Obj.owner loc payload kids).blocks := by
  obtain ⟨e, he, rfl⟩ := List.mem_map.mp h
  exact List.mem_cons_of_mem _ (List.mem_map_of_mem (Obj.mem_tables hk e he))

theorem Inside.block {v w : Obj} {other : Place} (h : Inside v other w) :
    ∃ loc i, other = .item loc i ∧ loc ∈ v.blocks := by
  induction h with
  | item h => exact ⟨_, _, rfl, List.mem_cons_self⟩
  | inner hk _ ih =>
    obtain ⟨loc, i, rfl, hloc⟩ := ih
    exact ⟨loc, i, rfl, mem_blocks_owner hk hloc⟩

theorem Refers.block {v : Obj} {r : Ref} {val : Var} (h : Refers v r val) : r.loc ∈ v.blocks := by
  induction h with
  | owned loc payload kids => exact List.mem_cons_self
  | key h => exact List.mem_cons_self
  | inner hk _ ih => exact mem_blocks_owner hk ih

/-- A `Var` inside of another one is a `Var` with its value. -/
theorem Inside.stored {s : State} {v w : Obj} {other : Place} (h : Inside v other w) :
    v.Holds s.heap → (∀ loc ∈ v.blocks, loc < s.next) → Stored s other w := by
  induction h with
  | @item loc payload kids i w hw =>
    intro hold hbelow
    have hmem := List.mem_of_getElem? hw
    have hhead : s.heap loc = some ⟨payload, kids.map Obj.cell⟩ := hold.there _ List.mem_cons_self
    refine ⟨?_, hold.tail.of_mem hmem, fun l hl => hbelow l (mem_blocks_owner hmem hl), ?_⟩
    · rw [State.load, Heap.get, hhead]
      simp only [Except.bind, List.getElem?_map, hw, Option.map_some]
    · intro loc' i' he
      cases he
      refine ⟨hbelow loc List.mem_cons_self, fun hl => (List.nodup_cons.mp hold.nodup).1 ?_⟩
      obtain ⟨e, he, hloc⟩ := List.mem_map.mp hl
      have hin : e.1 ∈ (Obj.tables kids).map Prod.fst := List.mem_map_of_mem (Obj.mem_tables hmem e he)
      exact hloc ▸ hin
  | @inner loc payload kids k other w hk _ ih =>
    intro hold hbelow
    exact ih (hold.tail.of_mem hk) fun l hl => hbelow l (mem_blocks_owner hk hl)

section Stored

variable {s : State} {this other : Place} {v w : Obj}

/-- There are no more blocks than were made. -/
theorem Stored.count (h : Stored s this v) : v.table.length < s.next + 1 := by
  have hsub : v.blocks ⊆ List.range s.next := fun loc hloc => List.mem_range.mpr (h.below loc hloc)
  have hlen := (List.subperm_of_subset h.holds.nodup hsub).length_le
  rw [List.length_map, List.length_range] at hlen
  omega

/-- What writing a `Var` that is there does. -/
theorem put_spec {c : Cell} (h : s.load this = .ok c) (new : Cell) : ∃ s', s.put new this = .ok s' ∧
    s'.next = s.next ∧ s'.load this = .ok new ∧
    (∀ loc, (∀ i, this ≠ .item loc i) → s'.heap loc = s.heap loc) ∧
    ∀ other, other ≠ this → s'.load other = s.load other := by
  cases this with
  | named x =>
    refine ⟨_, rfl, rfl, ?_, fun _ _ => rfl, fun other hne => ?_⟩
    · exact congrArg Except.ok (Function.update_self ..)
    · cases other with
      | named y =>
        have hxy : y ≠ x := fun he => hne (congrArg Place.named he)
        exact congrArg Except.ok (Function.update_of_ne hxy _ _)
      | item loc i => rfl
  | item loc i =>
    cases hb : s.heap loc with
    | none =>
      rw [State.load, Heap.get, hb] at h
      cases h
    | some b =>
      have hi : i < b.items.length := by
        rw [State.load, Heap.get, hb] at h
        by_contra hge
        simp only [Except.bind, List.getElem?_eq_none (Nat.not_lt.mp hge)] at h
        cases h
      let b' : Block := { b with items := b.items.set i new }
      refine ⟨{ s with heap := Function.update s.heap loc (some b') },
        ?_, rfl, ?_, fun l hl => ?_, fun other hne => ?_⟩
      · rw [State.put, Heap.get, hb]
        exact if_pos hi
      · rw [State.load, Heap.get]
        simp only [Function.update_self, Except.bind, b', List.getElem?_set_self hi]
      · have hne : l ≠ loc := by
          rintro rfl
          exact hl i rfl
        exact Function.update_of_ne hne _ _
      · cases other with
        | named y => rfl
        | item l j =>
          rw [State.load, State.load, Heap.get, Heap.get]
          by_cases hl : l = loc
          · subst hl
            have hij : i ≠ j := by
              rintro rfl
              exact hne rfl
            simp only [Function.update_self, hb, Except.bind, b', List.getElem?_set_ne hij]
          · simp only [Function.update_of_ne hl]

/-- **`destroy` deletes the blocks of the value**, and no others. -/
theorem destroy_spec (h : Stored s this v) : ∃ s', s.destroy this = .ok s' ∧ s'.next = s.next ∧
    s'.load this = .ok (.scalar .none) ∧ (∀ loc ∈ v.blocks, s'.heap loc = none) ∧
    (∀ loc, loc ∉ v.blocks → (∀ i, this ≠ .item loc i) → s'.heap loc = s.heap loc) ∧
    ∀ other, other ≠ this → (∀ loc i, other = .item loc i → loc ∉ v.blocks) → s'.load other = s.load other := by
  have hrelease := release_holds v (s.next + 1) s.heap h.holds h.count
  have hload : ∀ other, (∀ loc i, other = .item loc i → loc ∉ v.blocks) →
      { s with heap := erase s.heap v.blocks }.load other = s.load other := by
    intro other hapart
    cases other with
    | named x => rfl
    | item loc i =>
      simp only [State.load, Heap.get, erase, if_neg (hapart loc i rfl)]
  have hthis : ∀ loc i, this = .item loc i → loc ∉ v.blocks := fun loc i he => (h.place loc i he).2
  obtain ⟨s', hput, hnext, hloads, hheap, hother⟩ := put_spec ((hload this hthis).trans h.loads) (.scalar .none)
  refine ⟨s', ?_, hnext, hloads, fun loc hloc => ?_, fun loc hloc hne => ?_, fun other hne hapart => ?_⟩
  · rw [State.destroy, h.loads]
    show (release (s.next + 1) s.heap v.cell).bind _ = _
    rw [hrelease]
    exact hput
  · rw [hheap loc fun i he => (h.place loc i he).2 hloc]
    exact if_pos hloc
  · rw [hheap loc hne]
    exact if_neg hloc
  · rw [hother other hne, hload other hapart]

/-! ## From inside -/

/-- Nothing can be read in a block that is gone. -/
theorem load_gone {loc : Nat} (h : s.heap loc = none) (i : Nat) : s.load (.item loc i) = .error .dangling := by
  simp only [State.load, Heap.get, h]
  rfl

theorem newCopy_gone {r : Ref} (h : s.heap r.loc = none) : s.newCopy r = .error .dangling := by
  cases r with
  | owned kind loc =>
    have hloc : s.heap loc = none := h
    simp only [State.newCopy, Heap.get, hloc]
    rfl
  | key loc i =>
    have hloc : s.heap loc = none := h
    simp only [State.newCopy, Heap.get, hloc]
    rfl

theorem newMove_gone {r : Ref} (h : s.heap r.loc = none) : s.newMove r = .error .dangling := by
  cases r with
  | owned kind loc =>
    have hloc : s.heap loc = none := h
    simp only [State.newMove, Heap.get, hloc]
    rfl
  | key loc i => exact newCopy_gone h

/-- **A `Var` that is assigned to one around it is read after it was deleted.** -/
theorem assign_inside (h : Stored s this v) (hin : Inside v other w) :
    s.assignCopy this other = .error .dangling ∧ s.assignMove this other = .error .dangling := by
  obtain ⟨loc, i, rfl, hloc⟩ := hin.block
  have hne : this ≠ .item loc i := fun he => (h.place loc i he).2 hloc
  obtain ⟨s', hdestroy, -, -, hgone, -, -⟩ := destroy_spec h
  have hload := load_gone (hgone loc hloc) i
  rw [State.assignCopy, State.assignMove, if_neg hne, if_neg hne, hdestroy]
  refine ⟨?_, ?_⟩
  · show s'.copyFrom this (.item loc i) = _
    rw [State.copyFrom, hload]
    rfl
  · show s'.moveFrom this (.item loc i) = _
    rw [State.moveFrom, hload]
    rfl

/-- **So is a string, a list or a dictionary of the `Var` itself.** -/
theorem fromRef_inside (h : Stored s this v) {r : Ref} {val : Var} (hr : Refers v r val) :
    State.fromRef State.newCopy s this r = .error .dangling ∧
      State.fromRef State.newMove s this r = .error .dangling := by
  obtain ⟨s', hdestroy, -, -, hgone, -, -⟩ := destroy_spec h
  have hloc := hgone r.loc hr.block
  rw [State.fromRef, State.fromRef, hdestroy]
  refine ⟨?_, ?_⟩
  · show (s'.newCopy r).bind _ = _
    rw [newCopy_gone hloc]
    rfl
  · show (s'.newMove r).bind _ = _
    rw [newMove_gone hloc]
    rfl

theorem not_becomes {r : Run State} (h : r = .error .dangling) (val : Var) : ¬ Becomes r this val := by
  rintro ⟨s', o, hr, -⟩
  cases hr.symm.trans h

/-! ## From outside -/

/-- A `Var` that shares nothing with another one. -/
structure Apart (this other : Place) (v w : Obj) : Prop where
  places : other ≠ this
  blocks : ∀ loc ∈ w.blocks, loc ∉ v.blocks
  outer : ∀ loc i, other = .item loc i → loc ∉ v.blocks
  inner : ∀ loc i, this = .item loc i → loc ∉ w.blocks

theorem assignCopy_outside (h : Stored s this v) (hw : Stored s other w) (ha : Apart this other v w) :
    Becomes (s.assignCopy this other) this w.value := by
  obtain ⟨s', hdestroy, hnext, hthis, -, hframe, hload⟩ := destroy_spec h
  have hother : s'.load other = .ok w.cell := (hload other ha.places ha.outer).trans hw.loads
  have hold : w.Holds s'.heap := hw.holds.agrees fun loc hloc =>
    hframe loc (ha.blocks loc hloc) fun i he => ha.inner loc i he hloc
  obtain ⟨m, o, hclone, hcopied⟩ := clone_holds w (s'.next + 1) s'.toStore hold
    (fun loc hloc => hnext ▸ hw.below loc hloc) (hnext ▸ hw.count)
  have htable : Obj.tables [o] = o.table := List.append_nil _
  have hnew := hcopied.holds
  have hfresh := hcopied.fresh
  rw [htable] at hnew hfresh
  have hmono := hcopied.mono
  let s₁ : State := { s' with toStore := m }
  have hkept : s₁.load this = .ok (.scalar .none) := by
    rw [← hthis]
    cases this with
    | named x => rfl
    | item loc i =>
      have hloc := (h.place loc i rfl).1
      have hheap : s₁.heap loc = s'.heap loc := hcopied.frame loc (hnext ▸ hloc)
      simp only [State.load, Heap.get, hheap]
  obtain ⟨s₂, hput, hnext₂, hload₂, hheap₂, -⟩ := put_spec hkept o.cell
  have hfar : ∀ loc i, this = .item loc i → loc < s.next ∧ loc ∉ o.blocks := by
    intro loc i he
    have hloc := (h.place loc i he).1
    refine ⟨hloc, fun hmem => ?_⟩
    have := (hfresh loc hmem).1
    omega
  refine ⟨s₂, o, ?_, ⟨hload₂, ?_, ?_, ?_⟩, (List.cons.inj hcopied.values).1⟩
  · rw [State.assignCopy, if_neg ha.places.symm, hdestroy]
    show s'.copyFrom this other = _
    rw [State.copyFrom, hother]
    show (clone (s'.next + 1) s'.toStore w.cell).bind _ = _
    rw [hclone]
    exact hput
  · exact hnew.agrees fun loc hloc => hheap₂ loc fun i he => (hfar loc i he).2 hloc
  · intro loc hloc
    rw [hnext₂]
    exact (hfresh loc hloc).2
  · intro loc i he
    refine ⟨?_, (hfar loc i he).2⟩
    have hloc := (hfar loc i he).1
    rw [hnext₂]
    show loc < m.next
    omega

theorem assignMove_outside (h : Stored s this v) (hw : Stored s other w) (ha : Apart this other v w) :
    Becomes (s.assignMove this other) this w.value := by
  obtain ⟨s', hdestroy, hnext, hthis, -, hframe, hload⟩ := destroy_spec h
  have hother : s'.load other = .ok w.cell := (hload other ha.places ha.outer).trans hw.loads
  obtain ⟨s₁, hput, hnext₁, hload₁, hheap₁, hload₁'⟩ := put_spec hthis w.cell
  obtain ⟨s₂, hput₂, hnext₂, -, hheap₂, hload₂⟩ :=
    put_spec ((hload₁' other ha.places).trans hother) (.scalar .none)
  refine ⟨s₂, w, ?_, ⟨?_, ?_, ?_, ?_⟩, rfl⟩
  · rw [State.assignMove, if_neg ha.places.symm, hdestroy]
    show s'.moveFrom this other = _
    rw [State.moveFrom, hother]
    show (s'.put w.cell this).bind _ = _
    rw [hput]
    exact hput₂
  · rw [hload₂ this ha.places.symm, hload₁]
  · refine hw.holds.agrees fun loc hloc => ?_
    rw [hheap₂ loc fun i he => (hw.place loc i he).2 hloc, hheap₁ loc fun i he => ha.inner loc i he hloc]
    exact hframe loc (ha.blocks loc hloc) fun i he => ha.inner loc i he hloc
  · intro loc hloc
    rw [hnext₂, hnext₁, hnext]
    exact hw.below loc hloc
  · intro loc i he
    rw [hnext₂, hnext₁, hnext]
    exact ⟨(h.place loc i he).1, ha.inner loc i he⟩

/-- **From outside, and from itself, a `Var` becomes what is assigned to it.** -/
theorem outside_becomes (h : Stored s this v) :
    (Becomes (s.assignCopy this this) this v.value ∧ Becomes (s.assignMove this this) this v.value) ∧
      ∀ other w, Stored s other w → Apart this other v w →
        Becomes (s.assignCopy this other) this w.value ∧ Becomes (s.assignMove this other) this w.value :=
  ⟨⟨⟨s, v, if_pos rfl, h, rfl⟩, ⟨s, v, if_pos rfl, h, rfl⟩⟩,
    fun _ _ hw ha => ⟨assignCopy_outside h hw ha, assignMove_outside h hw ha⟩⟩

end Stored

/-- **From inside a `Var` never becomes what is assigned to it**, whatever it holds, however deep the argument
lies, by copy or by move. -/
theorem inside_never {s : State} {this : Place} {v : Obj} (h : Stored s this v) :
    (∀ other w, Inside v other w →
        ¬ Becomes (s.assignCopy this other) this w.value ∧ ¬ Becomes (s.assignMove this other) this w.value) ∧
      (∀ r str, Refers v r (.string str) →
        ¬ Becomes (s.fromString this r) this (.string str) ∧
          ¬ Becomes (s.fromStringMove this r) this (.string str)) ∧
      (∀ loc val, Refers v (.owned .list loc) val →
        ¬ Becomes (s.fromList this loc) this val ∧ ¬ Becomes (s.fromListMove this loc) this val) ∧
      ∀ loc val, Refers v (.owned .dict loc) val →
        ¬ Becomes (s.fromDict this loc) this val ∧ ¬ Becomes (s.fromDictMove this loc) this val := by
  have href : ∀ r val, Refers v r val → ¬ Becomes (State.fromRef State.newCopy s this r) this val ∧
      ¬ Becomes (State.fromRef State.newMove s this r) this val := by
    intro r val hr
    obtain ⟨hcopy, hmove⟩ := fromRef_inside h hr
    exact ⟨not_becomes hcopy val, not_becomes hmove val⟩
  refine ⟨fun other w hin => ?_, fun r str => href r _, fun loc => href _, fun loc => href _⟩
  obtain ⟨hcopy, hmove⟩ := assign_inside h hin
  exact ⟨not_becomes hcopy _, not_becomes hmove _⟩

/-- The variable `0` is the list `[1]`. -/
def listOfOne : State where
  heap := Function.update (fun _ => none) 0 (some ⟨.list, [.scalar (.int 1)]⟩)
  next := 1
  vars := Function.update (fun _ => .scalar .none) 0 (.owner .list 0)

theorem listOfOne_stored : Stored listOfOne (.named 0) (.owner 0 .list [.scalar (.int 1)]) := by
  refine ⟨rfl, ⟨List.pairwise_singleton _ _, ?_⟩, ?_, ?_⟩
  · intro e he
    rw [List.mem_singleton.mp he]
    rfl
  · intro loc hloc
    rw [List.mem_singleton.mp hloc]
    exact Nat.one_pos
  · intro loc i he
    cases he

theorem inside_never_sample :
    ¬ Becomes (listOfOne.assignCopy (.named 0) (.item 0 0)) (.named 0) (.int 1) ∧
      ¬ Becomes (listOfOne.fromList (.named 0) 0) (.named 0) (.list [.int 1]) := by
  obtain ⟨hassign, -, hlist, -⟩ := inside_never listOfOne_stored
  exact ⟨(hassign _ (.scalar (.int 1)) (.item rfl)).1, (hlist 0 _ (.owned 0 .list _)).1⟩

/-- The element of a list, assigned to the list. -/
theorem assigns_deleted : ¬ ∀ (s : State) (this : Place) (v : Obj), Stored s this v →
    ∀ other w, Inside v other w → Becomes (s.assignCopy this other) this w.value := by
  intro h
  obtain ⟨s', o, hrun, -⟩ := h listOfOne (.named 0) _ listOfOne_stored (.item 0 0) (.scalar (.int 1)) (.item rfl)
  have hfault : listOfOne.assignCopy (.named 0) (.item 0 0) = .error .dangling := rfl
  cases hfault.symm.trans hrun

end Ownership

end VersatileEngine
