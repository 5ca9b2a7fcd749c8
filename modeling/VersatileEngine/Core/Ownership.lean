import VersatileEngine.Core.Var

/-!
# VersatileEngine.Core.Ownership

A `Var` in memory: the tag and the union, and the blocks that `new` made for it.

* `Cell`, `Block`, `Heap` — a `Var` object, what it owns, and the allocated blocks. A list or a dictionary
  is one block with its `Var`s in it, by their places.
* `release`, `clone`      — `delete` of what a `Var` owns, with all that is owned below, and the deep copy.
  Reading or deleting a block that is not allocated is a `dangling` fault. Both descend at most so deep;
  more would be an `unending` fault.
* `Obj`                   — a value with its blocks; `Obj.Holds` says that they are in a heap, each once.
* `release_holds`         — **what is deleted is exactly the blocks of the value**.
* `clone_holds`           — **a copy holds the same value in new blocks**.
-/

namespace VersatileEngine

namespace Ownership

inductive Scalar where
  | none
  | bool (b : Bool)
  | int (i : Int64)
  | double (d : Binary64)
  | pointer (p : UInt64)

/-- The types that own a block. -/
inductive Kind where
  | string | bin | list | dict | callable | custom
deriving DecidableEq

/-- `_type` and `_storage`. -/
inductive Cell where
  | scalar (s : Scalar)
  | owner (kind : Kind) (loc : Nat)

/-- What a block says besides the `Var`s in it; a dictionary has its keys, in their order. -/
inductive Payload where
  | string (s : Str)
  | bin (b : List UInt8)
  | list
  | dict (keys : List Str)
  | callable (tag : Nat)
  | custom (tag : Nat) (text : Str)

def Payload.kind : Payload → Kind
  | string _ => .string
  | bin _ => .bin
  | list => .list
  | dict _ => .dict
  | callable _ => .callable
  | custom _ _ => .custom

structure Block where
  payload : Payload
  items : List Cell

abbrev Heap := Nat → Option Block

inductive Fault where
  | dangling | unending
deriving DecidableEq

abbrev Run (α : Type) := Except Fault α

/-- The block at an address. -/
def Heap.get (h : Heap) (loc : Nat) : Run Block :=
  match h loc with
  | some b => .ok b
  | none => .error .dangling

/-- `delete` of what a `Var` owns. -/
def release : Nat → Heap → Cell → Run Heap
  | 0, _, _ => .error .unending
  | _ + 1, h, .scalar _ => .ok h
  | fuel + 1, h, .owner _ loc =>
    (h.get loc).bind fun b => (b.items.foldlM (release fuel) h).bind fun h =>
      (h.get loc).map fun _ => Function.update h loc none

/-- The heap and the next address that `new` returns. -/
structure Store where
  heap : Heap
  next : Nat

def Store.alloc (s : Store) (b : Block) : Store × Nat :=
  (⟨Function.update s.heap s.next (some b), s.next + 1⟩, s.next)

/-- `copyFrom`, with the copies of all that is owned below. -/
def clone : Nat → Store → Cell → Run (Store × Cell)
  | 0, _, _ => .error .unending
  | _ + 1, s, .scalar c => .ok (s, .scalar c)
  | fuel + 1, s, .owner kind loc =>
    (s.heap.get loc).bind fun b =>
      (b.items.foldlM (fun r c => (clone fuel r.1 c).map fun r' => (r'.1, r.2 ++ [r'.2])) (s, [])).map fun r =>
        let new := r.1.alloc ⟨b.payload, r.2⟩
        (new.1, .owner kind new.2)

/-! ## Values with their blocks -/

inductive Obj where
  | scalar (s : Scalar)
  | owner (loc : Nat) (payload : Payload) (kids : List Obj)

namespace Obj

def cell : Obj → Cell
  | scalar s => .scalar s
  | owner loc payload _ => .owner payload.kind loc

def kids : Obj → List Obj
  | scalar _ => []
  | owner _ _ kids => kids

/-- Induction over a value through what it has in it. -/
theorem ind {P : Obj → Prop} (hs : ∀ s, P (scalar s))
    (ho : ∀ loc payload kids, (∀ k ∈ kids, P k) → P (owner loc payload kids)) (o : Obj) : P o := by
  refine @Obj.rec P (fun ks => ∀ k ∈ ks, P k) hs ho ?_ ?_ o
  · intro k hk
    cases hk
  · intro k ks hk hks j hj
    rcases List.mem_cons.mp hj with rfl | hj
    · exact hk
    · exact hks j hj

mutual
/-- The blocks of a value, each with its address. -/
def table : Obj → List (Nat × Block)
  | scalar _ => []
  | owner loc payload kids => (loc, ⟨payload, kids.map cell⟩) :: tables kids

def tables : List Obj → List (Nat × Block)
  | [] => []
  | k :: ks => table k ++ tables ks
end

def blocks (o : Obj) : List Nat := o.table.map Prod.fst

theorem tables_append (a b : List Obj) : tables (a ++ b) = tables a ++ tables b := by
  induction a with
  | nil => rfl
  | cons k a ih => rw [List.cons_append, tables, tables, ih, List.append_assoc]

theorem mem_tables {ks : List Obj} {k : Obj} (hk : k ∈ ks) : ∀ e ∈ k.table, e ∈ tables ks := by
  obtain ⟨a, b, rfl⟩ := List.append_of_mem hk
  intro e he
  rw [tables_append, tables]
  exact List.mem_append_right _ (List.mem_append_left _ he)

theorem length_table_le {ks : List Obj} {k : Obj} (hk : k ∈ ks) : k.table.length ≤ (tables ks).length := by
  obtain ⟨a, b, rfl⟩ := List.append_of_mem hk
  rw [tables_append, tables, List.length_append, List.length_append]
  omega

/-- The blocks are in the heap, each once. -/
structure HoldsAll (h : Heap) (table : List (Nat × Block)) : Prop where
  nodup : (table.map Prod.fst).Nodup
  there : ∀ e ∈ table, h e.1 = some e.2

def Holds (h : Heap) (o : Obj) : Prop := HoldsAll h o.table

theorem HoldsAll.left {h : Heap} {a b : List (Nat × Block)} (hab : HoldsAll h (a ++ b)) : HoldsAll h a := by
  refine ⟨?_, fun e he => hab.there e (List.mem_append_left _ he)⟩
  have hnodup := hab.nodup
  rw [List.map_append, List.nodup_append] at hnodup
  exact hnodup.1

theorem HoldsAll.right {h : Heap} {a b : List (Nat × Block)} (hab : HoldsAll h (a ++ b)) : HoldsAll h b := by
  refine ⟨?_, fun e he => hab.there e (List.mem_append_right _ he)⟩
  have hnodup := hab.nodup
  rw [List.map_append, List.nodup_append] at hnodup
  exact hnodup.2.1

/-- A heap that agrees on the blocks holds them. -/
theorem HoldsAll.agrees {h h' : Heap} {table : List (Nat × Block)} (ht : HoldsAll h table)
    (hh : ∀ loc ∈ table.map Prod.fst, h' loc = h loc) : HoldsAll h' table :=
  ⟨ht.nodup, fun e he => (hh e.1 (List.mem_map_of_mem he)).trans (ht.there e he)⟩

theorem HoldsAll.of_mem {h : Heap} {ks : List Obj} {k : Obj} (hall : HoldsAll h (tables ks)) (hk : k ∈ ks) :
    k.Holds h := by
  obtain ⟨a, b, rfl⟩ := List.append_of_mem hk
  rw [tables_append, tables] at hall
  exact hall.right.left

theorem HoldsAll.apart {h : Heap} {a b : List (Nat × Block)} (hab : HoldsAll h (a ++ b)) :
    ∀ loc ∈ b.map Prod.fst, loc ∉ a.map Prod.fst := by
  have hnodup := hab.nodup
  rw [List.map_append, List.nodup_append] at hnodup
  intro loc hb ha
  exact hnodup.2.2 loc ha loc hb rfl

theorem HoldsAll.tail {h : Heap} {e : Nat × Block} {b : List (Nat × Block)} (hb : HoldsAll h (e :: b)) :
    HoldsAll h b := @HoldsAll.right h [e] b hb

end Obj

/-! ## Deleting -/

/-- The heap without some blocks. -/
def erase (h : Heap) (locs : List Nat) : Heap := fun loc => if loc ∈ locs then none else h loc

theorem erase_append (h : Heap) (a b : List Nat) : erase (erase h a) b = erase h (a ++ b) := by
  funext loc
  simp only [erase, List.mem_append]
  by_cases hb : loc ∈ b
  · rw [if_pos hb, if_pos (.inr hb)]
  · rw [if_neg hb]
    simp only [hb, or_false]

theorem release_kids {fuel : Nat} {ks : List Obj} : ∀ {h : Heap}, Obj.HoldsAll h (Obj.tables ks) →
    (∀ k ∈ ks, ∀ h, k.Holds h → release fuel h k.cell = .ok (erase h k.blocks)) →
    (ks.map Obj.cell).foldlM (release fuel) h = .ok (erase h ((Obj.tables ks).map Prod.fst)) := by
  induction ks with
  | nil =>
    intro h _ _
    have hsame : erase h [] = h := funext fun loc => if_neg List.not_mem_nil
    exact congrArg Except.ok hsame.symm
  | cons k ks ih =>
    intro h hall hk
    have hrest : Obj.HoldsAll (erase h k.blocks) (Obj.tables ks) :=
      hall.right.agrees fun loc hloc => if_neg (hall.apart loc hloc)
    have hrun := ih hrest fun k' hk' => hk k' (List.mem_cons_of_mem _ hk')
    rw [List.map_cons, List.foldlM_cons, hk k List.mem_cons_self h hall.left]
    refine hrun.trans ?_
    rw [erase_append, Obj.tables, List.map_append]
    rfl

/-- **What is deleted is exactly the blocks of the value.** -/
theorem release_holds (o : Obj) : ∀ (fuel : Nat) (h : Heap), o.Holds h → o.table.length < fuel →
    release fuel h o.cell = .ok (erase h o.blocks) := by
  induction o using Obj.ind with
  | hs c =>
    intro fuel h _ hfuel
    obtain ⟨fuel, rfl⟩ : ∃ n, fuel = n + 1 := ⟨fuel - 1, by omega⟩
    have hsame : erase h [] = h := funext fun loc => if_neg List.not_mem_nil
    exact congrArg Except.ok hsame.symm
  | ho loc payload kids ih =>
    intro fuel h hold hfuel
    obtain ⟨fuel, rfl⟩ : ∃ n, fuel = n + 1 := ⟨fuel - 1, by omega⟩
    have hhead : h loc = some ⟨payload, kids.map Obj.cell⟩ := hold.there _ List.mem_cons_self
    have hfresh : loc ∉ (Obj.tables kids).map Prod.fst := (List.nodup_cons.mp hold.nodup).1
    rw [Obj.table, List.length_cons] at hfuel
    have hkids := @release_kids fuel kids h hold.tail fun k hk h' hk' => by
      have hlen := Obj.length_table_le hk
      exact ih k hk fuel h' hk' (by omega)
    have hget : h.get loc = .ok ⟨payload, kids.map Obj.cell⟩ := by rw [Heap.get, hhead]
    have hget' : Heap.get (erase h ((Obj.tables kids).map Prod.fst)) loc = .ok ⟨payload, kids.map Obj.cell⟩ := by
      rw [Heap.get, erase, if_neg hfresh, hhead]
    rw [Obj.cell, release, hget]
    show (((kids.map Obj.cell).foldlM (release fuel) h).bind _) = _
    rw [hkids]
    show (Heap.get (erase h ((Obj.tables kids).map Prod.fst)) loc).map _ = _
    rw [hget']
    refine congrArg Except.ok (funext fun l => ?_)
    show Function.update (erase h ((Obj.tables kids).map Prod.fst)) loc none l = _
    rw [Function.update_apply, erase, erase, Obj.blocks, Obj.table, List.map_cons]
    simp only [List.mem_cons]
    by_cases hl : l = loc
    · rw [if_pos hl, if_pos (.inl hl)]
    · rw [if_neg hl]
      simp only [hl, false_or]

/-! ## Copying -/

def Scalar.value : Scalar → Var
  | .none => .none
  | .bool b => .bool b
  | .int i => .int i
  | .double d => .double d
  | .pointer p => .pointer p

/-- The value of a block with the values in it. -/
def Payload.value (items : List Var) : Payload → Var
  | .string s => .string s
  | .bin b => .bin b
  | .list => .list items
  | .dict keys => .dict (keys.zip items)
  | .callable tag => .callable tag
  | .custom tag text => .custom tag text

mutual
def Obj.value : Obj → Var
  | .scalar s => s.value
  | .owner _ payload kids => payload.value (Obj.values kids)

def Obj.values : List Obj → List Var
  | [] => []
  | k :: ks => Obj.value k :: Obj.values ks
end

/-- What copying the values `ks` leaves: the values `os` in new blocks, and the old blocks as they were. -/
structure Copied (s s' : Store) (ks os : List Obj) : Prop where
  values : Obj.values os = Obj.values ks
  holds : Obj.HoldsAll s'.heap (Obj.tables os)
  fresh : ∀ loc ∈ (Obj.tables os).map Prod.fst, s.next ≤ loc ∧ loc < s'.next
  frame : ∀ loc, loc < s.next → s'.heap loc = s.heap loc
  mono : s.next ≤ s'.next

theorem Copied.cons {s s₁ s' : Store} {k o : Obj} {ks os : List Obj} (h : Copied s s₁ [k] [o])
    (h' : Copied s₁ s' ks os) : Copied s s' (k :: ks) (o :: os) := by
  have htable : Obj.tables [o] = o.table := List.append_nil _
  have hold := h.holds
  have hfresh := h.fresh
  rw [htable] at hold hfresh
  have hvalue : o.value = k.value := (List.cons.inj h.values).1
  have hkept : Obj.HoldsAll s'.heap o.table := hold.agrees fun loc hloc => h'.frame loc (hfresh loc hloc).2
  refine ⟨?_, ⟨?_, ?_⟩, ?_, ?_, h.mono.trans h'.mono⟩
  · rw [Obj.values, Obj.values, hvalue, h'.values]
  · rw [Obj.tables, List.map_append, List.nodup_append]
    refine ⟨hold.nodup, h'.holds.nodup, ?_⟩
    rintro a ha b hb rfl
    have h1 := (hfresh a ha).2
    have h2 := (h'.fresh a hb).1
    omega
  · intro e he
    rcases List.mem_append.mp he with he | he
    · exact hkept.there e he
    · exact h'.holds.there e he
  · intro loc hloc
    rw [Obj.tables, List.map_append] at hloc
    have h1 := h.mono
    have h2 := h'.mono
    rcases List.mem_append.mp hloc with hloc | hloc
    · have := hfresh loc hloc
      omega
    · have := h'.fresh loc hloc
      omega
  · intro loc hloc
    rw [h'.frame loc (hloc.trans_le h.mono), h.frame loc hloc]

theorem clone_kids {fuel : Nat} {ks : List Obj}
    (hk : ∀ k ∈ ks, ∀ s : Store, k.Holds s.heap → (∀ loc ∈ k.blocks, loc < s.next) →
      ∃ s' o, clone fuel s k.cell = .ok (s', o.cell) ∧ Copied s s' [k] [o]) :
    ∀ (s : Store) (done : List Cell), Obj.HoldsAll s.heap (Obj.tables ks) →
      (∀ loc ∈ (Obj.tables ks).map Prod.fst, loc < s.next) →
      ∃ s' os, (ks.map Obj.cell).foldlM
          (fun r c => (clone fuel r.1 c).map fun r' => (r'.1, r.2 ++ [r'.2])) (s, done) =
            .ok (s', done ++ os.map Obj.cell) ∧ Copied s s' ks os := by
  induction ks with
  | nil =>
    intro s done _ _
    refine ⟨s, [], by rw [List.map_nil, List.append_nil]; rfl, rfl, ⟨List.nodup_nil, List.forall_mem_nil _⟩, ?_,
      fun _ _ => rfl, Nat.le_refl _⟩
    intro loc hloc
    cases hloc
  | cons k ks ih =>
    intro s done hall hlt
    rw [Obj.tables, List.map_append, List.forall_mem_append] at hlt
    obtain ⟨s₁, o, hrun, hcopied⟩ := hk k List.mem_cons_self s hall.left hlt.1
    have hrest : Obj.HoldsAll s₁.heap (Obj.tables ks) :=
      hall.right.agrees fun loc hloc => hcopied.frame loc (hlt.2 loc hloc)
    obtain ⟨s', os, hruns, hcopies⟩ := ih (fun k' hk' => hk k' (List.mem_cons_of_mem _ hk')) s₁
      (done ++ [o.cell]) hrest fun loc hloc => (hlt.2 loc hloc).trans_le hcopied.mono
    refine ⟨s', o :: os, ?_, hcopied.cons hcopies⟩
    rw [List.map_cons, List.foldlM_cons, hrun]
    refine hruns.trans ?_
    rw [List.map_cons, List.append_assoc]
    rfl

/-- **A copy holds the same value in new blocks.** -/
theorem clone_holds (w : Obj) : ∀ (fuel : Nat) (s : Store), w.Holds s.heap → (∀ loc ∈ w.blocks, loc < s.next) →
    w.table.length < fuel → ∃ s' o, clone fuel s w.cell = .ok (s', o.cell) ∧ Copied s s' [w] [o] := by
  induction w using Obj.ind with
  | hs c =>
    intro fuel s _ _ hfuel
    obtain ⟨fuel, rfl⟩ : ∃ n, fuel = n + 1 := ⟨fuel - 1, by omega⟩
    refine ⟨s, .scalar c, rfl, rfl, ⟨List.nodup_nil, List.forall_mem_nil _⟩, ?_, fun _ _ => rfl, Nat.le_refl _⟩
    intro loc hloc
    cases hloc
  | ho loc payload kids ih =>
    intro fuel s hold hlt hfuel
    obtain ⟨fuel, rfl⟩ : ∃ n, fuel = n + 1 := ⟨fuel - 1, by omega⟩
    have hhead : s.heap loc = some ⟨payload, kids.map Obj.cell⟩ := hold.there _ List.mem_cons_self
    have hget : s.heap.get loc = .ok ⟨payload, kids.map Obj.cell⟩ := by rw [Heap.get, hhead]
    rw [Obj.table, List.length_cons] at hfuel
    have hbelow : ∀ l ∈ (Obj.tables kids).map Prod.fst, l < s.next := by
      intro l hl
      exact hlt l (List.mem_cons_of_mem _ hl)
    obtain ⟨s', os, hruns, hcopied⟩ := @clone_kids fuel kids (fun k hk s hk' hl => by
      have hlen := Obj.length_table_le hk
      exact ih k hk fuel s hk' hl (by omega)) s [] hold.tail hbelow
    refine ⟨(s'.alloc ⟨payload, os.map Obj.cell⟩).1, .owner s'.next payload os, ?_, ?_⟩
    · rw [Obj.cell, clone, hget]
      exact congrArg (Except.map _) hruns
    · have hmono := hcopied.mono
      have htable : Obj.tables [.owner s'.next payload os] =
          (s'.next, ⟨payload, os.map Obj.cell⟩) :: Obj.tables os := List.append_nil _
      have hnew : s'.next ∉ (Obj.tables os).map Prod.fst := by
        intro hmem
        exact Nat.lt_irrefl _ (hcopied.fresh _ hmem).2
      refine ⟨?_, ⟨?_, ?_⟩, ?_, ?_, ?_⟩
      · have hvalue : (Obj.owner s'.next payload os).value = (Obj.owner loc payload kids).value :=
          congrArg (Payload.value · payload) hcopied.values
        rw [Obj.values, Obj.values, hvalue]
        rfl
      · rw [htable, List.map_cons, List.nodup_cons]
        exact ⟨hnew, hcopied.holds.nodup⟩
      · intro e he
        rw [htable] at he
        rcases List.mem_cons.mp he with rfl | he
        · exact Function.update_self ..
        · have hne : e.1 ≠ s'.next := fun heq => hnew (heq ▸ List.mem_map_of_mem he)
          exact (Function.update_of_ne hne _ _).trans (hcopied.holds.there e he)
      · intro l hl
        show s.next ≤ l ∧ l < s'.next + 1
        rw [htable, List.map_cons] at hl
        rcases List.mem_cons.mp hl with rfl | hl
        · exact ⟨hmono, Nat.lt_succ_self _⟩
        · have := hcopied.fresh l hl
          omega
      · intro l hl
        have hne : l ≠ s'.next := by omega
        exact (Function.update_of_ne hne _ _).trans (hcopied.frame l hl)
      · exact hmono.trans (Nat.le_succ _)

end Ownership

end VersatileEngine
