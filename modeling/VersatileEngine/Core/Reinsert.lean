import VersatileEngine.Core.SmallVector

/-!
# VersatileEngine.Core.Reinsert

`push_back` and `insert` of `SmallVectorImpl` with a reference to an element of the vector itself.

What the reference says is read after the elements have been shifted or have moved to a new block, so
here the bytes of a trivially copyable type stay where they were copied from, until they are written
over or their block is freed.

* `deref`           — reading through a reference; no result when the object or its block is gone.
* `Stands`          — the vector has the elements `xs`; bytes may lie in its spare room.
* `grow_spec`       — after growth only the bytes in the inline storage can still be read.
* `insertAt_spec`   — the gap, and what the cells around it say.
* `Survives`        — **when the element is still there to be read**.
* `reinsert_iff`    — both operations do what they have to exactly then.
-/

namespace VersatileEngine

namespace Cell

variable {α : Type}

/-- `memmove(p + j, p + i, n * sizeof(T))`: what lay there stays, unless it is written over. -/
def memmove (s : List (Cell α)) (i j n : Nat) : Option (List (Cell α)) :=
  if i + n ≤ s.length ∧ j + n ≤ s.length then some (s.take j ++ (s.drop i).take n ++ s.drop (j + n))
  else none

/-- `memcpy(d, s, n * sizeof(T))`. -/
def memcpy (s d : List (Cell α)) (n : Nat) : Option (List (Cell α)) :=
  if n ≤ s.length ∧ n ≤ d.length then some (s.take n ++ d.drop n) else none

/-- `new (p + i) T(v)`, over bytes that need no destructor. -/
def overwrite (s : List (Cell α)) (i : Nat) (v : α) : Option (List (Cell α)) :=
  if i < s.length then some (s.set i (.live v)) else none

theorem overwrite_middle {p q : List (Cell α)} (c : Cell α) (v : α) {i : Nat} (h : p.length = i) :
    overwrite (p ++ c :: q) i v = some (p ++ .live v :: q) := by
  rw [overwrite, if_pos (by simp [← h]), set_middle _ _ h]

theorem memcpy_lives {xs : List α} (rest : List (Cell α)) {n : Nat} (h : xs.length ≤ n) :
    memcpy (lives xs ++ rest) (deads n) xs.length = some (lives xs ++ deads (n - xs.length)) := by
  have htake : (lives xs ++ rest).take xs.length = lives xs := List.take_left' (lives_length xs)
  have hdrop : (deads n : List (Cell α)).drop xs.length = deads (n - xs.length) := List.drop_replicate
  rw [memcpy, if_pos (by simp [h]), htake, hdrop]

/-- The objects behind the gap are copied one place up. -/
theorem memmove_up {ys zs : List α} (z : α) (c : Cell α) (rest : List (Cell α)) :
    memmove (lives ys ++ lives (z :: zs) ++ c :: rest) ys.length (ys.length + 1) (z :: zs).length =
      some (lives ys ++ .live z :: (lives (z :: zs) ++ rest)) := by
  have hlen : (lives (z :: zs)).length = (z :: zs).length := lives_length (z :: zs)
  have hfront : (lives ys ++ [(.live z : Cell α)]).length = ys.length + 1 := by simp
  have hall : (lives ys ++ lives (z :: zs) ++ [c]).length = ys.length + 1 + (z :: zs).length := by
    simp only [List.length_append, lives_length, List.length_singleton]
    omega
  have htake : (lives ys ++ [(.live z : Cell α)] ++ (lives zs ++ c :: rest)).take (ys.length + 1) =
      lives ys ++ [.live z] := List.take_left' hfront
  have hdrop : (lives ys ++ lives (z :: zs) ++ c :: rest).drop ys.length = lives (z :: zs) ++ c :: rest := by
    rw [List.append_assoc, List.drop_left' (lives_length ys)]
  have hrest : (lives ys ++ lives (z :: zs) ++ [c] ++ rest).drop (ys.length + 1 + (z :: zs).length) = rest :=
    List.drop_left' hall
  have hfits : ys.length + (z :: zs).length ≤ (lives ys ++ lives (z :: zs) ++ c :: rest).length ∧
      ys.length + 1 + (z :: zs).length ≤ (lives ys ++ lives (z :: zs) ++ c :: rest).length := by
    simp only [List.length_append, lives_length, List.length_cons]
    omega
  simp only [lives_cons, List.append_assoc, List.cons_append, List.nil_append] at htake hdrop hrest hfits hlen ⊢
  rw [memmove, if_pos hfits, htake, hdrop, hrest, ← List.cons_append, List.take_left' hlen]
  simp only [List.append_assoc, List.cons_append, List.nil_append]

theorem read_lives {xs : List α} (q : List (Cell α)) {j : Nat} (h : j < xs.length) :
    read (lives xs ++ q) j = xs[j]? := by
  have hlt : j < (lives xs).length := by rwa [lives_length]
  rw [read, List.getElem?_append_left hlt, lives, List.getElem?_map, List.getElem?_eq_getElem h]
  rfl

theorem read_behind {p : List (Cell α)} {xs : List α} (q : List (Cell α)) {j : Nat} (h : j < xs.length) :
    read (p ++ (lives xs ++ q)) (p.length + j) = xs[j]? := by
  rw [← read_lives q h, read, read, List.getElem?_append_right (Nat.le_add_right _ _), Nat.add_sub_cancel_left]

theorem read_deads (n j : Nat) : read (deads n : List (Cell α)) j = none := by
  rw [read, deads, List.getElem?_replicate]
  split_ifs <;> rfl

end Cell

namespace SelfInsert

open View

variable {α : Type} (ty : VecType) (this : Nat)

/-- Where a reference points. -/
structure Ref where
  block : Block
  index : Nat

/-- Reading through a reference: there is no result when the object is gone, or its block. -/
def deref (w : View α) (r : Ref) : Option α := (w.mem r.block).bind fun s => Cell.read s r.index

/-- `_move_construct`. -/
def moveConstruct (m : Memory Block α) (src : Block) (count : Nat) (dst : Block) :
    Option (Memory Block α) :=
  m.between src dst fun s d =>
    if ty.triviallyCopyable then (Cell.memcpy s d count).map fun d => (s, d)
    else Cell.moveEach s d 0 count

/-- `::operator delete(b)`; bytes may be in it. -/
def delete (m : Memory Block α) (b : Block) : Option (Memory Block α) :=
  if ty.triviallyCopyable then
    match b with
    | .inline _ => none
    | .heap h => (m (.heap h)).map fun _ => Function.update m (.heap h) none
  else m.free b

/-- `_grow`. -/
def grow (w : View α) (minCap : Nat) : Option (View α) :=
  (growCap 33 w.capacity minCap).bind fun newCap =>
    let m := Function.update w.mem (.heap w.next) (some (Cell.deads newCap))
    (moveConstruct ty m w.data w.size (.heap w.next)).bind fun m =>
      (if w.isInline this then some m else delete ty m w.data).map fun m =>
        { w with mem := m, next := w.next + 1, data := .heap w.next, capacity := newCap }

/-- `_ensure_capacity`. -/
def ensureCapacity (w : View α) (needed : Nat) : Option (View α) :=
  if needed > w.capacity then grow ty this w needed else some w

/-- `new (p + i) T(v)`. -/
def construct (s : List (Cell α)) (i : Nat) (v : α) : Option (List (Cell α)) :=
  if ty.triviallyCopyable then Cell.overwrite s i v else Cell.construct s i v

/-- `push_back(v)`. -/
def pushBack (w : View α) (v : Ref) : Option (View α) :=
  (ensureCapacity ty this w (u32 (w.size + 1))).bind fun w => (deref w v).bind fun x =>
    (w.onData fun s => construct ty s w.size x).map fun w => { w with size := u32 (w.size + 1) }

/-- What `_insert_at` does to the elements from `index` on. -/
def openGap (size index : Nat) (s : List (Cell α)) : Option (List (Cell α)) :=
  if index < size then
    if ty.triviallyCopyable then Cell.memmove s index (index + 1) (size - index)
    else (Cell.constructFrom s size (size - 1)).bind fun s =>
      (Cell.shiftUp s index (size - 1 - index)).bind fun s => Cell.destroy s index
  else some s

/-- `_insert_at`. -/
def insertAt (w : View α) (index : Nat) : Option (View α) :=
  (ensureCapacity ty this w (u32 (w.size + 1))).bind fun w =>
    (w.onData (openGap ty w.size index)).map fun w => { w with size := u32 (w.size + 1) }

/-- `insert(begin() + index, value)`. -/
def insert (w : View α) (index : Nat) (value : Ref) : Option (View α) :=
  (insertAt ty this w index).bind fun w => (deref w value).bind fun x =>
    w.onData fun s => construct ty s index x

/-! ## The states of a vector -/

/-- The vector has the elements `xs`; where a type has destructors its spare room is empty. -/
structure Stands (w : View α) (xs : List α) : Prop where
  size : w.size = xs.length
  room : xs.length ≤ w.capacity
  pos : 0 < w.capacity
  small : w.capacity < 2 ^ 32
  cells : ∃ rest, w.mem w.data = some (Cell.lives xs ++ rest) ∧ rest.length = w.capacity - xs.length ∧
    (ty.triviallyCopyable = false → rest = Cell.deads (w.capacity - xs.length))
  place : w.data = .inline this ∧ w.capacity = ty.N ∨ ∃ h, w.data = .heap h ∧ h < w.next

variable {ty this} {w w' : View α} {xs ys zs : List α}

/-- A vector without bytes in its spare room is one of these. -/
theorem Stands.of_holds (h : Holds ty this w xs) : Stands ty this w xs := by
  refine ⟨h.size, h.room, h.pos, h.small, ⟨_, h.cells, Cell.deads_length _, fun _ => rfl⟩, ?_⟩
  rcases h.place with hp | ⟨hp, -⟩
  · exact .inl hp
  · exact .inr hp

/-- A vector has one list of elements. -/
theorem Stands.unique (h : Stands ty this w xs) (h' : Stands ty this w ys) : xs = ys := by
  obtain ⟨rest, hc, -, -⟩ := h.cells
  obtain ⟨rest', hc', -, -⟩ := h'.cells
  have hlen : (Cell.lives xs).length = (Cell.lives ys).length := by
    rw [Cell.lives_length, Cell.lives_length, ← h.size, h'.size]
  have hlives := (List.append_inj (Option.some.inj (hc.symm.trans hc')) hlen).1
  refine List.map_injective_iff.mpr ?_ hlives
  intro a b hab
  cases hab
  rfl

theorem Stands.ne_next (h : Stands ty this w xs) : w.data ≠ .heap w.next := by
  rcases h.place with ⟨hd, -⟩ | ⟨k, hd, hk⟩
  · rw [hd]
    simp
  · rw [hd]
    intro he
    cases he
    omega

theorem Stands.deref (h : Stands ty this w xs) {j : Nat} (hj : j < xs.length) :
    deref w ⟨w.data, j⟩ = xs[j]? := by
  obtain ⟨rest, hc, -, -⟩ := h.cells
  rw [SelfInsert.deref, hc, Option.bind_some, Cell.read_lives rest hj]

/-! ## Growth -/

/-- The loop of `_grow` gives a capacity with room for one more. -/
def Grows (capacity : Nat) : Prop :=
  capacity + 1 < 2 ^ 32 ∧ (growCap 33 capacity (capacity + 1)).isSome

theorem grows_of_lt {capacity : Nat} (hpos : 0 < capacity) (h : capacity < 2 ^ 31) : Grows capacity := by
  obtain ⟨c, hc, -, -, -⟩ := growCap_enough hpos (by omega : capacity < 2 ^ 32) (by omega : capacity + 1 ≤ 2 ^ 31)
  refine ⟨by omega, ?_⟩
  rw [hc]
  rfl

theorem growCap_bounds {need : Nat} : ∀ {k capacity c : Nat}, growCap k capacity need = some c →
    capacity < 2 ^ 32 → need ≤ c ∧ c < 2 ^ 32 := by
  intro k
  induction k with
  | zero =>
    intro capacity c h _
    cases h
  | succ k ih =>
    intro capacity c h hsmall
    rw [growCap] at h
    split at h
    · refine ih h ?_
      split
      · omega
      · exact Nat.mod_lt _ (by omega)
    · cases h
      omega

/-- The elements go to the new block. What stays behind is their bytes, or nothing. -/
theorem moveConstruct_spec {m : Memory Block α} {src dst : Block} (hne : src ≠ dst) {cap cap' : Nat}
    {rest : List (Cell α)} (hs : m src = some (Cell.lives xs ++ rest))
    (hdead : ty.triviallyCopyable = false → rest = Cell.deads (cap - xs.length))
    (hd : m dst = some (Cell.deads cap')) (hcap : xs.length ≤ cap) (hcap' : xs.length ≤ cap') :
    ∃ s, moveConstruct ty m src xs.length dst =
        some (Function.update (Function.update m src (some s)) dst
          (some (Cell.lives xs ++ Cell.deads (cap' - xs.length)))) ∧
      s = if ty.triviallyCopyable then Cell.lives xs ++ rest else Cell.deads cap := by
  refine ⟨_, ?_, rfl⟩
  by_cases htc : ty.triviallyCopyable = true
  · rw [moveConstruct, Memory.between, if_neg hne, hs, Option.bind_some, hd, Option.bind_some, if_pos htc,
      if_pos htc, Cell.memcpy_lives rest hcap']
    rfl
  · have hcells : m src = some (cellsOf cap xs) := by
      rw [hs, hdead (Bool.eq_false_iff.mpr htc), cellsOf]
    have hsame : moveConstruct ty m src xs.length dst = View.moveConstruct ty m src xs.length dst := by
      rw [moveConstruct, View.moveConstruct]
      simp only [if_neg htc]
    rw [hsame, moveConstruct_cells hne hcells hd hcap hcap', if_neg htc]
    rfl

/-- **After growth** what a reference said can be read when it was bytes in the inline storage. -/
theorem grow_spec (h : Stands ty this w xs) {need c : Nat} (hc : growCap 33 w.capacity need = some c)
    (hroom : xs.length ≤ c) (hpos : 0 < c) (hsmall : c < 2 ^ 32) :
    ∃ w', grow ty this w need = some w' ∧ Stands ty this w' xs ∧ w'.capacity = c ∧ w'.data ≠ w.data ∧
      ∀ j, SelfInsert.deref w' ⟨w.data, j⟩ =
        if ty.triviallyCopyable = true ∧ w.data = .inline this then SelfInsert.deref w ⟨w.data, j⟩ else none := by
  obtain ⟨rest, hcells, -, hdead⟩ := h.cells
  have hne := h.ne_next
  obtain ⟨s, hmove, hs⟩ := @moveConstruct_spec _ ty xs
    (Function.update w.mem (.heap w.next) (some (Cell.deads c))) w.data _ hne w.capacity c rest
    (by rw [Function.update_of_ne hne]; exact hcells) hdead (Function.update_self ..) h.room hroom
  generalize hm : Function.update (Function.update (Function.update w.mem (.heap w.next)
    (some (Cell.deads c))) w.data (some s)) (.heap w.next)
    (some (Cell.lives xs ++ Cell.deads (c - xs.length))) = m at hmove
  have hnew : m (.heap w.next) = some (Cell.lives xs ++ Cell.deads (c - xs.length)) := by
    rw [← hm, Function.update_self]
  have hold : m w.data = some s := by
    rw [← hm, Function.update_of_ne hne, Function.update_self]
  -- the memory after the old block is given up, if it is from the heap
  obtain ⟨m', hleave, hnew', hold'⟩ : ∃ m', (if w.isInline this then some m else delete ty m w.data) = some m' ∧
      m' (.heap w.next) = m (.heap w.next) ∧ m' w.data = if w.data = .inline this then some s else none := by
    rcases h.place with ⟨hin, -⟩ | ⟨k, hk, hlt⟩
    · refine ⟨m, if_pos (decide_eq_true hin), rfl, ?_⟩
      rw [if_pos hin, hold]
    · have hnot : ¬ w.isInline this = true := by simp [isInline, hk]
      have hne' : ¬ w.data = .inline this := by rw [hk]; simp
      refine ⟨Function.update m (.heap k) none, ?_, ?_, ?_⟩
      · rw [if_neg hnot, hk, delete]
        rw [hk] at hold
        by_cases htc : ty.triviallyCopyable = true
        · simp only [if_pos htc, hold, Option.map_some]
        · rw [if_neg htc] at hs ⊢
          exact free_deads (hold.trans (congrArg some hs))
      · exact Function.update_of_ne (by rintro he; cases he; omega) _ _
      · rw [if_neg hne', hk, Function.update_self]
  refine ⟨{ w with mem := m', next := w.next + 1, data := .heap w.next, capacity := c },
    ?_, ?_, rfl, Ne.symm hne, ?_⟩
  · rw [grow, hc, Option.bind_some]
    simp only [h.size, hmove, Option.bind_some, hleave, Option.map_some]
  · have hlt : w.next < w.next + 1 := Nat.lt_succ_self _
    exact ⟨h.size, hroom, hpos, hsmall, ⟨_, hnew'.trans hnew, Cell.deads_length _, fun _ => rfl⟩,
      .inr ⟨_, rfl, hlt⟩⟩
  · intro j
    rw [SelfInsert.deref, SelfInsert.deref]
    show (m' w.data).bind _ = _
    rw [hold', hcells]
    by_cases hin : w.data = .inline this
    · rw [if_pos hin, Option.bind_some, Option.bind_some, hs]
      by_cases htc : ty.triviallyCopyable = true
      · rw [if_pos htc, if_pos ⟨htc, hin⟩]
      · rw [if_neg htc, if_neg fun hb => htc hb.1]
        exact Cell.read_deads _ _
    · rw [if_neg hin, if_neg fun hb => hin hb.2]
      rfl

/-- **Making room in a full vector.** -/
theorem ensureCapacity_full (h : Stands ty this w xs) (hfull : xs.length = w.capacity) :
    (Grows w.capacity → ∃ w', ensureCapacity ty this w (u32 (w.size + 1)) = some w' ∧ Stands ty this w' xs ∧
      xs.length < w'.capacity ∧ w'.data ≠ w.data ∧ ∀ j, SelfInsert.deref w' ⟨w.data, j⟩ =
        if ty.triviallyCopyable = true ∧ w.data = .inline this then SelfInsert.deref w ⟨w.data, j⟩ else none) ∧
    (¬ Grows w.capacity → ensureCapacity ty this w (u32 (w.size + 1)) = none ∨
      ensureCapacity ty this w (u32 (w.size + 1)) = some w) := by
  have hsize : w.size = w.capacity := h.size.trans hfull
  rw [ensureCapacity, hsize]
  constructor
  · rintro ⟨hlt, hgrow⟩
    have hu : u32 (w.capacity + 1) = w.capacity + 1 := Nat.mod_eq_of_lt hlt
    obtain ⟨c, hc⟩ := Option.isSome_iff_exists.mp hgrow
    obtain ⟨hneed, hsmall⟩ := growCap_bounds hc h.small
    obtain ⟨w', hw', hstands, hcap, hmoved, hderef⟩ := grow_spec h hc (by omega) (by omega) hsmall
    refine ⟨w', ?_, hstands, by omega, hmoved, hderef⟩
    rw [hu, if_pos (Nat.lt_succ_self _), hw']
  · intro hnot
    by_cases hlt : w.capacity + 1 < 2 ^ 32
    · have hu : u32 (w.capacity + 1) = w.capacity + 1 := Nat.mod_eq_of_lt hlt
      have hnone : growCap 33 w.capacity (w.capacity + 1) = none := by
        rw [← Option.not_isSome_iff_eq_none]
        exact fun hs => hnot ⟨hlt, hs⟩
      refine .inl ?_
      rw [hu, if_pos (Nat.lt_succ_self _), grow, hnone]
      rfl
    · have hsmall := h.small
      have hmax : w.capacity + 1 = 2 ^ 32 := by omega
      refine .inr (if_neg ?_)
      rw [hmax]
      exact Nat.not_lt_zero _

theorem ensureCapacity_room (h : Stands ty this w xs) (hroom : xs.length < w.capacity) :
    ensureCapacity ty this w (u32 (w.size + 1)) = some w := by
  have hsmall := h.small
  have hu : u32 (w.size + 1) = xs.length + 1 := by
    rw [h.size]
    exact Nat.mod_eq_of_lt (by omega)
  rw [ensureCapacity, hu, if_neg (by omega)]

theorem ensureCapacity_size {need : Nat} (h : ensureCapacity ty this w need = some w') : w'.size = w.size := by
  rw [ensureCapacity] at h
  split at h
  · obtain ⟨c, -, h⟩ := Option.bind_eq_some_iff.mp h
    obtain ⟨m, -, h⟩ := Option.bind_eq_some_iff.mp h
    obtain ⟨m', -, rfl⟩ := Option.map_eq_some_iff.mp h
    rfl
  · cases h
    rfl

/-! ## The gap -/

/-- What lies in the gap: the bytes of the element that went up, or nothing. -/
def gapCell (ty : VecType) (zs : List α) (c : Cell α) : Cell α :=
  if ty.triviallyCopyable then (Cell.lives zs).headD c else .dead

theorem openGap_spec {c : Cell α} {rest : List (Cell α)}
    (hdead : ty.triviallyCopyable = false → c = .dead ∧ rest = Cell.deads rest.length) :
    openGap ty (ys ++ zs).length ys.length (Cell.lives ys ++ Cell.lives zs ++ c :: rest) =
      some (Cell.lives ys ++ gapCell ty zs c :: (Cell.lives zs ++ rest)) := by
  by_cases htc : ty.triviallyCopyable = true
  · rw [gapCell, if_pos htc, openGap]
    cases zs with
    | nil =>
      rw [if_neg (by simp), Cell.lives_nil, List.append_nil]
      rfl
    | cons z zs =>
      have hn : (ys ++ z :: zs).length - ys.length = (z :: zs).length := by simp
      rw [if_pos (by simp), if_pos htc, hn, Cell.memmove_up]
      rfl
  · obtain ⟨rfl, hrest⟩ := hdead (Bool.eq_false_iff.mpr htc)
    have hsame : openGap ty (ys ++ zs).length ys.length =
        (View.openGap ty (ys ++ zs).length ys.length : List (Cell α) → Option (List (Cell α))) := by
      funext s
      rw [openGap, View.openGap]
      simp only [if_neg htc]
    have hroom : (ys ++ zs).length < (ys ++ zs).length + 1 + rest.length := by omega
    have hspec := View.openGap_spec ty hroom
    rw [cellsOf_room hroom, Cell.lives_append, Nat.add_sub_cancel_left, ← hrest] at hspec
    rw [hsame, hspec, gapCell, if_neg htc]

/-- What the element number `j` says once the gap is open. -/
theorem read_gap {j : Nat} (hj : j < (ys ++ zs).length) (c : Cell α) (rest : List (Cell α)) :
    Cell.read (Cell.lives ys ++ gapCell ty zs c :: (Cell.lives zs ++ rest)) j =
      if j < ys.length then (ys ++ zs)[j]?
      else if j = ys.length then if ty.triviallyCopyable then (ys ++ zs)[j]? else none
      else (ys ++ zs)[j - 1]? := by
  have hlen := @Cell.lives_length α ys
  rw [List.length_append] at hj
  split_ifs with hlt heq htc
  · rw [Cell.read_lives _ hlt, List.getElem?_append_left hlt]
  · obtain ⟨z, zs, rfl⟩ := List.exists_cons_of_length_pos (by omega : 0 < zs.length)
    rw [gapCell, if_pos htc, heq, List.getElem?_append_right (Nat.le_refl _), Nat.sub_self]
    exact Cell.read_middle z hlen
  · rw [gapCell, if_neg htc, heq, Cell.read, Cell.get_middle _ hlen]
  · have hback : (j - 1 - ys.length) < zs.length := by omega
    have hread := @Cell.read_behind _ (Cell.lives ys ++ [gapCell ty zs c]) zs rest _ hback
    have hpos : (Cell.lives ys ++ [gapCell ty zs c]).length + (j - 1 - ys.length) = j := by
      rw [List.length_append, hlen, List.length_singleton]
      omega
    rw [hpos, List.append_assoc, List.cons_append, List.nil_append] at hread
    rw [hread, List.getElem?_append_right (by omega)]

/-- **A vector with room opens the gap**, and what is constructed there stands between the others. -/
theorem insertAt_spec (h : Stands ty this w (ys ++ zs)) (hroom : (ys ++ zs).length < w.capacity) :
    ∃ w', insertAt ty this w ys.length = some w' ∧
      (∀ j, j < (ys ++ zs).length → SelfInsert.deref w' ⟨w.data, j⟩ =
        if j < ys.length then (ys ++ zs)[j]?
        else if j = ys.length then if ty.triviallyCopyable then (ys ++ zs)[j]? else none
        else (ys ++ zs)[j - 1]?) ∧
      (∀ b j, b ≠ w.data → SelfInsert.deref w' ⟨b, j⟩ = SelfInsert.deref w ⟨b, j⟩) ∧
      ∀ x, ∃ w'', w'.onData (construct ty · ys.length x) = some w'' ∧ Stands ty this w'' (ys ++ x :: zs) := by
  have hsmall := h.small
  obtain ⟨free, hcells, hfree, hdead⟩ := h.cells
  obtain ⟨c, rest, rfl⟩ := List.exists_cons_of_length_pos (by omega : 0 < free.length)
  rw [List.length_cons] at hfree
  have hrest : ty.triviallyCopyable = false → c = .dead ∧ rest = Cell.deads rest.length := by
    intro htc
    have heq := hdead htc
    rw [← hfree, Cell.deads_succ] at heq
    exact List.cons.inj heq
  have hgap := @openGap_spec α ty ys zs c rest hrest
  have hu : u32 (w.size + 1) = (ys ++ zs).length + 1 := by
    rw [h.size]
    exact Nat.mod_eq_of_lt (by omega)
  rw [Cell.lives_append] at hcells
  let s := Cell.lives ys ++ gapCell ty zs c :: (Cell.lives zs ++ rest)
  let m := Function.update w.mem w.data (some s)
  have hm : m w.data = some s := Function.update_self ..
  refine ⟨{ w with mem := m, size := (ys ++ zs).length + 1 }, ?_, fun j hj => ?_, fun b j hb => ?_, fun x => ?_⟩
  · have hrun : w.onData (openGap ty w.size ys.length) = some { w with mem := m } := by
      rw [onData, Memory.on, hcells, Option.bind_some, h.size, hgap]
      rfl
    rw [insertAt, ensureCapacity_room h hroom, Option.bind_some, hrun, ← hu]
    rfl
  · rw [SelfInsert.deref]
    show (m w.data).bind _ = _
    rw [hm, Option.bind_some, read_gap hj]
  · rw [SelfInsert.deref, SelfInsert.deref]
    show (Function.update w.mem w.data (some s) b).bind _ = _
    rw [Function.update_of_ne hb]
  · have hfill : construct ty s ys.length x = some (Cell.lives (ys ++ x :: zs) ++ rest) := by
      have hlist : Cell.lives (ys ++ x :: zs) ++ rest = Cell.lives ys ++ .live x :: (Cell.lives zs ++ rest) := by
        simp only [Cell.lives_append, Cell.lives_cons, List.append_assoc, List.cons_append]
      rw [construct, hlist]
      by_cases htc : ty.triviallyCopyable = true
      · rw [if_pos htc, Cell.overwrite_middle _ x (Cell.lives_length ys)]
      · simp only [s, gapCell, if_neg htc]
        exact Cell.construct_middle x (Cell.lives_length ys)
    have hlen : (ys ++ x :: zs).length = (ys ++ zs).length + 1 := by
      simp only [List.length_append, List.length_cons]
      omega
    refine ⟨{ w with mem := Function.update m w.data (some (Cell.lives (ys ++ x :: zs) ++ rest)),
                     size := (ys ++ zs).length + 1 }, ?_, ⟨hlen.symm, ?_, h.pos, h.small, ?_, h.place⟩⟩
    · rw [onData, Memory.on]
      show ((m w.data).bind _).map _ = _
      rw [hm, Option.bind_some, hfill]
      rfl
    · show (ys ++ x :: zs).length ≤ w.capacity
      omega
    · refine ⟨rest, Function.update_self .., ?_, fun htc => ?_⟩
      · show rest.length = w.capacity - (ys ++ x :: zs).length
        omega
      · refine (hrest htc).2.trans (congrArg Cell.deads ?_)
        show rest.length = w.capacity - (ys ++ x :: zs).length
        omega

/-! ## Inserting an element of the vector -/

theorem construct_outside {s : List (Cell α)} {i : Nat} (h : s.length ≤ i) (x : α) :
    construct ty s i x = none := by
  rw [construct]
  split_ifs
  · rw [Cell.overwrite, if_neg (by omega)]
  · rw [Cell.construct, List.getElem?_eq_none h]

/-- A full vector without new room has no place for the element. -/
theorem insert_stuck (h : Stands ty this w xs) (hfull : xs.length = w.capacity) {i : Nat} (hi : i ≤ xs.length)
    (hstay : ensureCapacity ty this w (u32 (w.size + 1)) = some w) (r : Ref) : insert ty this w i r = none := by
  obtain ⟨rest, hcells, hlen, hdead⟩ := h.cells
  obtain rfl := List.eq_nil_of_length_eq_zero (by omega : rest.length = 0)
  rw [List.append_nil] at hcells
  have hcount := @Cell.lives_length α xs
  have hdata : ∀ f, w.onData f = (f (Cell.lives xs)).map fun s =>
      { w with mem := Function.update w.mem w.data (some s) } := by
    intro f
    rw [onData, Memory.on, hcells, Option.bind_some]
    cases f (Cell.lives xs) <;> rfl
  rw [insert, insertAt, hstay, Option.bind_some, hdata, h.size, openGap]
  by_cases hlt : i < xs.length
  · have hgap : (if ty.triviallyCopyable then Cell.memmove (Cell.lives xs) i (i + 1) (xs.length - i)
        else (Cell.constructFrom (Cell.lives xs) xs.length (xs.length - 1)).bind fun s =>
          (Cell.shiftUp s i (xs.length - 1 - i)).bind fun s => Cell.destroy s i) = none := by
      split_ifs
      · rw [Cell.memmove, if_neg (by omega)]
      · rw [Cell.constructFrom, Cell.fetch]
        cases Cell.read (Cell.lives xs) (xs.length - 1) with
        | none => rfl
        | some v =>
          rw [Option.map_some, Option.bind_some, Cell.construct, List.getElem?_eq_none (by simp)]
          rfl
    rw [if_pos hlt, hgap]
    rfl
  · rw [if_neg hlt]
    simp only [Option.map_some, Option.bind_some]
    refine Option.bind_eq_none_iff.mpr fun x _ => ?_
    rw [onData, Memory.on]
    show (((Function.update w.mem w.data (some (Cell.lives xs))) w.data).bind _).map _ = none
    rw [Function.update_self, Option.bind_some, construct_outside (by omega)]
    rfl

/-- What is inserted is what the reference says when the gap is open. -/
theorem insert_of_read {i : Nat} {r : Ref} (hopen : insertAt ty this w i = some w')
    (hfill : ∀ x, ∃ w'', w'.onData (construct ty · i x) = some w'' ∧ Stands ty this w'' (ys ++ x :: zs)) (x : α) :
    (∃ w'', insert ty this w i r = some w'' ∧ Stands ty this w'' (ys ++ x :: zs)) ↔
      SelfInsert.deref w' r = some x := by
  rw [insert, hopen, Option.bind_some]
  constructor
  · rintro ⟨w'', hrun, hstands⟩
    obtain ⟨y, hy, hrun⟩ := Option.bind_eq_some_iff.mp hrun
    obtain ⟨w₂, hrun', hstands'⟩ := hfill y
    cases hrun.symm.trans hrun'
    have hlist := List.append_cancel_left (hstands.unique hstands')
    rw [hy, (List.cons.inj hlist).1]
  · intro hx
    rw [hx, Option.bind_some]
    exact hfill x

/-- The element number `j` can still be read when it is inserted at `i`. -/
def Survives (ty : VecType) (this : Nat) (w : View α) (xs : List α) (i j : Nat) : Prop :=
  xs.length < w.capacity ∧
      (j < i ∨ j = i ∧ ty.triviallyCopyable = true ∨ i < j ∧ xs[j - 1]? = xs[j]?) ∨
    xs.length = w.capacity ∧ ty.triviallyCopyable = true ∧ w.data = .inline this ∧ Grows w.capacity

theorem insert_iff (h : Stands ty this w xs) {i j : Nat} (hi : i ≤ xs.length) {x : α} (hx : xs[j]? = some x) :
    (∃ w', insert ty this w i ⟨w.data, j⟩ = some w' ∧ Stands ty this w' (xs.take i ++ x :: xs.drop i)) ↔
      Survives ty this w xs i j := by
  obtain ⟨hj, -⟩ := List.getElem?_eq_some_iff.mp hx
  have hsplit := List.take_append_drop i xs
  have hlen : (xs.take i).length = i := List.length_take_of_le hi
  rcases Nat.lt_or_eq_of_le h.room with hroom | hfull
  · obtain ⟨w', hopen, hread, -, hfill⟩ := insertAt_spec (hsplit.symm ▸ h) (hsplit.symm ▸ hroom)
    rw [hlen] at hopen hread hfill
    rw [insert_of_read hopen hfill, hread j (hsplit.symm ▸ hj), hsplit, hx, Survives,
      or_iff_left fun hf => absurd hf.1 hroom.ne, and_iff_right hroom]
    rcases Nat.lt_trichotomy j i with hlt | rfl | hgt
    · rw [if_pos hlt]
      exact iff_of_true rfl (.inl hlt)
    · rw [if_neg (Nat.lt_irrefl j), if_pos rfl]
      by_cases htc : ty.triviallyCopyable = true
      · rw [if_pos htc]
        exact iff_of_true rfl (.inr (.inl ⟨rfl, htc⟩))
      · rw [if_neg htc]
        refine iff_of_false (by simp) ?_
        rintro (hlt | ⟨-, htc'⟩ | ⟨hlt, -⟩)
        · exact Nat.lt_irrefl _ hlt
        · exact htc htc'
        · exact Nat.lt_irrefl _ hlt
    · rw [if_neg (Nat.lt_asymm hgt), if_neg hgt.ne']
      constructor
      · exact fun he => .inr (.inr ⟨hgt, he.trans hx.symm⟩)
      · rintro (hlt | ⟨heq, -⟩ | ⟨-, he⟩)
        · exact absurd hlt (Nat.lt_asymm hgt)
        · exact absurd heq hgt.ne'
        · exact he.trans hx
  · obtain ⟨hgrows, hstuck⟩ := ensureCapacity_full h hfull
    rw [Survives, or_iff_right fun hf => absurd hf.1 hfull.not_lt, and_iff_right hfull]
    by_cases hg : Grows w.capacity
    · obtain ⟨w₁, hw₁, hstands, hroom, hmoved, hold⟩ := hgrows hg
      obtain ⟨w', hopen, -, hother, hfill⟩ := insertAt_spec (hsplit.symm ▸ hstands) (hsplit.symm ▸ hroom)
      rw [hlen] at hopen hfill
      have hopen' : insertAt ty this w i = some w' := by
        rw [← hopen, insertAt, insertAt, hw₁, ensureCapacity_room hstands hroom]
      rw [insert_of_read hopen' hfill, hother _ _ hmoved.symm, hold, h.deref hj, hx]
      by_cases hkept : ty.triviallyCopyable = true ∧ w.data = .inline this
      · rw [if_pos hkept]
        exact iff_of_true rfl ⟨hkept.1, hkept.2, hg⟩
      · rw [if_neg hkept]
        exact iff_of_false (by simp) fun hk => hkept ⟨hk.1, hk.2.1⟩
    · refine iff_of_false ?_ fun hk => hg hk.2.2
      rintro ⟨w', hrun, -⟩
      rcases hstuck hg with hnone | hstay
      · rw [insert, insertAt, hnone] at hrun
        cases hrun
      · rw [insert_stuck h hfull hi hstay] at hrun
        cases hrun

/-- `push_back` is `insert` at the end. -/
theorem pushBack_eq (w : View α) (r : Ref) : pushBack ty this w r = insert ty this w w.size r := by
  rw [pushBack, insert, insertAt]
  cases hw : ensureCapacity ty this w (u32 (w.size + 1)) with
  | none => rfl
  | some w' =>
    have hsize := ensureCapacity_size hw
    have hgap : (openGap ty w'.size w.size : List (Cell α) → Option (List (Cell α))) = some := by
      funext s
      rw [openGap, hsize, if_neg (Nat.lt_irrefl _)]
    rw [Option.bind_some, Option.bind_some, hgap, ← hsize]
    cases hs : w'.mem w'.data with
    | none =>
      have hnone : ∀ f, w'.onData f = none := by
        intro f
        rw [onData, Memory.on, hs]
        rfl
      rw [hnone]
      refine Option.bind_eq_none_iff.mpr fun x _ => ?_
      rw [hnone]
      rfl
    | some s =>
      have hsame : w'.onData some = some w' := by
        rw [onData, Memory.on, hs, Option.bind_some, Option.map_some, Option.map_some, ← hs,
          Function.update_eq_self]
      rw [hsame, Option.map_some, Option.bind_some]
      refine congrArg ((SelfInsert.deref w' r).bind ·) (funext fun x => ?_)
      rw [onData, onData, Option.map_map]
      rfl

theorem pushBack_iff (h : Stands ty this w xs) {j : Nat} {x : α} (hx : xs[j]? = some x) :
    (∃ w', pushBack ty this w ⟨w.data, j⟩ = some w' ∧ Stands ty this w' (xs ++ [x])) ↔
      xs.length < w.capacity ∨
        xs.length = w.capacity ∧ ty.triviallyCopyable = true ∧ w.data = .inline this ∧ Grows w.capacity := by
  obtain ⟨hj, -⟩ := List.getElem?_eq_some_iff.mp hx
  have hinsert := insert_iff h (Nat.le_refl xs.length) hx
  rw [List.take_length, List.drop_length, ← h.size, ← pushBack_eq] at hinsert
  refine hinsert.trans ?_
  rw [Survives, h.size, and_iff_left (.inl hj)]

/-- **An element of the vector itself** is appended and inserted as any other value exactly when it can still
be read after the others have been moved. -/
theorem reinsert_iff (ty : VecType) (this : Nat) {w : View α} {xs : List α} (h : Stands ty this w xs) {j : Nat}
    {x : α} (hx : xs[j]? = some x) :
    ((∃ w', pushBack ty this w ⟨w.data, j⟩ = some w' ∧ Stands ty this w' (xs ++ [x])) ↔
        xs.length < w.capacity ∨
          xs.length = w.capacity ∧ ty.triviallyCopyable = true ∧ w.data = .inline this ∧ Grows w.capacity) ∧
      ∀ i, i ≤ xs.length →
        ((∃ w', insert ty this w i ⟨w.data, j⟩ = some w' ∧ Stands ty this w' (xs.take i ++ x :: xs.drop i)) ↔
          Survives ty this w xs i j) :=
  ⟨pushBack_iff h hx, fun _ hi => insert_iff h hi hx⟩

/-- Numbers, four of them in the vector itself. -/
def numbers : VecType := ⟨4, true, true, by decide, by decide, fun h => h⟩

/-- The vector `{1, 2}`. -/
def oneTwo : View Nat where
  mem := Function.update (fun _ => none) (.inline 0) (some (Cell.lives [1, 2] ++ Cell.deads 2))
  next := 0
  data := .inline 0
  size := 2
  capacity := 4

theorem oneTwo_stands : Stands numbers 0 oneTwo [1, 2] :=
  ⟨rfl, by decide, by decide, by decide, ⟨Cell.deads 2, rfl, rfl, fun _ => rfl⟩, .inl ⟨rfl, rfl⟩⟩

theorem reinsert_sample :
    (∃ w', pushBack numbers 0 oneTwo ⟨.inline 0, 0⟩ = some w' ∧ Stands numbers 0 w' [1, 2, 1]) ∧
      ∃ w', insert numbers 0 oneTwo 1 ⟨.inline 0, 0⟩ = some w' ∧ Stands numbers 0 w' [1, 1, 2] := by
  obtain ⟨hpush, hinsert⟩ := @reinsert_iff Nat numbers 0 oneTwo [1, 2] oneTwo_stands 0 1 rfl
  refine ⟨hpush.mpr (.inl ?_), (hinsert 1 ?_).mpr (.inl ⟨?_, .inl Nat.one_pos⟩)⟩ <;> decide

/-- The second of two numbers inserted before the first: what is inserted is the first. -/
theorem inserts_other_element : ¬ ∀ (ty : VecType) (this : Nat) (w : View Nat) (xs : List Nat),
    Stands ty this w xs → ∀ i j x, i ≤ xs.length → xs[j]? = some x →
      ∃ w', insert ty this w i ⟨w.data, j⟩ = some w' ∧ Stands ty this w' (xs.take i ++ x :: xs.drop i) := by
  intro h
  obtain ⟨w', hrun, hstands⟩ := h numbers 0 oneTwo [1, 2] oneTwo_stands 0 1 2 (Nat.zero_le _) rfl
  obtain ⟨rest, hcells, -, -⟩ := hstands.cells
  have hdata : (insert numbers 0 oneTwo 0 ⟨.inline 0, 1⟩).bind (fun w => w.mem w.data) =
      some (Cell.lives [1, 1, 2] ++ Cell.deads 1) := by decide
  rw [show insert numbers 0 oneTwo 0 ⟨.inline 0, 1⟩ = some w' from hrun, Option.bind_some, hcells] at hdata
  cases hdata

end SelfInsert

end VersatileEngine
