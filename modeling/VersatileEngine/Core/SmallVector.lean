import VersatileEngine.Lib.Cells

/-!
# VersatileEngine.Core.SmallVector

`SmallVectorImpl<T, N>` of `small_vector.h`: up to `N` elements in the vector itself, more of them in a
heap block.

A `View` is one vector together with the memory; the operations on one vector work on views. They have
no result where the code would construct over an object, use or destroy one that is not there, free a
block twice or with an object in it, or run on in the loop of `_grow`. A `Pool` has many vectors.

An object of a trivially copyable type goes with its bytes, and one of a trivially destructible type
ends when its storage is given up, so `memcpy`, `memmove` and a `_destroy_range` that does nothing
leave dead cells behind.
-/

namespace VersatileEngine

/-- Where the elements of a vector can be: in the vector `i` itself or in the heap block `h`. -/
inductive Block where
  | inline (i : Nat)
  | heap (h : Nat)
  deriving DecidableEq, Repr

/-- The inline capacity, and the traits of the element type that the code asks for. -/
structure VecType where
  N : Nat
  triviallyCopyable : Bool
  triviallyDestructible : Bool
  pos : 0 < N
  small : N < 2 ^ 32
  traits : triviallyCopyable → triviallyDestructible

/-- A vector, with the memory and the number of the next heap block. -/
structure View (α : Type) where
  mem : Memory Block α
  next : Nat
  data : Block
  size : Nat
  capacity : Nat

namespace Memory

variable {α : Type}

/-- An operation on the cells of one block. -/
def on (m : Memory Block α) (b : Block) (f : List (Cell α) → Option (List (Cell α))) :
    Option (Memory Block α) :=
  (m b).bind fun s => (f s).map fun s => Function.update m b (some s)

/-- An operation on the cells of two blocks, which must not be the same. -/
def between (m : Memory Block α) (src dst : Block)
    (f : List (Cell α) → List (Cell α) → Option (List (Cell α) × List (Cell α))) :
    Option (Memory Block α) :=
  if src = dst then none
  else (m src).bind fun s => (m dst).bind fun d => (f s d).map fun r =>
    Function.update (Function.update m src (some r.1)) dst (some r.2)

/-- The storage of a block ends, in which no object may be left. -/
def release (m : Memory Block α) (b : Block) : Option (Memory Block α) :=
  (m b).bind fun s =>
    if s.all Cell.isDead then some (Function.update m b none) else none

/-- `::operator delete(b)`. -/
def free (m : Memory Block α) (b : Block) : Option (Memory Block α) :=
  match b with
  | .inline _ => none
  | .heap h => m.release (.heap h)

end Memory

namespace View

/-- `uint32_t` arithmetic. -/
def u32 (n : Nat) : Nat := n % 2 ^ 32

variable {α : Type} (ty : VecType) (this : Nat)

def onData (w : View α) (f : List (Cell α) → Option (List (Cell α))) : Option (View α) :=
  (w.mem.on w.data f).map fun m => { w with mem := m }

def isInline (w : View α) : Bool := w.data = .inline this

def destroyRange (w : View α) (lo hi : Nat) : Option (View α) :=
  w.onData fun s =>
    if ty.triviallyDestructible then some (Cell.killEach s lo (hi - lo))
    else Cell.destroyEach s lo (hi - lo)

def freeHeap (w : View α) : Option (View α) :=
  if w.isInline this then some w
  else (w.mem.free w.data).map fun m => { w with mem := m, data := .inline this, capacity := ty.N }

def copyConstruct (m : Memory Block α) (src : Block) (count : Nat) (dst : Block) :
    Option (Memory Block α) :=
  m.between src dst fun s d =>
    (if ty.triviallyCopyable then Cell.copyBytes s d count else Cell.copyEach s d 0 count).map
      fun d => (s, d)

def moveConstruct (m : Memory Block α) (src : Block) (count : Nat) (dst : Block) :
    Option (Memory Block α) :=
  m.between src dst fun s d =>
    if ty.triviallyCopyable then Cell.relocateTo s d count else Cell.moveEach s d 0 count

/-- `while (new_cap < min_cap) new_cap = (new_cap < 4) ? 4 : new_cap * 2;`, for so many turns. -/
def growCap : Nat → Nat → Nat → Option Nat
  | 0, _, _ => none
  | k + 1, newCap, minCap =>
    if newCap < minCap then growCap k (if newCap < 4 then 4 else u32 (newCap * 2)) minCap
    else some newCap

/-- The elements move to a new heap block. -/
def toHeap (w : View α) (newCap : Nat) : Option (View α) :=
  let m := Function.update w.mem (.heap w.next) (some (Cell.deads newCap))
  (moveConstruct ty m w.data w.size (.heap w.next)).bind fun m =>
    (if w.isInline this then some m else m.free w.data).map fun m =>
      { w with mem := m, next := w.next + 1, data := .heap w.next, capacity := newCap }

def grow (w : View α) (minCap : Nat) : Option (View α) :=
  (growCap 33 w.capacity minCap).bind fun newCap => w.toHeap ty this newCap

def ensureCapacity (w : View α) (needed : Nat) : Option (View α) :=
  if needed > w.capacity then w.grow ty this needed else some w

/-- `push_back` of a value or a temporary, and `emplace_back`. -/
def pushBack (w : View α) (v : α) : Option (View α) :=
  (w.ensureCapacity ty this (u32 (w.size + 1))).bind fun w =>
    (w.onData fun s => Cell.construct s w.size v).map fun w => { w with size := u32 (w.size + 1) }

/-- `_insert_at`. -/
def insertAt (w : View α) (index : Nat) : Option (View α) :=
  (w.ensureCapacity ty this (u32 (w.size + 1))).bind fun w =>
    (if index < w.size then
      w.onData fun s =>
        if ty.triviallyCopyable then Cell.relocate s index (index + 1) (w.size - index)
        else (Cell.constructFrom s w.size (w.size - 1)).bind fun s =>
          (Cell.shiftUp s index (w.size - 1 - index)).bind fun s => Cell.destroy s index
    else some w).map fun w => { w with size := u32 (w.size + 1) }

def insert (w : View α) (index : Nat) (v : α) : Option (View α) :=
  (w.insertAt ty this index).bind fun w => w.onData fun s => Cell.construct s index v

def erase (w : View α) (index : Nat) : Option (View α) :=
  let trailing := w.size - index - 1
  (w.onData fun s =>
    (Cell.destroy s index).bind fun s =>
      if trailing > 0 then
        if ty.triviallyCopyable then Cell.relocate s (index + 1) index trailing
        else (Cell.constructFrom s index (index + 1)).bind fun s =>
          (Cell.shiftDown s (index + 1) (w.size - 1 - (index + 1))).bind fun s =>
            Cell.destroy s (w.size - 1)
      else some s).map fun w => { w with size := w.size - 1 }

def eraseSwap (w : View α) (index : Nat) : Option (View α) :=
  let size := w.size - 1
  (w.onData fun s =>
    (if index ≠ size then (Cell.destroy s index).bind fun s => Cell.constructFrom s index size
    else some s).bind fun s => Cell.destroy s size).map fun w => { w with size := size }

def popBack (w : View α) : Option (View α) :=
  (w.onData fun s => Cell.destroy s (w.size - 1)).map fun w => { w with size := w.size - 1 }

def clear (w : View α) : Option (View α) :=
  (w.destroyRange ty 0 w.size).map fun w => { w with size := 0 }

def reserve (w : View α) (newCap : Nat) : Option (View α) :=
  if newCap > w.capacity then w.grow ty this newCap else some w

def resize (w : View α) (newSize : Nat) (fill : α) : Option (View α) :=
  (if newSize < w.size then w.destroyRange ty newSize w.size
  else if newSize > w.size then
    (w.reserve ty this newSize).bind fun w =>
      w.onData fun s => Cell.fillEach fill s w.size (newSize - w.size)
  else some w).map fun w => { w with size := newSize }

def shrinkToFit (w : View α) : Option (View α) :=
  if w.isInline this ∨ w.size = w.capacity then some w
  else if w.size ≤ ty.N then
    (moveConstruct ty w.mem w.data w.size (.inline this)).bind fun m => (m.free w.data).map fun m =>
      { w with mem := m, data := .inline this, capacity := ty.N }
  else
    let m := Function.update w.mem (.heap w.next) (some (Cell.deads w.size))
    (moveConstruct ty m w.data w.size (.heap w.next)).bind fun m => (m.free w.data).map fun m =>
      { w with mem := m, next := w.next + 1, data := .heap w.next, capacity := w.size }

/-- What the move assignment does before it takes the elements of the other vector. -/
def reset (w : View α) : Option (View α) :=
  (w.destroyRange ty 0 w.size).bind fun w => (w.freeHeap ty this).map fun w =>
    { w with data := .inline this, size := 0, capacity := ty.N }

/-- The copy of the elements of the vector `o`, into an empty vector. -/
def copyFrom (w : View α) (data : Block) (size : Nat) : Option (View α) :=
  (w.reserve ty this size).bind fun w =>
    (copyConstruct ty w.mem data size w.data).map fun m => { w with mem := m, size := size }

/-- The cells of a vector of the capacity `cap` with the elements `xs`. -/
def cellsOf (cap : Nat) (xs : List α) : List (Cell α) := Cell.lives xs ++ Cell.deads (cap - xs.length)

/-- The vector `this` has the elements `xs`, and no other object is in its blocks. -/
structure Holds (w : View α) (xs : List α) : Prop where
  size : w.size = xs.length
  room : xs.length ≤ w.capacity
  pos : 0 < w.capacity
  small : w.capacity < 2 ^ 32
  cells : w.mem w.data = some (cellsOf w.capacity xs)
  place : (w.data = .inline this ∧ w.capacity = ty.N) ∨
    (∃ h, w.data = .heap h ∧ h < w.next) ∧ w.mem (.inline this) = some (Cell.deads ty.N)
  fresh : ∀ h, w.next ≤ h → w.mem (.heap h) = none

/-- What an operation on the vector `this` leaves alone: the blocks of the others. A heap block that
is there afterwards was there before, unless it is the new one of the vector. -/
structure Frame (w w' : View α) : Prop where
  mono : w.next ≤ w'.next
  other : ∀ b, b ≠ .inline this → b ≠ w.data → (∀ h, b = .heap h → h < w.next) → w'.mem b = w.mem b
  heaps : ∀ h, w'.mem (.heap h) ≠ none →
    w'.data = .heap h ∨ w.mem (.heap h) ≠ none ∧ w.data ≠ .heap h
  data : w'.data = w.data ∨ w'.data = .inline this ∨ ∃ h, w.next ≤ h ∧ w'.data = .heap h

/-- The operation has a result, in which the vector has the elements `ys`. -/
def Effect (w : View α) (r : Option (View α)) (ys : List α) : Prop :=
  ∃ w', r = some w' ∧ Holds ty this w' ys ∧ Frame this w w'

section Effects

variable {ty} {this} {w w' w'' : View α} {xs ys : List α}

theorem Frame.refl (w : View α) : Frame this w w :=
  ⟨Nat.le_refl _, fun _ _ _ _ => rfl, fun h hh => by
    by_cases hd : w.data = .heap h
    · exact .inl hd
    · exact .inr ⟨hh, hd⟩, .inl rfl⟩

theorem Frame.trans (h : Frame this w w') (h' : Frame this w' w'') : Frame this w w'' := by
  refine ⟨h.mono.trans h'.mono, ?_, ?_, ?_⟩
  · intro b hb hd hlt
    have hd' : b ≠ w'.data := by
      rcases h.data with he | he | ⟨k, hk, he⟩
      · rwa [he]
      · rwa [he]
      · intro hbd
        have := hlt k (hbd.trans he)
        omega
    rw [h'.other b hb hd' fun k hk => (hlt k hk).trans_le h.mono]
    exact h.other b hb hd hlt
  · intro k hk
    rcases h'.heaps k hk with hd | ⟨hm, hd⟩
    · exact .inl hd
    · rcases h.heaps k hm with hd' | hd'
      · exact absurd hd' hd
      · exact .inr hd'
  · rcases h'.data with he | he | ⟨k, hk, he⟩
    · rw [he]
      exact h.data
    · exact .inr (.inl he)
    · exact .inr (.inr ⟨k, h.mono.trans hk, he⟩)

theorem Effect.refl (h : Holds ty this w xs) : Effect ty this w (some w) xs := ⟨w, rfl, h, .refl w⟩

theorem Effect.bind {r : Option (View α)} {f : View α → Option (View α)} {zs : List α}
    (h : Effect ty this w r ys) (hf : ∀ w', Holds ty this w' ys → Effect ty this w' (f w') zs) :
    Effect ty this w (r.bind f) zs := by
  obtain ⟨w', rfl, hw', hfr⟩ := h
  obtain ⟨w'', hr, hw'', hfr'⟩ := hf w' hw'
  exact ⟨w'', hr, hw'', hfr.trans hfr'⟩

/-- An operation on the cells of the vector that then sets its size. -/
theorem Holds.onData (h : Holds ty this w xs) {f : List (Cell α) → Option (List (Cell α))}
    {newSize : View α → Nat} (hf : f (cellsOf w.capacity xs) = some (cellsOf w.capacity ys))
    (hn : ∀ m, newSize { w with mem := m } = ys.length) (hroom : ys.length ≤ w.capacity) :
    Effect ty this w ((w.onData f).map fun w => { w with size := newSize w }) ys := by
  have hrun : (w.onData f).map (fun w => { w with size := newSize w }) = some { w with
      mem := Function.update w.mem w.data (some (cellsOf w.capacity ys)), size := ys.length } := by
    rw [View.onData, Memory.on, h.cells, Option.bind_some, hf, ← hn (Function.update w.mem w.data _)]
    rfl
  refine ⟨_, hrun, ⟨rfl, hroom, h.pos, h.small, Function.update_self .., ?_, ?_⟩, ⟨Nat.le_refl _, ?_, ?_, .inl rfl⟩⟩
  · rcases h.place with hp | ⟨⟨k, hk, hlt⟩, hp⟩
    · exact .inl hp
    · refine .inr ⟨⟨k, hk, hlt⟩, ?_⟩
      show Function.update w.mem w.data _ _ = _
      rw [Function.update_of_ne (by rw [hk]; simp)]
      exact hp
  · intro k hk
    show Function.update w.mem w.data _ _ = _
    rw [Function.update_of_ne]
    · exact h.fresh k hk
    · intro he
      have hc := h.cells
      rw [← he, h.fresh k hk] at hc
      cases hc
  · intro b _ hd _
    exact Function.update_of_ne hd _ _
  · intro k hk
    by_cases hd : w.data = .heap k
    · exact .inl hd
    · refine .inr ⟨?_, hd⟩
      have : Function.update w.mem w.data (some (cellsOf w.capacity ys)) (.heap k) = w.mem (.heap k) :=
        Function.update_of_ne (Ne.symm hd) _ _
      exact this ▸ hk

/-! ### Cells of a vector -/

theorem cellsOf_nil (cap : Nat) : (cellsOf cap [] : List (Cell α)) = Cell.deads cap := rfl

/-- The first free cell of a vector that is not full. -/
theorem cellsOf_room {cap : Nat} (h : xs.length < cap) :
    cellsOf cap xs = Cell.lives xs ++ .dead :: Cell.deads (cap - (xs.length + 1)) := by
  rw [cellsOf, ← Cell.deads_succ]
  congr 2
  omega

theorem cellsOf_append (cap : Nat) (xs ys : List α) :
    cellsOf cap (xs ++ ys) = Cell.lives xs ++ (Cell.lives ys ++ Cell.deads (cap - (xs ++ ys).length)) := by
  rw [cellsOf, Cell.lives_append, List.append_assoc]

theorem construct_end {cap : Nat} (v : α) (h : xs.length < cap) :
    Cell.construct (cellsOf cap xs) xs.length v = some (cellsOf cap (xs ++ [v])) := by
  rw [cellsOf_room h, Cell.construct_middle v (Cell.lives_length xs), cellsOf_append]
  simp

theorem destroy_end {cap : Nat} (x : α) (h : (xs ++ [x]).length ≤ cap) :
    Cell.destroy (cellsOf cap (xs ++ [x])) xs.length = some (cellsOf cap xs) := by
  rw [List.length_append, List.length_singleton] at h
  rw [cellsOf_append, Cell.lives_cons, Cell.lives_nil, List.cons_append, List.nil_append,
    Cell.destroy_live _ (Cell.lives_length xs), cellsOf_room (by omega), List.length_append,
    List.length_singleton]

/-- The gap that `_insert_at` opens. -/
def openGap (ty : VecType) (size index : Nat) (s : List (Cell α)) : Option (List (Cell α)) :=
  if index < size then
    if ty.triviallyCopyable then Cell.relocate s index (index + 1) (size - index)
    else (Cell.constructFrom s size (size - 1)).bind fun s =>
      (Cell.shiftUp s index (size - 1 - index)).bind fun s => Cell.destroy s index
  else some s

theorem openGap_spec {cap : Nat} (ty : VecType) {ys zs : List α} (h : (ys ++ zs).length < cap) :
    openGap ty (ys ++ zs).length ys.length (cellsOf cap (ys ++ zs)) = some (Cell.lives ys ++
      .dead :: (Cell.lives zs ++ Cell.deads (cap - ((ys ++ zs).length + 1)))) := by
  rw [cellsOf_room h, Cell.lives_append, openGap]
  generalize cap - ((ys ++ zs).length + 1) = k
  rcases List.eq_nil_or_concat zs with rfl | ⟨zs, z, rfl⟩
  · simp
  · have hlt : ys.length < (ys ++ zs.concat z).length := by simp
    rw [if_pos hlt]
    split_ifs
    · rw [Cell.relocate_up (Cell.lives_length ys) (by simp)]
      simp
    · have hlen : (ys ++ zs.concat z).length = ys.length + zs.length + 1 := by
        simp
        omega
      have hfetch : Cell.fetch (Cell.lives ys ++ Cell.lives zs ++ .live z :: .dead :: Cell.deads k)
          (ys.length + zs.length) =
            some (z, Cell.lives ys ++ Cell.lives zs ++ .moved :: .dead :: Cell.deads k) :=
        Cell.fetch_middle z (by simp)
      have hcons : Cell.construct (Cell.lives ys ++ Cell.lives zs ++ [.moved] ++ .dead :: Cell.deads k)
          (ys.length + zs.length + 1) z =
            some (Cell.lives ys ++ Cell.lives zs ++ [.moved] ++ .live z :: Cell.deads k) :=
        Cell.construct_middle z (by simp; omega)
      have hshift : Cell.shiftUp (Cell.lives ys ++ Cell.lives zs ++ .moved :: .live z :: Cell.deads k)
          ys.length zs.length =
            some (Cell.lives ys ++ .moved :: Cell.lives zs ++ .live z :: Cell.deads k) :=
        Cell.shiftUp_spec (Cell.lives_length ys) rfl
      have hdestroy : Cell.destroy (Cell.lives ys ++ .moved :: (Cell.lives zs ++ .live z :: Cell.deads k))
          ys.length = some (Cell.lives ys ++ .dead :: (Cell.lives zs ++ .live z :: Cell.deads k)) :=
        Cell.destroy_moved (Cell.lives_length ys)
      have hn : ys.length + zs.length + 1 - 1 - ys.length = zs.length := by omega
      simp only [List.concat_eq_append, List.append_assoc, List.cons_append, List.nil_append,
        Cell.lives_append, Cell.lives_cons, Cell.lives_nil] at *
      rw [hlen, Cell.constructFrom, Nat.add_sub_cancel, hfetch, Option.bind_some, hcons,
        Option.bind_some]
      rw [Nat.add_sub_cancel] at hn
      rw [hn, hshift, Option.bind_some, hdestroy]

/-! ### The operations on one vector -/

theorem popBack_effect {x : α} (h : Holds ty this w (xs ++ [x])) : Effect ty this w w.popBack xs := by
  have hsize : w.size - 1 = xs.length := by
    rw [h.size]
    simp
  have hroom := h.room
  rw [popBack]
  refine h.onData ?_ (fun _ => hsize) ((by simp : xs.length ≤ (xs ++ [x]).length).trans hroom)
  rw [hsize, destroy_end x hroom]

theorem erase_effect {ys zs : List α} {x : α} (h : Holds ty this w (ys ++ x :: zs)) :
    Effect ty this w (w.erase ty ys.length) (ys ++ zs) := by
  have hsize := h.size
  have hroom := h.room
  simp only [List.length_append, List.length_cons] at hsize hroom
  simp only [erase]
  refine h.onData ?_ ?_ ?_
  · have htrail : w.size - ys.length - 1 = zs.length := by omega
    rw [htrail, cellsOf_append, Cell.lives_cons, List.cons_append,
      Cell.destroy_live _ (Cell.lives_length ys), Option.bind_some, cellsOf_append]
    have hdeads : Cell.deads (w.capacity - (ys ++ zs).length) =
        (.dead :: Cell.deads (w.capacity - (ys ++ x :: zs).length) : List (Cell α)) := by
      rw [← Cell.deads_succ]
      simp only [List.length_append, List.length_cons]
      congr 1
      omega
    rw [hdeads]
    generalize Cell.deads (w.capacity - (ys ++ x :: zs).length) = post
    cases zs with
    | nil => rw [if_neg (by simp)]; rfl
    | cons z zs =>
      rw [if_pos (by simp)]
      split_ifs
      · have hmove : Cell.relocate (Cell.lives ys ++ .dead :: Cell.lives (z :: zs) ++ post)
            (ys.length + 1) ys.length (z :: zs).length =
              some (Cell.lives ys ++ Cell.lives (z :: zs) ++ .dead :: post) :=
          Cell.relocate_down (Cell.lives_length ys) rfl
        simp only [List.append_assoc, List.cons_append] at hmove ⊢
        rw [hmove]
      · have hfetch : Cell.fetch (Cell.lives ys ++ [.dead] ++ .live z :: (Cell.lives zs ++ post))
            (ys.length + 1) = some (z, Cell.lives ys ++ [.dead] ++ .moved :: (Cell.lives zs ++ post)) :=
          Cell.fetch_middle z (by simp)
        have hcons : Cell.construct (Cell.lives ys ++ .dead :: .moved :: (Cell.lives zs ++ post))
            ys.length z = some (Cell.lives ys ++ .live z :: .moved :: (Cell.lives zs ++ post)) :=
          Cell.construct_middle z (Cell.lives_length ys)
        have hshift : Cell.shiftDown (Cell.lives ys ++ [.live z] ++ .moved :: Cell.lives zs ++ post)
            (ys.length + 1) zs.length =
              some (Cell.lives ys ++ [.live z] ++ Cell.lives zs ++ .moved :: post) :=
          Cell.shiftDown_spec (by simp) rfl
        have hdestroy : Cell.destroy (Cell.lives ys ++ .live z :: Cell.lives zs ++ .moved :: post)
            (ys.length + zs.length + 1) =
              some (Cell.lives ys ++ .live z :: Cell.lives zs ++ .dead :: post) :=
          Cell.destroy_moved (by simp; omega)
        have hn : w.size - 1 - (ys.length + 1) = zs.length := by
          simp only [List.length_cons] at hsize
          omega
        have hlast : w.size - 1 = ys.length + zs.length + 1 := by
          simp only [List.length_cons] at hsize
          omega
        simp only [List.append_assoc, List.cons_append, List.nil_append, Cell.lives_cons] at *
        rw [hn, hlast, Cell.constructFrom, hfetch, Option.bind_some, hcons, Option.bind_some, hshift,
          Option.bind_some, hdestroy]
  · intro m
    show w.size - 1 = (ys ++ zs).length
    rw [List.length_append]
    omega
  · rw [List.length_append]
    omega

theorem eraseSwap_last {x : α} (h : Holds ty this w (xs ++ [x])) :
    Effect ty this w (w.eraseSwap xs.length) xs := by
  have hsize : w.size - 1 = xs.length := by
    rw [h.size]
    simp
  have hroom := h.room
  simp only [eraseSwap]
  refine h.onData ?_ (fun _ => hsize) ((by simp : xs.length ≤ (xs ++ [x]).length).trans hroom)
  rw [hsize, if_neg (not_not.mpr rfl), Option.bind_some, destroy_end x hroom]

theorem eraseSwap_middle {ys zs : List α} {x y : α} (h : Holds ty this w (ys ++ x :: (zs ++ [y]))) :
    Effect ty this w (w.eraseSwap ys.length) (ys ++ y :: zs) := by
  have hsize := h.size
  have hroom := h.room
  simp only [List.length_append, List.length_cons, List.length_nil] at hsize hroom
  simp only [eraseSwap]
  refine h.onData ?_ ?_ ?_
  · have hlast : w.size - 1 = ys.length + zs.length + 1 := by omega
    have hdeads : Cell.deads (w.capacity - (ys ++ y :: zs).length) =
        (.dead :: Cell.deads (w.capacity - (ys ++ x :: (zs ++ [y])).length) : List (Cell α)) := by
      rw [← Cell.deads_succ]
      simp only [List.length_append, List.length_cons, List.length_nil]
      congr 1
      omega
    rw [cellsOf_append, cellsOf_append, hdeads]
    generalize Cell.deads (w.capacity - (ys ++ x :: (zs ++ [y])).length) = post
    have hdestroy : Cell.destroy (Cell.lives ys ++ .live x :: (Cell.lives zs ++ .live y :: post))
        ys.length = some (Cell.lives ys ++ .dead :: (Cell.lives zs ++ .live y :: post)) :=
      Cell.destroy_live x (Cell.lives_length ys)
    have hfetch : Cell.fetch (Cell.lives ys ++ .dead :: Cell.lives zs ++ .live y :: post)
        (ys.length + zs.length + 1) =
          some (y, Cell.lives ys ++ .dead :: Cell.lives zs ++ .moved :: post) :=
      Cell.fetch_middle y (by simp; omega)
    have hcons : Cell.construct (Cell.lives ys ++ .dead :: (Cell.lives zs ++ .moved :: post))
        ys.length y = some (Cell.lives ys ++ .live y :: (Cell.lives zs ++ .moved :: post)) :=
      Cell.construct_middle y (Cell.lives_length ys)
    have hend : Cell.destroy (Cell.lives ys ++ .live y :: Cell.lives zs ++ .moved :: post)
        (ys.length + zs.length + 1) =
          some (Cell.lives ys ++ .live y :: Cell.lives zs ++ .dead :: post) :=
      Cell.destroy_moved (by simp; omega)
    simp only [List.append_assoc, List.cons_append, List.nil_append, Cell.lives_cons, Cell.lives_append,
      Cell.lives_nil] at *
    rw [hlast, if_pos (by omega), hdestroy, Option.bind_some, Cell.constructFrom, hfetch,
      Option.bind_some, hcons, Option.bind_some, hend]
  · intro m
    show w.size - 1 = (ys ++ y :: zs).length
    rw [List.length_append, List.length_cons]
    omega
  · rw [List.length_append, List.length_cons]
    omega

/-- The end of the elements `zs`. -/
theorem destroyRange_effect {ys zs : List α} (h : Holds ty this w (ys ++ zs)) :
    Effect ty this w ((w.destroyRange ty ys.length w.size).map fun w => { w with size := ys.length }) ys := by
  have hroom := h.room
  rw [List.length_append] at hroom
  refine h.onData ?_ (fun _ => rfl) (by omega)
  have hn : zs.length = w.size - ys.length := by
    rw [h.size, List.length_append]
    omega
  have hdeads : Cell.lives ys ++ Cell.deads (w.size - ys.length) ++
      Cell.deads (w.capacity - (ys ++ zs).length) = (cellsOf w.capacity ys : List (Cell α)) := by
    rw [List.append_assoc, ← Cell.deads_add, cellsOf, List.length_append]
    congr 2
    omega
  rw [cellsOf_append, ← List.append_assoc]
  split_ifs
  · rw [Cell.killEach_spec (Cell.lives_length ys) hn, hdeads]
  · rw [Cell.destroyEach_spec (Cell.lives_length ys) hn, hdeads]

theorem clear_effect (h : Holds ty this w xs) : Effect ty this w (w.clear ty) [] :=
  @destroyRange_effect α ty this w [] xs h

/-! ### Growth -/

theorem growCap_spec {minCap : Nat} (hmin : minCap ≤ 2 ^ 31) : ∀ (k c : Nat), 4 ≤ c → c < 2 ^ 32 →
    minCap ≤ c * 2 ^ k →
    ∃ c', growCap (k + 1) c minCap = some c' ∧ minCap ≤ c' ∧ c ≤ c' ∧ c' < 2 ^ 32 := by
  intro k
  induction k with
  | zero =>
    intro c _ hc hm
    rw [pow_zero, Nat.mul_one] at hm
    exact ⟨c, by rw [growCap, if_neg (by omega)], hm, Nat.le_refl _, hc⟩
  | succ k ih =>
    intro c h4 hc hm
    by_cases hlt : c < minCap
    · have hu : u32 (c * 2) = c * 2 := Nat.mod_eq_of_lt (by omega)
      have hm' : minCap ≤ c * 2 * 2 ^ k := by
        rw [pow_succ] at hm
        rw [Nat.mul_assoc, Nat.mul_comm 2]
        exact hm
      obtain ⟨c', hr, h1, h2, h3⟩ := ih (c * 2) (by omega) (by omega) hm'
      refine ⟨c', ?_, h1, by omega, h3⟩
      rw [growCap, if_pos hlt, if_neg (by omega), hu, hr]
    · exact ⟨c, by rw [growCap, if_neg hlt], by omega, Nat.le_refl _, hc⟩

/-- The loop of `_grow` ends, with enough room. -/
theorem growCap_enough {c minCap : Nat} (hpos : 0 < c) (hc : c < 2 ^ 32) (hmin : minCap ≤ 2 ^ 31) :
    ∃ c', growCap 33 c minCap = some c' ∧ minCap ≤ c' ∧ c ≤ c' ∧ c' < 2 ^ 32 := by
  by_cases h4 : 4 ≤ c
  · exact growCap_spec hmin 32 c h4 hc (by omega)
  · by_cases hlt : c < minCap
    · obtain ⟨c', hr, h1, h2, h3⟩ := growCap_spec hmin 31 4 (Nat.le_refl 4) (by omega) (by omega)
      refine ⟨c', ?_, h1, by omega, h3⟩
      rw [growCap, if_pos hlt, if_pos (by omega), hr]
    · exact ⟨c, by rw [growCap, if_neg hlt], by omega, Nat.le_refl _, hc⟩

theorem moveConstruct_cells {m : Memory Block α} {src dst : Block} (hne : src ≠ dst) {cap cap' : Nat}
    (hs : m src = some (cellsOf cap xs)) (hd : m dst = some (Cell.deads cap')) (hcap : xs.length ≤ cap)
    (hcap' : xs.length ≤ cap') : moveConstruct ty m src xs.length dst =
      some (Function.update (Function.update m src (some (Cell.deads cap))) dst
        (some (cellsOf cap' xs))) := by
  have hsplit : ∀ c, xs.length ≤ c →
      (Cell.deads c : List (Cell α)) = Cell.deads xs.length ++ Cell.deads (c - xs.length) := by
    intro c hc
    rw [← Cell.deads_add]
    congr 1
    omega
  have hmove : (if ty.triviallyCopyable = true then
      Cell.relocateTo (cellsOf cap xs) (Cell.deads cap') xs.length
      else Cell.moveEach (cellsOf cap xs) (Cell.deads cap') 0 xs.length) =
      some (Cell.deads cap, cellsOf cap' xs) := by
    rw [cellsOf, cellsOf, hsplit cap hcap, hsplit cap' hcap']
    split_ifs
    · exact Cell.relocateTo_spec rfl
    · exact @Cell.moveEach_spec α xs [] _ [] _ 0 _ rfl rfl rfl
  rw [moveConstruct, Memory.between, if_neg hne, hs, Option.bind_some, hd, Option.bind_some, hmove]
  rfl

theorem copyConstruct_cells {m : Memory Block α} {src dst : Block} (hne : src ≠ dst) {cap cap' : Nat}
    (hs : m src = some (cellsOf cap xs)) (hd : m dst = some (Cell.deads cap'))
    (hcap' : xs.length ≤ cap') : copyConstruct ty m src xs.length dst =
      some (Function.update m dst (some (cellsOf cap' xs))) := by
  have hsplit : (Cell.deads cap' : List (Cell α)) =
      Cell.deads xs.length ++ Cell.deads (cap' - xs.length) := by
    rw [← Cell.deads_add]
    congr 1
    omega
  have hcopy : (if ty.triviallyCopyable = true then
      Cell.copyBytes (cellsOf cap xs) (Cell.deads cap') xs.length
      else Cell.copyEach (cellsOf cap xs) (Cell.deads cap') 0 xs.length) = some (cellsOf cap' xs) := by
    rw [cellsOf, cellsOf, hsplit]
    split_ifs
    · exact Cell.copyBytes_spec rfl
    · exact @Cell.copyEach_spec α xs [] _ [] _ 0 _ rfl rfl rfl
  rw [copyConstruct, Memory.between, if_neg hne, hs, Option.bind_some, hd, Option.bind_some, hcopy,
    Option.map_some, Option.map_some, ← hs, Function.update_eq_self]

theorem free_deads {m : Memory Block α} {k n : Nat} (hm : m (.heap k) = some (Cell.deads n)) :
    m.free (.heap k) = some (Function.update m (.heap k) none) := by
  have hall : (Cell.deads n : List (Cell α)).all Cell.isDead = true :=
    List.all_eq_true.mpr fun c hc => by rw [List.eq_of_mem_replicate hc]; rfl
  rw [Memory.free, Memory.release, hm, Option.bind_some, if_pos hall]

theorem Holds.heap_lt (h : Holds ty this w xs) {k : Nat} (hk : w.data = .heap k) : k < w.next := by
  by_contra hge
  have hc := h.cells
  rw [hk, h.fresh k (Nat.le_of_not_lt hge)] at hc
  cases hc

/-- The elements are in another block, a new one or the inline storage, and the old one is gone if it
was from the heap. -/
theorem Holds.elsewhere (h : Holds ty this w xs) {w' : View α} (hsize : w'.size = w.size)
    (hto : w'.data = .heap w.next ∧ w'.next = w.next + 1 ∨
      w'.data = .inline this ∧ w'.next = w.next ∧ w'.capacity = ty.N)
    (hcells : w'.mem w'.data = some (cellsOf w'.capacity xs)) (hroom : xs.length ≤ w'.capacity)
    (hpos : 0 < w'.capacity) (hsmall : w'.capacity < 2 ^ 32)
    (hheap : ∀ k, w.data = .heap k → w'.mem (.heap k) = none)
    (hinline : w.data = .inline this → w'.mem (.inline this) = some (Cell.deads ty.N))
    (hother : ∀ b, b ≠ w'.data → b ≠ w.data → w'.mem b = w.mem b) :
    Holds ty this w' xs ∧ Frame this w w' := by
  have hnext : w.next ≤ w'.next := by
    rcases hto with ⟨-, hn⟩ | ⟨-, hn, -⟩ <;> omega
  have hnew : ∀ k, w'.data = .heap k → w.next ≤ k ∧ k < w'.next := by
    intro k hk
    rcases hto with ⟨hd, hn⟩ | ⟨hd, -⟩
    · cases hd.symm.trans hk
      omega
    · cases hd.symm.trans hk
  refine ⟨⟨hsize.trans h.size, hroom, hpos, hsmall, hcells, ?_, ?_⟩, hnext, ?_, ?_, ?_⟩
  · rcases hto with ⟨hd, hn⟩ | ⟨hd, -, hc⟩
    · refine .inr ⟨⟨_, hd, by omega⟩, ?_⟩
      rcases h.place with ⟨hin, -⟩ | ⟨⟨k, hk, -⟩, hin⟩
      · exact hinline hin
      · rw [hother _ (by rw [hd]; simp) (by rw [hk]; simp)]
        exact hin
    · exact .inl ⟨hd, hc⟩
  · intro k hk
    rw [hother _ (fun he => by have := hnew k he.symm; omega)
      (fun he => by have := h.heap_lt he.symm; omega)]
    exact h.fresh k (hnext.trans hk)
  · intro b hb hd hlt
    refine hother b (fun he => ?_) hd
    rcases hto with ⟨hd', -⟩ | ⟨hd', -⟩
    · exact (hlt _ (he.trans hd')).ne rfl
    · exact hb (he.trans hd')
  · intro k hk
    by_cases hd' : w'.data = .heap k
    · exact .inl hd'
    · have hd : w.data ≠ .heap k := fun he => hk (hheap k he)
      exact .inr ⟨by rwa [← hother _ (Ne.symm hd') (Ne.symm hd)], hd⟩
  · rcases hto with ⟨hd, -⟩ | ⟨hd, -⟩
    · exact .inr (.inr ⟨_, Nat.le_refl _, hd⟩)
    · exact .inr (.inl hd)

/-- A vector that is not inline has a heap block, and its inline storage is free. -/
theorem Holds.outside (h : Holds ty this w xs) (hout : ¬ w.isInline this = true) :
    w.data ≠ .inline this ∧ w.mem (.inline this) = some (Cell.deads ty.N) := by
  rcases h.place with ⟨hin, -⟩ | ⟨-, hin⟩
  · exact absurd (decide_eq_true hin) hout
  · exact ⟨fun he => hout (decide_eq_true he), hin⟩

/-- The end of the old block of a vector whose elements have moved to the block `dst`. -/
theorem leave_block (h : Holds ty this w xs) {m : Memory Block α} {dst : Block} (hne : w.data ≠ dst)
    {cap : Nat} (hdata : m w.data = some (Cell.deads w.capacity)) (hdst : m dst = some (cellsOf cap xs)) :
    ∃ m', (if w.isInline this then some m else m.free w.data) = some m' ∧
      m' dst = some (cellsOf cap xs) ∧ (∀ k, w.data = .heap k → m' (.heap k) = none) ∧
      (w.data = .inline this → m' (.inline this) = some (Cell.deads ty.N)) ∧
      ∀ b, b ≠ w.data → m' b = m b := by
  rcases h.place with ⟨hin, hcap⟩ | ⟨⟨k, hk, -⟩, -⟩
  · refine ⟨m, if_pos (decide_eq_true hin), hdst, fun k hk => ?_, fun _ => ?_, fun _ _ => rfl⟩
    · cases hin.symm.trans hk
    · rw [← hin, ← hcap]
      exact hdata
  · have hnot : ¬ w.isInline this = true := by simp [isInline, hk]
    refine ⟨Function.update m (.heap k) none, ?_, ?_, fun j hj => ?_, fun hin => ?_, fun b hb => ?_⟩
    · rw [if_neg hnot, hk]
      exact free_deads (hk ▸ hdata)
    · rw [Function.update_of_ne (hk ▸ Ne.symm hne)]
      exact hdst
    · cases hk.symm.trans hj
      exact Function.update_self ..
    · cases hk.symm.trans hin
    · exact Function.update_of_ne (hk ▸ hb) _ _

theorem toHeap_effect (h : Holds ty this w xs) {newCap : Nat} (hroom : xs.length ≤ newCap)
    (hpos : 0 < newCap) (hsmall : newCap < 2 ^ 32) :
    ∃ w', w.toHeap ty this newCap = some w' ∧ Holds ty this w' xs ∧ Frame this w w' ∧
      w'.capacity = newCap := by
  have hne : w.data ≠ .heap w.next := fun he => (h.heap_lt he).ne rfl
  have hmove := @moveConstruct_cells α ty xs (Function.update w.mem (.heap w.next)
    (some (Cell.deads newCap))) _ _ hne _ _ (by rw [Function.update_of_ne hne]; exact h.cells)
    (Function.update_self ..) h.room hroom
  obtain ⟨m, hm, hdst, hheap, hinline, hrest⟩ := leave_block h hne
    (m := Function.update (Function.update (Function.update w.mem (.heap w.next)
      (some (Cell.deads newCap))) w.data (some (Cell.deads w.capacity))) (.heap w.next)
      (some (cellsOf newCap xs)))
    (by rw [Function.update_of_ne hne]; exact Function.update_self ..) (Function.update_self ..)
  have hrun : w.toHeap ty this newCap =
      some { w with mem := m, next := w.next + 1, data := .heap w.next, capacity := newCap } := by
    rw [toHeap, h.size, hmove, Option.bind_some, hm]
    rfl
  refine ⟨_, hrun, ?_⟩
  rw [← and_assoc]
  refine ⟨h.elsewhere rfl (.inl ⟨rfl, rfl⟩) hdst hroom hpos hsmall hheap hinline fun b hb hd => ?_, rfl⟩
  show m b = w.mem b
  rw [hrest b hd, Function.update_of_ne hb, Function.update_of_ne hd, Function.update_of_ne hb]

theorem shrinkToFit_effect (h : Holds ty this w xs) : Effect ty this w (w.shrinkToFit ty this) xs := by
  rw [shrinkToFit]
  split_ifs with hstay hsmall
  · exact .refl h
  · -- back into the inline storage
    rw [not_or] at hstay
    obtain ⟨hne, hin⟩ := h.outside hstay.1
    rw [h.size] at hsmall
    have hmove := @moveConstruct_cells α ty xs _ _ _ hne _ _ h.cells hin h.room hsmall
    obtain ⟨m, hm, hdst, hheap, hinline, hrest⟩ := leave_block h hne
      (m := Function.update (Function.update w.mem w.data (some (Cell.deads w.capacity)))
        (.inline this) (some (cellsOf ty.N xs)))
      (by rw [Function.update_of_ne hne]; exact Function.update_self ..) (Function.update_self ..)
    rw [if_neg hstay.1] at hm
    have hrun : ((moveConstruct ty w.mem w.data w.size (.inline this)).bind fun m =>
        (m.free w.data).map fun m => { w with mem := m, data := .inline this, capacity := ty.N }) =
        some { w with mem := m, data := .inline this, capacity := ty.N } := by
      rw [h.size, hmove, Option.bind_some, hm]
      rfl
    refine ⟨_, hrun, h.elsewhere rfl (.inr ⟨rfl, rfl, rfl⟩) hdst hsmall ty.pos ty.small hheap hinline
      fun b hb hd => ?_⟩
    show m b = w.mem b
    rw [hrest b hd, Function.update_of_ne hb, Function.update_of_ne hd]
  · rw [not_or] at hstay
    have hfull := h.room
    have hsize := h.size
    have hto : w.toHeap ty this w.size = (moveConstruct ty (Function.update w.mem (.heap w.next)
        (some (Cell.deads w.size))) w.data w.size (.heap w.next)).bind fun m => (m.free w.data).map fun m =>
          { w with mem := m, next := w.next + 1, data := .heap w.next, capacity := w.size } := by
      rw [toHeap]
      simp only [if_neg hstay.1]
    obtain ⟨w', hr, hw', hf, -⟩ := @toHeap_effect α ty this w xs h w.size hsize.ge (by omega)
      (by have := h.small; omega)
    exact ⟨w', hto ▸ hr, hw', hf⟩

/-- `_ensure_capacity` and `reserve`. -/
theorem reserve_effect (h : Holds ty this w xs) {n : Nat} (hn : n ≤ 2 ^ 31) :
    ∃ w', w.reserve ty this n = some w' ∧ Holds ty this w' xs ∧ Frame this w w' ∧ n ≤ w'.capacity := by
  rw [reserve]
  split_ifs with hgt
  · obtain ⟨c, hc, hle, hge, hlt⟩ := growCap_enough h.pos h.small hn
    obtain ⟨w', hr, hw', hf, hcap⟩ := toHeap_effect h (h.room.trans hge) (h.pos.trans_le hge) hlt
    exact ⟨w', by rw [grow, hc, Option.bind_some, hr], hw', hf, hcap ▸ hle⟩
  · exact ⟨w, rfl, h, .refl w, by omega⟩

theorem pushBack_effect (v : α) (h : Holds ty this w xs) (hlen : xs.length + 1 < 2 ^ 31) :
    Effect ty this w (w.pushBack ty this v) (xs ++ [v]) := by
  have hu : u32 (xs.length + 1) = xs.length + 1 := Nat.mod_eq_of_lt (by omega)
  obtain ⟨w', hr, hw', hf, hcap⟩ := reserve_effect h (show xs.length + 1 ≤ 2 ^ 31 by omega)
  have hr' : w.ensureCapacity ty this (u32 (w.size + 1)) = some w' := by
    rw [h.size, hu]
    exact hr
  rw [pushBack, hr', Option.bind_some]
  obtain ⟨w'', hr'', hw'', hf''⟩ : Effect ty this w'
      ((w'.onData fun s => Cell.construct s w'.size v).map fun w => { w with size := u32 (w.size + 1) })
      (xs ++ [v]) := by
    refine hw'.onData ?_ (fun m => ?_) ?_
    · rw [hw'.size]
      exact construct_end v (by omega)
    · show u32 (w'.size + 1) = _
      rw [hw'.size, hu, List.length_append, List.length_singleton]
    · rw [List.length_append, List.length_singleton]
      exact hcap
  exact ⟨w'', hr'', hw'', hf.trans hf''⟩

/-- Two operations on the cells, with a new size in between. -/
theorem onData_onData {f g : List (Cell α) → Option (List (Cell α))} {newSize : View α → Nat}
    (w : View α) (hn : ∀ m, newSize { w with mem := m } = newSize w) :
    ((w.onData f).map fun w => { w with size := newSize w }).bind (fun w => w.onData g) =
      (w.onData fun s => (f s).bind g).map fun w => { w with size := newSize w } := by
  cases hc : w.mem w.data with
  | none => simp only [onData, Memory.on, hc, Option.bind_none, Option.map_none]
  | some s =>
    cases hf : f s with
    | none => simp only [onData, Memory.on, hc, hf, Option.bind_some, Option.bind_none, Option.map_none]
    | some s' =>
      cases hg : g s' with
      | none => simp [onData, Memory.on, hc, hf, hg]
      | some s'' => simp [onData, Memory.on, hc, hf, hg, hn]

theorem onData_some (w : View α) {s : List (Cell α)} (h : w.mem w.data = some s) :
    w.onData some = some w := by
  rw [onData, Memory.on, h, Option.bind_some, Option.map_some, ← h, Function.update_eq_self]
  rfl

theorem insert_effect {ys zs : List α} (v : α) (h : Holds ty this w (ys ++ zs))
    (hlen : (ys ++ zs).length + 1 < 2 ^ 31) :
    Effect ty this w (w.insert ty this ys.length v) (ys ++ v :: zs) := by
  have hu : u32 ((ys ++ zs).length + 1) = (ys ++ zs).length + 1 := Nat.mod_eq_of_lt (by omega)
  obtain ⟨w', hr, hw', hf, hcap⟩ := reserve_effect h (show (ys ++ zs).length + 1 ≤ 2 ^ 31 by omega)
  have hr' : w.ensureCapacity ty this (u32 (w.size + 1)) = some w' := by
    rw [h.size, hu]
    exact hr
  have hgap : (if ys.length < w'.size then
      w'.onData fun s =>
        if ty.triviallyCopyable then Cell.relocate s ys.length (ys.length + 1) (w'.size - ys.length)
        else (Cell.constructFrom s w'.size (w'.size - 1)).bind fun s =>
          (Cell.shiftUp s ys.length (w'.size - 1 - ys.length)).bind fun s => Cell.destroy s ys.length
      else some w') = w'.onData (openGap ty w'.size ys.length) := by
    by_cases hlt : ys.length < w'.size
    · rw [if_pos hlt]
      congr 1
      funext s
      rw [openGap, if_pos hlt]
    · have hid : openGap ty w'.size ys.length = (some : List (Cell α) → _) := by
        funext s
        rw [openGap, if_neg hlt]
      rw [if_neg hlt, hid, onData_some w' hw'.cells]
  have hinsert : w.insert ty this ys.length v =
      (w'.onData fun s => (openGap ty w'.size ys.length s).bind fun s =>
        Cell.construct s ys.length v).map fun w => { w with size := u32 (w.size + 1) } := by
    rw [View.insert, insertAt, hr', Option.bind_some, hgap]
    exact @onData_onData α _ _ (fun w => u32 (w.size + 1)) w' fun _ => rfl
  obtain ⟨w'', hr'', hw'', hf''⟩ : Effect ty this w' (w.insert ty this ys.length v) (ys ++ v :: zs) := by
    rw [hinsert]
    refine hw'.onData ?_ (fun m => ?_) ?_
    · rw [hw'.size, openGap_spec ty (by omega), Option.bind_some,
        Cell.construct_middle v (Cell.lives_length ys), cellsOf_append]
      simp [Nat.add_assoc]
    · show u32 (w'.size + 1) = _
      rw [hw'.size, hu]
      simp only [List.length_append, List.length_cons]
      omega
    · simp only [List.length_append, List.length_cons] at hcap ⊢
      omega
  exact ⟨w'', hr'', hw'', hf.trans hf''⟩

theorem resize_effect (fill : α) {n : Nat} (h : Holds ty this w xs) (hn : n < 2 ^ 31) :
    Effect ty this w (w.resize ty this n fill) (xs.take n ++ List.replicate (n - xs.length) fill) := by
  have hsize := h.size
  rw [resize]
  rcases lt_trichotomy n w.size with hlt | heq | hgt
  · rw [if_pos hlt, show n - xs.length = 0 by omega, List.replicate_zero, List.append_nil]
    have hlen : (xs.take n).length = n := by
      rw [List.length_take]
      omega
    have hd := @destroyRange_effect α ty this w (xs.take n) (xs.drop n)
      (by rw [List.take_append_drop]; exact h)
    rwa [hlen] at hd
  · rw [if_neg (by omega), if_neg (by omega), Option.map_some, heq, hsize, List.take_length, Nat.sub_self,
      List.replicate_zero, List.append_nil]
    have hsame : ({ w with size := xs.length } : View α) = w := by rw [← hsize]
    rw [hsame]
    exact .refl h
  · rw [if_neg (by omega), if_pos hgt, List.take_of_length_le (by omega)]
    obtain ⟨w', hr, hw', hf, hcap⟩ := reserve_effect h hn.le
    rw [hr, Option.bind_some]
    have hsize' := hw'.size
    obtain ⟨w'', hr'', hw'', hf''⟩ : Effect ty this w'
        ((w'.onData fun s => Cell.fillEach fill s w'.size (n - w'.size)).map fun w => { w with size := n })
        (xs ++ List.replicate (n - xs.length) fill) := by
      refine hw'.onData ?_ (fun m => ?_) ?_
      · have hdeads : (Cell.deads (w'.capacity - xs.length) : List (Cell α)) =
            Cell.deads (n - xs.length) ++ Cell.deads (w'.capacity - n) := by
          rw [← Cell.deads_add]
          congr 1
          omega
        rw [hsize', cellsOf, hdeads, ← List.append_assoc, Cell.fillEach_spec (Cell.lives_length xs),
          cellsOf_append, List.append_assoc, List.length_append, List.length_replicate]
        congr 5
        omega
      · rw [List.length_append, List.length_replicate]
        omega
      · rw [List.length_append, List.length_replicate]
        omega
    exact ⟨w'', hr'', hw'', hf.trans hf''⟩

theorem freeHeap_effect (h : Holds ty this w []) : Effect ty this w (w.freeHeap ty this) [] := by
  rw [freeHeap]
  split_ifs with hin
  · exact .refl h
  · obtain ⟨hne, hfree⟩ := h.outside hin
    obtain ⟨m, hm, hdst, hheap, hinline, hrest⟩ := leave_block h hne h.cells hfree
    rw [if_neg hin] at hm
    rw [hm]
    refine ⟨_, rfl, h.elsewhere rfl (.inr ⟨rfl, rfl, rfl⟩) hdst (Nat.zero_le _) ty.pos ty.small hheap
      hinline fun b _ hd => hrest b hd⟩

theorem reset_effect (h : Holds ty this w xs) : ∃ w', w.reset ty this = some w' ∧
    Holds ty this w' [] ∧ Frame this w w' ∧ w'.data = .inline this ∧ w'.capacity = ty.N := by
  obtain ⟨w₁, hr₁, hw₁, hf₁⟩ := clear_effect h
  obtain ⟨w₂, hr₂, hw₂, hf₂⟩ := freeHeap_effect hw₁
  obtain ⟨d, hd, rfl⟩ := Option.map_eq_some_iff.mp hr₁
  by_cases hin : d.isInline this = true
  · have hin' : ({ d with size := 0 } : View α).isInline this = true := hin
    rw [freeHeap, if_pos hin'] at hr₂
    cases hr₂
    have hplace : d.data = .inline this ∧ d.capacity = ty.N := by
      rcases hw₁.place with hp | ⟨⟨k, hk, -⟩, -⟩
      · exact hp
      · exact absurd (of_decide_eq_true hin) (by rw [hk]; simp)
    refine ⟨_, ?_, hw₁, hf₁, hplace⟩
    rw [reset, hd, Option.bind_some, freeHeap, if_pos hin, Option.map_some, ← hplace.1, ← hplace.2]
  · have hin' : ¬ ({ d with size := 0 } : View α).isInline this = true := hin
    rw [freeHeap, if_neg hin'] at hr₂
    obtain ⟨m, hm, rfl⟩ := Option.map_eq_some_iff.mp hr₂
    refine ⟨_, ?_, hw₂, hf₁.trans hf₂, rfl, rfl⟩
    rw [reset, hd, Option.bind_some, freeHeap, if_neg hin, hm]
    rfl

/-- A block that an operation on the vector `this` has nothing to do with. -/
def Apart (this : Nat) (w : View α) (b : Block) : Prop :=
  b ≠ .inline this ∧ b ≠ w.data ∧ ∀ k, b = .heap k → k < w.next

theorem Frame.apart (h : Frame this w w') {b : Block} (hb : Apart this w b) :
    w'.mem b = w.mem b ∧ Apart this w' b := by
  obtain ⟨hin, hd, hlt⟩ := hb
  refine ⟨h.other b hin hd hlt, hin, fun he => ?_, fun k hk => (hlt k hk).trans_le h.mono⟩
  rcases h.data with hd' | hd' | ⟨k, hk, hd'⟩
  · exact hd (he.trans hd')
  · exact hin (he.trans hd')
  · have := hlt k (he.trans hd')
    omega

theorem copyFrom_effect (h : Holds ty this w []) {src : Block} {cap : Nat}
    (hsrc : w.mem src = some (cellsOf cap xs)) (hb : Apart this w src) (hlen : xs.length < 2 ^ 31) :
    Effect ty this w (w.copyFrom ty this src xs.length) xs := by
  obtain ⟨w', hr, hw', hf, hcap⟩ := reserve_effect h hlen.le
  obtain ⟨hmem, hb'⟩ := hf.apart hb
  have hcopy := @copyConstruct_cells α ty xs _ _ _ hb'.2.1 _ _ (hmem.trans hsrc) hw'.cells hcap
  obtain ⟨w'', hr'', hw'', hf''⟩ : Effect ty this w'
      ((w'.onData fun _ => some (cellsOf w'.capacity xs)).map fun w => { w with size := xs.length }) xs :=
    @Holds.onData α ty this w' [] xs hw' (fun _ => some (cellsOf w'.capacity xs)) (fun _ => xs.length)
      rfl (fun _ => rfl) hcap
  refine ⟨w'', ?_, hw'', hf.trans hf''⟩
  rw [copyFrom, hr, Option.bind_some, hcopy, ← hr'', onData, Memory.on, hw'.cells]
  rfl

end Effects

end View

end VersatileEngine
