import VersatileEngine.Core.HashFuncs
import VersatileEngine.Lib.ListNodes

/-!
# VersatileEngine.Core.OrderedHashMap

`InsertionOrderedHashMap` of `ordered_hashmap.h`: open addressing with Robin Hood displacement over
elements that are linked in the order of insertion.

* `HashSlot`    — an entry of `_hashes` and the entry of `_elements` beside it.
* `InsertionOrderedHashMap` — the members, with the elements that are alive by address.
* `lookupIdx`, `insertElement`, `resizeAndRehash`, `shiftBack` — the loops over the slots.
* `exec`    — a call from outside and what it returns.

A function has no result where an assertion fails, a pointer dangles, an index leaves the table or a loop
goes more than once around it.
-/

namespace VersatileEngine

structure HashSlot where
  hash : Nat
  element : Nat
  deriving DecidableEq

structure InsertionOrderedHashMap (K V : Type) where
  /-- The elements that were allocated and not deleted. -/
  heap : NodeStore (K × V)
  /-- The address of the next element. -/
  fresh : Nat
  /-- `_hashes` and `_elements`. -/
  slots : Option (List HashSlot)
  headElement : Option Nat
  tailElement : Option Nat
  capacityIdx : Nat
  size : Nat

namespace InsertionOrderedHashMap

variable {K V : Type} [DecidableEq K] (hasher : K → UInt32)

def minCapacityIndex : Nat := 2

def emptyHash : Nat := 0

def emptySlot : HashSlot := ⟨emptyHash, 0⟩

/-- A new map; the default constructor begins with `MIN_CAPACITY_INDEX`. -/
def create (capacityIdx : Nat) : InsertionOrderedHashMap K V :=
  ⟨fun _ => none, 0, none, none, none, capacityIdx, 0⟩

def hashOf (key : K) : Nat :=
  let hash := (hasher key).toNat
  if hash = emptyHash then emptyHash + 1 else hash

def incrementMod (idx capacity : Nat) : Nat := if idx + 1 = capacity then 0 else idx + 1

/-- In 32 bits. -/
def getProbeLength (capacityIdx idx hash : Nat) : Nat :=
  let capacity := capacityAt capacityIdx
  let originalIdx := fastmod hash (capacityInvAt capacityIdx) capacity
  let distanceIdx := (idx + 2 ^ 32 - originalIdx + capacity) % 2 ^ 32
  if capacity ≤ distanceIdx then distanceIdx - capacity else distanceIdx

/-- Whether a slot holds the key. -/
def holds (m : InsertionOrderedHashMap K V) (s : HashSlot) (key : K) (hash : Nat) : Option Bool :=
  if s.hash = hash then (m.heap s.element).map fun e => decide (e.data.1 = key) else some false

/-! ### The loops over the slots -/

def lookupIdxUnchecked (m : InsertionOrderedHashMap K V) (slots : List HashSlot) (key : K) (hash : Nat) :
    Nat → Nat → Nat → Option (Option Nat)
  | 0, _, _ => none
  | turns + 1, idx, distance =>
    match slots[idx]? with
    | none => none
    | some s =>
      if s.hash = emptyHash then some none
      else if getProbeLength m.capacityIdx idx s.hash < distance then some none
      else
        match m.holds s key hash with
        | none => none
        | some true => some (some idx)
        | some false =>
          m.lookupIdxUnchecked slots key hash turns (incrementMod idx (capacityAt m.capacityIdx)) (distance + 1)

def lookupIdx (m : InsertionOrderedHashMap K V) (key : K) : Option (Option Nat) :=
  match m.slots with
  | none => some none
  | some slots =>
    if m.size = 0 then some none
    else
      let capacity := capacityAt m.capacityIdx
      let hash := hashOf hasher key
      m.lookupIdxUnchecked slots key hash capacity (fastmod hash (capacityInvAt m.capacityIdx) capacity) 0

/-- The loop of `_insert_element`: `x` is the hash and the value in hand. -/
def insertLoop (capacityIdx : Nat) : Nat → List HashSlot → HashSlot → Nat → Nat → Option (List HashSlot)
  | 0, _, _, _, _ => none
  | turns + 1, slots, x, idx, distance =>
    match slots[idx]? with
    | none => none
    | some s =>
      let next := incrementMod idx (capacityAt capacityIdx)
      if s.hash = emptyHash then some (slots.set idx x)
      else
        let existing := getProbeLength capacityIdx idx s.hash
        if existing < distance then insertLoop capacityIdx turns (slots.set idx x) s next (existing + 1)
        else insertLoop capacityIdx turns slots x next (distance + 1)

def insertElement (capacityIdx : Nat) (slots : List HashSlot) (x : HashSlot) : Option (List HashSlot) :=
  let capacity := capacityAt capacityIdx
  insertLoop capacityIdx capacity slots x (fastmod x.hash (capacityInvAt capacityIdx) capacity) 0

/-- The loop of `erase`: the slot `idx` moves behind those it lets back. -/
def shiftBack (capacityIdx : Nat) : Nat → List HashSlot → Nat → Nat → Option (List HashSlot × Nat)
  | 0, _, _, _ => none
  | turns + 1, slots, idx, next =>
    match slots[idx]?, slots[next]? with
    | some x, some s =>
      if s.hash ≠ emptyHash ∧ getProbeLength capacityIdx next s.hash ≠ 0 then
        shiftBack capacityIdx turns ((slots.set next x).set idx s) next
          (incrementMod next (capacityAt capacityIdx))
      else some (slots, idx)
    | _, _ => none

/-- One turn of the loop of `_resize_and_rehash`. -/
def rehash (capacityIdx : Nat) (table : List HashSlot × Nat) (s : HashSlot) : Option (List HashSlot × Nat) :=
  if s.hash = emptyHash then some table
  else (insertElement capacityIdx table.1 s).map fun slots => (slots, table.2 + 1)

def resizeAndRehash (m : InsertionOrderedHashMap K V) (oldSlots : List HashSlot) (newCapacityIdx : Nat) :
    Option (InsertionOrderedHashMap K V) :=
  let idx := if minCapacityIndex < newCapacityIdx then newCapacityIdx else minCapacityIndex
  (oldSlots.foldlM (rehash idx) (List.replicate (capacityAt idx) emptySlot, 0)).map fun table =>
    { m with capacityIdx := idx, slots := some table.1, size := table.2 }

/-! ### Elements -/

/-- The new element in the list. -/
def linkElement (m : InsertionOrderedHashMap K V) (key : K) (value : V) (frontInsert : Bool) :
    Option (InsertionOrderedHashMap K V) :=
  let elem := m.fresh
  match m.tailElement with
  | none =>
    some { m with
      heap := Function.update m.heap elem (some ⟨none, none, key, value⟩)
      fresh := elem + 1
      headElement := some elem
      tailElement := some elem }
  | some tail =>
    if frontInsert then
      (m.heap.setPrev m.headElement (some elem)).map fun heap =>
        { m with
          heap := Function.update heap elem (some ⟨m.headElement, none, key, value⟩)
          fresh := elem + 1
          headElement := some elem }
    else
      (m.heap.setNext (some tail) (some elem)).map fun heap =>
        { m with
          heap := Function.update heap elem (some ⟨none, some tail, key, value⟩)
          fresh := elem + 1
          tailElement := some elem }

/-- The first part of `_insert`: the table is allocated or grows. -/
def makeRoom (m : InsertionOrderedHashMap K V) : Option (InsertionOrderedHashMap K V) :=
  let capacity := capacityAt m.capacityIdx
  let slots := m.slots.getD (List.replicate capacity emptySlot)
  if overloaded m.size capacity then
    if m.capacityIdx + 1 < hashTableSizeMax then m.resizeAndRehash slots (m.capacityIdx + 1) else none
  else some { m with slots := some slots }

/-- `_insert`, of a key that is not there; with the address of the element. -/
def insertNew (m : InsertionOrderedHashMap K V) (key : K) (value : V) (hash : Nat) (frontInsert : Bool) :
    Option (Nat × InsertionOrderedHashMap K V) := do
  let m ← m.makeRoom
  let elem := m.fresh
  let m ← m.linkElement key value frontInsert
  let slots ← insertElement m.capacityIdx (m.slots.getD []) ⟨hash, elem⟩
  some (elem, { m with slots := some slots, size := m.size + 1 })

/-- `_elements[idx]`. -/
def elementAt (m : InsertionOrderedHashMap K V) (idx : Nat) : Option Nat :=
  ((m.slots.getD [])[idx]?).map HashSlot.element

/-- `_elements[idx]->data.second = value`. -/
def setSecond (m : InsertionOrderedHashMap K V) (elem : Nat) (value : V) : Option (InsertionOrderedHashMap K V) :=
  (m.heap elem).map fun e =>
    { m with heap := Function.update m.heap elem (some { e with data := (e.data.1, value) }) }

/-! ### Calls -/

def find (m : InsertionOrderedHashMap K V) (key : K) : Option (Option Nat) := do
  match ← m.lookupIdx hasher key with
  | none => some none
  | some idx => (m.elementAt idx).map some

def insert (m : InsertionOrderedHashMap K V) (key : K) (value : V) (frontInsert : Bool) :
    Option (Nat × InsertionOrderedHashMap K V) := do
  match ← m.lookupIdx hasher key with
  | none => m.insertNew key value (hashOf hasher key) frontInsert
  | some idx =>
    let elem ← m.elementAt idx
    let m ← m.setSecond elem value
    some (elem, m)

/-- `operator[]`. -/
def index [Inhabited V] (m : InsertionOrderedHashMap K V) (key : K) :
    Option (Nat × InsertionOrderedHashMap K V) := do
  match ← m.lookupIdx hasher key with
  | none => m.insertNew key default (hashOf hasher key) false
  | some idx => (m.elementAt idx).map fun elem => (elem, m)

/-- The element leaves the list and is deleted. -/
def deleteElement (m : InsertionOrderedHashMap K V) (elem : Nat) : Option (InsertionOrderedHashMap K V) := do
  let e ← m.heap elem
  let heap ← m.heap.setNext e.prev e.next
  let heap ← heap.setPrev e.next e.prev
  some { m with
    headElement := if m.headElement = some elem then e.next else m.headElement
    tailElement := if m.tailElement = some elem then e.prev else m.tailElement
    heap := Function.update heap elem none }

def erase (m : InsertionOrderedHashMap K V) (key : K) : Option (Bool × InsertionOrderedHashMap K V) := do
  match ← m.lookupIdx hasher key with
  | none => some (false, m)
  | some idx =>
    let capacity := capacityAt m.capacityIdx
    let next := fastmod (idx + 1) (capacityInvAt m.capacityIdx) capacity
    let (slots, idx) ← shiftBack m.capacityIdx capacity (m.slots.getD []) idx next
    let s ← slots[idx]?
    let m ← { m with slots := some (slots.set idx ⟨emptyHash, s.element⟩) }.deleteElement s.element
    some (true, { m with size := m.size - 1 })

def clear (m : InsertionOrderedHashMap K V) : Option (InsertionOrderedHashMap K V) :=
  match m.slots with
  | none => some m
  | some slots =>
    if m.size = 0 then some m
    else
      (NodeStore.release m.size m.tailElement m.heap).map fun heap =>
        { m with
          heap := heap
          slots := some (slots.map fun s => ⟨emptyHash, s.element⟩)
          headElement := none
          tailElement := none
          size := 0 }

/-- The first size from `idx` on that is large enough. -/
def reserveIdx (newCapacity : Nat) : Nat → Nat → Option Nat
  | 0, _ => none
  | turns + 1, idx =>
    if capacityAt idx < newCapacity then
      if idx + 1 < hashTableSizeMax then reserveIdx newCapacity turns (idx + 1) else none
    else some idx

def reserve (m : InsertionOrderedHashMap K V) (newCapacity : Nat) : Option (InsertionOrderedHashMap K V) := do
  let newIdx ← reserveIdx newCapacity hashTableSizeMax m.capacityIdx
  if newIdx = m.capacityIdx then some m
  else
    match m.slots with
    | none => some { m with capacityIdx := newIdx }
    | some slots => m.resizeAndRehash slots newIdx

/-- `begin` to `end`. -/
def items (m : InsertionOrderedHashMap K V) : Option (List (K × V)) := m.heap.walk m.size m.headElement

/-- `last` and back. -/
def itemsBack (m : InsertionOrderedHashMap K V) : Option (List (K × V)) := m.heap.walkBack m.size m.tailElement

/-- The copy constructor. -/
def copy (other : InsertionOrderedHashMap K V) : Option (InsertionOrderedHashMap K V) := do
  let m ← (create 0).reserve (capacityAt other.capacityIdx)
  if other.size = 0 then some m
  else
    let items ← other.items
    items.foldlM (fun m e => (m.insert hasher e.1 e.2 false).map Prod.snd) m

end InsertionOrderedHashMap

inductive HashMapOp (K V : Type) where
  | insert (key : K) (value : V)
  /-- `map[key]`. -/
  | index (key : K)
  /-- `map[key] = value`. -/
  | assign (key : K) (value : V)
  | erase (key : K)
  | find (key : K)
  | reserve (newCapacity : Nat)
  /-- The copy takes the place of the map. -/
  | copy
  | clear

inductive HashMapReply (K V : Type) where
  /-- The element that an iterator or a reference leads to; none for `end()`. -/
  | element (e : Option (K × V))
  | erased (b : Bool)
  | done

namespace InsertionOrderedHashMap

variable {K V : Type} [DecidableEq K] [Inhabited V] (hasher : K → UInt32)

/-- What is at an address. -/
def read (m : InsertionOrderedHashMap K V) (elem : Nat) : Option (HashMapReply K V) :=
  (m.heap elem).map fun e => .element (some e.data)

def exec (m : InsertionOrderedHashMap K V) :
    HashMapOp K V → Option (HashMapReply K V × InsertionOrderedHashMap K V)
  | .insert key value => do
    let (elem, m) ← m.insert hasher key value false
    let reply ← m.read elem
    some (reply, m)
  | .index key => do
    let (elem, m) ← m.index hasher key
    let reply ← m.read elem
    some (reply, m)
  | .assign key value => do
    let (elem, m) ← m.index hasher key
    let m ← m.setSecond elem value
    let reply ← m.read elem
    some (reply, m)
  | .erase key => (m.erase hasher key).map fun r => (.erased r.1, r.2)
  | .find key => do
    match ← m.find hasher key with
    | none => some (.element none, m)
    | some elem =>
      let reply ← m.read elem
      some (reply, m)
  | .reserve newCapacity => (m.reserve newCapacity).map fun m => (.done, m)
  | .copy => (m.copy hasher).map fun m => (.done, m)
  | .clear => m.clear.map fun m => (.done, m)

end InsertionOrderedHashMap

end VersatileEngine
