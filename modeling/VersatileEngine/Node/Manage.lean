import VersatileEngine.Node.Access

/-!
# VersatileEngine.Node.Manage

The operations that change a node: `insert`, `append`, `take`, `remove`, `clear`, `set`, `update`
and `copy`.

A null `Node*` is `none`. Functions that follow a tree to its leaves (`delete`, `copy`) take a bound
on the depth and answer `none` when it is used up or when a freed node would be used; the bound
stands for nothing in the source. Locks and log messages are left out.
-/

namespace VersatileEngine

/-- `index` after the wrap of a negative one, when it lies in `[0, sz]`. -/
def resolveIndex (index sz : Int) : Option Int :=
  let index := if index < 0 then index + sz + 1 else index
  if index < 0 ∨ sz < index then none else some index

namespace Children

/-- The container part of `insert(child, index)`, with the overlap index of the key. -/
def insertOne (ch : Children) (name : Id → Str) (c : Id) (index : Int) : Children × Int :=
  let nm := name c
  if index = ch.nodes.length then
    -- append: no shift needed
    let ch' := { ch with nodes := ch.nodes ++ [c] }
    if nm = [] then (ch', -1)
    else
      let iv := ch.indexList nm ++ [(ch.nodes.length : Int)]
      (ch'.record nm (some iv), if 1 < iv.length then iv.length - 1 else -1)
  else
    let ch' := { ch.shift index 1 with nodes := ch.nodes.insertIdx index.toNat c }
    if nm = [] then (ch', -1)
    else
      let oi := lowerBound (ch'.indexList nm) index
      let iv := (ch'.indexList nm).insertIdx oi index
      (ch'.record nm (some iv), if iv.length ≤ 1 then -1 else oi)

/-- The loop that records the positions `gi, gi + 1, ..` of a batch. -/
def recordBatch (name : Id → Str) : Children → Int → List Id → Children
  | ch, _, [] => ch
  | ch, gi, c :: cs =>
    let iv := ch.indexList (name c)
    let ch := if name c = [] then ch
      else ch.record (name c) (some (iv.insertIdx (lowerBound iv gi) gi))
    recordBatch name ch (gi + 1) cs

/-- The overlap index of the first child of a batch that goes to `index`. -/
def firstOverlap (ch : Children) (nm : Str) (index : Int) : Int :=
  let iv := ch.indexList nm
  if nm = [] ∨ iv.length = 0 then -1 else lowerBound iv index

/-- The container part of `insert(children, index)`. -/
def insertMany (ch : Children) (name : Id → Str) (cs : List Id) (index : Int) : Children × Int :=
  let ch := if index < ch.nodes.length then ch.shift index cs.length else ch
  let ch := { ch with nodes := ch.nodes.take index.toNat ++ cs ++ ch.nodes.drop index.toNat }
  (ch.recordBatch name index cs, ch.firstOverlap (name (cs.headD 0)) index)

/-- `nodes.erase(begin + pos)`, then one shift down. -/
def removeAt (ch : Children) (pos : Int) : Children :=
  { ch with nodes := ch.nodes.eraseIdx pos.toNat }.shift pos (-1)

/-- The container part of `take(child)`: the position and the overlap index of the child found. -/
def takeOne (ch : Children) (name : Id → Str) (c : Id) : Children × Option (Int × Int) :=
  let nm := name c
  if nm = [] then
    let pos := Forest.forwardScan c 0 ch.nodes
    if pos < 0 then (ch, none) else (ch.removeAt pos, some (pos, -1))
  else
    match ch.indices nm with
    | none => (ch, none)
    | some ivec =>
      match ivec.findIdx? fun i => nodeAt ch.nodes i = some c with
      | none => (if ivec = [] then ch.record nm none else ch, none)
      | some j =>
        let pos := ivec.getD j (-1)
        let rest := ivec.eraseIdx j
        ((ch.record nm (if rest = [] then none else some rest)).removeAt pos,
          some (pos, if 1 < ivec.length then j else -1))

end Children

namespace Forest

/-- `Node::take(child)`. -/
def take (f : Forest) (this : Id) (child : Option Id) : Forest × Option Id :=
  match child, (f.node this).children with
  | some c, some ch =>
    match ch.takeOne f.name c with
    | (ch', none) => (f.setChildren this (some ch'), none)
    | (ch', some (pos, oi)) =>
      let key := toKey keySep (f.name c) (if f.name c = [] then pos else oi)
      (((f.setChildren this (some ch')).setParent c none).emit this (.removed key 0), some c)
  | _, _ => (f, none)

/-- `if (child->parent()) child->parent()->take(child);` -/
def detach (f : Forest) (c : Id) : Forest :=
  match f.parent c with
  | some q => (f.take q (some c)).1
  | none => f

/-- `Node::insert(child, index)`. -/
def insert (f : Forest) (this : Id) (child : Option Id) (index : Int) : Forest × Bool :=
  match child with
  | none => (f, false)
  | some c =>
    let f := (f.detach c).ensureChildren this
    match resolveIndex index (f.nodes this).length with
    | none => (f, false)
    | some index =>
      let r := (f.kids this).insertOne f.name c index
      let key := toKey keySep (f.name c) (if f.name c = [] then index else r.2)
      (((f.setChildren this (some r.1)).setParent c (some this)).emit this (.added key 0), true)

/-- `c->_p->parent = p` for every child of a batch. -/
def setParents (f : Forest) (cs : List Id) (p : Option Id) : Forest :=
  cs.foldl (fun f c => f.setParent c p) f

def detachAll (f : Forest) (cs : List Id) : Forest := cs.foldl detach f

/-- All pointers of a batch, when none of them is null. -/
def nonNull : List (Option Id) → Option (List Id)
  | [] => some []
  | none :: _ => none
  | some c :: cs => (nonNull cs).map (c :: ·)

/-- `Node::insert(children, index)`. -/
def insertBatch (f : Forest) (this : Id) (children : List (Option Id)) (index : Int) :
    Forest × Bool :=
  if children = [] then (f, true)
  else
    match nonNull children with
    | none => (f, false)
    | some cs =>
      let f := (f.detachAll cs).ensureChildren this
      match resolveIndex index (f.nodes this).length with
      | none => (f, false)
      | some index =>
        let r := (f.kids this).insertMany f.name cs index
        let nm := f.name (cs.headD 0)
        let key := toKey keySep nm (if nm = [] then index else r.2)
        (((f.setChildren this (some r.1)).setParents cs (some this)).emit this
          (.added key (cs.length - 1)), true)

/-- `k` nodes of one name, freshly created. -/
def newNodes (f : Forest) (name : Str) : Nat → Forest × List Id
  | 0 => (f, [])
  | k + 1 =>
    let r := (f.newNode name).1.newNodes name k
    (r.1, f.next :: r.2)

/-- `Node::append(name, overlap)`. -/
def append (f : Forest) (this : Id) (name : Str) (overlap : Int) : Forest × Option Id :=
  if overlap < 0 then (f, none)
  else if overlap = 0 then
    (((f.newNode name).1.insert this (some f.next) (-1)).1, some f.next)
  else
    let r := f.newNodes name (1 + overlap.toNat)
    ((r.1.insertBatch this (r.2.map some) (-1)).1, r.2.head?)

/-! ## Deleting -/

/-- `Private::clearChildren(auto_delete)`, with the destructor it calls as a parameter. -/
def clearChildren (del : Forest → Id → Option Forest) (f : Forest) (n : Id) (autoDelete : Bool) :
    Option Forest :=
  match (f.node n).children with
  | none => some f
  | some ch =>
    (ch.nodes.foldlM (fun f c =>
        if autoDelete then del (f.setParent c none) c else some (f.setParent c none)) f).map
      fun f => f.setChildren n none

/-- `delete n`: `Node::~Node` deletes the children first. Freeing a freed node is stuck. -/
def deleteNode : Nat → Forest → Id → Option Forest
  | 0, _, _ => none
  | k + 1, f, n =>
    if f.live n then (clearChildren (deleteNode k) f n true).map fun f => f.free n else none

/-- `Node::remove(child)`. -/
def remove (fuel : Nat) (f : Forest) (this : Id) (child : Option Id) : Option (Forest × Bool) :=
  match f.take this child with
  | (f, some n) => (f.deleteNode fuel n).map fun f => (f, true)
  | (f, none) => some (f, false)

/-- The loop `while (n = take(name)) delete n;`. -/
def removeLoop : Nat → Forest → Id → Str → Bool → Option (Forest × Bool)
  | 0, _, _, _, _ => none
  | k + 1, f, this, name, removed =>
    if !f.live this then none else
    match f.take this (f.childNamed this name 0) with
    | (f, some n) => (f.deleteNode k n).bind fun f => removeLoop k f this name true
    | (f, none) => some (f, removed)

/-- `Node::remove(name)`: every child of that name, or the last child for the empty name. -/
def removeNamed (fuel : Nat) (f : Forest) (this : Id) (name : Str) : Option (Forest × Bool) :=
  if name = [] then f.remove fuel this (f.child this (-1)) else removeLoop fuel f this name false

/-- `Node::clear(auto_delete)`. -/
def clear (fuel : Nat) (f : Forest) (this : Id) (autoDelete : Bool) : Option Forest :=
  match (f.node this).children with
  | none => some f
  | some ch =>
    (clearChildren (deleteNode fuel) f this autoDelete).map fun f =>
      if ch.nodes = [] then f
      else f.emit this (.removed (toKey keySep [] 0) (ch.nodes.length - 1))

/-! ## Values -/

/-- `Node::set(v)`. -/
def set (f : Forest) (this : Id) (v : Var) : Forest :=
  (f.setValue this v).emit this (.changed v (f.value this))

/-- `Node::update(v)`. -/
def update (f : Forest) (this : Id) (v : Var) : Forest × Bool :=
  if (f.value this).eqv v then (f, false) else (f.set this v, true)

end Forest

/-! ## Copying -/

/-- The snapshot of `dst`'s children that a copy matches against. -/
structure CopyMatchState where
  namedChildren : Str → List Id
  anonymousChildren : List Id
  namedCursor : Str → Nat
  anonymousCursor : Nat
  matched : List Id

/-- `_bucket_children` into a fresh state. -/
def bucketChildren (name : Id → Str) (children : List Id) : CopyMatchState where
  namedChildren nm := if nm = [] then [] else children.filter fun c => name c = nm
  anonymousChildren := children.filter fun c => name c = []
  namedCursor _ := 0
  anonymousCursor := 0
  matched := []

/-- `while (cursor < bucket.size()) { match = bucket[cursor++]; if (matched.insert(match)) .. }`
on the part of the bucket behind the cursor. -/
def takeFrom : List Id → Nat → List Id → Option Id × Nat × List Id
  | [], cursor, matched => (none, cursor, matched)
  | c :: cs, cursor, matched =>
    if c ∈ matched then takeFrom cs (cursor + 1) matched else (some c, cursor + 1, c :: matched)

/-- `_take_copy_match`. -/
def takeCopyMatch (name : Id → Str) (s : Id) (st : CopyMatchState) :
    Option Id × CopyMatchState :=
  let nm := name s
  if nm = [] then
    let r := takeFrom (st.anonymousChildren.drop st.anonymousCursor) st.anonymousCursor st.matched
    (r.1, { st with anonymousCursor := r.2.1, matched := r.2.2 })
  else
    let r := takeFrom ((st.namedChildren nm).drop (st.namedCursor nm)) (st.namedCursor nm) st.matched
    (r.1, { st with
      namedCursor := fun x => if x = nm then r.2.1 else st.namedCursor x
      matched := r.2.2 })

namespace Forest

/-- `for (i = size - 1; i >= 0; --i)` over `dst`'s snapshot: what no source child matched goes. -/
def removeUnmatched (fuel : Nat) (f : Forest) (this : Id) (matched : List Id) :
    List Id → Option Forest
  | [] => some f
  | c :: cs =>
    if c ∈ matched then f.removeUnmatched fuel this matched cs
    else if !f.live c || !f.live this then none
    else (f.remove fuel this (some c)).bind fun r => r.1.removeUnmatched fuel this matched cs

section Copy

variable (copyInto : Forest → Id → Id → Option Forest) (fuel : Nat) (this : Id)

/-- Where `flush_pending_before(anchor)` inserts: before the anchor, else at the end. -/
def pendingIndex (f : Forest) (this : Id) (anchor : Option Id) : Int :=
  let at' := match anchor with
    | some _ => f.indexOf this anchor (-1)
    | none => f.count this
  if at' < 0 then f.count this else at'

/-- `new Node(pending->name())`, inserted below `this`. -/
def insertFresh (f : Forest) (this : Id) (nm : Str) (anchor : Option Id) : Forest × Bool :=
  let f' := (f.newNode nm).1
  f'.insert this (some f.next) (f'.pendingIndex this anchor)

/-- `flush_pending_before(anchor)`: a new node before the anchor for every pending source. -/
def flushPending (f : Forest) (anchor : Option Id) : List Id → Option Forest
  | [] => some f
  | p :: ps =>
    if f.live p && f.live this then
      let r := f.insertFresh this (f.name p) anchor
      (if r.2 then copyInto r.1 f.next p else r.1.deleteNode fuel f.next).bind fun f =>
        flushPending f anchor ps
    else none

/-- The main loop over the source children, with the sources not matched yet. -/
def copyChildren (autoInsert : Bool) :
    Forest → List Id → CopyMatchState → List Id → Option (Forest × List Id)
  | f, [], _, pending => some (f, pending)
  | f, s :: ss, st, pending =>
    if !f.live s then none else
    match takeCopyMatch f.name s st with
    | (none, st) =>
      copyChildren autoInsert f ss st (if autoInsert then pending ++ [s] else pending)
    | (some m, st) =>
      (flushPending copyInto fuel this f (some m) pending).bind fun f =>
        (copyInto f m s).bind fun f => copyChildren autoInsert f ss st []

end Copy

/-- `Node::copy(other, auto_insert, auto_remove, auto_update)`. -/
def copy : Nat → Forest → Id → Option Id → Bool → Bool → Bool → Option Forest
  | 0, _, _, _, _, _, _ => none
  | fuel + 1, f, this, other, autoInsert, autoRemove, autoUpdate =>
    match other with
    | none => some f
    | some o =>
      if o = this then some f
      else if !f.live this || !f.live o then none
      else
        let copyInto := fun f d s => copy fuel f d (some s) autoInsert autoRemove autoUpdate
        let srcChildren := f.childList o
        let dstChildren := f.childList this
        let matched := (srcChildren.foldl (fun st s => (takeCopyMatch f.name s st).2)
          (bucketChildren f.name dstChildren)).matched
        (if autoRemove && !dstChildren.isEmpty
          then f.removeUnmatched fuel this matched dstChildren.reverse else some f).bind fun f =>
        (copyChildren copyInto fuel this autoInsert f srcChildren
          (bucketChildren f.name (f.childList this)) []).bind fun r =>
        (flushPending copyInto fuel this r.1 none r.2).bind fun f =>
        if f.live this && f.live o then
          if autoUpdate then some (f.update this (f.value o)).1 else some (f.set this (f.value o))
        else none

/-! ## Bubbling -/

/-- `Node::activate`: the nodes that emit `NODE_ACTIVATED`, from the source upwards. -/
def activate : Nat → Forest → Id → Option (List Id)
  | 0, _, _ => none
  | k + 1, f, n =>
    if (f.node n).silent then some []
    else
      match f.parent n with
      | some p => if (f.node p).watching then (activate k f p).map (n :: ·) else some [n]
      | none => some [n]

end Forest

end VersatileEngine
