import VersatileEngine.Lib.Positions
import VersatileEngine.Core.Var

/-!
# VersatileEngine.Node.Basic

The data of `ve::Node`: nodes, their child containers, and the forest they live in.

* `Children` — `Node::Private::Children`: the ordered children and, for every name, the indices at
  which children of that name stand. A `std::unordered_map` is a partial function; the order in
  which it would be iterated matters to no modelled function.
* `Node`     — the private part of one node, with the name and flags of its `Object`.
* `Forest`   — every node of the process, addressed by `Id`. An address is never handed out twice,
  and a freed node keeps its last record: no modelled function frees a node twice without
  getting stuck, and callers pass live nodes.

Child counts and indices are integers: the source keeps them in `int`, so the model speaks about
containers of fewer than `2^31` children.

The forest also logs what observers could see: every call of `trigger` and `activate`. Observers
themselves are not part of the model.
-/

namespace VersatileEngine

abbrev Id := Nat

/-- `VE_NODE_KEY_SEP`, the character `#`. -/
def keySep : UInt8 := 35

/-- `VE_NODE_PATH_SEP`, the character `/`. -/
def pathSep : UInt8 := 47

structure Children where
  indices : Str → Option (List Int)
  nodes : List Id

namespace Children

def empty : Children := ⟨fun _ => none, []⟩

/-- Shift every recorded index that is `≥ start` by `delta`. -/
def shift (ch : Children) (start delta : Int) : Children :=
  { ch with indices := fun nm => (ch.indices nm).map (shiftFrom start delta) }

/-- `indices[nm] = iv`, or the entry erased. -/
def record (ch : Children) (nm : Str) (iv : Option (List Int)) : Children :=
  { ch with indices := fun x => if x = nm then iv else ch.indices x }

/-- `indices[nm]` as `operator[]` gives it: the empty list when there is no entry. -/
def indexList (ch : Children) (nm : Str) : List Int := (ch.indices nm).getD []

end Children

/-- `Vector::value(i, nullptr)`. -/
def nodeAt (nodes : List Id) (i : Int) : Option Id :=
  if 0 ≤ i then nodes[i.toNat]? else none

structure Node where
  name : Str
  parent : Option Id
  shadow : Option Id
  children : Option Children
  value : Var
  watching : Bool
  silent : Bool

def Node.fresh (name : Str) : Node := ⟨name, none, none, none, .none, false, false⟩

inductive Signal where
  | changed (new old : Var)
  | added (key : Str) (overlap : Int)
  | removed (key : Str) (overlap : Int)

/-- One signal site: `trigger<..>(..); if (isWatching()) activate(.., this);`. -/
structure Emission where
  source : Id
  signal : Signal
  triggered : Bool
  activated : Bool

structure Forest where
  node : Id → Node
  live : Id → Bool
  next : Id
  log : List Emission

namespace Forest

/-- No node has been created yet. -/
def init : Forest := ⟨fun _ => .fresh [], fun _ => false, 0, []⟩

def name (f : Forest) (n : Id) : Str := (f.node n).name
def parent (f : Forest) (n : Id) : Option Id := (f.node n).parent
def value (f : Forest) (n : Id) : Var := (f.node n).value
def shadow (f : Forest) (n : Id) : Option Id := (f.node n).shadow

/-- The child container, empty when none has been allocated. -/
def kids (f : Forest) (n : Id) : Children := (f.node n).children.getD .empty

/-- The ordered child list. -/
def nodes (f : Forest) (n : Id) : List Id := (f.kids n).nodes

def setNode (f : Forest) (n : Id) (x : Node) : Forest :=
  { f with node := fun m => if m = n then x else f.node m }

def setParent (f : Forest) (c : Id) (p : Option Id) : Forest :=
  f.setNode c { f.node c with parent := p }

def setChildren (f : Forest) (n : Id) (ch : Option Children) : Forest :=
  f.setNode n { f.node n with children := ch }

def ensureChildren (f : Forest) (n : Id) : Forest := f.setChildren n (some (f.kids n))

def setValue (f : Forest) (n : Id) (v : Var) : Forest := f.setNode n { f.node n with value := v }

def setShadow (f : Forest) (n : Id) (s : Option Id) : Forest :=
  f.setNode n { f.node n with shadow := s }

def setFlags (f : Forest) (n : Id) (watching silent : Bool) : Forest :=
  f.setNode n { f.node n with watching := watching, silent := silent }

/-- `new Node(name)`. -/
def newNode (f : Forest) (name : Str) : Forest × Id :=
  ({ f.setNode f.next (.fresh name) with
      live := fun m => if m = f.next then true else f.live m
      next := f.next + 1 }, f.next)

def free (f : Forest) (n : Id) : Forest :=
  { f with live := fun m => if m = n then false else f.live m }

def emit (f : Forest) (n : Id) (s : Signal) : Forest :=
  { f with log := f.log ++ [⟨n, s, !(f.node n).silent, (f.node n).watching⟩] }

/-! ## What the updates leave alone -/

section Simp

variable (f : Forest) (m n : Id) (p s : Option Id) (ch : Option Children) (v : Var) (a b : Bool)
  (sig : Signal) (x : Node) (nm : Str)

@[simp] theorem setNode_node : (f.setNode n x).node m = if m = n then x else f.node m := rfl
@[simp] theorem setNode_live : (f.setNode n x).live = f.live := rfl
@[simp] theorem setNode_next : (f.setNode n x).next = f.next := rfl

@[simp] theorem setParent_live : (f.setParent n p).live = f.live := rfl
@[simp] theorem setParent_next : (f.setParent n p).next = f.next := rfl
@[simp] theorem setParent_parent :
    (f.setParent n p).parent m = if m = n then p else f.parent m := by
  simp only [setParent, parent, setNode_node]; split <;> rfl
@[simp] theorem setParent_kids : (f.setParent n p).kids m = f.kids m := by
  simp only [setParent, kids, setNode_node]; split <;> simp_all
@[simp] theorem setParent_nodes : (f.setParent n p).nodes m = f.nodes m := by simp [nodes]
@[simp] theorem setParent_name : (f.setParent n p).name = f.name := by
  funext y; simp only [setParent, name, setNode_node]; split <;> simp_all
@[simp] theorem setParent_value : (f.setParent n p).value m = f.value m := by
  simp only [setParent, value, setNode_node]; split <;> simp_all
@[simp] theorem setParent_shadow : (f.setParent n p).shadow m = f.shadow m := by
  simp only [setParent, shadow, setNode_node]; split <;> simp_all

@[simp] theorem setChildren_live : (f.setChildren n ch).live = f.live := rfl
@[simp] theorem setChildren_next : (f.setChildren n ch).next = f.next := rfl
@[simp] theorem setChildren_parent : (f.setChildren n ch).parent m = f.parent m := by
  simp only [setChildren, parent, setNode_node]; split <;> simp_all
@[simp] theorem setChildren_kids :
    (f.setChildren n ch).kids m = if m = n then ch.getD .empty else f.kids m := by
  simp only [setChildren, kids, setNode_node]; split <;> rfl
@[simp] theorem setChildren_nodes :
    (f.setChildren n ch).nodes m = if m = n then (ch.getD .empty).nodes else f.nodes m := by
  simp only [nodes, setChildren_kids]; split <;> rfl
@[simp] theorem setChildren_name : (f.setChildren n ch).name = f.name := by
  funext y; simp only [setChildren, name, setNode_node]; split <;> simp_all
@[simp] theorem setChildren_value : (f.setChildren n ch).value m = f.value m := by
  simp only [setChildren, value, setNode_node]; split <;> simp_all
@[simp] theorem setChildren_shadow : (f.setChildren n ch).shadow m = f.shadow m := by
  simp only [setChildren, shadow, setNode_node]; split <;> simp_all

@[simp] theorem ensureChildren_live : (f.ensureChildren n).live = f.live := rfl
@[simp] theorem ensureChildren_next : (f.ensureChildren n).next = f.next := rfl
@[simp] theorem ensureChildren_parent : (f.ensureChildren n).parent m = f.parent m := by
  simp [ensureChildren]
@[simp] theorem ensureChildren_kids : (f.ensureChildren n).kids m = f.kids m := by
  simp only [ensureChildren, setChildren_kids]; split <;> simp_all
@[simp] theorem ensureChildren_nodes : (f.ensureChildren n).nodes m = f.nodes m := by simp [nodes]
@[simp] theorem ensureChildren_name : (f.ensureChildren n).name = f.name := by
  simp [ensureChildren]
@[simp] theorem ensureChildren_value : (f.ensureChildren n).value m = f.value m := by
  simp [ensureChildren]
@[simp] theorem ensureChildren_shadow : (f.ensureChildren n).shadow m = f.shadow m := by
  simp [ensureChildren]

@[simp] theorem setValue_live : (f.setValue n v).live = f.live := rfl
@[simp] theorem setValue_next : (f.setValue n v).next = f.next := rfl
@[simp] theorem setValue_parent : (f.setValue n v).parent m = f.parent m := by
  simp only [setValue, parent, setNode_node]; split <;> simp_all
@[simp] theorem setValue_kids : (f.setValue n v).kids m = f.kids m := by
  simp only [setValue, kids, setNode_node]; split <;> simp_all
@[simp] theorem setValue_nodes : (f.setValue n v).nodes m = f.nodes m := by simp [nodes]
@[simp] theorem setValue_name : (f.setValue n v).name = f.name := by
  funext y; simp only [setValue, name, setNode_node]; split <;> simp_all
@[simp] theorem setValue_value : (f.setValue n v).value m = if m = n then v else f.value m := by
  simp only [setValue, value, setNode_node]; split <;> rfl
@[simp] theorem setValue_shadow : (f.setValue n v).shadow m = f.shadow m := by
  simp only [setValue, shadow, setNode_node]; split <;> simp_all

@[simp] theorem setShadow_live : (f.setShadow n s).live = f.live := rfl
@[simp] theorem setShadow_next : (f.setShadow n s).next = f.next := rfl
@[simp] theorem setShadow_parent : (f.setShadow n s).parent m = f.parent m := by
  simp only [setShadow, parent, setNode_node]; split <;> simp_all
@[simp] theorem setShadow_kids : (f.setShadow n s).kids m = f.kids m := by
  simp only [setShadow, kids, setNode_node]; split <;> simp_all
@[simp] theorem setShadow_name : (f.setShadow n s).name = f.name := by
  funext y; simp only [setShadow, name, setNode_node]; split <;> simp_all

@[simp] theorem setFlags_live : (f.setFlags n a b).live = f.live := rfl
@[simp] theorem setFlags_next : (f.setFlags n a b).next = f.next := rfl
@[simp] theorem setFlags_parent : (f.setFlags n a b).parent m = f.parent m := by
  simp only [setFlags, parent, setNode_node]; split <;> simp_all
@[simp] theorem setFlags_kids : (f.setFlags n a b).kids m = f.kids m := by
  simp only [setFlags, kids, setNode_node]; split <;> simp_all
@[simp] theorem setFlags_name : (f.setFlags n a b).name = f.name := by
  funext y; simp only [setFlags, name, setNode_node]; split <;> simp_all
@[simp] theorem setFlags_shadow : (f.setFlags n a b).shadow m = f.shadow m := by
  simp only [setFlags, shadow, setNode_node]; split <;> simp_all

@[simp] theorem emit_node : (f.emit n sig).node = f.node := rfl
@[simp] theorem emit_live : (f.emit n sig).live = f.live := rfl
@[simp] theorem emit_next : (f.emit n sig).next = f.next := rfl
@[simp] theorem emit_parent : (f.emit n sig).parent m = f.parent m := rfl
@[simp] theorem emit_kids : (f.emit n sig).kids m = f.kids m := rfl
@[simp] theorem emit_nodes : (f.emit n sig).nodes m = f.nodes m := rfl
@[simp] theorem emit_name : (f.emit n sig).name = f.name := rfl
@[simp] theorem emit_value : (f.emit n sig).value m = f.value m := rfl
@[simp] theorem emit_shadow : (f.emit n sig).shadow m = f.shadow m := rfl

@[simp] theorem free_node : (f.free n).node = f.node := rfl
@[simp] theorem free_live : (f.free n).live m = if m = n then false else f.live m := rfl
@[simp] theorem free_next : (f.free n).next = f.next := rfl
@[simp] theorem free_parent : (f.free n).parent m = f.parent m := rfl
@[simp] theorem free_kids : (f.free n).kids m = f.kids m := rfl
@[simp] theorem free_nodes : (f.free n).nodes m = f.nodes m := rfl
@[simp] theorem free_name : (f.free n).name = f.name := rfl
@[simp] theorem free_value : (f.free n).value m = f.value m := rfl
@[simp] theorem free_shadow : (f.free n).shadow m = f.shadow m := rfl

@[simp] theorem newNode_snd : (f.newNode nm).2 = f.next := rfl
@[simp] theorem newNode_live :
    (f.newNode nm).1.live m = if m = f.next then true else f.live m := rfl
@[simp] theorem newNode_next : (f.newNode nm).1.next = f.next + 1 := rfl
@[simp] theorem newNode_node :
    (f.newNode nm).1.node m = if m = f.next then .fresh nm else f.node m := rfl
@[simp] theorem newNode_parent :
    (f.newNode nm).1.parent m = if m = f.next then none else f.parent m := by
  simp only [parent, newNode_node]; split <;> rfl
@[simp] theorem newNode_kids :
    (f.newNode nm).1.kids m = if m = f.next then .empty else f.kids m := by
  simp only [kids, newNode_node]; split <;> rfl
@[simp] theorem newNode_nodes :
    (f.newNode nm).1.nodes m = if m = f.next then [] else f.nodes m := by
  simp only [nodes, newNode_kids]; split <;> rfl
@[simp] theorem newNode_name :
    (f.newNode nm).1.name m = if m = f.next then nm else f.name m := by
  simp only [name, newNode_node]; split <;> rfl
@[simp] theorem newNode_value :
    (f.newNode nm).1.value m = if m = f.next then .none else f.value m := by
  simp only [value, newNode_node]; split <;> rfl
@[simp] theorem newNode_shadow :
    (f.newNode nm).1.shadow m = if m = f.next then none else f.shadow m := by
  simp only [shadow, newNode_node]; split <;> rfl

end Simp

end Forest

end VersatileEngine
