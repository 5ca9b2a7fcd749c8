import VersatileEngine.Node.Parts

/-!
# VersatileEngine.Command.Registry

The commands that are registered under keys: `Factory::reg`, `command::reg` and what a `Command` runs.

* `Registry`   — the tree of all nodes, the place of `ve/factory/cmd` in it, and the keys in use.
* `Registry.register` — one command: the parameters that are declared for it, and then the callable or
  what its builder does.
* `build`, `help`, `declared` — what a `Command` takes from its node.
-/

namespace VersatileEngine

open Tree

/-- `LoopRef`, and how a `Var` holds one; `none` is the empty reference. -/
structure Loops where
  Loop : Type
  /-- `loop::main()`. -/
  main : Loop
  custom : Loop → Var
  ofVar : Var → Option Loop
  ofVar_custom : ∀ l, ofVar (custom l) = some l
  ofVar_none : ofVar .none = none

/-- `Var::isCallable`. -/
def Var.isCallable : Var → Bool
  | .callable _ => true
  | _ => false

namespace Command

def helpName : Str := ascii "help"
def loopName : Str := ascii "loop"
def stepsName : Str := ascii "steps"
def declareName : Str := ascii "declare"
def shortName : Str := ascii "_short"

/-- The children of a command's node that belong to it. -/
def partNames : List Str := [helpName, loopName, stepsName, declareName]

/-- A declared parameter, and its short name. -/
structure Param where
  name : Str
  short : Option Str
  isName : isName name = true

/-- `decl->at(name)`, and `set("_short", ..)` for a short name. -/
def Param.declare (param : Param) (decl : Tree) : Option Tree :=
  decl.withAt param.name fun node =>
    match param.short with
    | none => some node
    | some s => node.withAt shortName fun k => some (k.set (.string s))

section Build

variable (L : Loops)

/-- `if (loop) at("loop")->set(loop)`. -/
def setLoop (loop : Option L.Loop) (nd : Tree) : Option Tree :=
  match loop with
  | none => some nd
  | some l => nd.withAt loopName fun k => some (k.set (L.custom l))

/-- `Step::writeTo`. -/
def writeTo (callable : Nat) (loop : Option L.Loop) (nd : Tree) : Option Tree :=
  setLoop L loop (nd.set (.callable callable))

/-- `writeTo(steps->at(steps->count()))`. -/
def pushStep (callable : Nat) (loop : Option L.Loop) (steps : Tree) : Option Tree :=
  (ensureIndex steps.kids steps.kids.length).bind fun (ks, i) => ks[i]?.bind fun sn =>
    (writeTo L callable loop sn).map fun sn => node steps.name steps.value (ks.set i sn)

/-- `Command::addStep`. -/
def addStep (callable : Nat) (loop : Option L.Loop) (nd : Tree) : Option Tree :=
  nd.withAt stepsName (pushStep L callable loop)

/-- `Command::setHelp`. -/
def setHelp (h : Str) (nd : Tree) : Option Tree := nd.withAt helpName fun k => some (k.set (.string h))

/-- What a builder does with its command. -/
inductive BuilderOp where
  | addStep (callable : Nat) (loop : Option L.Loop)
  | setHelp (h : Str)
  | declare (param : Param)

def BuilderOp.run : BuilderOp L → Tree → Option Tree
  | .addStep callable loop => Command.addStep L callable loop
  | .setHelp h => Command.setHelp h
  | .declare param => fun nd => nd.withAt declareName param.declare

/-- `find(name, false)`. -/
def child (nm : Str) (nd : Tree) : Option Tree := (findPath pathSep keySep nm nd).bind fun p => nd.sub p

/-- The step that `build` adds for a node, when it holds a callable. -/
def stepOf (sn : Tree) : Option (Var × L.Loop) :=
  if sn.value.isCallable then
    some (sn.value, ((child loopName sn).bind fun ln => L.ofVar ln.value).getD L.main)
  else none

/-- The steps of the pipeline that `Command::build` makes. -/
def build (nd : Tree) : List (Var × L.Loop) :=
  if nd.value.isCallable then (stepOf L nd).toList
  else ((child stepsName nd).map fun steps => steps.kids.filterMap (stepOf L)).getD []

/-- `get("help")`. -/
def help (nd : Tree) : Var := ((child helpName nd).map Tree.value).getD .none

/-- The node whose children a context has as defaults. -/
def declared (nd : Tree) : Option Tree := child declareName nd

end Build

end Command

/-- The callable of a command, or what its builder does. -/
inductive CommandBody (L : Loops) where
  | single (callable : Nat) (loop : Option L.Loop)
  | multi (ops : List (Command.BuilderOp L))

/-- `declareNode(key, sep)` for the parameters, if there are any, and `command::reg`. -/
structure Registration (L : Loops) where
  key : Str
  sep : UInt8
  params : List Command.Param
  body : CommandBody L
  help : Str

structure Registry where
  root : Tree
  /-- `ve/factory/cmd`. -/
  home : List Nat
  keys : List Str

namespace Registry

open Command

variable {L : Loops}

/-- Where a key is looked up: a separator in front leads to the root. -/
def base (w : Registry) (sep : UInt8) (key : Str) : List Nat := if key.head? = some sep then [] else w.home

/-- `factory().node(key, sep) const`. -/
def find (w : Registry) (sep : UInt8) (key : Str) : Option (List Nat) :=
  (w.root.sub (w.base sep key)).bind fun n => (findPath sep keySep key n).map (w.base sep key ++ ·)

/-- `factory().node(key, sep)`. -/
def node (w : Registry) (sep : UInt8) (key : Str) : Option (Registry × Option (List Nat)) :=
  (w.root.sub (w.base sep key)).map fun n =>
    let r := ensurePath sep keySep key n
    ({ w with root := w.root.modifyAt (fun _ => r.1) (w.base sep key) }, r.2.map (w.base sep key ++ ·))

/-- What is done to the node at a place; none when a null pointer is used. -/
def update (w : Registry) (p : List Nat) (f : Tree → Option Tree) : Option Registry :=
  (w.root.sub p).bind fun n => (f n).map fun n => { w with root := w.root.modifyAt (fun _ => n) p }

/-- The callable, the help and the loop of a node. -/
def fill (callable : Var) (help : Str) (loop : Option L.Loop) (nd : Tree) : Option Tree :=
  let nd := nd.set callable
  (if help = [] then some nd else nd.withAt helpName fun k => some (k.set (.string help))).bind
    (setLoop L loop)

/-- `Factory::reg(key, callable, help, lr, sep)`. -/
def reg (w : Registry) (L : Loops) (key : Str) (callable : Var) (help : Str) (loop : Option L.Loop) (sep : UInt8) :
    Option Registry :=
  (w.node sep key).bind fun (w, p) =>
    match p with
    | none => some w
    | some p =>
      if key ∈ w.keys then some w
      else { w with keys := w.keys ++ [key] }.update p (fill callable help loop)

/-- `declareNode(key, sep)`, and the parameters below it. -/
def declareNode (w : Registry) (key : Str) (params : List Param) (sep : UInt8) : Option Registry :=
  (w.node sep key).bind fun (w, p) => p.bind fun p =>
    w.update p fun nd => nd.withAt declareName fun decl => params.foldlM (fun decl param => param.declare decl) decl

/-- `command::reg(key, builder, help, sep)`. -/
def regBuilder (w : Registry) (key : Str) (ops : List (BuilderOp L)) (help : Str) (sep : UInt8) : Option Registry :=
  (if key ∈ w.keys then some w else w.reg L key .none [] none sep).bind fun w =>
    (w.node sep key).bind fun (w, p) => p.bind fun p =>
      w.update p fun nd => (ops.foldlM (fun nd op => BuilderOp.run L op nd) nd).bind fun nd =>
        if help = [] then some nd else setHelp help nd

def register (w : Registry) (r : Registration L) : Option Registry :=
  (if r.params = [] then some w else w.declareNode r.key r.params r.sep).bind fun w =>
    match r.body with
    | .single callable loop => w.reg L r.key (.callable callable) r.help loop r.sep
    | .multi ops => w.regBuilder r.key ops r.help r.sep

def registerAll (w : Registry) (regs : List (Registration L)) : Option Registry := regs.foldlM register w

/-- `command::has`. -/
def has (w : Registry) (sep : UInt8) (key : Str) : Bool := (w.find sep key).isSome

end Registry

end VersatileEngine
