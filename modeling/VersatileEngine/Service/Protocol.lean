import Mathlib.Data.List.Destutter
import VersatileEngine.Command.Input
import VersatileEngine.Json.OnDemand
import VersatileEngine.Json.Stringify
import VersatileEngine.Node.Create

/-!
# VersatileEngine.Service.Protocol

`dispatchNodeProtocol`: one request tree in, one reply tree out.

* `App`      — what the dispatcher uses of the application: the nodes below the root, the commands, and
  the services of the session.
* `Reply`    — what `okReply`, `acceptedReply` and `errorReply` write, as `Reply.into`.
* `Request`  — a request is read through `find` only, with names of children as paths.
* `answer`   — every operation but the recursion into the items of a batch; `dispatch` ties that knot.

A call has no result where no reply is built: a lookup that never ends, a null node that is written to,
an exception.
-/

namespace VersatileEngine

namespace Var

/-- `toBool(def)`. -/
def toBool (dflt : Bool) : Var → Bool
  | .bool b => b
  | .int i => i ≠ 0
  | .double d => !d.isZero
  | .string s => s = ascii "true" || s = ascii "1" || s ≠ []
  | _ => dflt

/-- `type()`, as a number. -/
def typeNumber : Var → Int64
  | .none => 0
  | .bool _ => 1
  | .int _ => 2
  | .double _ => 3
  | .string _ => 4
  | .bin _ => 5
  | .list _ => 6
  | .dict _ => 7
  | .pointer _ => 8
  | .callable _ => 9
  | .custom _ _ => 10

end Var

namespace Tree

def leaf (nm : Str) (v : Var) : Tree := node nm v []

/-- `get(key)`, for a key that is a name. -/
def get (t : Tree) (key : Str) : Var := ((t.child? key).map value).getD .none

mutual
/-- The tree that `nodeToJsonImplWithDepth` shows: at the limit, a node with children stands as `"..."`. -/
def cut : Nat → Tree → Tree
  | 0, node nm v ks => if ks.isEmpty then node nm v [] else leaf nm (.string (ascii "..."))
  | depth + 1, node nm v ks => node nm v (cutAll depth ks)

def cutAll : Nat → List Tree → List Tree
  | _, [] => []
  | depth, k :: ks => cut depth k :: cutAll depth ks
end

end Tree

namespace Protocol

/-- What the dispatcher works on, over the state of the application and its nodes. -/
structure App (S N : Type) where
  /-- `root->find(path)`: a node, or null. -/
  find : S → Str → Option (Option N)
  /-- `root->at(path)`. -/
  ensure : S → Str → Option (S × Option N)
  /-- `root->erase(path)`. -/
  erase : S → Str → Option (S × Bool)
  /-- `node->path(root)`. -/
  path : S → N → Str
  parent : S → N → Option N
  children : S → N → List N
  /-- The subtree of a node. -/
  tree : S → N → Tree
  hasShadow : S → N → Bool
  set : S → N → Var → S
  /-- `node->copy(&parsed, ..)`, from a tree of the importer. -/
  copy : ImportOptions → S → N → Tree → Option S
  /-- `trigger<NODE_CHANGED>()`, then `activate` when the node is watching. -/
  trigger : S → N → S
  commands : Command.Commands S
  /-- A pipeline with the steps of a key is started and not waited for: its last result, or none when it
  is detached. -/
  start : S → Str → Tree → Option (S × Option Result)
  /-- `delete detached`. -/
  drop : S → S
  /-- `tasks->attach(name, id, detached, ..)`: the id of the task, empty when it failed. -/
  attach : S → Str → Var → S × Str
  subscribe : S → Str → Bool → Bool → S
  unsubscribe : S → Str → S
  getSubscriberCount : S → Str → Int64

/-- The arguments of a call beside the trees, and the libraries. -/
structure Context where
  subscribe : Bool
  tasks : Bool
  batchLimit : Int
  allowSubscriptions : Bool
  platform : Platform
  stod : Str → Option Binary64
  simdjson : Simdjson

inductive Reply where
  /-- `okReply` with a node. -/
  | data (data : Tree)
  /-- `okReply` with a value. -/
  | value (data : Var)
  | accepted (taskId : Str)
  | error (code message : Str)

namespace Reply

open VersatileEngine.Tree

/-- `okReply(rep, id)`, or the beginning of `errorReply`. -/
def head (ok : Bool) (id : Var) : List Tree :=
  leaf (ascii "ok") (.bool ok) :: if id.isNull then [] else [leaf (ascii "id") id]

def isOk : Reply → Bool
  | error _ _ => false
  | _ => true

def body : Reply → List Tree
  | data d => [copyTree true false false d (blank (ascii "data"))]
  | value v => [leaf (ascii "data") v]
  | accepted taskId => [leaf (ascii "accepted") (.bool true), leaf (ascii "task_id") (.string taskId)]
  | error code message =>
    [leaf (ascii "code") (.string code), leaf (ascii "error") (.string message)]

/-- The reply node, which keeps its name and its value. -/
def into (r : Reply) (id : Var) (rep : Tree) : Tree := node rep.name rep.value (head r.isOk id ++ r.body)

end Reply

/-- What `req->find(key)` gives. -/
abbrev Request := Str → Option Tree

def Request.get (req : Request) (key : Str) : Var := ((req key).map Tree.value).getD .none

section Dispatch

variable {S N : Type} (app : App S N) (ctx : Context)

/-- `req->get(key).toString()`. -/
def text (req : Request) (key : Str) : Str := (req.get key).toString ctx.platform

def exportTreeVar (target : Tree) (depth : Int) : Option Var :=
  if depth < 0 then some (nodeToVar .default target)
  else (JsonS.exportTree ⟨0, false⟩ (target.cut depth.toNat)).bind (json.parse ctx.simdjson ctx.stod)

/-- A number of subscribers; zero without the service. -/
def subscribers (s : S) (path : Str) : Var :=
  .int (if ctx.subscribe then app.getSubscriberCount s path else 0)

open VersatileEngine.Tree

def makeNodeMeta (s : S) (target : N) : List Tree :=
  [leaf (ascii "type") (.int (app.tree s target).value.typeNumber),
    leaf (ascii "child_count") (.int (Int64.ofNat (app.tree s target).kids.length)),
    leaf (ascii "has_shadow") (.bool (app.hasShadow s target)),
    leaf (ascii "subscribers") (subscribers app ctx s (app.path s target))] ++
    (app.parent s target).toList.map fun p => leaf (ascii "parent_path") (.string (app.path s p))

def makeChildInfo (s : S) (child : N) (withMeta : Bool) : Tree :=
  let t := app.tree s child
  let childPath := app.path s child
  node [] .none ([leaf (ascii "name") (.string t.name), leaf (ascii "path") (.string childPath),
    leaf (ascii "has_value") (.bool !t.value.isNull),
    leaf (ascii "child_count") (.int (Int64.ofNat t.kids.length))] ++
    if withMeta then
      [leaf (ascii "type") (.int t.value.typeNumber), leaf (ascii "subscribers") (subscribers app ctx s childPath)]
    else [])

def notFound (path : Str) : Reply := .error (ascii "not_found") (ascii "node not found: " ++ path)

def invalidParams (message : Str) : Reply := .error (ascii "invalid_params") message

/-- `Node data("data")` with the children given. -/
def dataNode (kids : List Tree) : Reply := .data (node (ascii "data") .none kids)

def pathData (path : Str) : Reply := dataNode [leaf (ascii "path") (.string path)]

def nodeGet (s : S) (req : Request) : Option (S × Reply) :=
  (app.find s (text ctx req (ascii "path"))).bind fun target =>
    match target with
    | none => some (s, notFound (text ctx req (ascii "path")))
    | some target =>
      let tree := if (req (ascii "depth")).isSome then
          (exportTreeVar ctx (app.tree s target) ((req.get (ascii "depth")).toInt ctx.platform (-1))).map
            fun v => [leaf (ascii "tree") v]
        else some []
      tree.map fun tree =>
        (s, dataNode ([leaf (ascii "path") (.string (app.path s target)),
          leaf (ascii "value") (app.tree s target).value] ++ tree ++
          if (req.get (ascii "meta")).toBool false then
            [node (ascii "meta") .none (makeNodeMeta app ctx s target)]
          else []))

def nodeList (s : S) (req : Request) : Option (S × Reply) :=
  (app.find s (text ctx req (ascii "path"))).map fun target =>
    match target with
    | none => (s, notFound (text ctx req (ascii "path")))
    | some target =>
      (s, dataNode [leaf (ascii "path") (.string (app.path s target)),
        node (ascii "children") .none ((app.children s target).map fun child =>
          makeChildInfo app ctx s child ((req.get (ascii "meta")).toBool false))])

/-- What `target->..` does with a null pointer: there is no reply. -/
def withTarget (made : Option (S × Option N)) (act : S → N → Option (S × Reply)) : Option (S × Reply) :=
  made.bind fun (s, target) => target.bind (act s)

def nodeSet (s : S) (req : Request) : Option (S × Reply) :=
  match req (ascii "value") with
  | none => some (s, invalidParams (ascii "value is required"))
  | some valueNode =>
    withTarget (app.ensure s (text ctx req (ascii "path"))) fun s target =>
      let s := app.set s target (nodeToVar .default valueNode)
      some (s, pathData (app.path s target))

def nodePut (s : S) (req : Request) : Option (S × Reply) :=
  match (req (ascii "tree")).or (req (ascii "value")) with
  | none => some (s, invalidParams (ascii "tree is required"))
  | some treeNode =>
    withTarget (app.ensure s (text ctx req (ascii "path"))) fun s target =>
      (app.copy ⟨true, true, true⟩ s target (treeOf (ascii "var_import") (nodeToVar .default treeNode))).map
        fun s => (s, pathData (app.path s target))

def nodeRemove (s : S) (req : Request) : Option (S × Reply) :=
  let path := text ctx req (ascii "path")
  if path = [] then some (s, invalidParams (ascii "cannot remove root"))
  else (app.erase s path).map fun (s, erased) => (s, if erased then pathData path else notFound path)

def nodeTrigger (s : S) (req : Request) : Option (S × Reply) :=
  (app.find s (text ctx req (ascii "path"))).map fun target =>
    match target with
    | none => (s, notFound (text ctx req (ascii "path")))
    | some target =>
      let s := app.trigger s target
      (s, pathData (app.path s target))

/-- The keys in order, each once. -/
def sortedKeys (s : S) : List Str :=
  ((app.commands.keys s).mergeSort fun a b => decide (a ≤ b)).destutter (· ≠ ·)

def commandList (s : S) : S × Reply :=
  (s, dataNode [node (ascii "commands") .none ((sortedKeys app s).map fun key =>
    node [] .none [leaf (ascii "name") (.string key), leaf (ascii "help") (.string (app.commands.help s key))])])

/-- The reply for the result of a command that has ended. -/
def resultReply (r : Result) : Reply :=
  if r.isSuccess || r.isAccepted then .value r.content
  else .error (ascii "command_failed") (r.content.toString ctx.platform)

/-- `Command(name).call(args, nullptr, false, &detached)`; a null pointer is stored in the context. -/
def callDetached (s : S) (name : Str) (args : Var) : Option (S × Option Result) :=
  let cmdCtx := leaf (ascii "_ctx") (.pointer 0)
  match app.commands.find s name with
  | none =>
    (Command.parseInput ctx.stod ctx.platform none cmdCtx args).map fun _ =>
      (s, some (.fail (.string (ascii "unknown command"))))
  | some entry =>
    if entry.hasSteps then
      (Command.parseInput ctx.stod ctx.platform entry.declare cmdCtx args).bind (app.start s name)
    else some (s, some (.fail (.string (ascii "command has no steps: " ++ entry.name))))

/-- What becomes of a detached pipeline. -/
def detachedReply (s : S) (name : Str) (id : Var) : S × Reply :=
  if !ctx.tasks then (app.drop s, .error (ascii "internal_error") (ascii "task service unavailable"))
  else
    let (s, taskId) := app.attach s name id
    if taskId = [] then (s, .error (ascii "internal_error") (ascii "failed to start task"))
    else (s, .accepted taskId)

/-- The arguments: `args`, or else `body`. -/
def commandArgs (req : Request) : Var :=
  match (req (ascii "args")).or (req (ascii "body")) with
  | some argsNode => nodeToVar .default argsNode
  | none => .none

def commandRun (s : S) (req : Request) : Option (S × Reply) :=
  let name := text ctx req (ascii "name")
  if name = [] then some (s, invalidParams (ascii "command name is required"))
  else if (app.commands.find s name).isNone then
    some (s, .error (ascii "not_found") (ascii "unknown command: " ++ name))
  else if (req (ascii "wait")).isNone || (req.get (ascii "wait")).toBool true then
    (app.commands.call ctx.stod ctx.platform s name (commandArgs req)).map fun (s, r) => (s, resultReply ctx r)
  else
    (callDetached app ctx s name (commandArgs req)).map fun (s, r) =>
      match r with
      | some r => (s, resultReply ctx r)
      | none => detachedReply app ctx s name (req.get (ascii "id"))

def unsupported : Reply :=
  .error (ascii "unsupported") (ascii "subscriptions are not supported on this transport")

def subscribedData (path : Str) (subscribed : Bool) : Reply :=
  dataNode [leaf (ascii "path") (.string path), leaf (ascii "subscribed") (.bool subscribed)]

def subscribe (s : S) (req : Request) : S × Reply :=
  if !ctx.allowSubscriptions || !ctx.subscribe then (s, unsupported)
  else
    (app.subscribe s (text ctx req (ascii "path")) ((req.get (ascii "bubble")).toBool false)
      ((req.get (ascii "tree")).toBool false), subscribedData (text ctx req (ascii "path")) true)

def unsubscribe (s : S) (req : Request) : S × Reply :=
  if !ctx.allowSubscriptions || !ctx.subscribe then (s, unsupported)
  else (app.unsubscribe s (text ctx req (ascii "path")), subscribedData (text ctx req (ascii "path")) false)

/-- One item of a batch: what it makes of the state, and its reply node. -/
abbrev Run (S : Type) := S → Option (S × Tree)

/-- The loop of `dispatchBatch`. -/
def runItems : List (Run S) → S → Option (S × List Tree)
  | [], s => some (s, [])
  | run :: runs, s => (run s).bind fun (s, rep) => (runItems runs s).map fun (s, reps) => (s, rep :: reps)

def dispatchBatch (items : Option (List (Run S))) (s : S) : Option (S × Reply) :=
  match items with
  | none => some (s, invalidParams (ascii "items array required"))
  | some runs =>
    if 0 < ctx.batchLimit ∧ ctx.batchLimit < runs.length then
      some (s, invalidParams (ascii "batch size exceeds limit"))
    else (runItems runs s).map fun (s, reps) => (s, .data (node (ascii "items") .none reps))

/-- `dispatchNodeProtocolInternal`, for a request given by its children and what its items do. -/
def answer (items : Option (List (Run S))) (req : Request) (s : S) : Option (S × Reply) :=
  let op := text ctx req (ascii "op")
  if op = [] then some (s, .error (ascii "invalid_request") (ascii "op is required"))
  else if op = ascii "batch" then dispatchBatch ctx items s
  else if op = ascii "node.get" then nodeGet app ctx s req
  else if op = ascii "node.list" then nodeList app ctx s req
  else if op = ascii "node.set" then nodeSet app ctx s req
  else if op = ascii "node.put" then nodePut app ctx s req
  else if op = ascii "node.remove" then nodeRemove app ctx s req
  else if op = ascii "node.trigger" then nodeTrigger app ctx s req
  else if op = ascii "command.list" then some (commandList app s)
  else if op = ascii "command.run" then commandRun app ctx s req
  else if op = ascii "subscribe" then some (subscribe app ctx s req)
  else if op = ascii "unsubscribe" then some (unsubscribe app ctx s req)
  else some (s, .error (ascii "unknown_op") (ascii "unknown op: " ++ op))

mutual
def dispatch : Tree → S → Option (S × Reply)
  | .node nm v kids, s => answer app ctx (itemsOf kids) (Tree.node nm v kids).child? s

/-- The items below the first child of that name. -/
def itemsOf : List Tree → Option (List (Run S))
  | [] => none
  | k :: ks => if k.name = ascii "items" then some (runsBelow k) else itemsOf ks

def runsBelow : Tree → List (Run S)
  | .node _ _ ks => runsOf ks

/-- Every item is dispatched into an anonymous node. -/
def runsOf : List Tree → List (Run S)
  | [] => []
  | k :: ks =>
    (fun s => (dispatch k s).map fun (s, r) => (s, r.into (k.get (ascii "id")) (blank []))) :: runsOf ks
end

/-- `dispatchNodeProtocol`, into a reply node. -/
def dispatchNodeProtocol (req rep : Tree) (s : S) : Option (S × Tree) :=
  (dispatch app ctx req s).map fun (s, r) => (s, r.into (req.get (ascii "id")) rep)

theorem runsOf_length (items : List Tree) : (runsOf app ctx items).length = items.length := by
  induction items with
  | nil => rfl
  | cons item items ih => rw [runsOf, List.length_cons, List.length_cons, ih]

theorem itemsOf_eq (kids : List Tree) : itemsOf app ctx kids =
    (kids.find? fun k => k.name = ascii "items").map (runsBelow app ctx) := by
  induction kids with
  | nil => rfl
  | cons k ks ih =>
    rw [itemsOf, List.find?_cons]
    split_ifs with hk
    · simp [hk]
    · simp [hk, ih]

/-- **A request is read through `find` and its items only.** -/
theorem dispatch_congr {req req' : Tree} (h : ∀ key, req.child? key = req'.child? key) :
    dispatch app ctx req = dispatch app ctx req' := by
  obtain ⟨nm, v, kids⟩ := req
  obtain ⟨nm', v', kids'⟩ := req'
  have hsame : itemsOf app ctx kids = itemsOf app ctx kids' := by
    rw [itemsOf_eq, itemsOf_eq]
    exact congrArg _ (h (ascii "items"))
  funext s
  rw [dispatch, dispatch, hsame, funext h]

end Dispatch

end Protocol

/-! ## The dispatcher on a forest -/

namespace Forest

mutual
/-- A tree that an importer has built, as nodes of its own. -/
def plant (f : Forest) : Tree → Forest × Id
  | .node nm v ks =>
    let r := plantAll f ks
    let g := (r.1.newNode nm).1.setValue r.1.next v
    (r.2.foldl (fun f c => (f.insert r.1.next (some c) (-1)).1) g, r.1.next)

def plantAll (f : Forest) : List Tree → Forest × List Id
  | [] => (f, [])
  | k :: ks =>
    let r := plant f k
    let rs := plantAll r.1 ks
    (rs.1, r.2 :: rs.2)
end

/-- The subtree of a node, as deep as the bound. -/
def read (f : Forest) : Nat → Id → Tree
  | 0, n => .blank (f.name n)
  | k + 1, n => .node (f.name n) (f.value n) ((f.nodes n).map (f.read k))

/-- `Node::erase(path)`. -/
def erase (f : Forest) (k : Nat) (this : Id) (path : Str) : Option (Forest × Bool) :=
  (f.atPath k this path false).bind fun t =>
    match t with
    | none => some (f, false)
    | some t =>
      match f.parent t with
      | none => some (f, false)
      | some p => f.remove k p (some t)

/-- The part of an application beside its nodes. -/
structure Services (S : Type) where
  commands : Command.Commands S
  start : S → Str → Tree → Option (S × Option Result)
  drop : S → S
  attach : S → Str → Var → S × Str
  subscribe : S → Str → Bool → Bool → S
  unsubscribe : S → Str → S
  getSubscriberCount : S → Str → Int64

/-- The nodes below a root with services, whose own state is any. The bound is on the links and levels that
are followed. -/
def app {T : Type} (k : Nat) (root : Id) (services : Services (Forest × T)) : Protocol.App (Forest × T) Id where
  find s path := s.1.atPath k root path true
  ensure s path := (s.1.ensurePath k root path true).map fun r => ((r.1, s.2), r.2)
  erase s path := (s.1.erase k root path).map fun r => ((r.1, s.2), r.2)
  path s n := (s.1.path k n (some root)).getD []
  parent s := s.1.parent
  children s := s.1.nodes
  tree s n := s.1.read k n
  hasShadow s n := (s.1.shadow n).isSome
  set s n v := (s.1.set n v, s.2)
  copy options s n t :=
    let r := s.1.plant t
    ((r.1.copy k n (some r.2) options.auto_insert options.auto_remove options.auto_update).bind fun f =>
      f.deleteNode k r.2).map fun f => (f, s.2)
  trigger s n := (s.1.emit n (.changed .none .none), s.2)
  commands := services.commands
  start := services.start
  drop := services.drop
  attach := services.attach
  subscribe := services.subscribe
  unsubscribe := services.unsubscribe
  getSubscriberCount := services.getSubscriberCount

end Forest

end VersatileEngine
