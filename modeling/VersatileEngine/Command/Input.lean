import VersatileEngine.Command.Args
import VersatileEngine.Pipeline.Machine

/-!
# VersatileEngine.Command.Input

`command::call(key, input)` with an input that is a variant.

* `storeDict`, `parseInput` — `command::parseArgs(ctx, input)`; no result where `at` returns null and the
  code goes on to use it, or where a conversion throws.
* `Commands`   — the registered commands, with the state of the application they work on.
* `Commands.call` — the context is filled, then the steps run.
-/

namespace VersatileEngine.Command

section Input

variable (stod : Str → Option Binary64) (platform : Platform)

/-- The entries of a dictionary; the keys are paths. -/
def storeDict (ctx : Tree) : List (Str × Var) → Option Tree
  | [] => some ctx
  | (key, val) :: d =>
    if key ≠ [] ∧ key.head? ≠ some 95 then
      (ctx.atPath key fun t => t.set val).bind fun ctx => storeDict ctx d
    else storeDict ctx d

/-- The first declared parameter without a short form. -/
def positional (decl : Tree) : Option Str :=
  (decl.kids.find? fun param => param.name ≠ [] && param.name.head? ≠ some 95 &&
    !param.kids.any fun k => k.name = ascii "_short").map Tree.name

def parseInput (decl : Option Tree) (ctx : Tree) (input : Var) : Option Tree :=
  let ctx := Tree.node ctx.name ctx.value []
  match input with
  | .none => some ctx
  | .dict d => storeDict ctx d
  | .list l => parseArgs stod platform decl ctx (l.map (Var.toString platform))
  | input =>
    match decl.bind positional with
    | some nm => ctx.atPath nm fun t => t.set input
    | none => some (ctx.push ((Tree.blank []).set input))

end Input

/-- The node of a registered key. -/
structure Entry where
  name : Str
  hasSteps : Bool
  declare : Option Tree

/-- The registered commands over a state of the application. `drive` is a pipeline with the steps of a
key on a filled context; it has no result when it never finishes or an exception leaves it. -/
structure Commands (S : Type) where
  keys : S → List Str
  help : S → Str → Str
  find : S → Str → Option Entry
  drive : S → Str → Tree → Option (S × Result)

/-- `command::call(key, input)`. An unknown key stands for a command that always fails. -/
def Commands.call {S : Type} (commands : Commands S) (stod : Str → Option Binary64) (platform : Platform)
    (s : S) (key : Str) (input : Var) : Option (S × Result) :=
  let ctx := Tree.blank (ascii "_ctx")
  match commands.find s key with
  | none =>
    (parseInput stod platform none ctx input).map fun _ => (s, .fail (.string (ascii "unknown command")))
  | some entry =>
    if entry.hasSteps then (parseInput stod platform entry.declare ctx input).bind (commands.drive s key)
    else some (s, .fail (.string (ascii "command has no steps: " ++ entry.name)))

/-- `convert::parse` of a result. -/
def resultText (platform : Platform) (r : Result) : Str :=
  if r.isSuccess then ascii "success"
  else if r.isAccepted then ascii "accepted"
  else
    ascii "error(" ++ intChars r.code ++ ascii ")" ++
      (if r.content.isNull then [] else ascii ": " ++ r.content.toString platform)

end VersatileEngine.Command
