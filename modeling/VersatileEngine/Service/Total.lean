import VersatileEngine.Service.Gateway

/-!
# VersatileEngine.Service.Total

Which requests the dispatcher answers, and which it answers as it should.

* `ReplyNode`  — a reply as the protocol has it; `replyNode_into` says that every reply is one.
* `Unusable`   — a path that names no node and for which none can be made.
* `Dispatched` — the requests that are dispatched in the course of one, in the state that each one meets.
* `Good`, `Defect` — an answer as it should be, and what prevents it.
-/

namespace VersatileEngine

namespace Protocol

open VersatileEngine.Tree

/-- A reply says whether it is one of success, and else why not; it has the id of its request. -/
structure ReplyNode (id : Var) (rep : Tree) : Prop where
  ok : rep.get (ascii "ok") = .bool true ∨ rep.get (ascii "ok") = .bool false ∧
    ∃ code message, rep.get (ascii "code") = .string code ∧ rep.get (ascii "error") = .string message
  id : id.isNull = false → rep.get (ascii "id") = id

theorem replyNode_into (r : Reply) (id : Var) (rep : Tree) : ReplyNode id (r.into id rep) where
  ok := by
    have hok := get_into_ok r id rep
    cases r with
    | error code message =>
      have hcode := child?_into (.error code message) id rep (show ascii "ok" ≠ ascii "code" by decide) (by decide)
      have herror := child?_into (.error code message) id rep (show ascii "ok" ≠ ascii "error" by decide) (by decide)
      have hne : ascii "code" ≠ ascii "error" := by decide
      exact .inr ⟨hok, code, message, get_of_child? (hcode.trans (child?_head rfl)),
        get_of_child? (herror.trans ((child?_leaf hne).trans (child?_head rfl)))⟩
    | _ => exact .inl hok
  id := by
    intro hid
    have hne : ascii "ok" ≠ ascii "id" := by decide
    have hhead : Reply.head r.isOk id = [leaf (ascii "ok") (.bool r.isOk), leaf (ascii "id") id] := by
      rw [Reply.head, hid]
      rfl
    rw [Reply.into, hhead]
    exact get_of_child? ((child?_leaf hne).trans (child?_head rfl))

section Total

variable {S N : Type} (app : App S N) (ctx : Context)

/-- No node is found under the path, and none is made. -/
def NoTarget (s : S) (path : Str) : Prop := ∀ s' target, app.ensure s path ≠ some (s', some target)

def Unusable (s : S) (path : Str) : Prop := app.find s path = some none ∧ NoTarget app s path

/-- The operations that work on the node under a path. -/
def pathOps : List Str :=
  [ascii "node.get", ascii "node.list", ascii "node.set", ascii "node.put", ascii "node.remove",
    ascii "node.trigger", ascii "subscribe", ascii "unsubscribe"]

/-- The requests dispatched for a request: itself, and the items of a batch within the limit, each in the
state that the items before it leave. -/
inductive Dispatched : Tree → S → Tree → S → Prop
  | self (req : Tree) (s : S) : Dispatched req s req s
  | item {req items item req' : Tree} {before after : List Tree} {s s₁ s' : S} {reps : List Tree}
      (hop : text ctx req.child? (ascii "op") = ascii "batch")
      (hitems : req.child? (ascii "items") = some items)
      (hlimit : ¬ (0 < ctx.batchLimit ∧ ctx.batchLimit < items.kids.length))
      (hkids : items.kids = before ++ item :: after)
      (hbefore : runItems (runsOf app ctx before) s = some (s₁, reps))
      (h : Dispatched item s₁ req' s') : Dispatched req s req' s'

/-- There is a reply node, and it is an error when the path is unusable. -/
def Good (req : Tree) (s : S) : Prop :=
  ∃ s' r, dispatch app ctx req s = some (s', r) ∧
    (∀ rep, ReplyNode (req.get (ascii "id")) (r.into (req.get (ascii "id")) rep)) ∧
    (text ctx req.child? (ascii "op") ∈ pathOps → Unusable app s (text ctx req.child? (ascii "path")) →
      r.isOk = false)

/-- The context of the command can not be filled from the arguments, or the command does not return from
it. -/
def CommandFails {α : Type} (input : Option Tree) (run : Tree → Option α) : Prop :=
  ∀ cmdCtx, input = some cmdCtx → run cmdCtx = none

/-- A request to run a registered command does not return. -/
def RunFails (s : S) (req : Request) : Prop :=
  let name := text ctx req (ascii "name")
  name ≠ [] ∧ ∃ entry, app.commands.find s name = some entry ∧ entry.hasSteps = true ∧
    let input := fun v =>
      Command.parseInput ctx.stod ctx.platform entry.declare (leaf (ascii "_ctx") v) (commandArgs req)
    if ((req (ascii "wait")).isNone || (req.get (ascii "wait")).toBool true) = true then
      CommandFails (input .none) (app.commands.drive s name)
    else CommandFails (input (.pointer 0)) (app.start s name)

/-- What keeps a request from its reply, or from the reply that it should have. -/
def Defect (s : S) (req : Request) : Prop :=
  let op := text ctx req (ascii "op")
  let path := text ctx req (ascii "path")
  if op = ascii "node.get" then
    app.find s path = none ∨ (req (ascii "depth")).isSome = true ∧ ∃ target,
      app.find s path = some (some target) ∧ exportTreeVar ctx (app.tree s target)
        ((req.get (ascii "depth")).toInt ctx.platform (-1)) = none
  else if op = ascii "node.list" ∨ op = ascii "node.trigger" then app.find s path = none
  else if op = ascii "node.set" then (req (ascii "value")).isSome = true ∧ NoTarget app s path
  else if op = ascii "node.put" then
    ∃ treeNode, (req (ascii "tree")).or (req (ascii "value")) = some treeNode ∧
      ∀ s' target, app.ensure s path = some (s', some target) →
        app.copy ⟨true, true, true⟩ s' target (treeOf (ascii "var_import") (nodeToVar .default treeNode)) = none
  else if op = ascii "node.remove" then path ≠ [] ∧ app.erase s path = none
  else if op = ascii "command.run" then RunFails app ctx s req
  else if op = ascii "subscribe" ∨ op = ascii "unsubscribe" then
    ctx.allowSubscriptions = true ∧ ctx.subscribe = true ∧ Unusable app s path
  else False

/-! ## One operation -/

/-- A result that is there, and an error when it has to be one. -/
def Fine (result : Option (S × Reply)) (unusable : Prop) : Prop :=
  ∃ s' r, result = some (s', r) ∧ (unusable → r.isOk = false)

variable {app ctx}

theorem fine_some {s' : S} {r : Reply} {unusable : Prop} :
    Fine (some (s', r)) unusable ↔ (unusable → r.isOk = false) :=
  ⟨fun ⟨_, _, he, h⟩ => by cases he; exact h, fun h => ⟨s', r, rfl, h⟩⟩

theorem not_fine_none {unusable : Prop} : ¬ Fine (none : Option (S × Reply)) unusable := by
  rintro ⟨_, _, he, -⟩
  cases he

variable {s : S} {req : Request}

theorem not_unusable_found {path : Str} {target : N} (h : app.find s path = some (some target)) :
    ¬ Unusable app s path := by
  rintro ⟨hnone, -⟩
  rw [h] at hnone
  cases hnone

theorem not_unusable_made {path : Str} {s' : S} {target : N} (h : app.ensure s path = some (s', some target)) :
    ¬ Unusable app s path := fun hu => hu.2 s' target h

theorem nodeGet_fine : Fine (nodeGet app ctx s req) (Unusable app s (text ctx req (ascii "path"))) ↔
    ¬ (app.find s (text ctx req (ascii "path")) = none ∨ (req (ascii "depth")).isSome = true ∧ ∃ target,
      app.find s (text ctx req (ascii "path")) = some (some target) ∧ exportTreeVar ctx (app.tree s target)
        ((req.get (ascii "depth")).toInt ctx.platform (-1)) = none) := by
  unfold nodeGet
  cases hf : app.find s (text ctx req (ascii "path")) with
  | none => exact ⟨fun h => absurd h not_fine_none, fun h => absurd (.inl rfl) h⟩
  | some target =>
    cases target with
    | none =>
      refine ⟨fun _ => ?_, fun _ => fine_some.mpr fun _ => rfl⟩
      rintro (h | ⟨-, target, h, -⟩)
      · cases h
      · cases h
    | some target =>
      have husable := not_unusable_found hf
      simp only [Option.bind_some, reduceCtorEq, false_or, Option.some.injEq, exists_eq_left', not_and]
      by_cases hdepth : (req (ascii "depth")).isSome = true
      · simp only [hdepth, if_true]
        cases htree : exportTreeVar ctx (app.tree s target) ((req.get (ascii "depth")).toInt ctx.platform (-1)) with
        | none => exact ⟨fun h => absurd h not_fine_none, fun h => absurd rfl (h trivial)⟩
        | some v => exact ⟨fun _ _ h => (by cases h), fun _ => fine_some.mpr fun h => absurd h husable⟩
      · rw [if_neg hdepth]
        exact ⟨fun _ h => absurd h hdepth, fun _ => fine_some.mpr fun h => absurd h husable⟩

/-- An answer for the node that is found, and an error if there is none. -/
theorem found_fine {path : Str} {act : Option N → S × Reply} (hnone : (act none).2.isOk = false) :
    Fine ((app.find s path).map act) (Unusable app s path) ↔ ¬ app.find s path = none := by
  cases hf : app.find s path with
  | none => exact ⟨fun h => absurd h not_fine_none, fun h => absurd rfl h⟩
  | some target =>
    refine ⟨fun _ h => (by cases h), fun _ => fine_some.mpr fun hu => ?_⟩
    cases target with
    | none => exact hnone
    | some target => exact absurd hu (not_unusable_found hf)

theorem nodeList_fine : Fine (nodeList app ctx s req) (Unusable app s (text ctx req (ascii "path"))) ↔
    ¬ app.find s (text ctx req (ascii "path")) = none := by
  unfold nodeList
  exact found_fine rfl

theorem nodeTrigger_fine : Fine (nodeTrigger app ctx s req) (Unusable app s (text ctx req (ascii "path"))) ↔
    ¬ app.find s (text ctx req (ascii "path")) = none := by
  unfold nodeTrigger
  exact found_fine rfl

/-- An action on the node that is found or made. -/
theorem withTarget_fine {path : Str} {act : S → N → Option (S × Reply)} :
    Fine (withTarget (app.ensure s path) act) (Unusable app s path) ↔
      ∃ s' target, app.ensure s path = some (s', some target) ∧ act s' target ≠ none := by
  unfold withTarget
  cases hm : app.ensure s path with
  | none =>
    refine ⟨fun h => absurd h not_fine_none, ?_⟩
    rintro ⟨_, _, h, -⟩
    cases h
  | some r =>
    obtain ⟨s', target⟩ := r
    cases target with
    | none =>
      refine ⟨fun h => absurd h not_fine_none, ?_⟩
      rintro ⟨_, _, h, -⟩
      cases h
    | some target =>
      change Fine (act s' target) _ ↔ _
      constructor
      · rintro ⟨s₁, r, h, -⟩
        exact ⟨s', target, rfl, by rw [h]; exact Option.some_ne_none _⟩
      · rintro ⟨_, _, h, hact⟩
        cases h
        obtain ⟨⟨s₁, r⟩, hr⟩ := Option.ne_none_iff_exists'.mp hact
        rw [hr]
        exact fine_some.mpr fun hu => absurd hu (not_unusable_made hm)

theorem nodeSet_fine : Fine (nodeSet app ctx s req) (Unusable app s (text ctx req (ascii "path"))) ↔
    ¬ ((req (ascii "value")).isSome = true ∧ NoTarget app s (text ctx req (ascii "path"))) := by
  unfold nodeSet
  cases req (ascii "value") with
  | none => exact ⟨fun _ h => (by cases h.1), fun _ => fine_some.mpr fun _ => rfl⟩
  | some valueNode =>
    rw [withTarget_fine]
    simp only [Option.isSome_some, true_and, NoTarget, not_forall, not_not]
    exact ⟨fun ⟨s', target, h, _⟩ => ⟨s', target, h⟩,
      fun ⟨s', target, h⟩ => ⟨s', target, h, Option.some_ne_none _⟩⟩

theorem nodePut_fine : Fine (nodePut app ctx s req) (Unusable app s (text ctx req (ascii "path"))) ↔
    ¬ ∃ treeNode, (req (ascii "tree")).or (req (ascii "value")) = some treeNode ∧
      ∀ s' target, app.ensure s (text ctx req (ascii "path")) = some (s', some target) →
        app.copy ⟨true, true, true⟩ s' target (treeOf (ascii "var_import") (nodeToVar .default treeNode)) =
          none := by
  unfold nodePut
  cases (req (ascii "tree")).or (req (ascii "value")) with
  | none => exact ⟨fun _ ⟨_, h, _⟩ => (by cases h), fun _ => fine_some.mpr fun _ => rfl⟩
  | some treeNode =>
    simp only [Option.some.injEq, exists_eq_left', not_forall]
    rw [withTarget_fine]
    simp only [ne_eq, Option.map_eq_none_iff, exists_prop]

theorem nodeRemove_fine (herase : ∀ path s', Unusable app s path → app.erase s path ≠ some (s', true)) :
    Fine (nodeRemove app ctx s req) (Unusable app s (text ctx req (ascii "path"))) ↔
      ¬ (text ctx req (ascii "path") ≠ [] ∧ app.erase s (text ctx req (ascii "path")) = none) := by
  unfold nodeRemove
  by_cases hpath : text ctx req (ascii "path") = []
  · rw [if_pos hpath]
    exact ⟨fun _ h => h.1 hpath, fun _ => fine_some.mpr fun _ => rfl⟩
  · rw [if_neg hpath]
    cases he : app.erase s (text ctx req (ascii "path")) with
    | none => exact ⟨fun h => absurd h not_fine_none, fun h => absurd ⟨hpath, rfl⟩ h⟩
    | some r =>
      obtain ⟨s', erased⟩ := r
      refine ⟨fun _ h => (by cases h.2), fun _ => fine_some.mpr fun hu => ?_⟩
      cases erased with
      | false => rfl
      | true => exact absurd he (herase _ s' hu)

theorem subscribe_fine : Fine (some (subscribe app ctx s req)) (Unusable app s (text ctx req (ascii "path"))) ↔
    ¬ (ctx.allowSubscriptions = true ∧ ctx.subscribe = true ∧ Unusable app s (text ctx req (ascii "path"))) := by
  rw [fine_some, Protocol.subscribe]
  cases ctx.allowSubscriptions <;> cases ctx.subscribe <;> simp [unsupported, subscribedData, dataNode, Reply.isOk]

theorem unsubscribe_fine :
    Fine (some (unsubscribe app ctx s req)) (Unusable app s (text ctx req (ascii "path"))) ↔
      ¬ (ctx.allowSubscriptions = true ∧ ctx.subscribe = true ∧
        Unusable app s (text ctx req (ascii "path"))) := by
  rw [fine_some, Protocol.unsubscribe]
  cases ctx.allowSubscriptions <;> cases ctx.subscribe <;> simp [unsupported, subscribedData, dataNode, Reply.isOk]

theorem commandFails_iff {α : Type} {input : Option Tree} {run : Tree → Option α} :
    CommandFails input run ↔ input.bind run = none := by
  cases input with
  | none => exact ⟨fun _ => rfl, fun _ _ h => (by cases h)⟩
  | some c => exact ⟨fun h => h c rfl, fun h _ he => (by cases he; exact h)⟩

theorem call_eq_none {name : Str} {args : Var} {entry : Command.Entry}
    (h : app.commands.find s name = some entry) :
    app.commands.call ctx.stod ctx.platform s name args = none ↔ entry.hasSteps = true ∧
      CommandFails (Command.parseInput ctx.stod ctx.platform entry.declare (leaf (ascii "_ctx") .none) args)
        (app.commands.drive s name) := by
  simp only [Command.Commands.call, h, commandFails_iff]
  split_ifs with hsteps
  · exact ⟨fun h => ⟨hsteps, h⟩, And.right⟩
  · exact ⟨fun h => (by cases h), fun h => absurd h.1 hsteps⟩

theorem callDetached_eq_none {name : Str} {args : Var} {entry : Command.Entry}
    (h : app.commands.find s name = some entry) : callDetached app ctx s name args = none ↔
      entry.hasSteps = true ∧ CommandFails (Command.parseInput ctx.stod ctx.platform entry.declare
        (leaf (ascii "_ctx") (.pointer 0)) args) (app.start s name) := by
  simp only [callDetached, h, commandFails_iff]
  split_ifs with hsteps
  · exact ⟨fun h => ⟨hsteps, h⟩, And.right⟩
  · exact ⟨fun h => (by cases h), fun h => absurd h.1 hsteps⟩

theorem commandRun_eq_none : commandRun app ctx s req = none ↔ RunFails app ctx s req := by
  unfold commandRun RunFails
  by_cases hname : text ctx req (ascii "name") = []
  · simp only [if_pos hname]
    exact ⟨fun h => (by cases h), fun h => absurd hname h.1⟩
  · cases hfind : app.commands.find s (text ctx req (ascii "name")) with
    | none =>
      simp only [if_neg hname, hfind, Option.isNone_none, if_true]
      refine ⟨fun h => (by cases h), ?_⟩
      rintro ⟨-, entry, h, -⟩
      cases h
    | some entry =>
      simp only [hfind, Option.isNone_some, Bool.false_eq_true, if_false, ne_eq, hname, not_false_eq_true,
        true_and, Option.some.injEq, exists_eq_left']
      split_ifs with hwait
      · rw [Option.map_eq_none_iff, call_eq_none hfind]
      · rw [Option.map_eq_none_iff, callDetached_eq_none hfind]

theorem commandRun_fine {unusable : Prop} (h : ¬ unusable) :
    Fine (commandRun app ctx s req) unusable ↔ ¬ RunFails app ctx s req := by
  rw [← commandRun_eq_none]
  refine ⟨fun hf hn => ?_, fun hn => ?_⟩
  · rw [hn] at hf
    exact not_fine_none hf
  · obtain ⟨⟨s', r⟩, hr⟩ := Option.ne_none_iff_exists'.mp hn
    exact ⟨s', r, hr, fun hu => absurd hu h⟩

/-- **One request** other than a batch is answered as it should be exactly when it has no defect. -/
theorem answer_fine (herase : ∀ path s', Unusable app s path → app.erase s path ≠ some (s', true))
    (hbatch : text ctx req (ascii "op") ≠ ascii "batch") (items : Option (List (Run S))) :
    Fine (answer app ctx items req s) (text ctx req (ascii "op") ∈ pathOps ∧
      Unusable app s (text ctx req (ascii "path"))) ↔ ¬ Defect app ctx s req := by
  unfold answer Defect
  generalize hop : text ctx req (ascii "op") = op at hbatch ⊢
  have hpath : ∀ {p : Prop}, op ∈ pathOps → ((op ∈ pathOps ∧ p) = p) := fun h => by simp [h]
  by_cases h0 : op = []
  · subst h0
    simp +decide only [if_true, if_false]
    exact ⟨fun _ => trivial, fun _ => fine_some.mpr fun _ => rfl⟩
  by_cases h1 : op = ascii "node.get"
  · subst h1
    rw [hpath (by decide)]
    simp +decide only [if_true, if_false]
    exact nodeGet_fine
  by_cases h2 : op = ascii "node.list"
  · subst h2
    rw [hpath (by decide)]
    simp +decide only [if_true, if_false]
    exact nodeList_fine
  by_cases h3 : op = ascii "node.set"
  · subst h3
    rw [hpath (by decide)]
    simp +decide only [if_true, if_false]
    exact nodeSet_fine
  by_cases h4 : op = ascii "node.put"
  · subst h4
    rw [hpath (by decide)]
    simp +decide only [if_true, if_false]
    exact nodePut_fine
  by_cases h5 : op = ascii "node.remove"
  · subst h5
    rw [hpath (by decide)]
    simp +decide only [if_true, if_false]
    exact nodeRemove_fine herase
  by_cases h6 : op = ascii "node.trigger"
  · subst h6
    rw [hpath (by decide)]
    simp +decide only [if_true, if_false]
    exact nodeTrigger_fine
  by_cases h7 : op = ascii "subscribe"
  · subst h7
    rw [hpath (by decide)]
    simp +decide only [if_true, if_false]
    exact subscribe_fine
  by_cases h8 : op = ascii "unsubscribe"
  · subst h8
    rw [hpath (by decide)]
    simp +decide only [if_true, if_false]
    exact unsubscribe_fine
  by_cases h9 : op = ascii "command.list"
  · subst h9
    simp +decide only [if_true, if_false]
    exact ⟨fun _ => trivial, fun _ => fine_some.mpr fun h => absurd h.1 (by decide)⟩
  by_cases h10 : op = ascii "command.run"
  · subst h10
    simp +decide only [if_true, if_false]
    exact commandRun_fine fun h => h.1
  simp only [h0, hbatch, h1, h2, h3, h4, h5, h6, h7, h8, h9, h10, if_false, or_self]
  exact ⟨fun _ => not_false, fun _ => fine_some.mpr fun _ => rfl⟩

/-! ## All requests that are dispatched -/

theorem dispatch_eq (req : Tree) :
    dispatch app ctx req s = answer app ctx (itemsOf app ctx req.kids) req.child? s := by
  obtain ⟨nm, v, kids⟩ := req
  rw [dispatch]
  rfl

theorem dispatch_batchOp {req : Tree} (hop : text ctx req.child? (ascii "op") = ascii "batch") :
    dispatch app ctx req s = dispatchBatch ctx (itemsOf app ctx req.kids) s := by
  rw [dispatch_eq, answer, hop, if_neg (by decide), if_pos rfl]

theorem itemsOf_items {req items : Tree} (hitems : req.child? (ascii "items") = some items) :
    itemsOf app ctx req.kids = some (runsOf app ctx items.kids) := by
  have hbelow : runsBelow app ctx items = runsOf app ctx items.kids := by
    obtain ⟨nm, v, ks⟩ := items
    rfl
  rw [itemsOf_eq, ← hbelow]
  exact congrArg (Option.map (runsBelow app ctx)) hitems

/-- What the dispatcher does for a batch within the limit. -/
theorem dispatch_items {req items : Tree} (hop : text ctx req.child? (ascii "op") = ascii "batch")
    (hitems : req.child? (ascii "items") = some items)
    (hlimit : ctx.batchLimit ≤ 0 ∨ items.kids.length ≤ ctx.batchLimit) (s : S) :
    dispatch app ctx req s = (runItems (runsOf app ctx items.kids) s).map fun p =>
      (p.1, .data (node (ascii "items") .none p.2)) := by
  have hwithin : ¬ (0 < ctx.batchLimit ∧ ctx.batchLimit < ((runsOf app ctx items.kids).length : Int)) := by
    rw [runsOf_length]
    omega
  rw [dispatch_batchOp hop, itemsOf_items hitems, dispatchBatch, if_neg hwithin]

/-- A batch that is not run is refused, which is an answer too. -/
theorem dispatch_refused {req : Tree} (hop : text ctx req.child? (ascii "op") = ascii "batch")
    (h : ∀ items, req.child? (ascii "items") = some items →
      0 < ctx.batchLimit ∧ ctx.batchLimit < items.kids.length) : dispatch app ctx req s ≠ none := by
  rw [dispatch_batchOp hop]
  cases hitems : req.child? (ascii "items") with
  | none =>
    have hnone : itemsOf app ctx req.kids = none := by
      rw [itemsOf_eq]
      exact congrArg (Option.map (runsBelow app ctx)) hitems
    rw [hnone]
    exact Option.some_ne_none _
  | some items =>
    rw [itemsOf_items hitems, dispatchBatch, if_pos (by rw [runsOf_length]; exact h items hitems)]
    exact Option.some_ne_none _

theorem good_iff (herase : ∀ s path s', Unusable app s path → app.erase s path ≠ some (s', true)) {req : Tree}
    (hbatch : text ctx req.child? (ascii "op") ≠ ascii "batch") :
    Good app ctx req s ↔ ¬ Defect app ctx s req.child? := by
  rw [← answer_fine (herase s) hbatch (itemsOf app ctx req.kids), ← dispatch_eq]
  constructor
  · rintro ⟨s', r, hr, -, hu⟩
    exact ⟨s', r, hr, fun h => hu h.1 h.2⟩
  · rintro ⟨s', r, hr, hu⟩
    exact ⟨s', r, hr, fun rep => replyNode_into r _ rep, fun hop h => hu ⟨hop, h⟩⟩

/-- A batch has no path, so it only has to be answered. -/
theorem good_batch {req : Tree} (hbatch : text ctx req.child? (ascii "op") = ascii "batch")
    (h : dispatch app ctx req s ≠ none) : Good app ctx req s := by
  obtain ⟨⟨s', r⟩, hr⟩ := Option.ne_none_iff_exists'.mp h
  refine ⟨s', r, hr, fun rep => replyNode_into r _ rep, fun hop => ?_⟩
  rw [hbatch] at hop
  exact absurd hop (by decide)

theorem not_defect_batch {req : Request} (hbatch : text ctx req (ascii "op") = ascii "batch") :
    ¬ Defect app ctx s req := by
  unfold Defect
  rw [hbatch]
  simp +decide only [if_false, not_false_eq_true]

theorem Dispatched.trans {req x y : Tree} {s sx sy : S} (h : Dispatched app ctx req s x sx)
    (h' : Dispatched app ctx x sx y sy) : Dispatched app ctx req s y sy := by
  induction h with
  | self => exact h'
  | item hop hitems hlimit hkids hbefore _ ih => exact .item hop hitems hlimit hkids hbefore (ih h')

theorem runItems_append (a b : List (Run S)) : ∀ s, runItems (a ++ b) s =
    (runItems a s).bind fun p => (runItems b p.1).map fun q => (q.1, p.2 ++ q.2) := by
  induction a with
  | nil =>
    intro s
    exact Option.map_id'.symm
  | cons run a ih =>
    intro s
    rw [List.cons_append, runItems, runItems]
    cases run s with
    | none => rfl
    | some p =>
      obtain ⟨s₁, rep⟩ := p
      simp only [Option.bind_some, ih]
      cases runItems a s₁ with
      | none => rfl
      | some q => simp [Option.map_map, Function.comp_def]

theorem runsOf_append (a b : List Tree) : runsOf app ctx (a ++ b) = runsOf app ctx a ++ runsOf app ctx b := by
  induction a with
  | nil => rfl
  | cons k a ih => rw [List.cons_append, runsOf, runsOf, ih, List.cons_append]

/-- The items from some place on are answered when each is, in the state that it meets. -/
theorem runItems_ne_none {s : S} {after : List Tree} : ∀ (before : List Tree) {s₁ : S} {reps : List Tree},
    (∀ b x a, before ++ after = b ++ x :: a → ∀ sx r, runItems (runsOf app ctx b) s = some (sx, r) →
      dispatch app ctx x sx ≠ none) →
    runItems (runsOf app ctx before) s = some (s₁, reps) → runItems (runsOf app ctx after) s₁ ≠ none := by
  induction after with
  | nil => exact fun _ _ _ _ _ => Option.some_ne_none _
  | cons x after ih =>
    intro before s₁ reps hall hbefore
    obtain ⟨⟨s₂, r⟩, hr⟩ := Option.ne_none_iff_exists'.mp (hall before x after rfl s₁ reps hbefore)
    have hone : runItems (runsOf app ctx (before ++ [x])) s =
        some (s₂, reps ++ [r.into (x.get (ascii "id")) (blank [])]) := by
      rw [runsOf_append, runItems_append, hbefore, Option.bind_some, runsOf, runItems, hr]
      rfl
    have hrest := ih _ (fun b y a he => hall b y a (by rw [← he, List.append_assoc]; rfl)) hone
    rw [runsOf, runItems, hr]
    simpa using hrest

/-- A request is answered as it should be when nothing that is dispatched for it has a defect. The
induction reaches the items of a batch through its child `items`. -/
theorem good_of_no_defect (herase : ∀ s path s', Unusable app s path → app.erase s path ≠ some (s', true))
    (req : Tree) : (∀ s, (∀ x sx, Dispatched app ctx req s x sx → ¬ Defect app ctx sx x.child?) →
      Good app ctx req s) ∧ ∀ item ∈ req.kids, ∀ s,
        (∀ x sx, Dispatched app ctx item s x sx → ¬ Defect app ctx sx x.child?) → Good app ctx item s := by
  induction req using Tree.ind with
  | h req ih =>
    refine ⟨fun s h => ?_, fun item hitem => (ih item hitem).1⟩
    by_cases hbatch : text ctx req.child? (ascii "op") = ascii "batch"
    · refine good_batch hbatch ?_
      by_cases hrun : ∃ items, req.child? (ascii "items") = some items ∧
          ¬ (0 < ctx.batchLimit ∧ ctx.batchLimit < items.kids.length)
      · obtain ⟨items, hitems, hlimit⟩ := hrun
        rw [dispatch_items hbatch hitems (by omega), Ne, Option.map_eq_none_iff]
        refine runItems_ne_none [] (fun b x a he sx r hr => ?_) rfl
        have hx : x ∈ items.kids := by
          rw [show items.kids = b ++ x :: a from he]
          simp
        have hgood := (ih items (List.mem_of_find?_eq_some hitems)).2 x hx sx fun y sy hy =>
          h y sy (.item hbatch hitems hlimit he hr hy)
        obtain ⟨s', r', hr', -⟩ := hgood
        rw [hr']
        exact Option.some_ne_none _
      · exact dispatch_refused hbatch fun items hitems => not_not.mp fun hlimit => hrun ⟨items, hitems, hlimit⟩
    · exact (good_iff herase hbatch).mpr (h req s (.self req s))

theorem all_good_iff (herase : ∀ s path s', Unusable app s path → app.erase s path ≠ some (s', true)) (req : Tree)
    (s : S) : (∀ x sx, Dispatched app ctx req s x sx → Good app ctx x sx) ↔
      ∀ x sx, Dispatched app ctx req s x sx → ¬ Defect app ctx sx x.child? := by
  constructor
  · intro h x sx hx
    by_cases hbatch : text ctx x.child? (ascii "op") = ascii "batch"
    · exact not_defect_batch hbatch
    · exact (good_iff herase hbatch).mp (h x sx hx)
  · intro h x sx hx
    exact (good_of_no_defect herase x).1 sx fun y sy hy => h y sy (hx.trans hy)

end Total

end Protocol

/-! ## On a forest -/

namespace Forest

variable {f f' : Forest} {k : Nat} {this n : Id} {segs : List Str} {path : Str}

theorem atKey_found {key : Str} (h : f.atKey k this key false = some (some n)) :
    f.atKey k this key true = some (some n) := by
  rw [atKey] at h ⊢
  split at h
  · cases h
  · split_ifs at h ⊢ <;> exact orShadow_found h true

theorem descend_found : ∀ {cur : Option Id}, f.descend k false cur segs = some (some n) →
    f.descend k true cur segs = some (some n) := by
  induction segs with
  | nil => exact fun h => h
  | cons seg segs ih =>
    intro cur h
    cases cur with
    | none => cases h
    | some cur =>
      rw [descend] at h ⊢
      split_ifs at h ⊢ with hseg
      · exact ih h
      · obtain ⟨next, hnext, h⟩ := Option.bind_eq_some_iff.mp h
        cases next with
        | none =>
          cases segs with
          | nil => cases h
          | cons => cases h
        | some m =>
          rw [atKey_found hnext, Option.bind_some]
          exact ih h

/-- What is found without shadows is found with them. -/
theorem atPath_found (h : f.atPath k this path false = some (some n)) :
    f.atPath k this path true = some (some n) := by
  unfold atPath at h ⊢
  split at h
  · exact h
  · split_ifs at h ⊢
    · exact h
    · obtain ⟨r, hr, h⟩ := Option.bind_eq_some_iff.mp h
      rw [hr, Option.bind_some]
      exact descend_found h
    · exact descend_found h

theorem not_erase_unusable {T : Type} {root : Id} {services : Services (Forest × T)} {s s' : Forest × T}
    (h : Protocol.Unusable (app k root services) s path) :
    (app k root services).erase s path ≠ some (s', true) := by
  intro he
  obtain ⟨⟨g, b⟩, hr, he⟩ := Option.map_eq_some_iff.mp he
  cases he
  obtain ⟨t, ht, hr⟩ := Option.bind_eq_some_iff.mp hr
  cases t with
  | none => cases hr
  | some t =>
    have hfind : some (some t) = some none := (atPath_found ht).symm.trans h.1
    cases hfind

theorem bad_tail {seg : Str} (hbad : ∃ x ∈ seg :: segs, x ≠ [] ∧ parseKey keySep x = none)
    (hok : parseKey keySep seg ≠ none ∨ seg = []) : ∃ x ∈ segs, x ≠ [] ∧ parseKey keySep x = none := by
  obtain ⟨x, hx, hne, hparse⟩ := hbad
  rcases List.mem_cons.mp hx with rfl | hx
  · exact absurd hok (not_or.mpr ⟨fun h => h hparse, hne⟩)
  · exact ⟨x, hx, hne, hparse⟩

/-- A segment that is no key leads nowhere. -/
theorem descend_bad (hbad : ∃ seg ∈ segs, seg ≠ [] ∧ parseKey keySep seg = none) {s : Bool} :
    ∀ {cur r : Option Id}, f.descend k s cur segs = some r → r = none := by
  induction segs with
  | nil => simp at hbad
  | cons seg segs ih =>
    intro cur r h
    cases cur with
    | none =>
      cases h
      rfl
    | some cur =>
      rw [descend] at h
      split_ifs at h with hseg
      · exact ih (bad_tail hbad (.inr hseg)) h
      · obtain ⟨next, hnext, h⟩ := Option.bind_eq_some_iff.mp h
        by_cases hparse : parseKey keySep seg = none
        · rw [atKey, hparse] at hnext
          cases hnext
          cases segs with
          | nil => exact (Option.some.inj h).symm
          | cons => exact (Option.some.inj h).symm
        · exact ih (bad_tail hbad (.inl hparse)) h

theorem ensureSegments_bad {s : Bool} : ∀ {f : Forest} {cur : Option Id} {r : Forest × Option Id},
    (∃ seg ∈ segs, seg ≠ [] ∧ parseKey keySep seg = none) → f.ensureSegments k s cur segs = some r →
      r.2 = none := by
  induction segs with
  | nil =>
    intro f cur r hbad _
    simp at hbad
  | cons seg segs ih =>
    intro f cur r hbad h
    cases cur with
    | none =>
      cases h
      rfl
    | some cur =>
      rw [ensureSegments] at h
      split_ifs at h with hseg
      · exact ih (bad_tail hbad (.inr hseg)) h
      · obtain ⟨next, hnext, h⟩ := Option.bind_eq_some_iff.mp h
        by_cases hparse : parseKey keySep seg = none
        · rw [ensureKey, hparse] at hnext
          cases hnext
          cases segs with
          | nil =>
            cases h
            rfl
          | cons =>
            cases h
            rfl
        · exact ih (bad_tail hbad (.inl hparse)) h

/-- **A path with a segment that is no key**, such as one with letters after `#`, is unusable. -/
theorem unusable_of_bad_segment {T : Type} {root : Id} {services : Services (Forest × T)} {s : Forest × T}
    {c : UInt8} {rest : Str} (hc : c ≠ pathSep)
    (hbad : ∃ seg ∈ (c :: rest).splitOn pathSep, seg ≠ [] ∧ parseKey keySep seg = none)
    (hends : (app k root services).find s (c :: rest) ≠ none) :
    Protocol.Unusable (app k root services) s (c :: rest) := by
  obtain ⟨r, hr⟩ := Option.ne_none_iff_exists'.mp hends
  refine ⟨?_, fun s' target he => ?_⟩
  · have hfind : s.1.descend k true (some root) ((c :: rest).splitOn pathSep) = some r := by
      have hr' : s.1.atPath k root (c :: rest) true = some r := hr
      rwa [atPath, if_neg hc] at hr'
    rw [hr, descend_bad hbad hfind]
  · obtain ⟨p, hp, he⟩ := Option.map_eq_some_iff.mp he
    rw [ensurePath, if_neg hc] at hp
    have hnone := ensureSegments_bad hbad hp
    cases (Prod.mk.inj he).2.symm.trans hnone

end Forest

namespace Protocol

open VersatileEngine.Tree

/-- **A request is answered as it should be, with all that is dispatched for it, exactly when nothing of
this has a defect.** -/
theorem answered_iff_no_defect {T : Type} (k : Nat) (root : Id) (services : Forest.Services (Forest × T))
    (ctx : Context) (req : Tree) (s : Forest × T) :
    (∀ x sx, Dispatched (Forest.app k root services) ctx req s x sx →
      Good (Forest.app k root services) ctx x sx) ↔
    ∀ x sx, Dispatched (Forest.app k root services) ctx req s x sx →
      ¬ Defect (Forest.app k root services) ctx sx x.child? :=
  all_good_iff (fun _ _ _ h => Forest.not_erase_unusable h) req s

/-- A path with a letter after `#`: `at` returns a null pointer, and the value is set on it. -/
theorem set_null_node : ¬ Good (Forest.app 8 0 noServices) plainContext (node (ascii "req") .none
    [leaf (ascii "op") (.string (ascii "node.set")), leaf (ascii "path") (.string (ascii "a#x")),
      leaf (ascii "value") (.int 1)]) emptyRoot := by
  rintro ⟨s', r, h, -⟩
  cases h

end Protocol

end VersatileEngine
