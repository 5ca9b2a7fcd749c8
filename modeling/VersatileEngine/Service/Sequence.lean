import VersatileEngine.Service.Total

/-!
# VersatileEngine.Service.Sequence

A batch beside its requests one after the other.

* `inSequence`     — the requests dispatched on their own, each in the state that the ones before it leave.
* `inSequence_get` — one reply for every request, also behind an error.
* `batch_sequence` — **the batch leaves the same state, and its data has the same replies in order**, as
  elements of a list, which have no names.
-/

namespace VersatileEngine

namespace Protocol

open VersatileEngine.Tree

section Sequence

variable {S N : Type} (app : App S N) (ctx : Context)

/-- The requests one after the other, each into a reply node of its own. -/
def inSequence : List Tree → S → Option (S × List Tree)
  | [], s => some (s, [])
  | item :: items, s =>
    (dispatchNodeProtocol app ctx item (blank (ascii "rep")) s).bind fun (s, rep) =>
      (inSequence items s).map fun (s, reps) => (s, rep :: reps)

/-- A reply as an element of a list. -/
def unnamed (rep : Tree) : Tree := node [] rep.value rep.kids

/-- The reply to a batch with the replies to its items. -/
def batchReply (id : Var) (rep : Tree) (reps : List Tree) : Tree :=
  node rep.name rep.value (Reply.head true id ++ [node (ascii "data") .none (reps.map unnamed)])

variable {app ctx}

theorem unnamed_into (r : Reply) (id : Var) :
    unnamed (r.into id (blank (ascii "rep"))) = r.into id (blank []) := rfl

/-- The loop over the items makes the replies that the items get on their own. -/
theorem runItems_sequence (items : List Tree) : ∀ s : S, runItems (runsOf app ctx items) s =
    (inSequence app ctx items s).map fun p => (p.1, p.2.map unnamed) := by
  induction items with
  | nil => exact fun _ => rfl
  | cons item items ih =>
    intro s
    rw [runsOf, runItems, inSequence, dispatchNodeProtocol]
    cases dispatch app ctx item s with
    | none => rfl
    | some p =>
      obtain ⟨s₁, r⟩ := p
      simp only [Option.map_some, Option.bind_some, ih, Option.map_map, Function.comp_def, List.map_cons,
        unnamed_into]

/-- Each request of a sequence is dispatched in the state that the ones before it leave. -/
theorem inSequence_get (items : List Tree) : ∀ {s s' : S} {reps : List Tree},
    inSequence app ctx items s = some (s', reps) → reps.length = items.length ∧
      ∀ i item, items[i]? = some item → ∃ s₁ s₂ rep, inSequence app ctx (items.take i) s = some (s₁, reps.take i) ∧
        dispatchNodeProtocol app ctx item (blank (ascii "rep")) s₁ = some (s₂, rep) ∧ reps[i]? = some rep := by
  induction items with
  | nil =>
    intro s s' reps h
    cases h
    exact ⟨rfl, fun i item hi => by simp at hi⟩
  | cons first items ih =>
    intro s s' reps h
    rw [inSequence] at h
    obtain ⟨⟨s₁, rep⟩, hrep, h⟩ := Option.bind_eq_some_iff.mp h
    obtain ⟨⟨s₂, reps⟩, hreps, h⟩ := Option.map_eq_some_iff.mp h
    cases h
    obtain ⟨hlen, hget⟩ := ih hreps
    refine ⟨by rw [List.length_cons, List.length_cons, hlen], ?_⟩
    rintro (_ | i) item hi
    · cases hi
      exact ⟨s, s₁, rep, rfl, hrep, rfl⟩
    · rw [List.getElem?_cons_succ] at hi
      obtain ⟨s₃, s₄, r, htake, hr, hi⟩ := hget i item hi
      refine ⟨s₃, s₄, r, ?_, hr, by rwa [List.getElem?_cons_succ]⟩
      rw [List.take_succ_cons, List.take_succ_cons, inSequence, hrep, Option.bind_some]
      dsimp only
      rw [htake]
      rfl

/-- **A batch is its requests one after the other**: the state is the same, and the data of the reply has one
entry for every item, in order, with the reply that the item gets on its own in the state the items before it
leave. -/
theorem batch_sequence {req items : Tree} (hop : text ctx req.child? (ascii "op") = ascii "batch")
    (hitems : req.child? (ascii "items") = some items)
    (hlimit : ctx.batchLimit ≤ 0 ∨ items.kids.length ≤ ctx.batchLimit) (rep : Tree) (s : S) :
    dispatchNodeProtocol app ctx req rep s = (inSequence app ctx items.kids s).map (fun p =>
        (p.1, batchReply (req.get (ascii "id")) rep p.2)) ∧
      ∀ s' reps, inSequence app ctx items.kids s = some (s', reps) → reps.length = items.kids.length ∧
        ∀ i item, items.kids[i]? = some item → ∃ s₁ s₂ r,
          inSequence app ctx (items.kids.take i) s = some (s₁, reps.take i) ∧
          dispatchNodeProtocol app ctx item (blank (ascii "rep")) s₁ = some (s₂, r) ∧ reps[i]? = some r := by
  refine ⟨?_, fun s' reps h => inSequence_get items.kids h⟩
  have hinto : ∀ reps : List Tree, (Reply.data (node (ascii "items") .none (reps.map unnamed))).into
      (req.get (ascii "id")) rep = batchReply (req.get (ascii "id")) rep reps := by
    intro reps
    rw [Reply.into, Reply.body, copyTree_blank]
    rfl
  rw [dispatchNodeProtocol, dispatch_items hop hitems hlimit, runItems_sequence, Option.map_map, Option.map_map]
  simp only [Function.comp_def, hinto]

end Sequence

/-- A request without an operation, then one that writes a node and one that reads it. -/
def sampleItems : List Tree :=
  [blank [],
    node [] .none [leaf (ascii "op") (.string (ascii "node.set")), leaf (ascii "path") (.string (ascii "a")),
      leaf (ascii "value") (.int 1)],
    node [] .none [leaf (ascii "op") (.string (ascii "node.get")), leaf (ascii "path") (.string (ascii "a"))]]

def sampleBatch : Tree :=
  node (ascii "req") .none [leaf (ascii "op") (.string (ascii "batch")), node (ascii "items") .none sampleItems]

theorem batch_sequence_sample : ∃ s' reps,
    inSequence (Forest.app 8 0 noServices) plainContext sampleItems emptyRoot = some (s', reps) ∧
      dispatchNodeProtocol (Forest.app 8 0 noServices) plainContext sampleBatch (blank (ascii "rep")) emptyRoot =
        some (s', batchReply .none (blank (ascii "rep")) reps) ∧ reps.length = 3 := by
  have hsome : (inSequence (Forest.app 8 0 noServices) plainContext sampleItems emptyRoot).isSome = true := by rfl
  obtain ⟨⟨s', reps⟩, hrun⟩ := Option.isSome_iff_exists.mp hsome
  obtain ⟨hbatch, hreps⟩ := @batch_sequence _ _ (Forest.app 8 0 noServices) plainContext sampleBatch
    (node (ascii "items") .none sampleItems) rfl rfl (.inr (by decide)) (blank (ascii "rep")) emptyRoot
  refine ⟨s', reps, hrun, ?_, (hreps s' reps hrun).1⟩
  rw [hbatch]
  exact congrArg (Option.map _) hrun

end Protocol

end VersatileEngine
