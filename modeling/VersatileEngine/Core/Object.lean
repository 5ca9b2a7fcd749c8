import VersatileEngine.Core.Var
import VersatileEngine.Lib.Runs

/-!
# VersatileEngine.Core.Object

Signals of `object.cpp`. `trigger` works on a snapshot of the connections, and an action that it calls
may call the object again, so dispatches nest.

* `Object.step`      — a call from outside or from the running action, one turn of the loop of
  `trigger`, or the return of the running action.
* `Object.InFlight`  — a one-shot connection that was delivered and is not dead is running.
* `once_at_most_once` — in a run no `once` action is delivered twice exactly when no turn reaches a
  one-shot connection whose own action is still running.

Its token is killed only after the action has returned: `once_fires_twice` triggers in between.
-/

namespace VersatileEngine

abbrev SignalT := Int

def objectDeleted : SignalT := -1

/-- A connection, and what `trigger` copies of it. `loop` says whether it has a loop to post to. -/
structure Connection where
  observer : Option Nat
  action : Nat
  loop : Bool
  shotToken : Option Nat
  deriving DecidableEq, Repr

/-- A call of `trigger` under way: what it has still to visit, and the connection whose action it has
called. -/
structure Dispatch where
  signal : SignalT
  data : Var
  callbacks : List Connection
  running : Option Connection
  hasDead : Bool

structure Object where
  connections : SignalT → List Connection
  silent : Bool
  /-- The observers that were destroyed: their tokens are dead. -/
  gone : List Nat
  /-- The shot tokens that were killed. -/
  fired : List Nat
  nextToken : Nat
  /-- The calls of `trigger` under way, the innermost first. -/
  stack : List Dispatch
  /-- The actions that were called or posted, in order. -/
  log : List (Connection × Var)

inductive Object.Call where
  | connect (signal : SignalT) (observer : Option Nat) (action : Nat) (loop : Bool)
  | once (signal : SignalT) (observer : Option Nat) (action : Nat) (loop : Bool)
  | disconnect (signal : SignalT) (observer : Option Nat)
  | disconnectAll (observer : Option Nat)
  | destroyObserver (observer : Nat)
  | setSilent (on : Bool)
  | trigger (signal : SignalT) (data : Var)

inductive Object.Act where
  | call (c : Object.Call)
  | turn
  | actionReturns

namespace Object

def fresh : Object :=
  { connections := fun _ => [], silent := false, gone := [], fired := [], nextToken := 0, stack := []
    log := [] }

def isDead (o : Object) (c : Connection) : Bool :=
  c.observer.any (o.gone.contains ·) || c.shotToken.any (o.fired.contains ·)

def addConnection (o : Object) (signal : SignalT) (c : Connection) : Object :=
  { o with connections := fun s =>
      if s = signal then o.connections s ++ [c] else o.connections s }

def removeObserver (cs : List Connection) (observer : Option Nat) : List Connection :=
  cs.filter fun c => c.observer ≠ observer

/-- `shotToken.kill()`. -/
def kill (o : Object) (token : Option Nat) : Object :=
  match token with
  | none => o
  | some t => { o with fired := t :: o.fired }

/-- The lines of `trigger` up to the loop. -/
def enter (o : Object) (signal : SignalT) (data : Var) : Object :=
  if signal ≠ objectDeleted ∧ o.silent then o
  else { o with stack := ⟨signal, data, o.connections signal, none, false⟩ :: o.stack }

def call (o : Object) : Call → Object
  | .connect signal observer action loop => o.addConnection signal ⟨observer, action, loop, none⟩
  | .once signal observer action loop =>
    { o with nextToken := o.nextToken + 1 }.addConnection signal
      ⟨observer, action, loop, some o.nextToken⟩
  | .disconnect signal observer =>
    { o with connections := fun s =>
        if s = signal then removeObserver (o.connections s) observer else o.connections s }
  | .disconnectAll observer =>
    { o with connections := fun s => removeObserver (o.connections s) observer }
  | .destroyObserver observer => { o with gone := observer :: o.gone }
  | .setSilent on => { o with silent := on }
  | .trigger signal data => o.enter signal data

/-- The lines of `trigger` after the loop. -/
def leave (o : Object) (f : Dispatch) (below : List Dispatch) : Object :=
  if f.hasDead then
    { o with
      stack := below
      connections := fun s =>
        if s = f.signal then (o.connections s).filter (fun c => !o.isDead c) else o.connections s }
  else { o with stack := below }

/-- One turn of the loop of `trigger` for the connection `d`. -/
def visit (o : Object) (f : Dispatch) (d : Connection) (rest : List Connection)
    (below : List Dispatch) : Object :=
  if o.isDead d then { o with stack := { f with callbacks := rest, hasDead := true } :: below }
  else if d.loop then
    { o with
      stack := { f with callbacks := rest, hasDead := f.hasDead || d.shotToken.isSome } :: below
      log := o.log ++ [(d, f.data)] }.kill d.shotToken
  else
    { o with
      stack := { f with callbacks := rest, running := some d } :: below
      log := o.log ++ [(d, f.data)] }

def step (o : Object) : Act → Option Object
  | .call c =>
    match o.stack with
    | [] => some (o.call c)
    | f :: _ => if f.running.isSome then some (o.call c) else none
  | .turn =>
    match o.stack with
    | [] => none
    | f :: below =>
      match f.running, f.callbacks with
      | some _, _ => none
      | none, [] => some (o.leave f below)
      | none, d :: rest => some (o.visit f d rest below)
  | .actionReturns =>
    match o.stack with
    | [] => none
    | f :: below =>
      f.running.map fun d =>
        { o with
          stack := { f with running := none, hasDead := f.hasDead || d.shotToken.isSome } :: below
        }.kill d.shotToken

def Step (o : Object) (a : Act) (o' : Object) : Prop := o.step a = some o'

/-- How often the connection with the shot token `t` was delivered. -/
def deliveries (o : Object) (t : Nat) : Nat := o.log.countP fun e => e.1.shotToken = some t

/-- The shot tokens of the actions that were called and have not returned. -/
def running (o : Object) : List Nat := o.stack.filterMap fun f => f.running.bind (·.shotToken)

/-- The connection that the next turn of the loop calls or posts. -/
def nextDelivery (o : Object) : Option Connection :=
  match o.stack with
  | [] => none
  | f :: _ =>
    match f.running, f.callbacks with
    | none, d :: _ => if o.isDead d then none else some d
    | _, _ => none

/-- The turn does not reach a one-shot connection whose own action is still running. -/
def Orderly (o : Object) (a : Act) : Prop :=
  match a with
  | .turn => ∀ d ∈ o.nextDelivery, ∀ t ∈ d.shotToken, t ∉ o.running
  | _ => True

/-- What holds in every state, orderly or not. -/
structure InFlight (o : Object) : Prop where
  delivered : ∀ t ∈ o.running, 0 < o.deliveries t
  live : ∀ t, 0 < o.deliveries t → t ∉ o.fired → t ∈ o.running

def AtMostOnce (o : Object) : Prop := ∀ t, o.deliveries t ≤ 1

/-! ### What a step does -/

theorem running_cons {o : Object} {f : Dispatch} {below : List Dispatch} (h : o.stack = f :: below) :
    o.running = (f.running.bind (·.shotToken)).toList ++
      below.filterMap (fun g => g.running.bind (·.shotToken)) := by
  rw [running, h, List.filterMap_cons]
  cases f.running.bind (·.shotToken) <;> rfl

@[simp] theorem kill_log (o : Object) (token : Option Nat) : (o.kill token).log = o.log := by
  cases token <;> rfl

@[simp] theorem kill_stack (o : Object) (token : Option Nat) : (o.kill token).stack = o.stack := by
  cases token <;> rfl

theorem kill_fired (o : Object) (token : Option Nat) : (o.kill token).fired = token.toList ++ o.fired := by
  cases token <;> rfl

/-- A call does not touch the log, the tokens or a dispatch that is under way. -/
theorem call_quiet (o : Object) (c : Call) :
    (o.call c).log = o.log ∧ (o.call c).fired = o.fired ∧ (o.call c).running = o.running := by
  cases c with
  | trigger signal data =>
    simp only [call, enter]
    split_ifs
    · exact ⟨rfl, rfl, rfl⟩
    · exact ⟨rfl, rfl, rfl⟩
  | _ => exact ⟨rfl, rfl, rfl⟩

/-- A step delivers nothing and leaves the running actions alone, or the running action returns, or
the step is a turn that delivers a connection. -/
theorem step_cases {o o' : Object} {a : Act} (h : o.step a = some o') :
    (o'.log = o.log ∧ o'.fired = o.fired ∧ o'.running = o.running ∧
      (a = .turn → o.nextDelivery = none)) ∨
    (∃ d : Connection, a = .actionReturns ∧ o'.log = o.log ∧ o'.fired = d.shotToken.toList ++ o.fired ∧
      o.running = d.shotToken.toList ++ o'.running) ∨
    (∃ f below d rest, a = .turn ∧ o.stack = f :: below ∧ f.running = none ∧
      f.callbacks = d :: rest ∧ o.isDead d = false ∧ o' = o.visit f d rest below) := by
  cases a with
  | call c =>
    have hq : o' = o.call c := by
      simp only [step] at h
      split at h
      · exact (Option.some.inj h).symm
      · split at h
        · exact (Option.some.inj h).symm
        · cases h
    obtain ⟨hl, hf, hr⟩ := call_quiet o c
    rw [hq]
    exact .inl ⟨hl, hf, hr, fun h => (by cases h)⟩
  | turn =>
    cases hs : o.stack with
    | nil => simp only [step, hs, reduceCtorEq] at h
    | cons f below =>
      cases hr : f.running with
      | some d => simp only [step, hs, hr, reduceCtorEq] at h
      | none =>
        have hrun : o.running = below.filterMap (fun g => g.running.bind (·.shotToken)) := by
          rw [running_cons hs, hr]
          rfl
        cases hc : f.callbacks with
        | nil =>
          simp only [step, hs, hr, hc, Option.some.injEq] at h
          subst h
          refine .inl ⟨?_, ?_, ?_, fun _ => by simp only [nextDelivery, hs, hr, hc]⟩
          · simp only [leave]; split_ifs <;> rfl
          · simp only [leave]; split_ifs <;> rfl
          · rw [hrun]; simp only [leave]; split_ifs <;> rfl
        | cons d rest =>
          simp only [step, hs, hr, hc, Option.some.injEq] at h
          subst h
          by_cases hd : o.isDead d = true
          · refine .inl ⟨?_, ?_, ?_, fun _ => by simp only [nextDelivery, hs, hr, hc, hd, if_pos]⟩
            · simp only [visit, if_pos hd]
            · simp only [visit, if_pos hd]
            · rw [hrun]
              simp only [visit, if_pos hd, running, List.filterMap_cons, hr, Option.bind_none]
          · exact .inr (.inr ⟨f, below, d, rest, rfl, rfl, hr, hc, by simpa using hd, rfl⟩)
  | actionReturns =>
    cases hs : o.stack with
    | nil => simp only [step, hs, reduceCtorEq] at h
    | cons f below =>
      cases hr : f.running with
      | none => simp only [step, hs, hr, Option.map_none, reduceCtorEq] at h
      | some d =>
        simp only [step, hs, hr, Option.map_some, Option.some.injEq] at h
        subst h
        refine .inr (.inl ⟨d, rfl, kill_log _ _, kill_fired _ _, ?_⟩)
        rw [running_cons hs, hr, running, kill_stack, List.filterMap_cons]
        rfl

theorem deliveries_of_log {o o' : Object} (h : o'.log = o.log) : o'.deliveries = o.deliveries := by
  funext t
  rw [deliveries, deliveries, h]

theorem visit_deliveries {o : Object} {f : Dispatch} {d : Connection} {rest : List Connection}
    {below : List Dispatch} (hd : o.isDead d = false) (t : Nat) :
    (o.visit f d rest below).deliveries t =
      o.deliveries t + if d.shotToken = some t then 1 else 0 := by
  have hlog : (o.visit f d rest below).log = o.log ++ [(d, f.data)] := by
    simp only [visit, hd, Bool.false_eq_true, if_false]
    split_ifs
    · exact kill_log _ _
    · rfl
  rw [deliveries, hlog, List.countP_append, deliveries]
  simp [List.countP_cons]

/-- A delivered one-shot connection is dead if it was posted and running if it was called. -/
theorem visit_settles {o : Object} {f : Dispatch} {d : Connection} {rest : List Connection}
    {below : List Dispatch} (hs : o.stack = f :: below) (hr : f.running = none)
    (hd : o.isDead d = false) :
    let o' := o.visit f d rest below
    (o'.fired = o.fired ∧ o'.running = d.shotToken.toList ++ o.running) ∨
      (o'.fired = d.shotToken.toList ++ o.fired ∧ o'.running = o.running) := by
  have hrun : o.running = below.filterMap (fun g => g.running.bind (·.shotToken)) := by
    rw [running_cons hs, hr]
    rfl
  simp only [visit, hd, Bool.false_eq_true, if_false]
  cases d.loop with
  | false =>
    refine .inl ⟨rfl, ?_⟩
    rw [hrun, if_neg (by simp), running_cons rfl]
    rfl
  | true =>
    refine .inr ⟨kill_fired _ _, ?_⟩
    rw [hrun, if_pos rfl, running, kill_stack, List.filterMap_cons, hr]
    rfl

theorem step_in_flight {o o' : Object} {a : Act} (hi : InFlight o) (h : o.step a = some o') :
    InFlight o' := by
  rcases step_cases h with ⟨hl, hf, hr, -⟩ | ⟨d, -, hl, hf, hr⟩ | ⟨f, below, d, rest, -, hs, hr, -, hd, rfl⟩
  · constructor
    · rw [hr, deliveries_of_log hl]
      exact hi.delivered
    · rw [hr, hf, deliveries_of_log hl]
      exact hi.live
  · constructor
    · intro t ht
      rw [deliveries_of_log hl]
      exact hi.delivered t (by rw [hr]; exact List.mem_append_right _ ht)
    · intro t ht hn
      rw [deliveries_of_log hl] at ht
      rw [hf, List.mem_append, not_or] at hn
      have hm := hi.live t ht hn.2
      rw [hr, List.mem_append] at hm
      exact hm.resolve_left hn.1
  · have hv := @visit_settles o f d rest below hs hr hd
    have hc := @visit_deliveries o f d rest below hd
    have hnew : ∀ t ∈ d.shotToken.toList, 0 < (o.visit f d rest below).deliveries t := by
      intro t ht
      rw [hc, if_pos (Option.mem_toList.mp ht)]
      omega
    have hold : ∀ t, t ∉ d.shotToken.toList →
        (o.visit f d rest below).deliveries t = o.deliveries t := by
      intro t ht
      rw [hc, if_neg fun h => ht (Option.mem_toList.mpr h)]
      rfl
    constructor
    · intro t ht
      by_cases hm : t ∈ d.shotToken.toList
      · exact hnew t hm
      · rw [hold t hm]
        rcases hv with ⟨-, hv⟩ | ⟨-, hv⟩
        · rw [hv, List.mem_append] at ht
          exact hi.delivered t (ht.resolve_left hm)
        · exact hi.delivered t (hv ▸ ht)
    · intro t ht hn
      rcases hv with ⟨hf, hv⟩ | ⟨hf, hv⟩
      · rw [hv, List.mem_append]
        by_cases hm : t ∈ d.shotToken.toList
        · exact .inl hm
        · exact .inr (hi.live t (hold t hm ▸ ht) (hf ▸ hn))
      · rw [hf, List.mem_append, not_or] at hn
        rw [hv]
        exact hi.live t (hold t hn.1 ▸ ht) hn.2

/-- A step keeps `AtMostOnce` exactly when it is orderly. -/
theorem step_at_most_once {o o' : Object} {a : Act} (hi : InFlight o) (h : o.step a = some o') :
    AtMostOnce o' ↔ AtMostOnce o ∧ Orderly o a := by
  rcases step_cases h with ⟨hl, -, -, hn⟩ | ⟨d, rfl, hl, -, -⟩ | ⟨f, below, d, rest, rfl, hs, hr, hc, hd, rfl⟩
  · have ho : Orderly o a := by
      cases a with
      | turn => simp [Orderly, hn rfl]
      | _ => trivial
    simp only [AtMostOnce, deliveries_of_log hl, ho, and_true]
  · simp only [AtMostOnce, deliveries_of_log hl, Orderly, and_true]
  · have hnext : o.nextDelivery = some d := by
      simp only [nextDelivery, hs, hr, hc, hd, Bool.false_eq_true, if_false]
    have hfresh : ∀ t ∈ d.shotToken, t ∉ o.fired := by
      intro t ht hm
      rw [Option.mem_def] at ht
      simp [isDead, ht, hm] at hd
    simp only [AtMostOnce, visit_deliveries hd, Orderly, hnext, Option.mem_some_iff,
      forall_eq']
    constructor
    · intro hall
      refine ⟨fun t => le_trans (Nat.le_add_right _ _) (hall t), fun t ht hrun => ?_⟩
      have h1 := hall t
      have h2 := hi.delivered t hrun
      rw [if_pos (Option.mem_def.mp ht)] at h1
      omega
    · rintro ⟨hall, horder⟩ t
      split_ifs with ht
      · have h0 : ¬ 0 < o.deliveries t := fun hp => horder t ht (hi.live t hp (hfresh t ht))
        omega
      · exact hall t

theorem fresh_in_flight : InFlight fresh := by
  constructor
  · intro t ht
    cases ht
  · intro t ht
    cases ht

theorem fresh_at_most_once : AtMostOnce fresh := fun _ => Nat.zero_le 1

/-- **Each `once` action is called or posted at most once** in a run exactly when no turn of it
reaches a one-shot connection whose own action is still running. -/
theorem once_at_most_once {o : Object} {acts : List Act} (hr : Runs Step fresh acts o) :
    AtMostOnce o ↔ Runs (Guarded Orderly Step) fresh acts o := by
  have hdet : ∀ s a s' s'', Step s a s' → Step s a s'' → s' = s'' := fun s a s' s'' h h' =>
    Option.some.inj (h.symm.trans h')
  have h := hr.guarded_iff_under (P := AtMostOnce) hdet step_in_flight step_at_most_once fresh_in_flight
  exact h.trans (and_iff_right fresh_at_most_once)

/-- The second trigger finds the connection dead. -/
theorem once_at_most_once_sample :
    ∃ o, Runs Step fresh
      [.call (.once 4096 (some 0) 0 false), .call (.trigger 4096 .none), .turn, .actionReturns, .turn,
        .call (.trigger 4096 .none), .turn] o ∧ AtMostOnce o := by
  have hr : ∃ o, Runs (Guarded Orderly Step) fresh
      [.call (.once 4096 (some 0) 0 false), .call (.trigger 4096 .none), .turn, .actionReturns, .turn,
        .call (.trigger 4096 .none), .turn] o := by
    refine ⟨_, .cons ⟨trivial, rfl⟩ (.cons ⟨trivial, rfl⟩ (.cons ⟨?_, rfl⟩ (.cons ⟨trivial, rfl⟩
      (.cons ⟨?_, rfl⟩ (.cons ⟨trivial, rfl⟩ (.cons ⟨?_, rfl⟩ .nil))))))⟩
    · intro d _ t _ ht
      cases ht
    · intro d hd
      cases hd
    · intro d hd
      cases hd
  obtain ⟨o, hr⟩ := hr
  exact ⟨o, hr.of_guarded, (once_at_most_once hr.of_guarded).mpr hr⟩

/-- The action triggers the signal again and is called a second time, since its connection dies only
when it returns. -/
theorem once_fires_twice :
    ¬ ∀ (acts : List Act) (o : Object), Runs Step fresh acts o → AtMostOnce o := by
  intro h
  have hr : ∃ o, Runs Step fresh
      [.call (.once 4096 (some 0) 0 false), .call (.trigger 4096 .none), .turn,
        .call (.trigger 4096 .none), .turn] o ∧ o.deliveries 0 = 2 :=
    ⟨_, .cons rfl (.cons rfl (.cons rfl (.cons rfl (.cons rfl .nil)))), rfl⟩
  obtain ⟨o, hr, htwice⟩ := hr
  have hone := h _ o hr 0
  omega

end Object

end VersatileEngine
