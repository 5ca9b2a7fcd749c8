import Mathlib.Data.List.Dedup
import Mathlib.Data.List.Perm.Basic
import VersatileEngine.Sdk.Value
import VersatileEngine.Service.Subscribe

/-!
# VersatileEngine.Sdk.Watches

The subscriptions of a server session, and the watches a client is registered for.

* `SubscribeService.serve`     — a request of a session on the server, as far as its subscriptions go.
* `sessionEntries`             — the entries that requests leave in a session, when every `subscribe` gets a node.
* `Watch`, `subscriptionsOf`   — the registered watches, and the subscriptions that they stand for: one for each
  path and options, however many handlers.
* `Registered`                 — the client's dictionary of handlers holds these watches. `add`, `await`, `settle`,
  `cancel` and `drop` follow what the clients do to it.
* `entriesFor`                 — the entries for the paths of the dictionary, in order.
-/

namespace VersatileEngine

/-! ### The server -/

/-- `req->get(key).toString()`; the clients send strings. -/
def textOf (m : JsObject) (key : Str) : Str :=
  match m.lookup key with
  | some (.str s) => s
  | _ => []

/-- `req->get(key).toBool(false)`. -/
def flagOf (m : JsObject) (key : Str) : Bool :=
  match m.lookup key with
  | some (.bool b) => b
  | _ => false

/-- A request on the server. With it stands whether `subscribe` finds or makes a node for its path. -/
def SubscribeService.serve (session : UInt64) (s : SubscribeService × SharedRegistry) (m : JsObject × Bool) :
    SubscribeService × SharedRegistry :=
  if textOf m.1 (ascii "op") = ascii "subscribe" then
    s.1.subscribe s.2 session (textOf m.1 (ascii "path")) (flagOf m.1 (ascii "bubble")) (flagOf m.1 (ascii "tree")) m.2
  else if textOf m.1 (ascii "op") = ascii "unsubscribe" then
    s.1.unsubscribe s.2 session (textOf m.1 (ascii "path"))
  else s

/-- The request has nothing to do with subscriptions, and holds no other requests. -/
def Neutral (m : JsObject) : Prop :=
  textOf m (ascii "op") ≠ ascii "subscribe" ∧ textOf m (ascii "op") ≠ ascii "unsubscribe" ∧
    textOf m (ascii "op") ≠ ascii "batch"

/-- What a request makes of the entries of its session. -/
def serveEntries (es : List SubEntry) (m : JsObject) : List SubEntry :=
  if textOf m (ascii "op") = ascii "subscribe" then
    es ++ [⟨normalizePath (textOf m (ascii "path")), flagOf m (ascii "bubble"), flagOf m (ascii "tree")⟩]
  else if textOf m (ascii "op") = ascii "unsubscribe" then
    es.filter fun e => e.path ≠ normalizePath (textOf m (ascii "path"))
  else es

def sessionEntries (ms : List JsObject) : List SubEntry := ms.foldl serveEntries []

theorem sessionEntries_snoc (ms : List JsObject) (m : JsObject) :
    sessionEntries (ms ++ [m]) = serveEntries (sessionEntries ms) m := List.foldl_concat _ _ _ _

theorem serveEntries_neutral {m : JsObject} (h : Neutral m) (es : List SubEntry) : serveEntries es m = es := by
  rw [serveEntries, if_neg h.1, if_neg h.2.1]

section Serve

variable {session : UInt64} {v : SubscribeService} {r : SharedRegistry} {path : Str}

theorem entries_subscribe (bubble tree : Bool) : (v.subscribe r session path bubble tree true).1.entries session =
    v.entries session ++ [⟨normalizePath path, bubble, tree⟩] := by
  rw [SubscribeService.subscribe, if_pos rfl, SubscribeService.entries, lookup_assign, if_pos rfl]
  rfl

theorem entries_unsubscribe : (v.unsubscribe r session path).1.entries session =
    (v.entries session).filter fun e => e.path ≠ normalizePath path := by
  cases hl : v.sessions.lookup session with
  | none =>
    simp only [SubscribeService.unsubscribe, SubscribeService.entries, hl]
    rfl
  | some es =>
    simp only [SubscribeService.unsubscribe, SubscribeService.entries, hl]
    split_ifs with hk
    · rw [lookup_unassign, if_pos rfl, Option.getD_some, hk]
      rfl
    · rw [lookup_assign, if_pos rfl]
      rfl

/-- The entries of a session after its requests, when every `subscribe` got a node. -/
theorem entries_serve (ms : List (JsObject × Bool)) (ht : ∀ m ∈ ms, m.2 = true) :
    ∀ s : SubscribeService × SharedRegistry, (ms.foldl (SubscribeService.serve session) s).1.entries session =
      (ms.map Prod.fst).foldl serveEntries (s.1.entries session) := by
  induction ms with
  | nil => exact fun _ => rfl
  | cons m ms ih =>
    intro s
    rw [List.foldl_cons, ih fun m hm => ht m (List.mem_cons_of_mem _ hm), List.map_cons, List.foldl_cons]
    congr 1
    rw [SubscribeService.serve, serveEntries, ht m List.mem_cons_self]
    split_ifs
    · exact entries_subscribe _ _
    · exact entries_unsubscribe
    · rfl

end Serve

/-! ### The watches -/

/-- A handler that is registered for a path, with the options it was registered with. -/
structure Watch where
  path : Str
  handler : Nat
  tree : Bool
  bubble : Bool

/-- Path, `tree` and `bubble`. -/
def Watch.subscription (x : Watch) : Str × Bool × Bool := (x.path, x.tree, x.bubble)

def entryOf (s : Str × Bool × Bool) : SubEntry := ⟨normalizePath s.1, s.2.2, s.2.1⟩

/-- The subscriptions that the watches stand for. -/
def subscriptionsOf (w : List Watch) : List SubEntry := (w.map Watch.subscription).dedup.map entryOf

/-- What the application did to the watches. -/
inductive WatchAct where
  | watch (x : Watch)
  | cancel (path : Str) (handler : Nat)
  | unwatch (path : Str)
  | other

def watched (w : List Watch) : WatchAct → List Watch
  | .watch x => w ++ [x]
  | .cancel path handler => w.filter fun x => ¬ (x.path = path ∧ x.handler = handler)
  | .unwatch path => w.filter fun x => x.path ≠ path
  | .other => w

/-- The options of the watches of a path. -/
def optionsOf (w : List Watch) (path : Str) : Bool × Bool :=
  ((w.find? fun x => x.path = path).map fun x => (x.tree, x.bubble)).getD (true, false)

def entryIn (w : List Watch) (path : Str) : SubEntry := entryOf (path, optionsOf w path)

/-- No other path of the dictionary is the same path for the server. -/
def Alone (subs : List (Str × List Nat)) (path : Str) : Prop :=
  ∀ q ∈ subs.map Prod.fst, q ≠ path → normalizePath q ≠ normalizePath path

/-- The dictionary has the handlers of the watches; `waiting` are those that it will still have. -/
structure Registered (w : List Watch) (subs : List (Str × List Nat)) (waiting : List (Str × Nat)) : Prop where
  keys : (subs.map Prod.fst).Nodup
  handlers : ∀ p h, h ∈ (subs.lookup p).getD [] ∨ (p, h) ∈ waiting ↔ ∃ x ∈ w, x.path = p ∧ x.handler = h
  paths : ∀ p, (subs.lookup p).isSome ↔ ∃ x ∈ w, x.path = p
  options : ∀ x ∈ w, ∀ y ∈ w, x.path = y.path → (x.tree, x.bubble) = (y.tree, y.bubble)

/-- The entries for the paths of the dictionary. -/
def entriesFor (w : List Watch) (subs : List (Str × List Nat)) : List SubEntry := subs.map fun s => entryIn w s.1

section Registered

variable {w w' : List Watch} {subs : List (Str × List Nat)} {waiting : List (Str × Nat)} {x : Watch} {p q : Str}

theorem registered_nil : Registered [] [] [] :=
  ⟨List.nodup_nil, fun _ _ => by simp, fun _ => by simp, fun _ h => absurd h List.not_mem_nil⟩

theorem mem_keys_iff : q ∈ subs.map Prod.fst ↔ (subs.lookup q).isSome := by
  induction subs with
  | nil => simp
  | cons s subs ih =>
    rw [List.map_cons, List.mem_cons, List.lookup_cons]
    by_cases h : q = s.1
    · simp [h]
    · rw [beq_eq_false_iff_ne.mpr h, or_iff_right h]
      exact ih

theorem optionsOf_eq (h : ∀ x ∈ w, ∀ y ∈ w, x.path = y.path → (x.tree, x.bubble) = (y.tree, y.bubble)) (hx : x ∈ w) :
    optionsOf w x.path = (x.tree, x.bubble) := by
  cases hf : w.find? fun y => y.path = x.path with
  | none => exact absurd (decide_eq_true rfl) (List.find?_eq_none.mp hf x hx)
  | some y =>
    have hy := List.find?_some hf
    rw [decide_eq_true_eq] at hy
    rw [optionsOf, hf]
    exact h y (List.mem_of_find?_eq_some hf) x hx hy

/-- A watch in both. -/
theorem entryIn_congr (h : ∀ x ∈ w, ∀ y ∈ w, x.path = y.path → (x.tree, x.bubble) = (y.tree, y.bubble))
    (h' : ∀ x ∈ w', ∀ y ∈ w', x.path = y.path → (x.tree, x.bubble) = (y.tree, y.bubble)) (hx : x ∈ w) (hx' : x ∈ w') :
    entryIn w x.path = entryIn w' x.path := by
  rw [entryIn, entryIn, optionsOf_eq h hx, optionsOf_eq h' hx']

/-- **The entries for the dictionary are the subscriptions of the watches.** -/
theorem Registered.entries_perm (h : Registered w subs waiting) : (entriesFor w subs).Perm (subscriptionsOf w) := by
  have hsame : ((subs.map Prod.fst).map fun p => (p, optionsOf w p)).Perm (w.map Watch.subscription).dedup := by
    refine (List.perm_ext_iff_of_nodup ?_ (List.nodup_dedup _)).mpr fun s => ?_
    · exact h.keys.map fun p q he => (Prod.mk.inj he).1
    · rw [List.mem_dedup, List.mem_map, List.mem_map]
      constructor
      · rintro ⟨p, hp, rfl⟩
        obtain ⟨x, hx, rfl⟩ := (h.paths p).mp (mem_keys_iff.mp hp)
        exact ⟨x, hx, by rw [optionsOf_eq h.options hx, Watch.subscription]⟩
      · rintro ⟨x, hx, rfl⟩
        exact ⟨x.path, mem_keys_iff.mpr ((h.paths _).mpr ⟨x, hx, rfl⟩), by
          rw [optionsOf_eq h.options hx, Watch.subscription]⟩
  have hmap := hsame.map entryOf
  rw [List.map_map, List.map_map] at hmap
  exact hmap

theorem entriesFor_eq (w : List Watch) (subs : List (Str × List Nat)) :
    entriesFor w subs = (subs.map Prod.fst).map (entryIn w) := by
  rw [entriesFor, List.map_map]
  rfl

/-- The dictionary keeps its paths, and each of them a watch. -/
theorem entriesFor_congr {subs' : List (Str × List Nat)} (h : Registered w subs waiting)
    (h' : ∀ x ∈ w', ∀ y ∈ w', x.path = y.path → (x.tree, x.bubble) = (y.tree, y.bubble))
    (hkeys : subs'.map Prod.fst = subs.map Prod.fst)
    (hboth : ∀ p ∈ subs.map Prod.fst, ∃ x ∈ w, x ∈ w' ∧ x.path = p) : entriesFor w' subs' = entriesFor w subs := by
  rw [entriesFor_eq, entriesFor_eq, hkeys]
  refine List.map_congr_left fun p hp => ?_
  obtain ⟨x, hx, hx', rfl⟩ := hboth p hp
  exact (entryIn_congr h.options h' hx hx').symm

/-- `Set.add`. -/
def addTo (set : List Nat) (handler : Nat) : List Nat := if handler ∈ set then set else set ++ [handler]

theorem mem_addTo {set : List Nat} {g handler : Nat} : g ∈ addTo set handler ↔ g ∈ set ∨ g = handler := by
  rw [addTo]
  split_ifs with h
  · exact ⟨.inl, fun hg => hg.elim id fun he => he ▸ h⟩
  · rw [List.mem_append, List.mem_singleton]

/-- The options of one more watch. -/
def Agrees (w : List Watch) (x : Watch) : Prop :=
  ∀ y ∈ w, y.path = x.path → (y.tree, y.bubble) = (x.tree, x.bubble)

theorem options_snoc (h : Registered w subs waiting) (hx : Agrees w x) :
    ∀ y ∈ w ++ [x], ∀ z ∈ w ++ [x], y.path = z.path → (y.tree, y.bubble) = (z.tree, z.bubble) := by
  intro y hy z hz he
  rcases List.mem_append.mp hy with hyw | hyx
  · rcases List.mem_append.mp hz with hzw | hzx
    · exact h.options y hyw z hzw he
    · cases List.mem_singleton.mp hzx
      exact hx y hyw he
  · cases List.mem_singleton.mp hyx
    rcases List.mem_append.mp hz with hzw | hzx
    · exact (hx z hzw he.symm).symm
    · cases List.mem_singleton.mp hzx
      rfl

theorem exists_snoc {P : Watch → Prop} : (∃ y ∈ w ++ [x], P y) ↔ (∃ y ∈ w, P y) ∨ P x := by
  constructor
  · rintro ⟨y, hy, hp⟩
    rcases List.mem_append.mp hy with hy | hy
    · exact .inl ⟨y, hy, hp⟩
    · exact .inr (List.mem_singleton.mp hy ▸ hp)
  · rintro (⟨y, hy, hp⟩ | hp)
    · exact ⟨y, List.mem_append_left _ hy, hp⟩
    · exact ⟨x, List.mem_append_right _ List.mem_cons_self, hp⟩

/-- The handler of one more watch. -/
theorem Registered.add (h : Registered w subs waiting) (hx : Agrees w x) :
    Registered (w ++ [x]) (assign subs x.path (addTo ((subs.lookup x.path).getD []) x.handler)) waiting where
  keys := assign_nodup h.keys
  handlers p g := by
    rw [exists_snoc, ← h.handlers, lookup_assign]
    split_ifs with hp
    · rw [hp, Option.getD_some, mem_addTo]
      simp only [true_and, eq_comm (a := g)]
      tauto
    · simp [Ne.symm hp]
  paths p := by
    rw [exists_snoc, ← h.paths, lookup_assign]
    split_ifs with hp
    · simp [hp]
    · simp [Ne.symm hp]
  options := options_snoc h hx

/-- One more watch, of a new path, whose handler comes later. -/
theorem Registered.await (h : Registered w subs waiting) (hx : Agrees w x) (hp : subs.lookup x.path = none) :
    Registered (w ++ [x]) (assign subs x.path []) (waiting ++ [(x.path, x.handler)]) where
  keys := assign_nodup h.keys
  handlers p g := by
    rw [exists_snoc, ← h.handlers, lookup_assign, List.mem_append, List.mem_singleton, Prod.mk.injEq]
    split_ifs with he
    · rw [he, hp]
      simp only [Option.getD_some, Option.getD_none, List.not_mem_nil, false_or, true_and, eq_comm (a := g)]
    · simp [he, Ne.symm he]
  paths p := by
    rw [exists_snoc, ← h.paths, lookup_assign]
    split_ifs with he
    · simp [he]
    · simp [Ne.symm he]
  options := options_snoc h hx

/-- The handler has come. -/
theorem Registered.settle (h : Registered w subs waiting) {g : Nat} {waiting' : List (Str × Nat)}
    (hw : ∀ s, s ∈ waiting ↔ s ∈ waiting' ∨ s = (p, g)) :
    Registered w (assign subs p (addTo ((subs.lookup p).getD []) g)) waiting' where
  keys := assign_nodup h.keys
  handlers q k := by
    rw [← h.handlers, lookup_assign, hw, Prod.mk.injEq]
    split_ifs with hq
    · rw [hq, Option.getD_some, mem_addTo]
      simp only [true_and]
      tauto
    · simp [hq]
  paths q := by
    rw [← h.paths, lookup_assign]
    split_ifs with hq
    · have hp := (h.handlers p g).mp (.inr ((hw _).mpr (.inr rfl)))
      obtain ⟨x, hx, he, -⟩ := hp
      rw [hq]
      exact iff_of_true rfl ((h.paths p).mpr ⟨x, hx, he⟩)
    · rfl
  options := h.options

/-- `Set.delete`. -/
def deleteFrom (set : List Nat) (handler : Nat) : List Nat := set.filter fun g => g ≠ handler

/-- Other handlers stay. -/
theorem Registered.cancel (h : Registered w subs waiting) {set : List Nat} {k : Nat} (hp : subs.lookup p = some set)
    (hk : (p, k) ∉ waiting) (hset : ∃ g ∈ set, g ≠ k) :
    Registered (watched w (.cancel p k)) (assign subs p (deleteFrom set k)) waiting where
  keys := assign_nodup h.keys
  handlers q g := by
    have hold := h.handlers q g
    simp only [watched, List.mem_filter, decide_eq_true_eq, deleteFrom, lookup_assign] at hold ⊢
    by_cases hq : q = p
    · subst hq
      rw [hp] at hold
      simp only [if_true, Option.getD_some, List.mem_filter, decide_eq_true_eq] at hold ⊢
      constructor
      · rintro (⟨hg, hne⟩ | hg)
        · obtain ⟨x, hx, hpath, hhandler⟩ := hold.mp (.inl hg)
          exact ⟨x, ⟨hx, fun hc => hne (hhandler ▸ hc.2)⟩, hpath, hhandler⟩
        · obtain ⟨x, hx, hpath, hhandler⟩ := hold.mp (.inr hg)
          refine ⟨x, ⟨hx, fun hc => hk ?_⟩, hpath, hhandler⟩
          rwa [← hc.2, hhandler]
      · rintro ⟨x, ⟨hx, hne⟩, hpath, hhandler⟩
        refine (hold.mpr ⟨x, hx, hpath, hhandler⟩).imp_left fun hg => ⟨hg, fun hc => hne ⟨hpath, ?_⟩⟩
        rw [hhandler, hc]
    · rw [if_neg hq]
      refine hold.trans ⟨?_, ?_⟩
      · rintro ⟨x, hx, hpath, hhandler⟩
        exact ⟨x, ⟨hx, fun hc => hq (hpath.symm.trans hc.1)⟩, hpath, hhandler⟩
      · rintro ⟨x, ⟨hx, -⟩, hpath, hhandler⟩
        exact ⟨x, hx, hpath, hhandler⟩
  paths q := by
    rw [lookup_assign]
    split_ifs with hq
    · obtain ⟨g, hg, hne⟩ := hset
      obtain ⟨x, hx, hpath, hhandler⟩ := (h.handlers p g).mp (.inl (by rwa [hp]))
      refine iff_of_true rfl ⟨x, List.mem_filter.mpr ⟨hx, ?_⟩, hpath.trans hq.symm⟩
      rw [decide_eq_true_eq]
      exact fun hc => hne (hhandler ▸ hc.2)
    · rw [h.paths]
      constructor
      · rintro ⟨x, hx, rfl⟩
        refine ⟨x, List.mem_filter.mpr ⟨hx, ?_⟩, rfl⟩
        rw [decide_eq_true_eq]
        exact fun hc => hq hc.1
      · rintro ⟨x, hx, rfl⟩
        exact ⟨x, (List.mem_filter.mp hx).1, rfl⟩
  options x hx y hy := h.options x (List.mem_filter.mp hx).1 y (List.mem_filter.mp hy).1

/-- All handlers of a path go. -/
theorem Registered.drop (h : Registered w subs waiting) (hp : ∀ g, (p, g) ∉ waiting) :
    Registered (watched w (.unwatch p)) (unassign subs p) waiting where
  keys := unassign_nodup p h.keys
  handlers q g := by
    have hold := h.handlers q g
    simp only [watched, List.mem_filter, decide_eq_true_eq, lookup_unassign] at hold ⊢
    by_cases hq : q = p
    · subst hq
      rw [if_pos rfl]
      simp only [Option.getD_none, List.not_mem_nil, false_or]
      refine iff_of_false (hp g) ?_
      rintro ⟨x, ⟨-, hne⟩, hpath, -⟩
      exact hne hpath
    · rw [if_neg hq]
      refine hold.trans ⟨?_, ?_⟩
      · rintro ⟨x, hx, hpath, hhandler⟩
        exact ⟨x, ⟨hx, fun hc => hq (hpath.symm.trans hc)⟩, hpath, hhandler⟩
      · rintro ⟨x, ⟨hx, -⟩, hpath, hhandler⟩
        exact ⟨x, hx, hpath, hhandler⟩
  paths q := by
    rw [lookup_unassign]
    split_ifs with hq
    · refine iff_of_false (by simp) ?_
      rintro ⟨x, hx, hpath⟩
      have hne := (List.mem_filter.mp hx).2
      rw [decide_eq_true_eq] at hne
      exact hne (hpath.trans hq)
    · rw [h.paths]
      constructor
      · rintro ⟨x, hx, rfl⟩
        exact ⟨x, List.mem_filter.mpr ⟨hx, decide_eq_true hq⟩, rfl⟩
      · rintro ⟨x, hx, rfl⟩
        exact ⟨x, (List.mem_filter.mp hx).1, rfl⟩
  options x hx y hy := h.options x (List.mem_filter.mp hx).1 y (List.mem_filter.mp hy).1

/-- The last handler of a path goes. -/
theorem Registered.watched_last (h : Registered w subs waiting) {set : List Nat} {k : Nat}
    (hp : subs.lookup p = some set) (hw : ∀ g, (p, g) ∉ waiting) (hset : ∀ g ∈ set, g = k) :
    watched w (.cancel p k) = watched w (.unwatch p) := by
  refine List.filter_congr fun x hx => decide_eq_decide.mpr ⟨fun hne hc => hne ⟨hc, ?_⟩, fun hne hc => hne hc.1⟩
  refine hset _ (((h.handlers p x.handler).mpr ⟨x, hx, hc, rfl⟩).elim (fun hg => by rwa [hp] at hg) fun hg => ?_)
  exact absurd hg (hw _)

/-- A path that is not in the dictionary. -/
theorem Registered.watched_none (h : Registered w subs waiting) (k : Nat) (hp : subs.lookup p = none) :
    watched w (.cancel p k) = w := by
  refine List.filter_eq_self.mpr fun x hx => ?_
  rw [decide_eq_true_eq]
  rintro ⟨rfl, -⟩
  have hs := (h.paths x.path).mpr ⟨x, hx, rfl⟩
  rw [hp] at hs
  cases hs

/-! ### Their entries -/

theorem entriesFor_known (h : Registered w subs waiting) (hx : Agrees w x) (set : List Nat)
    (hp : (subs.lookup x.path).isSome) : entriesFor (w ++ [x]) (assign subs x.path set) = entriesFor w subs := by
  refine entriesFor_congr h (options_snoc h hx) ?_ fun p hp => ?_
  · rw [assign_keys, if_pos (mem_keys_iff.mpr hp)]
  · obtain ⟨y, hy, he⟩ := (h.paths p).mp (mem_keys_iff.mp hp)
    exact ⟨y, hy, List.mem_append_left _ hy, he⟩

theorem entriesFor_new (h : Registered w subs waiting) (hx : Agrees w x) (set : List Nat)
    (hp : subs.lookup x.path = none) :
    entriesFor (w ++ [x]) (assign subs x.path set) = entriesFor w subs ++ [entryOf x.subscription] := by
  have hnew : x.path ∉ subs.map Prod.fst := by
    rw [mem_keys_iff, hp]
    exact Bool.false_ne_true
  have hold : entriesFor (w ++ [x]) subs = entriesFor w subs := by
    refine entriesFor_congr h (options_snoc h hx) rfl fun p hp => ?_
    obtain ⟨y, hy, he⟩ := (h.paths p).mp (mem_keys_iff.mp hp)
    exact ⟨y, hy, List.mem_append_left _ hy, he⟩
  rw [assign_new _ hnew, entriesFor, List.map_append, ← entriesFor, hold, List.map_singleton, entryIn,
    optionsOf_eq (options_snoc h hx) (List.mem_append_right _ List.mem_cons_self), Watch.subscription]

theorem entriesFor_cancel (h : Registered w subs waiting) {k : Nat} {set : List Nat}
    (h' : Registered (watched w (.cancel p k)) (assign subs p set) waiting) (hp : (subs.lookup p).isSome) :
    entriesFor (watched w (.cancel p k)) (assign subs p set) = entriesFor w subs := by
  have hkeys : (assign subs p set).map Prod.fst = subs.map Prod.fst := by
    rw [assign_keys, if_pos (mem_keys_iff.mpr hp)]
  refine entriesFor_congr h h'.options hkeys fun q hq => ?_
  rw [← hkeys] at hq
  obtain ⟨x, hx, he⟩ := (h'.paths q).mp (mem_keys_iff.mp hq)
  exact ⟨x, (List.mem_filter.mp hx).1, hx, he⟩

theorem entriesFor_settle (set : List Nat) (hp : (subs.lookup p).isSome) :
    entriesFor w (assign subs p set) = entriesFor w subs := by
  rw [entriesFor_eq, entriesFor_eq, assign_keys, if_pos (mem_keys_iff.mpr hp)]

/-- `unsubscribe` takes the entries of the path, and no others where the path is alone. -/
theorem entriesFor_drop (h : Registered w subs waiting)
    (h' : Registered (watched w (.unwatch p)) (unassign subs p) waiting) (ha : Alone subs p) :
    entriesFor (watched w (.unwatch p)) (unassign subs p) =
      (entriesFor w subs).filter fun e => e.path ≠ normalizePath p := by
  have hpath : ∀ q, (entryIn w q).path = normalizePath q := fun _ => rfl
  have hfilter : (entriesFor w subs).filter (fun e => e.path ≠ normalizePath p) = entriesFor w (unassign subs p) := by
    rw [entriesFor, List.filter_map, entriesFor, unassign]
    congr 1
    refine List.filter_congr fun s hs => decide_eq_decide.mpr ⟨fun hne he => hne ?_, fun hne => ?_⟩
    · rw [hpath, he]
    · exact ha s.1 (List.mem_map_of_mem hs) hne
  rw [hfilter]
  refine List.map_congr_left fun s hs => ?_
  obtain ⟨x, hx, he⟩ := (h'.paths s.1).mp (mem_keys_iff.mp (List.mem_map_of_mem hs))
  rw [← he]
  exact entryIn_congr h'.options h.options hx (List.mem_filter.mp hx).1

end Registered

end VersatileEngine
