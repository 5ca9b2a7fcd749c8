import VersatileEngine.Node.Resolve
import VersatileEngine.Service.Subscribe

/-!
# VersatileEngine.Service.Counting

The number of subscribers that is reported for a node, beside the subscriptions that are attached to it. The
tree stays as it is while requests come and go.

* `targetOf`             — the node that `subscribe` connects to.
* `reported`, `attached` — what the registry shows under the path of a node, and what there is.
* `reported_iff`         — the two agree where every live path is spelled as the node spells it.
* `reported_spelled`     — **so they agree after any requests that spell paths so**.
-/

namespace VersatileEngine

namespace Subscribers

open VersatileEngine.Tree

/-- The place that `root->find(normalized)` leads to. -/
def targetOf (root : Tree) (normalized : Str) : Option (List Nat) := root.findPath pathSep keySep normalized

/-- The live entries, over all services and sessions. -/
def entries (s : Subscribers) : List SubEntry := s.services.flatMap SubscribeService.allEntries

/-- The live entries whose observer is connected to the node at a place. -/
def attached (s : Subscribers) (root : Tree) (p : List Nat) : Nat :=
  s.entries.countP fun e => targetOf root e.path = some p

/-- `getSubscriberCount(target->path(root))`, for the node at a place. -/
def reported (s : Subscribers) (root : Tree) (p : List Nat) : Nat := s.shared.getSubscriberCount (root.pathOf p)

/-- The path leads to a node, and it is what the node says its path is. -/
def Own (root : Tree) (normalized : Str) : Prop :=
  ∃ p, targetOf root normalized = some p ∧ normalized = root.pathOf p

/-- A subscription of an existing node under its own path; other requests as they please. -/
def Act.Spelled (root : Tree) : Act → Prop
  | .subscribe _ _ path _ _ target =>
    target = true ∧ Own root (normalizePath path)
  | _ => True

section Counts

variable {root k : Tree} {p : List Nat} {s : Subscribers}

theorem normalizePath_pathOf (h : Addressable root) (p : List Nat) :
    normalizePath (root.pathOf p) = root.pathOf p :=
  normalizePath_eq_self.mpr (bare_pathOf h p)

/-- Of two tests, one of which implies the other, each counts the same just where they agree. -/
theorem countP_eq_iff {α : Type} {f g : α → Bool} {l : List α} (h : ∀ x ∈ l, f x = true → g x = true) :
    l.countP f = l.countP g ↔ ∀ x ∈ l, g x = true → f x = true := by
  induction l with
  | nil => simp
  | cons a l ih =>
    rw [List.forall_mem_cons] at h ⊢
    have hle : l.countP f ≤ l.countP g := List.countP_mono_left h.2
    rw [← ih h.2, List.countP_cons, List.countP_cons]
    cases hf : f a with
    | true => simp [h.1 hf]
    | false =>
      cases hg : g a with
      | true =>
        simp only [Bool.false_eq_true, if_false, if_true, forall_true_left, false_and, iff_false]
        omega
      | false => simp

theorem reported_eq (hs : Inv s) (h : Addressable root) (p : List Nat) :
    s.reported root p = s.entries.countP fun e => e.path = root.pathOf p := by
  have hlive : s.live (root.pathOf p) = liveSum s.services (root.pathOf p) := live_eq_sum s _
  rw [reported, SharedRegistry.getSubscriberCount, normalizePath_pathOf h, hs.counted.1, ← hlive, shown, entries,
    List.countP_eq_length_filter]
  split_ifs with h0
  · exact h0.symm
  · rfl

/-- The number for a node is right just where all that is attached to it has the path of the node. -/
theorem reported_iff (hs : Inv s) (h : Addressable root) (hk : root.sub p = some k) :
    s.reported root p = s.attached root p ↔
      ∀ e ∈ s.entries, targetOf root e.path = some p → e.path = root.pathOf p := by
  rw [reported_eq hs h, attached, countP_eq_iff]
  · simp only [decide_eq_true_eq]
  · intro e _ he
    rw [decide_eq_true_eq] at he ⊢
    rw [he]
    exact findPath_pathOf h hk

end Counts

/-! ### What the paths of the live entries are -/

section Paths

variable {P : Str → Prop} {s : Subscribers}

/-- All paths of a service are of one kind. -/
def AllPaths (P : Str → Prop) (v : SubscribeService) : Prop := ∀ q ∈ v.sessions, ∀ e ∈ q.2, P e.path

/-- A call of a service that brings no path of another kind. -/
def KeepsPaths (P : Str → Prop) (f : SubscribeService → SharedRegistry → SubscribeService × SharedRegistry) :
    Prop :=
  ∀ v r, AllPaths P v → AllPaths P (f v r).1

theorem allPaths_lookup {v : SubscribeService} (h : AllPaths P v) {session : UInt64} {es : List SubEntry}
    (hl : v.sessions.lookup session = some es) : ∀ e ∈ es, P e.path := by
  obtain ⟨a, b, hab, -⟩ := List.lookup_eq_some_iff.mp hl
  exact h (session, es) (by rw [hab]; simp)

theorem subscribe_keeps (session : UInt64) (path : Str) (bubble tree : Bool) {target : Bool}
    (h : target = true → P (normalizePath path)) :
    KeepsPaths P fun v r => v.subscribe r session path bubble tree target := by
  intro v r hv
  cases target with
  | false => exact hv
  | true =>
    intro q hq e he
    rcases mem_assign hq with rfl | hq
    · rcases List.mem_append.mp he with he | he
      · cases hl : v.sessions.lookup session with
        | none =>
          rw [SubscribeService.entries, hl] at he
          cases he
        | some es =>
          rw [SubscribeService.entries, hl] at he
          exact allPaths_lookup hv hl e he
      · rw [List.mem_singleton.mp he]
        exact h rfl
    · exact hv q hq e he

theorem unsubscribe_keeps (session : UInt64) (path : Str) :
    KeepsPaths P fun v r => v.unsubscribe r session path := by
  intro v r hv
  dsimp only
  rw [SubscribeService.unsubscribe]
  cases hl : v.sessions.lookup session with
  | none => exact hv
  | some es =>
    have hassign : ∀ q ∈ assign v.sessions session (es.filter fun e => e.path ≠ normalizePath path),
        ∀ e ∈ q.2, P e.path := by
      intro q hq e he
      rcases mem_assign hq with rfl | hq
      · exact allPaths_lookup hv hl e (List.mem_of_mem_filter he)
      · exact hv q hq e he
    intro q hq
    dsimp only at hq
    split_ifs at hq
    · exact hassign q (List.mem_of_mem_filter hq)
    · exact hassign q hq

theorem removeSession_keeps (session : UInt64) : KeepsPaths P fun v r => v.removeSession r session :=
  fun _ _ hv q hq => hv q (List.mem_of_mem_filter hq)

theorem stop_keeps : KeepsPaths P fun v r => v.stop r := by
  intro v r _ q hq
  cases hq

theorem onService_keeps {f : SubscribeService → SharedRegistry → SubscribeService × SharedRegistry}
    (hf : KeepsPaths P f) (hs : ∀ v ∈ s.services, AllPaths P v) (i : Nat) :
    ∀ v ∈ (s.onService i f).services, AllPaths P v := by
  cases hv : s.services[i]? with
  | none => simpa only [onService, hv] using hs
  | some v =>
    simp only [onService, hv]
    intro w hw
    rcases List.mem_or_eq_of_mem_set hw with hw | rfl
    · exact hs w hw
    · exact hf v s.shared (hs v (List.mem_of_getElem? hv))

theorem step_keeps {root : Tree} (hs : ∀ v ∈ s.services, AllPaths (Own root) v) {a : Act} (ha : a.Spelled root) :
    ∀ v ∈ (s.step a).services, AllPaths (Own root) v := by
  cases a with
  | subscribe i session path bubble tree target =>
    exact onService_keeps (subscribe_keeps session path bubble tree fun _ => ha.2) hs i
  | unsubscribe i session path => exact onService_keeps (unsubscribe_keeps session path) hs i
  | removeSession i session => exact onService_keeps (removeSession_keeps session) hs i
  | stop i => exact onService_keeps stop_keeps hs i

theorem run_keeps {root : Tree} (acts : List Act) (hacts : ∀ a ∈ acts, a.Spelled root) :
    ∀ {s : Subscribers}, (∀ v ∈ s.services, AllPaths (Own root) v) →
      ∀ v ∈ (s.run acts).services, AllPaths (Own root) v := by
  induction acts with
  | nil => exact fun hs => hs
  | cons a acts ih =>
    rw [List.forall_mem_cons] at hacts
    exact fun hs => ih hacts.2 (step_keeps hs hacts.1)

end Paths

/-- **After any calls that subscribe to existing nodes under their own paths, the number that is reported for a
node is the number of subscriptions attached to it.** -/
theorem reported_spelled {root : Tree} (h : Addressable root) (n : Nat) {acts : List Act}
    (hacts : ∀ a ∈ acts, a.Spelled root) {p : List Nat} {k : Tree} (hk : root.sub p = some k) :
    ((opened n).run acts).reported root p = ((opened n).run acts).attached root p := by
  have hopened : ∀ v ∈ (opened n).services, AllPaths (Own root) v := by
    intro v hv q hq
    rw [List.eq_of_mem_replicate hv] at hq
    cases hq
  have hrun := run_keeps acts hacts hopened
  refine (reported_iff (run_inv (opened_inv n) acts) h hk).mpr fun e he htarget => ?_
  obtain ⟨v, hv, he⟩ := List.mem_flatMap.mp he
  obtain ⟨q, hq, he⟩ := List.mem_flatMap.mp he
  obtain ⟨p', hp', hown⟩ := hrun v hv q hq e he
  obtain rfl : p' = p := Option.some.inj (hp'.symm.trans htarget)
  exact hown

/-- A root with `a`, which has `b`. -/
def countingSample : Tree := node [] .none [node (ascii "a") .none [blank (ascii "b")]]

theorem addressable_countingSample : Addressable countingSample := by
  refine addressable_node (by simp) fun k hk => ?_
  obtain rfl := List.mem_singleton.mp hk
  refine ⟨.inr (by decide), addressable_node (by simp) fun k hk => ?_⟩
  obtain rfl := List.mem_singleton.mp hk
  exact ⟨.inr (by decide), addressable_node (by simp) (by simp)⟩

theorem reported_spelled_sample :
    ((opened 1).run [.subscribe 0 7 (ascii "/a/b/") false false true]).reported countingSample [0, 0] =
      ((opened 1).run [.subscribe 0 7 (ascii "/a/b/") false false true]).attached countingSample [0, 0] := by
  refine reported_spelled addressable_countingSample 1 ?_ (rfl : countingSample.sub [0, 0] = some _)
  intro a ha
  rw [List.mem_singleton.mp ha]
  exact ⟨rfl, [0, 0], by decide, by decide⟩

/-- One subscription of `a`, as `a#0`: it is attached to the node, and none is reported. -/
theorem respelled :
    targetOf countingSample (normalizePath (ascii "a#0")) = some [0] ∧
      ((opened 1).run [.subscribe 0 7 (ascii "a#0") false false true]).attached countingSample [0] = 1 ∧
      ((opened 1).run [.subscribe 0 7 (ascii "a#0") false false true]).reported countingSample [0] = 0 := by
  refine ⟨by decide, by decide, by decide⟩

end Subscribers

end VersatileEngine
