import VersatileEngine.Core.Var
import VersatileEngine.Lib.Dict

/-!
# VersatileEngine.Service.Subscribe

The bookkeeping of `subscribe_service.cpp`: the services on one root keep their entries for each
session and share the counts of a registry.

* `Subscribers.step`  — `subscribe`, `unsubscribe`, `removeSession` and `stop` of one of the services.
  Whether `subscribe` gets a target node is a part of the call, so every tree is covered.
* `removeCounts_spec` — taking back the counts of a list of entries.
* `counts_match`      — after any calls the count of a path is the number of its entries, and there is
  none when there are no entries; no count was ever missed.
-/

namespace VersatileEngine

/-- `normalizePath`: without the slashes in front and behind. -/
def normalizePath (path : Str) : Str :=
  ((path.dropWhile (· = 47)).reverse.dropWhile (· = 47)).reverse

structure SubEntry where
  path : Str
  bubble : Bool
  tree : Bool

/-- `SharedRegistry`. `missed` counts the calls of `removeCount` that found no count for the path. -/
structure SharedRegistry where
  counts : List (Str × Nat)
  missed : Nat

structure SubscribeService where
  sessions : List (UInt64 × List SubEntry)

/-- The services on one root. -/
structure Subscribers where
  shared : SharedRegistry
  services : List SubscribeService

inductive Subscribers.Act where
  | subscribe (service : Nat) (session : UInt64) (path : Str) (bubble tree target : Bool)
  | unsubscribe (service : Nat) (session : UInt64) (path : Str)
  | removeSession (service : Nat) (session : UInt64)
  | stop (service : Nat)

namespace SharedRegistry

def addCount (r : SharedRegistry) (path : Str) : SharedRegistry :=
  { r with counts := assign r.counts path ((r.counts.lookup path).getD 0 + 1) }

def removeCount (r : SharedRegistry) (path : Str) : SharedRegistry :=
  match r.counts.lookup path with
  | none => { r with missed := r.missed + 1 }
  | some c =>
    if c > 1 then { r with counts := assign r.counts path (c - 1) }
    else { r with counts := unassign r.counts path }

/-- `removeCount` for one entry after the other. -/
def removeCounts (r : SharedRegistry) (entries : List SubEntry) : SharedRegistry :=
  entries.foldl (fun r e => r.removeCount e.path) r

def getSubscriberCount (r : SharedRegistry) (path : Str) : Nat :=
  (r.counts.lookup (normalizePath path)).getD 0

end SharedRegistry

namespace SubscribeService

/-- The entries of a session; a session that is not there has none. -/
def entries (v : SubscribeService) (session : UInt64) : List SubEntry :=
  (v.sessions.lookup session).getD []

def allEntries (v : SubscribeService) : List SubEntry := v.sessions.flatMap Prod.snd

def stop (v : SubscribeService) (r : SharedRegistry) : SubscribeService × SharedRegistry :=
  (⟨[]⟩, r.removeCounts v.allEntries)

def subscribe (v : SubscribeService) (r : SharedRegistry) (session : UInt64) (path : Str)
    (bubble tree target : Bool) : SubscribeService × SharedRegistry :=
  let normalized := normalizePath path
  if target then
    (⟨assign v.sessions session (v.entries session ++ [⟨normalized, bubble, tree⟩])⟩,
      r.addCount normalized)
  else (v, r)

def unsubscribe (v : SubscribeService) (r : SharedRegistry) (session : UInt64) (path : Str) :
    SubscribeService × SharedRegistry :=
  let normalized := normalizePath path
  match v.sessions.lookup session with
  | none => (v, r)
  | some es =>
    let kept := es.filter fun e => e.path ≠ normalized
    let sessions := assign v.sessions session kept
    (⟨if kept = [] then unassign sessions session else sessions⟩,
      r.removeCounts (es.filter fun e => e.path = normalized))

def removeSession (v : SubscribeService) (r : SharedRegistry) (session : UInt64) :
    SubscribeService × SharedRegistry :=
  (⟨unassign v.sessions session⟩, r.removeCounts (v.entries session))

end SubscribeService

namespace Subscribers

/-- `n` services on a root, before any call. -/
def opened (n : Nat) : Subscribers := ⟨⟨[], 0⟩, List.replicate n ⟨[]⟩⟩

def onService (s : Subscribers) (i : Nat)
    (f : SubscribeService → SharedRegistry → SubscribeService × SharedRegistry) : Subscribers :=
  match s.services[i]? with
  | none => s
  | some v => ⟨(f v s.shared).2, s.services.set i (f v s.shared).1⟩

def step (s : Subscribers) : Act → Subscribers
  | .subscribe i session path bubble tree target =>
    s.onService i fun v r => v.subscribe r session path bubble tree target
  | .unsubscribe i session path => s.onService i fun v r => v.unsubscribe r session path
  | .removeSession i session => s.onService i fun v r => v.removeSession r session
  | .stop i => s.onService i fun v r => v.stop r

def run (s : Subscribers) (acts : List Act) : Subscribers := acts.foldl step s

/-- The live entries with the path `p`, over all services and sessions. -/
def live (s : Subscribers) (p : Str) : Nat :=
  ((s.services.flatMap SubscribeService.allEntries).filter fun e => e.path = p).length

end Subscribers

/-! ### Spellings -/

theorem dropSlashes_eq_self {l : Str} : l.dropWhile (· = 47) = l ↔ l.head? ≠ some 47 := by
  cases l with
  | nil => simp
  | cons c l =>
    have hlen := (List.dropWhile_suffix (l := l) (· = 47)).length_le
    by_cases hc : c = 47
    · subst hc
      refine iff_of_false (fun h => ?_) (fun h => h rfl)
      have := congrArg List.length h
      rw [List.dropWhile_cons_of_pos (by simp), List.length_cons] at this
      omega
    · rw [List.dropWhile_cons_of_neg (by simpa using hc)]
      simpa using hc

theorem normalizePath_eq_self {path : Str} :
    normalizePath path = path ↔ path.head? ≠ some 47 ∧ path.getLast? ≠ some 47 := by
  rw [← dropSlashes_eq_self, ← List.head?_reverse, ← dropSlashes_eq_self]
  constructor
  · intro h
    have hfront := List.dropWhile_suffix (l := path) (· = 47)
    have hback := List.dropWhile_suffix (l := (path.dropWhile (· = 47)).reverse) (· = 47)
    have hlen := congrArg List.length h
    simp only [normalizePath, List.length_reverse] at hlen
    have hle := hback.length_le
    rw [List.length_reverse] at hle
    have hsame := hfront.eq_of_length (Nat.le_antisymm hfront.length_le (by omega))
    rw [normalizePath, hsame, List.reverse_eq_iff] at h
    exact ⟨hsame, h⟩
  · rintro ⟨h, h'⟩
    rw [normalizePath, h, h', List.reverse_reverse]

/-! ### Counts of a list of entries -/

/-- How many of the entries have the path `p`. -/
def withPath (p : Str) (es : List SubEntry) : Nat := es.countP fun e => e.path = p

theorem withPath_append (p : Str) (es es' : List SubEntry) :
    withPath p (es ++ es') = withPath p es + withPath p es' := List.countP_append

/-- The count that a registry shows for `n` entries. -/
def shown (n : Nat) : Option Nat := if n = 0 then none else some n

namespace SharedRegistry

/-- The registry shows the counts `f`, and no count was missed. -/
def Shows (r : SharedRegistry) (f : Str → Nat) : Prop :=
  (∀ p, r.counts.lookup p = shown (f p)) ∧ r.missed = 0

theorem Shows.congr {r : SharedRegistry} {f g : Str → Nat} (h : r.Shows f) (he : ∀ p, f p = g p) :
    r.Shows g := funext he ▸ h

theorem addCount_spec {r : SharedRegistry} {f : Str → Nat} (h : r.Shows f) (path : Str) :
    (r.addCount path).Shows fun p => f p + if path = p then 1 else 0 := by
  refine ⟨fun p => ?_, h.2⟩
  simp only [addCount, lookup_assign, h.1]
  by_cases hp : p = path
  · subst hp
    by_cases h0 : f p = 0 <;> simp [shown, h0]
  · rw [if_neg hp, if_neg (Ne.symm hp), Nat.add_zero]

theorem removeCount_spec {r : SharedRegistry} {f : Str → Nat} (h : r.Shows f) {path : Str}
    (hpos : 0 < f path) : (r.removeCount path).Shows fun p => f p - if path = p then 1 else 0 := by
  have hc : r.counts.lookup path = some (f path) := by
    rw [h.1, shown, if_neg (by omega)]
  simp only [removeCount, hc]
  by_cases h1 : f path > 1
  · rw [if_pos h1]
    refine ⟨fun p => ?_, h.2⟩
    simp only [lookup_assign]
    by_cases hp : p = path
    · subst hp
      simp only [if_true, shown, if_neg (show ¬ f p - 1 = 0 by omega)]
    · rw [if_neg hp, if_neg (Ne.symm hp)]
      exact h.1 p
  · rw [if_neg h1]
    refine ⟨fun p => ?_, h.2⟩
    simp only [lookup_unassign]
    by_cases hp : p = path
    · subst hp
      simp only [if_true, shown, if_pos (show f p - 1 = 0 by omega)]
    · rw [if_neg hp, if_neg (Ne.symm hp)]
      exact h.1 p

/-- Taking back the counts of entries that are all counted leaves the counts of the others. -/
theorem removeCounts_spec {es : List SubEntry} : ∀ {r : SharedRegistry} {f : Str → Nat}, r.Shows f →
    (∀ p, withPath p es ≤ f p) → (r.removeCounts es).Shows fun p => f p - withPath p es := by
  induction es with
  | nil => exact fun h _ => h
  | cons e es ih =>
    intro r f h hle
    have hcons : ∀ p, withPath p (e :: es) = withPath p es + if e.path = p then 1 else 0 := by
      intro p
      rw [withPath, List.countP_cons, withPath]
      simp only [decide_eq_true_eq]
    have hpos : 0 < f e.path := by
      have := hle e.path
      rw [hcons, if_pos rfl] at this
      omega
    have hrest := ih (removeCount_spec h hpos) fun p => by
      have := hle p
      rw [hcons] at this
      omega
    refine hrest.congr fun p => ?_
    rw [hcons]
    omega

end SharedRegistry

/-! ### One call of a service -/

namespace SubscribeService

/-- The entries of a service with the path `p`. -/
def liveAt (v : SubscribeService) (p : Str) : Nat := withPath p v.allEntries

theorem liveAt_eq_total (v : SubscribeService) (p : Str) :
    v.liveAt p = total (withPath p) v.sessions := by
  obtain ⟨sessions⟩ := v
  induction sessions with
  | nil => rfl
  | cons q sessions ih =>
    have ih : withPath p (sessions.flatMap Prod.snd) = total (withPath p) sessions := ih
    rw [liveAt, allEntries, List.flatMap_cons, withPath_append, ih]
    rfl

theorem withPath_entries (v : SubscribeService) (session : UInt64) (p : Str) :
    withPath p (v.entries session) = ((v.sessions.lookup session).map (withPath p)).getD 0 := by
  rw [entries]
  cases v.sessions.lookup session <;> rfl

/-- The sessions of a service are kept by distinct numbers. -/
def Keyed (v : SubscribeService) : Prop := (v.sessions.map Prod.fst).Nodup

/-- What a call does to the number of entries of its service, it does to the counts. -/
def Balanced (f : SubscribeService → SharedRegistry → SubscribeService × SharedRegistry) : Prop :=
  ∀ (v : SubscribeService) (r : SharedRegistry) (others : Str → Nat), v.Keyed →
    r.Shows (fun p => v.liveAt p + others p) →
    (f v r).1.Keyed ∧ (f v r).2.Shows fun p => (f v r).1.liveAt p + others p

theorem subscribe_balanced (session : UInt64) (path : Str) (bubble tree target : Bool) :
    Balanced fun v r => v.subscribe r session path bubble tree target := by
  intro v r others hk h
  cases target with
  | false => exact ⟨hk, h⟩
  | true =>
    refine ⟨assign_nodup hk, ?_⟩
    have hadd := SharedRegistry.addCount_spec h (normalizePath path)
    refine hadd.congr fun p => ?_
    have hsum := total_assign (withPath p) v.sessions session
      (v.entries session ++ [⟨normalizePath path, bubble, tree⟩])
    rw [← withPath_entries, withPath_append] at hsum
    have hone : withPath p [(⟨normalizePath path, bubble, tree⟩ : SubEntry)] =
        if normalizePath path = p then 1 else 0 := by
      rw [withPath, List.countP_singleton]
      simp only [decide_eq_true_eq]
    simp only [subscribe, if_true, liveAt_eq_total] at hsum ⊢
    omega

theorem stop_balanced : Balanced fun v r => v.stop r := by
  intro v r others _ h
  refine ⟨List.nodup_nil, ?_⟩
  have hrem := @SharedRegistry.removeCounts_spec v.allEntries _ _ h fun p => Nat.le_add_right _ _
  refine hrem.congr fun p => ?_
  have hnil : (v.stop r).1.liveAt p = 0 := rfl
  have hall : withPath p v.allEntries = v.liveAt p := rfl
  simp only [hnil, hall]
  omega

theorem removeSession_balanced (session : UInt64) : Balanced fun v r => v.removeSession r session := by
  intro v r others hk h
  refine ⟨unassign_nodup session hk, ?_⟩
  have hsum : ∀ p, (v.removeSession r session).1.liveAt p + withPath p (v.entries session) =
      v.liveAt p := by
    intro p
    rw [liveAt_eq_total, liveAt_eq_total, withPath_entries]
    exact total_unassign (withPath p) session hk
  have hrem := @SharedRegistry.removeCounts_spec (v.entries session) _ _ h fun p => by
    have := hsum p
    omega
  refine hrem.congr fun p => ?_
  show _ = (v.removeSession r session).1.liveAt p + others p
  have := hsum p
  omega

theorem unsubscribe_sessions {v : SubscribeService} {r : SharedRegistry} {session : UInt64} {path : Str}
    {es : List SubEntry} (hl : v.sessions.lookup session = some es) (hk : v.Keyed) :
    (v.unsubscribe r session path).1.Keyed ∧ ∀ p, (v.unsubscribe r session path).1.liveAt p +
      withPath p (es.filter fun e => e.path = normalizePath path) = v.liveAt p := by
  have hparts : ∀ p, withPath p es = withPath p (es.filter fun e => e.path ≠ normalizePath path) +
      withPath p (es.filter fun e => e.path = normalizePath path) := by
    intro p
    simp only [withPath, List.countP_eq_countP_filter_add es _ fun e => e.path = normalizePath path]
    simp only [decide_not]
    omega
  have hkept := assign_nodup (k := session)
    (v := es.filter fun e => e.path ≠ normalizePath path) hk
  have hsum : ∀ p, total (withPath p) (assign v.sessions session
      (es.filter fun e => e.path ≠ normalizePath path)) +
      withPath p (es.filter fun e => e.path = normalizePath path) = v.liveAt p := by
    intro p
    have := total_assign (withPath p) v.sessions session
      (es.filter fun e => e.path ≠ normalizePath path)
    rw [hl, Option.map_some, Option.getD_some, hparts] at this
    rw [liveAt_eq_total]
    omega
  simp only [unsubscribe, hl]
  split_ifs with hnil
  · refine ⟨unassign_nodup session hkept, fun p => ?_⟩
    have := total_unassign (withPath p) session hkept
    rw [lookup_assign, if_pos rfl, Option.map_some, Option.getD_some, hnil] at this
    rw [← hsum p, liveAt_eq_total, hnil]
    simpa [withPath] using this
  · refine ⟨hkept, fun p => ?_⟩
    rw [← hsum p, liveAt_eq_total]

theorem unsubscribe_balanced (session : UInt64) (path : Str) :
    Balanced fun v r => v.unsubscribe r session path := by
  intro v r others hk h
  cases hl : v.sessions.lookup session with
  | none => simpa only [unsubscribe, hl] using ⟨hk, h⟩
  | some es =>
    obtain ⟨hkeyed, hsum⟩ := @unsubscribe_sessions v r session path es hl hk
    have hrem := @SharedRegistry.removeCounts_spec
      (es.filter fun e => e.path = normalizePath path) _ _ h fun p => by
        have := hsum p
        omega
    have hr : (v.unsubscribe r session path).2 =
        r.removeCounts (es.filter fun e => e.path = normalizePath path) := by
      simp only [unsubscribe, hl]
    refine ⟨hkeyed, ?_⟩
    simp only [hr]
    refine hrem.congr fun p => ?_
    have := hsum p
    omega

end SubscribeService

/-! ### All services -/

namespace Subscribers

/-- The entries with the path `p`, service by service. -/
def liveSum (services : List SubscribeService) (p : Str) : Nat :=
  (services.map fun v => v.liveAt p).sum

theorem live_eq_sum (s : Subscribers) (p : Str) : s.live p = liveSum s.services p := by
  obtain ⟨shared, services⟩ := s
  show ((services.flatMap SubscribeService.allEntries).filter fun e => e.path = p).length = _
  rw [← List.countP_eq_length_filter, List.countP_flatMap]
  rfl

theorem liveSum_set {services : List SubscribeService} {i : Nat} {v : SubscribeService}
    (h : services[i]? = some v) (p : Str) : ∃ others, liveSum services p = v.liveAt p + others ∧
      ∀ w : SubscribeService, liveSum (services.set i w) p = w.liveAt p + others := by
  obtain ⟨hi, rfl⟩ := List.getElem?_eq_some_iff.mp h
  refine ⟨liveSum (services.take i) p + liveSum (services.drop (i + 1)) p, ?_, fun w => ?_⟩
  · conv_lhs => rw [← List.take_append_drop i services, List.drop_eq_getElem_cons hi]
    simp only [liveSum, List.map_append, List.map_cons, List.sum_append, List.sum_cons]
    omega
  · rw [List.set_eq_take_append_cons_drop, if_pos hi]
    simp only [liveSum, List.map_append, List.map_cons, List.sum_append, List.sum_cons]
    omega

/-- The registry shows how many entries there are. -/
structure Inv (s : Subscribers) : Prop where
  keyed : ∀ v ∈ s.services, v.Keyed
  counted : s.shared.Shows (liveSum s.services)

theorem onService_inv {f : SubscribeService → SharedRegistry → SubscribeService × SharedRegistry}
    (hf : SubscribeService.Balanced f) {s : Subscribers} (hs : Inv s) (i : Nat) :
    Inv (s.onService i f) := by
  cases hv : s.services[i]? with
  | none => simpa only [onService, hv] using hs
  | some v =>
    have hothers := fun p => liveSum_set hv p
    choose others hsum hset using hothers
    have hshows : s.shared.Shows fun p => v.liveAt p + others p := hs.counted.congr hsum
    obtain ⟨hk, hnew⟩ := hf v s.shared others (hs.keyed v (List.mem_of_getElem? hv)) hshows
    simp only [onService, hv]
    constructor
    · intro w hw
      rcases List.mem_or_eq_of_mem_set hw with hw | rfl
      · exact hs.keyed w hw
      · exact hk
    · exact hnew.congr fun p => (hset p _).symm

theorem step_inv {s : Subscribers} (hs : Inv s) (a : Act) : Inv (s.step a) := by
  cases a with
  | subscribe i session path bubble tree target =>
    exact onService_inv (SubscribeService.subscribe_balanced session path bubble tree target) hs i
  | unsubscribe i session path =>
    exact onService_inv (SubscribeService.unsubscribe_balanced session path) hs i
  | removeSession i session =>
    exact onService_inv (SubscribeService.removeSession_balanced session) hs i
  | stop i => exact onService_inv SubscribeService.stop_balanced hs i

theorem opened_inv (n : Nat) : Inv (opened n) := by
  have hzero : ∀ p, liveSum (opened n).services p = 0 := by
    intro p
    simp [liveSum, opened, SubscribeService.liveAt, SubscribeService.allEntries, withPath]
  constructor
  · intro v hv
    rw [List.eq_of_mem_replicate hv]
    exact List.nodup_nil
  · refine ⟨fun p => ?_, rfl⟩
    rw [hzero]
    rfl

theorem run_inv {s : Subscribers} (hs : Inv s) (acts : List Act) : Inv (s.run acts) := by
  induction acts generalizing s with
  | nil => exact hs
  | cons a acts ih => exact ih (step_inv hs a)

/-- **The count of a path is the number of its live entries**, over all services and sessions, and
absent when there are none. No call takes back a count that is not there. -/
theorem counts_match (n : Nat) (acts : List Act) :
    let s := (opened n).run acts
    (∀ p, s.shared.counts.lookup p = if s.live p = 0 then none else some (s.live p)) ∧
      (∀ path, s.shared.getSubscriberCount path = s.live (normalizePath path)) ∧
      s.shared.missed = 0 := by
  intro s
  have hinv : Inv s := run_inv (opened_inv n) acts
  have hcounts : ∀ p, s.shared.counts.lookup p = if s.live p = 0 then none else some (s.live p) := by
    intro p
    rw [hinv.counted.1, live_eq_sum]
    rfl
  refine ⟨hcounts, fun path => ?_, hinv.counted.2⟩
  rw [SharedRegistry.getSubscriberCount, hcounts]
  split_ifs with h0
  · exact h0.symm
  · rfl

end Subscribers

end VersatileEngine
