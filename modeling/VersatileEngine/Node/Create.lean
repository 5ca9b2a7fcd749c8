import VersatileEngine.Node.Acyclic

/-!
# VersatileEngine.Node.Create

`at(path)` on a forest: the lookup of `find`, and the creation of what it does not find.

* `ensureIndex`, `ensureName`, `ensureKey` — `atKey`: a new node goes below the receiver, never below
  its shadow.
* `ensurePath`  — `atPath`; the node is `none` where the code returns a null pointer.
* `makes_ensurePath` — it is a run of primitive operations that insert fresh nodes only.
-/

namespace VersatileEngine

namespace Forest

/-- `Node::atKey(int, bool)`. -/
def ensureIndex (f : Forest) (k : Nat) (this : Id) (index : Int) (useShadow : Bool) :
    Option (Forest × Option Id) :=
  (f.atIndex k this index useShadow).map fun
    | some cn => (f, some cn)
    | none =>
      if index < 0 then (f, none)
      else
        let r := f.append this [] (index - f.count this)
        if r.2 = none then (r.1, none) else (r.1, r.1.child this index)

/-- `Node::atKey(name, overlap, bool)`. -/
def ensureName (f : Forest) (k : Nat) (this : Id) (name : Str) (overlap : Int) (useShadow : Bool) :
    Option (Forest × Option Id) :=
  (f.atName k this name overlap useShadow).map fun
    | some cn => (f, some cn)
    | none =>
      if overlap < 0 then (f, none)
      else
        let r := f.append this name (overlap - f.countNamed this name)
        if r.2 = none then (r.1, none) else (r.1, r.1.childNamed this name overlap)

/-- `Node::atKey(key, bool)`. -/
def ensureKey (f : Forest) (k : Nat) (this : Id) (key : Str) (useShadow : Bool) :
    Option (Forest × Option Id) :=
  match parseKey keySep key with
  | none => some (f, none)
  | some (nm, idx) =>
    if nm = [] ∧ 0 ≤ idx then f.ensureIndex k this idx useShadow
    else f.ensureName k this nm idx useShadow

/-- The loop of `atPath` over the segments. -/
def ensureSegments (k : Nat) (useShadow : Bool) : Forest → Option Id → List Str →
    Option (Forest × Option Id)
  | f, cur, [] => some (f, cur)
  | f, none, _ :: _ => some (f, none)
  | f, some cur, seg :: segs =>
    if seg = [] then ensureSegments k useShadow f (some cur) segs
    else (f.ensureKey k cur seg useShadow).bind fun r => ensureSegments k useShadow r.1 r.2 segs

/-- `Node::atPath(path, bool)`. -/
def ensurePath (f : Forest) (k : Nat) (this : Id) (path : Str) (useShadow : Bool) :
    Option (Forest × Option Id) :=
  match path with
  | [] => some (f, some this)
  | c :: rest =>
    if c = pathSep then
      (f.root k this).bind fun r =>
        if rest = [] then some (f, some r) else f.ensureSegments k useShadow (some r) (rest.splitOn pathSep)
    else f.ensureSegments k useShadow (some this) ((c :: rest).splitOn pathSep)

section Reach

variable {f f' : Forest} {k : Nat} {this n : Id} {s : Bool}

theorem orShadow_some {look : Id → Option Id} (h : f.orShadow look k this s = some (some n)) :
    ∃ m, look m = some n := by
  induction k generalizing this s with
  | zero => cases h
  | succ k ih =>
    rw [orShadow] at h
    split at h
    · next cn hl =>
      cases h
      exact ⟨this, hl⟩
    · split_ifs at h
      · split at h
        · exact ih h
        · cases h
      · cases h

/-- Climbing ends after fresh insertions, if it did before. -/
theorem Reaches.rooted (h : Inv f) (hr : ∀ n, Rooted f.parent n) (hreach : Reaches f f') :
    ∀ n, Rooted f'.parent n := by
  obtain ⟨ops, hrun⟩ := hreach
  refine (hrun.invariant (I := fun f => Inv f ∧ ∀ n, Rooted f.parent n) (fun {g op g'} hg hs => ?_) ⟨h, hr⟩).2
  have ho := hs.1.orderly hg.1
  exact ⟨hg.1.fresh_step hs, rooted_step hg.1 hg.2 ho.places ho.apart hs.1.primitive hs.2⟩

/-- What a lookup that creates leads to: fresh insertions, and a live node. -/
def Makes (f : Forest) (r : Forest × Option Id) : Prop :=
  Reaches f r.1 ∧ ∀ n, r.2 = some n → r.1.live n = true

theorem makes_ensureIndex (h : Inv f) (ht : f.live this = true) {index : Int} {r : Forest × Option Id}
    (hr : f.ensureIndex k this index s = some r) : Makes f r := by
  obtain ⟨r', hat, rfl⟩ := Option.map_eq_some_iff.mp hr
  cases r' with
  | some cn =>
    obtain ⟨m, hm⟩ := orShadow_some hat
    refine ⟨.refl f, fun n hn => ?_⟩
    cases hn
    exact (h.live (child_mem hm)).2
  | none =>
    simp only
    split_ifs with hneg hnull
    · exact ⟨.refl f, nofun⟩
    · exact ⟨reaches_append h ht _ _, nofun⟩
    · have hreach := reaches_append h ht [] (index - f.count this)
      exact ⟨hreach, fun n hn => ((hreach.inv h).live (child_mem hn)).2⟩

theorem makes_ensureName (h : Inv f) (ht : f.live this = true) {nm : Str} {overlap : Int}
    {r : Forest × Option Id} (hr : f.ensureName k this nm overlap s = some r) : Makes f r := by
  obtain ⟨r', hat, rfl⟩ := Option.map_eq_some_iff.mp hr
  cases r' with
  | some cn =>
    obtain ⟨m, hm⟩ := orShadow_some hat
    refine ⟨.refl f, fun n hn => ?_⟩
    cases hn
    exact (h.live (childNamed_mem hm)).2
  | none =>
    simp only
    split_ifs with hneg hnull
    · exact ⟨.refl f, nofun⟩
    · exact ⟨reaches_append h ht _ _, nofun⟩
    · have hreach := reaches_append h ht nm (overlap - f.countNamed this nm)
      exact ⟨hreach, fun n hn => ((hreach.inv h).live (childNamed_mem hn)).2⟩

theorem makes_ensureKey (h : Inv f) (ht : f.live this = true) {key : Str} {r : Forest × Option Id}
    (hr : f.ensureKey k this key s = some r) : Makes f r := by
  rw [ensureKey] at hr
  split at hr
  · cases hr
    exact ⟨.refl f, nofun⟩
  · split_ifs at hr
    · exact makes_ensureIndex h ht hr
    · exact makes_ensureName h ht hr

theorem makes_ensureSegments {segs : List Str} : ∀ {f : Forest} {cur : Option Id} {r : Forest × Option Id},
    Inv f → (∀ n, cur = some n → f.live n = true) → f.ensureSegments k s cur segs = some r → Makes f r := by
  induction segs with
  | nil =>
    intro f cur r _ hcur hr
    cases hr
    exact ⟨.refl f, hcur⟩
  | cons seg segs ih =>
    intro f cur r h hcur hr
    cases cur with
    | none =>
      cases hr
      exact ⟨.refl f, nofun⟩
    | some cur =>
      rw [ensureSegments] at hr
      split_ifs at hr
      · exact ih h hcur hr
      · obtain ⟨r₁, hkey, hr⟩ := Option.bind_eq_some_iff.mp hr
        have hmakes := makes_ensureKey h (hcur cur rfl) hkey
        obtain ⟨hreach, hn⟩ := ih (hmakes.1.inv h) hmakes.2 hr
        exact ⟨hmakes.1.trans hreach, hn⟩

theorem live_root (h : Inv f) (ht : f.live this = true) (hr : f.root k this = some n) :
    f.live n = true := by
  induction k generalizing this with
  | zero => cases hr
  | succ k ih =>
    rw [root] at hr
    split at hr
    · next p hp => exact ih (h.live (h.mem_iff.mp hp)).1 hr
    · cases hr
      exact ht

theorem live_atKey (h : Inv f) {key : Str} (hr : f.atKey k this key s = some (some n)) : f.live n = true := by
  rw [atKey] at hr
  split at hr
  · cases hr
  · split at hr
    · obtain ⟨m, hm⟩ := orShadow_some hr
      exact (h.live (child_mem hm)).2
    · obtain ⟨m, hm⟩ := orShadow_some hr
      exact (h.live (childNamed_mem hm)).2

theorem live_descend (h : Inv f) {segs : List Str} : ∀ {cur : Option Id}, (∀ m, cur = some m → f.live m = true) →
    f.descend k s cur segs = some (some n) → f.live n = true := by
  induction segs with
  | nil =>
    intro cur hcur hr
    cases hr
    exact hcur n rfl
  | cons seg segs ih =>
    intro cur hcur hr
    cases cur with
    | none => cases hr
    | some cur =>
      rw [descend] at hr
      split_ifs at hr
      · exact ih hcur hr
      · obtain ⟨next, hkey, hr⟩ := Option.bind_eq_some_iff.mp hr
        exact ih (fun m hm => live_atKey h (hm ▸ hkey)) hr

/-- What `find` finds is live. -/
theorem live_atPath (h : Inv f) (ht : f.live this = true) {path : Str}
    (hr : f.atPath k this path s = some (some n)) : f.live n = true := by
  have hsome : ∀ m, f.live m = true → ∀ n, some m = some n → f.live n = true := by
    rintro m hm n ⟨⟩
    exact hm
  cases path with
  | nil =>
    cases hr
    exact ht
  | cons c rest =>
    rw [atPath] at hr
    split_ifs at hr
    · obtain ⟨top, htop, hr⟩ := Option.bind_eq_some_iff.mp hr
      cases hr
      exact live_root h ht htop
    · obtain ⟨top, htop, hr⟩ := Option.bind_eq_some_iff.mp hr
      exact live_descend h (hsome top (live_root h ht htop)) hr
    · exact live_descend h (hsome this ht) hr

/-- **`at(path)` inserts fresh nodes and nothing else**, and the node it leads to is live. -/
theorem makes_ensurePath (h : Inv f) (ht : f.live this = true) {path : Str} {r : Forest × Option Id}
    (hr : f.ensurePath k this path s = some r) : Makes f r := by
  have hsome : ∀ m, f.live m = true → ∀ n, some m = some n → f.live n = true := by
    rintro m hm n ⟨⟩
    exact hm
  cases path with
  | nil =>
    cases hr
    exact ⟨.refl f, hsome this ht⟩
  | cons c rest =>
    rw [ensurePath] at hr
    split_ifs at hr
    · obtain ⟨top, htop, hr⟩ := Option.bind_eq_some_iff.mp hr
      cases hr
      exact ⟨.refl f, hsome top (live_root h ht htop)⟩
    · obtain ⟨top, htop, hr⟩ := Option.bind_eq_some_iff.mp hr
      exact makes_ensureSegments h (hsome top (live_root h ht htop)) hr
    · exact makes_ensureSegments h (hsome this ht) hr

end Reach

end Forest

end VersatileEngine
