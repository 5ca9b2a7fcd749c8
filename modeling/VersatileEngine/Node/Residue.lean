import VersatileEngine.Node.Appended

/-!
# VersatileEngine.Node.Residue

What a call of `at(path)` that returns a null pointer leaves behind.

* `Extends`        — nodes came, at the end of child lists; everything that was there is as before.
* `lookupKey`      — the lookup that `atKey` starts with.
* `Creatable`      — the keys that `atKey` creates a node for.
* `ensureKey_cases` — found, refused or created.
* `ensure_null`    — the nodes for the segments before the refused one stay.
-/

namespace VersatileEngine

/-- A key that names a child by its place: `atKey` creates it where it is missing. -/
def Creatable (key : Str) : Prop := ∃ nm idx, parseKey keySep key = some (nm, idx) ∧ 0 ≤ idx

namespace Forest

/-- Every node of `f` is in `f'` with the same data, and its children are still the first ones. -/
structure Extends (f f' : Forest) : Prop where
  live : ∀ m, f.live m = true → f'.live m = true
  same : ∀ m, f.live m = true → f'.node m = { f.node m with children := (f'.node m).children }
  nodes : ∀ m, f.live m = true → f.nodes m <+: f'.nodes m

/-- The lookup in `Node::atKey(key, bool)`. -/
def lookupKey (f : Forest) (k : Nat) (this : Id) (key : Str) (useShadow : Bool) : Option (Option Id) :=
  match parseKey keySep key with
  | none => some none
  | some (nm, idx) =>
    if nm = [] ∧ 0 ≤ idx then f.atIndex k this idx useShadow else f.atName k this nm idx useShadow

/-- The walk of `atPath` with the lookups only. -/
def lookup (f : Forest) (k : Nat) (useShadow : Bool) : Option Id → List Str → Option (Option Id)
  | cur, [] => some cur
  | none, _ :: _ => some none
  | some cur, seg :: segs =>
    if seg = [] then lookup f k useShadow (some cur) segs
    else (f.lookupKey k cur seg useShadow).bind fun cur => lookup f k useShadow cur segs

/-- Where the walk of `atPath` starts, and its segments. -/
def walkStart (f : Forest) (k : Nat) (this : Id) (path : Str) : Option (Id × List Str) :=
  match path with
  | [] => some (this, [])
  | c :: rest =>
    if c = pathSep then (f.root k this).map fun top => (top, if rest = [] then [] else rest.splitOn pathSep)
    else some (this, (c :: rest).splitOn pathSep)

section Extends

variable {f g h : Forest} {this : Id} {nm : Str} {new : List Id}

theorem Extends.refl (f : Forest) : Extends f f :=
  ⟨fun _ hm => hm, fun _ _ => rfl, fun _ _ => List.prefix_refl _⟩

theorem Extends.trans (h₁ : Extends f g) (h₂ : Extends g h) : Extends f h := by
  refine ⟨fun m hm => h₂.live m (h₁.live m hm), fun m hm => ?_,
    fun m hm => (h₁.nodes m hm).trans (h₂.nodes m (h₁.live m hm))⟩
  rw [h₂.same m (h₁.live m hm), h₁.same m hm]

theorem Appended.extends (ha : Appended f g this nm new) : Extends f g := by
  have hold : ∀ m, f.live m = true → m ∉ new := fun m hm hnew => by
    rw [(ha.fresh m hnew).1] at hm
    cases hm
  refine ⟨fun m hm => by rw [ha.live, hm, Bool.or_true], fun m hm => ?_, fun m hm => ?_⟩
  · by_cases hmt : m = this
    · obtain ⟨ch, hch⟩ := ha.receiver
      rw [hmt, hch]
    · rw [ha.others m (hold m hm) hmt]
  · by_cases hmt : m = this
    · rw [hmt, ha.nodes]
      exact List.prefix_append _ _
    · have hsame : g.nodes m = f.nodes m := by
        rw [Forest.nodes, Forest.nodes, Forest.kids, Forest.kids, ha.others m (hold m hm) hmt]
      exact hsame ▸ List.prefix_refl _

/-- Something came: nothing that follows takes it away. -/
theorem Appended.moved (ha : Appended f g this nm new) (hne : new ≠ []) (he : Extends g h) : h ≠ f := by
  obtain ⟨c, cs, rfl⟩ := List.exists_cons_of_ne_nil hne
  have hc : g.live c = true := by
    rw [ha.live]
    simp
  rintro rfl
  have hlive := he.live c hc
  rw [(ha.fresh c (by simp)).1] at hlive
  cases hlive

end Extends

section Walk

variable {f f' : Forest} {k : Nat} {this m : Id} {s : Bool} {key : Str}

theorem orShadow_none {look : Id → Option Id} (h : f.orShadow look k this s = some none) : look this = none := by
  cases k with
  | zero => cases h
  | succ k =>
    rw [orShadow] at h
    split at h
    · cases h
    · next hl => exact hl

theorem ensureName_cases (h : Inv f) (ht : f.live this = true) {nm : Str} {idx : Int} {r : Forest × Option Id}
    (hr : f.ensureName k this nm idx s = some r) :
    (∃ cn, f.atName k this nm idx s = some (some cn) ∧ r = (f, some cn)) ∨
    (f.atName k this nm idx s = some none ∧ idx < 0 ∧ r = (f, none)) ∨
    (f.atName k this nm idx s = some none ∧ 0 ≤ idx ∧
      ∃ c new, r.2 = some c ∧ Appended f r.1 this nm new ∧ new ≠ []) := by
  obtain ⟨found, hat, rfl⟩ := Option.map_eq_some_iff.mp hr
  cases found with
  | some cn => exact .inl ⟨cn, hat, rfl⟩
  | none =>
    right
    by_cases hneg : idx < 0
    · exact .inl ⟨hat, hneg, by simp only [if_pos hneg]⟩
    · obtain ⟨n, rfl⟩ := Int.eq_ofNat_of_zero_le (show 0 ≤ idx by omega)
      obtain ⟨g, c, new, hnew, rfl, hc, happ, hne, -⟩ := append_missing h ht (orShadow_none hat)
      refine .inr ⟨hat, by omega, c, new, ?_, ?_, hne⟩
      · simp only [if_neg hneg, if_neg hnew]
        exact hc
      · simp only [if_neg hneg, if_neg hnew]
        exact happ

/-- One segment is found, or refused, or created. -/
theorem ensureKey_cases (h : Inv f) (ht : f.live this = true) {r : Forest × Option Id}
    (hr : f.ensureKey k this key s = some r) :
    (∃ cn, f.lookupKey k this key s = some (some cn) ∧ r = (f, some cn)) ∨
    (f.lookupKey k this key s = some none ∧ ¬ Creatable key ∧ r = (f, none)) ∨
    (f.lookupKey k this key s = some none ∧ Creatable key ∧
      ∃ nm c new, r.2 = some c ∧ Appended f r.1 this nm new ∧ new ≠ []) := by
  rw [ensureKey] at hr
  rw [lookupKey]
  cases hparse : parseKey keySep key with
  | none =>
    rw [hparse] at hr
    cases hr
    refine .inr (.inl ⟨rfl, ?_, rfl⟩)
    rintro ⟨nm, idx, hp, -⟩
    rw [hparse] at hp
    cases hp
  | some p =>
    obtain ⟨nm, idx⟩ := p
    rw [hparse] at hr
    have hcase : f.ensureName k this nm idx s = some r ∧
        (if nm = [] ∧ 0 ≤ idx then f.atIndex k this idx s else f.atName k this nm idx s) =
          f.atName k this nm idx s := by
      simp only at hr
      split_ifs at hr ⊢ with hidx
      · obtain ⟨rfl, -⟩ := hidx
        rw [ensureIndex_eq] at hr
        exact ⟨hr, by simp only [atIndex, atName, childNamed, if_true]⟩
      · exact ⟨hr, rfl⟩
    have hcreate : Creatable key ↔ 0 ≤ idx := by
      constructor
      · rintro ⟨nm', idx', hp, hidx⟩
        rw [hparse] at hp
        cases hp
        exact hidx
      · exact fun hidx => ⟨nm, idx, hparse, hidx⟩
    simp only [hcase.2]
    rcases ensureName_cases h ht hcase.1 with hfound | ⟨hat, hneg, hr⟩ | ⟨hat, hpos, c, new, hc, happ, hne⟩
    · exact .inl hfound
    · exact .inr (.inl ⟨hat, fun hcr => absurd (hcreate.mp hcr) (by omega), hr⟩)
    · exact .inr (.inr ⟨hat, hcreate.mpr hpos, nm, c, new, hc, happ, hne⟩)

theorem lookup_none (f : Forest) (k : Nat) (s : Bool) (segs : List Str) : f.lookup k s none segs = some none := by
  cases segs <;> rfl

theorem ensureSegments_none (f : Forest) (k : Nat) (s : Bool) (segs : List Str) :
    ensureSegments k s f none segs = some (f, none) := by
  cases segs <;> rfl

/-- What is left of a walk that stops: a prefix walked to its end, and the segment refused there. -/
def Stopped (f : Forest) (k : Nat) (s : Bool) (cur : Id) (segs : List Str) (f' : Forest) : Prop :=
  ∃ pre bad post m, segs = pre ++ bad :: post ∧ ensureSegments k s f (some cur) pre = some (f', some m) ∧
    bad ≠ [] ∧ ¬ Creatable bad ∧ f'.lookupKey k m bad s = some none

/-- A walk extends the forest, by nothing exactly when the lookups find everything. -/
theorem ensureSegments_spec {segs : List Str} : ∀ {f : Forest} {cur : Id} {r : Forest × Option Id}, Inv f →
    f.live cur = true → ensureSegments k s f (some cur) segs = some r →
      Extends f r.1 ∧ (∀ n, r.2 = some n → (r.1 = f ↔ f.lookup k s (some cur) segs = some (some n))) ∧
        (r.2 = none → Stopped f k s cur segs r.1) := by
  induction segs with
  | nil =>
    intro f cur r h hcur hr
    cases hr
    exact ⟨Extends.refl f, fun n hn => ⟨fun _ => by rw [← hn]; rfl, fun _ => rfl⟩, fun hn => (by cases hn)⟩
  | cons seg segs ih =>
    intro f cur r h hcur hr
    rw [ensureSegments] at hr
    rw [lookup]
    split_ifs at hr ⊢ with hseg
    · obtain ⟨hext, hfound, hstop⟩ := ih h hcur hr
      refine ⟨hext, hfound, fun hn => ?_⟩
      obtain ⟨pre, bad, post, m, rfl, hpre, hbad⟩ := hstop hn
      exact ⟨seg :: pre, bad, post, m, rfl, by rw [ensureSegments, if_pos hseg]; exact hpre, hbad⟩
    · obtain ⟨r₁, hkey, hr⟩ := Option.bind_eq_some_iff.mp hr
      have hback : ∀ {cn : Id}, r₁.2 = some cn → (r.2 = none → Stopped r₁.1 k s cn segs r.1) →
          r.2 = none → Stopped f k s cur (seg :: segs) r.1 := by
        intro cn hcn hstop hn
        obtain ⟨pre, bad, post, m, rfl, hpre, hbad⟩ := hstop hn
        refine ⟨seg :: pre, bad, post, m, rfl, ?_, hbad⟩
        rw [ensureSegments, if_neg hseg, hkey, Option.bind_some, hcn]
        exact hpre
      rcases ensureKey_cases h hcur hkey with ⟨cn, hlook, rfl⟩ | ⟨hlook, hbad, rfl⟩ |
        ⟨hlook, -, nm, c, new, hc, happ, hne⟩
      · have hcn : f.live cn = true := by
          obtain ⟨-, hmade⟩ := makes_ensureKey h hcur hkey
          exact hmade cn rfl
        obtain ⟨hext, hfound, hstop⟩ := ih h hcn hr
        rw [hlook, Option.bind_some]
        exact ⟨hext, hfound, hback rfl hstop⟩
      · rw [ensureSegments_none] at hr
        cases hr
        refine ⟨Extends.refl f, fun n hn => (by cases hn), fun _ => ?_⟩
        exact ⟨[], seg, segs, cur, rfl, rfl, hseg, hbad, hlook⟩
      · rw [hc] at hr
        have hlive : r₁.1.live c = true := (makes_ensureKey h hcur hkey).2 c hc
        obtain ⟨hext, -, hstop⟩ := ih happ.inv hlive hr
        refine ⟨happ.extends.trans hext, fun n hn => ?_, hback hc hstop⟩
        rw [hlook, Option.bind_some, lookup_none]
        exact ⟨fun he => absurd he (happ.moved hne hext), fun he => (by cases he)⟩

theorem ensurePath_eq (f : Forest) (k : Nat) (this : Id) (path : Str) (s : Bool) :
    f.ensurePath k this path s =
      (f.walkStart k this path).bind fun p => ensureSegments k s f (some p.1) p.2 := by
  cases path with
  | nil => rfl
  | cons c rest =>
    rw [ensurePath, walkStart]
    split_ifs with hc hrest
    · cases f.root k this <;> rfl
    · cases f.root k this <;> rfl
    · rfl

theorem walkStart_live {top : Id} {segs : List Str} {path : Str} (h : Inv f) (ht : f.live this = true)
    (hstart : f.walkStart k this path = some (top, segs)) :
    f.live top = true := by
  cases path with
  | nil =>
    cases hstart
    exact ht
  | cons c rest =>
    rw [walkStart] at hstart
    split_ifs at hstart
    · obtain ⟨t, hroot, he⟩ := Option.map_eq_some_iff.mp hstart
      cases he
      exact live_root h ht hroot
    · obtain ⟨t, hroot, he⟩ := Option.map_eq_some_iff.mp hstart
      cases he
      exact live_root h ht hroot
    · cases hstart
      exact ht

/-- **A call of `at(path)` that returns a null pointer** leaves the forest as the walk over the segments before
the refused one leaves it. What existed is unchanged, and so is the whole forest exactly when the lookups find
all these segments. -/
theorem ensure_null (h : Inv f) (ht : f.live this = true) {path : Str}
    (hr : f.ensurePath k this path s = some (f', none)) :
    ∃ top segs pre bad post m, f.walkStart k this path = some (top, segs) ∧ segs = pre ++ bad :: post ∧
      ensureSegments k s f (some top) pre = some (f', some m) ∧ bad ≠ [] ∧ ¬ Creatable bad ∧
      f'.lookupKey k m bad s = some none ∧ Extends f f' ∧
      (f' = f ↔ f.lookup k s (some top) pre = some (some m)) := by
  rw [ensurePath_eq] at hr
  obtain ⟨⟨top, segs⟩, hstart, hwalk⟩ := Option.bind_eq_some_iff.mp hr
  have htop := walkStart_live h ht hstart
  obtain ⟨-, -, hstop⟩ := ensureSegments_spec h htop hwalk
  obtain ⟨pre, bad, post, m, hsegs, hpre, hne, hbad, hlook⟩ := hstop rfl
  obtain ⟨hext, hfound, -⟩ := ensureSegments_spec h htop hpre
  exact ⟨top, segs, pre, bad, post, m, hstart, hsegs, hpre, hne, hbad, hlook, hext, hfound m rfl⟩

theorem ensure_null_sample : ∃ f' pre bad post m, (ascii "a/#x").splitOn pathSep = pre ++ bad :: post ∧
    ensureSegments 1 true (init.newNode (ascii "r")).1 (some 0) pre = some (f', some m) ∧ ¬ Creatable bad := by
  obtain ⟨top, segs, pre, bad, post, m, hstart, hsegs, hpre, -, hbad, -⟩ :=
    ensure_null (newNode_spec inv_init (ascii "r")) (show (init.newNode (ascii "r")).1.live 0 = true from rfl)
      (show (init.newNode (ascii "r")).1.ensurePath 1 0 (ascii "a/#x") true = some (_, none) from rfl)
  have hwalk : (init.newNode (ascii "r")).1.walkStart 1 0 (ascii "a/#x") =
      some (0, (ascii "a/#x").splitOn pathSep) := rfl
  rw [hwalk] at hstart
  obtain ⟨rfl, rfl⟩ := Prod.mk.inj (Option.some.inj hstart)
  exact ⟨_, pre, bad, post, m, hsegs, hpre, hbad⟩

/-- `a/#x` on a node without children: the key `#x` is refused, the child `a` stays. -/
theorem prefix_left_behind : ∃ f', (init.newNode (ascii "r")).1.ensurePath 1 0 (ascii "a/#x") true = some (f', none) ∧
    (init.newNode (ascii "r")).1.nodes 0 = [] ∧ f'.nodes 0 = [1] :=
  ⟨_, rfl, by decide, by decide⟩

end Walk

end Forest

end VersatileEngine
