import VersatileEngine.Node.Frees
import VersatileEngine.Node.Returns

/-!
# VersatileEngine.Node.Secure

Forests on which every lookup ends, and in which what is referred to is there.

* `Secure f held`  — every climb and every chain of shadows ends; the nodes `held` from outside are live, and
  the shadows of live nodes.
* `Careful f held` — an operation that closes no circle and frees nothing that is referred to from what stays.
* `Secure.run`     — **a careful operation returns, and leaves a secure forest**.
* `Secure.find`, `Secure.path`, `Secure.ensure`, `Secure.tree` — lookups, paths and trees on a secure forest.
-/

namespace VersatileEngine

namespace Forest

structure Secure (f : Forest) (held : List Id) : Prop where
  inv : Inv f
  ending : Ending f
  held : ∀ n ∈ held, f.live n = true
  shadow : ∀ m t, f.live m = true → f.shadow m = some t → f.live t = true

/-- The operation closes no circle of parents or shadows, copies between separate trees, and frees nothing that
is referred to from what stays. -/
structure Careful (f : Forest) (held : List Id) (op : Op) : Prop where
  uncircular : Uncircular f op
  unlapped : Unlapped f op
  held : ∀ n ∈ held, ¬ op.frees f n
  shadow : ∀ m t, f.live m = true → f.shadow m = some t → op.frees f t → op.frees f m

section Secure

variable {f f' : Forest} {held held' : List Id} {op : Op} {n this : Id}

theorem secure_init : Secure init [] where
  inv := inv_init
  ending := ⟨fun _ => .root rfl, fun _ => .root rfl⟩
  held n hn := by cases hn
  shadow m t hm := by cases hm

theorem Careful.mono (h : Careful f held op) (hsub : ∀ n ∈ held', n ∈ held) : Careful f held' op :=
  { h with held := fun n hn => h.held n (hsub n hn) }

theorem Secure.rooted (h : Secure f held) (n : Id) : Rooted f.parent n := h.ending.rooted n

theorem Secure.mono (h : Secure f held) (hsub : ∀ n ∈ held', f.live n = true) : Secure f held' :=
  { h with held := hsub }

theorem Secure.cons (h : Secure f held) (hn : f.live n = true) : Secure f (n :: held) :=
  h.mono (List.forall_mem_cons.mpr ⟨hn, h.held⟩)

/-- An operation that frees nothing and sets no shadow is careful where it closes no circle. -/
theorem careful_of_nothing (hu : Uncircular f op) (hl : Unlapped f op) (hfree : ∀ m, ¬ op.frees f m) :
    Careful f held op :=
  ⟨hu, hl, fun _ _ => hfree _, fun _ t _ _ ht => absurd ht (hfree t)⟩

theorem uncircular_of_noInsert (hins : op.inserts = none) (hsh : op.setsShadow = false) : Uncircular f op := by
  refine ⟨fun h => ?_, fun h => ?_, fun h => ?_⟩
  · rw [hins] at h
    cases h
  · rw [hins] at h
    cases h
  · rw [h] at hsh
    cases hsh

theorem validB_of_live (hdel : op.deletes = []) (hlive : ∀ n ∈ op.args, f.live n = true) : f.validB op = true := by
  simp only [validB, hdel, List.all_nil, Bool.and_true, List.all_eq_true]
  exact hlive

theorem live_both (hthis : f.live this = true) (hn : f.live n = true) : ∀ m ∈ [this, n], f.live m = true :=
  List.forall_mem_cons.mpr ⟨hthis, List.forall_mem_singleton.mpr hn⟩

/-! ## Operations -/

/-- Two trees of which neither is part of the other, where a copy frees something. -/
theorem separate_of_frees (h : Inv f) (hr : ∀ n, Rooted f.parent n) (hv : Valid f op) (hl : Unlapped f op) {m : Id}
    (hm : op.frees f m) : op.Separate f := by
  cases op with
  | copy this other ai ar au =>
    cases ar with
    | false => exact hm.elim
    | true =>
      obtain ⟨o, rfl, hne, -⟩ := hm
      obtain ⟨hto, hot⟩ := hl.resolve_left hne
      obtain ⟨d, hd, rfl⟩ := exists_held h hr (hv.live this (by simp [Op.args]))
      obtain ⟨s, hs, rfl⟩ := exists_held h hr (hv.live o (by simp [Op.args]))
      exact ⟨d, s, hd, hs, rfl, rfl, held_apart h hd hs hto hot⟩
  | _ => trivial

theorem Secure.step (h : Secure f held) (hc : Careful f held op) (hs : Step f op f') : Secure f' held := by
  have ho := step_frees h.inv hs hc.uncircular.places
  obtain ⟨hinv, hending⟩ := Step.preserves (P := Ending) (C := Uncircular) (fun h hf => hf.uncircular h)
    (fun hu => hu.places) (fun h he hu hp hs => he.step h hu hp hs) ⟨h.inv, h.ending⟩ ⟨hc.uncircular, hs⟩
  have hstay : ∀ m, f.live m = true → ¬ op.frees f m → f'.live m = true := by
    intro m hm hfree
    cases hl : f'.live m with
    | true => rfl
    | false => exact absurd (ho.gone m hm hl) hfree
  refine ⟨hinv, hending, fun n hn => hstay n (h.held n hn) (hc.held n hn), fun m t hm ht => ?_⟩
  rcases ho.shadow m t hm ht with hold | hset
  · refine hstay t (h.shadow m t hold.1 hold.2) fun hfree => ?_
    -- then the node with the shadow has gone as well
    have hgone := step_gone h.inv hs (separate_of_frees h.inv h.rooted hs.1 hc.unlapped hfree)
      (hc.shadow m t hold.1 hold.2 hfree)
    rw [hgone] at hm
    cases hm
  · refine hstay t (hs.1.live t (by simp [hset, Op.args])) fun hfree => ?_
    subst hset
    exact hfree

/-- An operation that frees nothing, moves no node and sets no shadow. -/
theorem Secure.harmless (h : Secure f held) (o : Op) {k : Nat} (hdel : o.deletes = [])
    (hlive : ∀ n ∈ o.args, f.live n = true) (hins : o.inserts = none) (hsh : o.setsShadow = false)
    (hl : Unlapped f o) (hfree : ∀ m, ¬ o.frees f m) (hrun : f.run k o = some f') : Secure f' held :=
  h.step (careful_of_nothing (uncircular_of_noInsert hins hsh) hl hfree)
    ⟨valid_of_validB (validB_of_live hdel hlive), k, hrun⟩

/-- **A careful operation returns, and leaves a secure forest.** -/
theorem Secure.run (h : Secure f held) (hv : Valid f op) (hc : Careful f held op) :
    Yields (fun k => f.run k op) fun g => Step f op g ∧ Secure g held := by
  obtain ⟨k, g, hrun⟩ := run_ends h.inv h.rooted hv hc.unlapped
  have hs : Step f op g := ⟨hv, k, hrun⟩
  exact (run_growing f op).yields hrun ⟨hs, h.step hc hs⟩

/-! ## Fresh nodes -/

theorem Reaches.ending (h : Inv f) (he : Ending f) (hreach : Reaches f f') : Ending f' := by
  obtain ⟨ops, hrun⟩ := hreach
  refine (hrun.invariant (I := fun f => Inv f ∧ Ending f) (fun {g op g'} hg hs => ?_) ⟨h, he⟩).2
  exact ⟨hg.1.fresh_step hs, hg.2.step hg.1 (hs.1.uncircular hg.1) hs.1.primitive hs.2⟩

theorem Reaches.shadow_old (h : Inv f) (hreach : Reaches f f') : ∀ m t, f'.live m = true →
    f'.shadow m = some t → f.live m = true ∧ f.shadow m = some t := by
  obtain ⟨ops, hrun⟩ := hreach
  refine (hrun.invariant (I := fun g => Inv g ∧ ∀ m t, g.live m = true → g.shadow m = some t →
    f.live m = true ∧ f.shadow m = some t) (fun {g op g'} hg hs => ?_) ⟨h, fun m t hm ht => ⟨hm, ht⟩⟩).2
  refine ⟨hg.1.fresh_step hs, fun m t hm ht => ?_⟩
  rcases (step_frees hg.1 hs.2 hs.1.places).shadow m t hm ht with hold | hset
  · exact hg.2 m t hold.1 hold.2
  · have hno := hs.1.shadow
    rw [hset] at hno
    cases hno

/-- Fresh nodes come, and nothing goes. -/
theorem Secure.reaches (h : Secure f held) (hreach : Reaches f f')
    (hlive : ∀ m, f.live m = true → f'.live m = true) : Secure f' held := by
  refine ⟨hreach.inv h.inv, hreach.ending h.inv h.ending, fun n hn => hlive n (h.held n hn), fun m t hm ht => ?_⟩
  obtain ⟨hm', ht'⟩ := hreach.shadow_old h.inv m t hm ht
  exact hlive t (h.shadow m t hm' ht')

/-! ## Lookups -/

theorem Secure.find (h : Secure f held) (ht : f.live this = true) (path : Str) (s : Bool) :
    Yields (fun k => f.atPath k this path s) fun r => ∀ n, r = some n → f.live n = true := by
  obtain ⟨k, r, hr⟩ := h.ending.atPath this path s
  exact Growing.yields (fun _ _ hjk _ => atPath_more hjk) hr fun n hn => live_atPath h.inv ht (hn ▸ hr)

theorem Secure.descend {cur : Option Id} (h : Secure f held) (hcur : ∀ n, cur = some n → f.live n = true)
    (segs : List Str) (s : Bool) :
    Yields (fun k => f.descend k s cur segs) fun r => ∀ n, r = some n → f.live n = true := by
  obtain ⟨k, r, hr⟩ := h.ending.descend s segs cur
  exact Growing.yields (fun _ _ hjk _ => descend_more hjk) hr fun n hn => live_descend h.inv hcur (hn ▸ hr)

theorem Secure.root (h : Secure f held) (hn : f.live n = true) :
    Yields (fun k => f.root k n) fun r => f.live r = true := by
  obtain ⟨k, r, hr⟩ := root_ends (h.rooted n)
  exact Growing.yields (fun _ _ hjk _ => root_more hjk) hr (live_root h.inv hn hr)

theorem Secure.path (h : Secure f held) (n : Id) (anc : Option Id) :
    Yields (fun k => f.path k n anc) fun _ => True := by
  obtain ⟨k, p, hp⟩ := path_ends (h.rooted n) anc
  exact Growing.yields (fun _ _ hjk _ => path_more hjk) hp trivial

theorem ensureSegments_ends {s : Bool} {segs : List Str} : ∀ {f : Forest} {cur : Option Id}, Inv f → Ending f →
    (∀ n, cur = some n → f.live n = true) → ∃ k r, f.ensureSegments k s cur segs = some r := by
  induction segs with
  | nil => exact fun {f cur} _ _ _ => ⟨0, (f, cur), by cases cur <;> rfl⟩
  | cons seg segs ih =>
    intro f cur h he hcur
    cases cur with
    | none => exact ⟨0, _, rfl⟩
    | some cur =>
      simp only [ensureSegments]
      split
      · exact ih h he hcur
      · obtain ⟨i, r, hkey⟩ := he.ensureKey cur seg s
        obtain ⟨hreach, hlive⟩ := makes_ensureKey h (hcur cur rfl) hkey
        obtain ⟨j, r', hr'⟩ := ih (hreach.inv h) (hreach.ending h he) hlive
        refine ⟨max i j, r', ?_⟩
        rw [ensureKey_more (Nat.le_max_left i j) hkey]
        exact ensureSegments_more (Nat.le_max_right i j) hr'

theorem ensurePath_ends (h : Inv f) (he : Ending f) (ht : f.live this = true) (path : Str) (s : Bool) :
    ∃ k r, f.ensurePath k this path s = some r := by
  cases path with
  | nil => exact ⟨0, _, rfl⟩
  | cons c rest =>
    have hsome : ∀ m, f.live m = true → ∀ n, some m = some n → f.live n = true := by
      rintro m hm n ⟨⟩
      exact hm
    simp only [ensurePath]
    split
    · obtain ⟨i, top, htop⟩ := root_ends (he.rooted this)
      split
      · exact ⟨i + 1, _, by rw [htop]; rfl⟩
      · obtain ⟨j, r, hr⟩ := @ensureSegments_ends s (rest.splitOn pathSep) f (some top) h he
          (hsome top (live_root h ht htop))
        refine ⟨max (i + 1) j, r, ?_⟩
        rw [root_more (Nat.le_max_left (i + 1) j) htop]
        exact ensureSegments_more (Nat.le_max_right (i + 1) j) hr
    · exact ensureSegments_ends h he (hsome this ht)

theorem Secure.ensured (h : Secure f held) (ht : f.live this = true) {k : Nat} {path : Str} {s : Bool}
    {r : Forest × Option Id} (hr : f.ensurePath k this path s = some r) : Secure r.1 held := by
  have hreach := (makes_ensurePath h.inv ht hr).1
  rw [ensurePath_eq] at hr
  obtain ⟨p, hstart, hseg⟩ := Option.bind_eq_some_iff.mp hr
  have hext := (ensureSegments_spec h.inv (walkStart_live h.inv ht hstart) hseg).1
  exact h.reaches hreach hext.live

theorem Secure.ensure (h : Secure f held) (ht : f.live this = true) (path : Str) (s : Bool) :
    Yields (fun k => f.ensurePath k this path s) fun r => Secure r.1 held := by
  obtain ⟨k, r, hr⟩ := ensurePath_ends h.inv h.ending ht path s
  exact Growing.yields (fun _ _ hjk _ => ensurePath_more hjk) hr (h.ensured ht hr)

/-! ## Trees -/

/-- A recursion over the children returns on the tree that a node holds. -/
theorem Holds.returns {β γ : Type} {g : Nat → γ → Id → Option β} {d : γ → γ}
    (hg : ∀ (k : Nat) (a : γ) (m : Id) (rs : List β), (f.nodes m).mapM (g k (d a)) = some rs →
      ∃ r, g (k + 1) a m = some r) {t : Held} (ht : Holds f t) :
    ∀ {k : Nat} {a : γ}, t.height ≤ k → ∃ r, g k a t.id = some r := by
  induction t using Held.ind with
  | h t ih =>
    intro k a hk
    obtain ⟨-, -, -, hnodes, hkids⟩ := holds_iff.mp ht
    obtain ⟨nm, v, ks⟩ := t
    obtain ⟨k, rfl⟩ : ∃ j, k = j + 1 := ⟨k - 1, by rw [Held.height] at hk; omega⟩
    obtain ⟨rs, hrs⟩ := exists_mapM (g := g k (d a)) (f.nodes _) fun m hm => by
      rw [hnodes] at hm
      obtain ⟨c, hc, rfl⟩ := List.mem_map.mp hm
      have hless := Held.height_kid hc
      exact ih c hc (hkids c hc) (by omega)
    exact hg k a _ rs hrs

theorem Secure.tree (h : Secure f held) (hn : f.live n = true) : Yields (fun k => f.toTree k n) fun _ => True := by
  obtain ⟨t, ht, rfl⟩ := exists_held h.inv h.rooted hn
  obtain ⟨tree, htree⟩ := ht.returns (g := fun k (_ : Unit) n => f.toTree k n) (d := id)
    (fun k a m rs hrs => ⟨_, by rw [toTree, hrs]; rfl⟩) (a := ()) (Nat.le_refl _)
  exact Growing.yields (fun _ _ hjk _ => toTree_more hjk) htree trivial

/-- A node is above another one when a climb from the other comes to it. -/
theorem Secure.above (h : Secure f held) (n m : Id) :
    Yields (fun k => f.isAncestorOf n k m) fun b => b = false → m ≠ n → ¬ Climbs f.parent m n := by
  have hends : ∀ {m : Id}, Rooted f.parent m → ∃ k b, f.isAncestorOf n (k + 1) m = some b ∧
      (b = false → m ≠ n → ¬ Climbs f.parent m n) := by
    intro m hm
    induction hm with
    | @root m hup => exact ⟨0, false, by rw [isAncestorOf, hup], fun _ hne hc => hne (hc.of_root hup)⟩
    | @step m p hup _ ih =>
      by_cases hp : p = n
      · exact ⟨0, true, by rw [isAncestorOf, hup]; exact if_pos hp, fun hb => (by cases hb)⟩
      · obtain ⟨k, b, hb, hnot⟩ := ih
        refine ⟨k + 1, b, by rw [isAncestorOf, hup]; exact (if_neg hp).trans hb, fun hfalse hne hc => ?_⟩
        rcases Relation.ReflTransGen.cases_head hc with he | ⟨q, hq, hc⟩
        · exact hne he
        · rw [hup] at hq
          cases hq
          exact hnot hfalse hp hc
  obtain ⟨k, b, hb, hnot⟩ := hends (h.rooted m)
  exact Growing.yields (fun _ _ hjk _ => isAncestorOf_more hjk) hb hnot

/-! ## A new node at an index -/

theorem below_bare {m : Id} (hn : f.nodes n = []) (hb : Below f n m) : m = n := by
  induction hb with
  | refl => rfl
  | step _ hmem ih =>
    rw [ih, hn] at hmem
    cases hmem

theorem Secure.insertNew (h : Secure f held) (ht : f.live this = true) (nm : Str) (idx : Int) :
    Yields (fun k => f.insertNew k this nm idx) fun g => Secure g held := by
  have hi := newNode_spec h.inv nm
  have hne : ∀ m, f.live m = true → m ≠ f.next := by
    rintro m hm rfl
    rw [h.inv.next_dead] at hm
    cases hm
  have hthis : (f.newNode nm).1.live this = true := by simp [ht]
  have hreach := (reaches_new f nm).trans (@reaches_insert (f.newNode nm).1 this f.next hthis (by simp) (by simp)
    (by simp) (hne this ht).symm idx)
  cases hat : (f.newNode nm).1.insertAt this [f.next] idx with
  | some i =>
    obtain ⟨hok, hr, -⟩ := insert_ok hi hthis (by simp) hat
    simp only [Forest.insertNew, hok, if_true]
    exact .const (h.reaches hreach fun m hm => by simp [hr.live, hm])
  | none =>
    obtain ⟨hfail, hr, hinv⟩ := insert_fails hi hat
    have hs := h.reaches hreach fun m hm => by simp [hr.live, hm]
    simp only [Forest.insertNew, hfail, Bool.false_eq_true, if_false]
    -- the node that found no place is deleted again, and nothing refers to it
    generalize hg : ((f.newNode nm).1.insert this (some f.next) idx).1 = g at hs hr hreach
    have hroot : g.parent f.next = none := by
      rw [hr.parent]
      simp
    have hbare : g.nodes f.next = [] := by
      rw [hr.nodes]
      simp
    have hcare : Careful g held (.delete f.next) := by
      refine ⟨uncircular_of_noInsert rfl rfl, trivial, fun n hn hb => ?_, fun m t hm hsh hb => ?_⟩
      · exact hne n (h.held n hn) (below_bare hbare hb)
      · obtain ⟨hm', hsh'⟩ := hreach.shadow_old h.inv m t hm hsh
        exact absurd (below_bare hbare hb) (hne t (h.shadow m t hm' hsh'))
    refine (hs.run ⟨fun n hn => ?_, fun n hn => ?_⟩ hcare).mono fun _ hr => hr.2
    · obtain rfl := List.mem_singleton.mp hn
      simp [hr.live]
    · cases hn
      exact hroot

end Secure

end Forest

end VersatileEngine
