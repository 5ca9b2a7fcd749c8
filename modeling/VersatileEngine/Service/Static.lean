import Mathlib.Data.List.Induction
import Mathlib.Data.List.Nodup
import VersatileEngine.Core.Data

/-!
# VersatileEngine.Service.Static

The mounts of the static file server.

* `Mount`, `addMount` — a mount is appended and the list sorted again: long prefixes first, a root last.
* `findMount`         — the first mount that covers the path, else a root.
* `Selects`           — what is to be found among the mounts, in no order.
* `findMount_selects` — **after any calls the right mount is found, in whatever order they were made**.
-/

namespace VersatileEngine.StaticServer

structure Mount where
  mountPrefix : Str
  root : Str
  defaultFile : Str
  spaFallback : Bool
deriving DecidableEq, Repr

namespace Mount

def isRoot (m : Mount) : Bool := m.mountPrefix = ascii "/" || m.mountPrefix = []

/-- The test in the loop of `findMount`. -/
def meets (m : Mount) (reqPath : Str) : Bool :=
  m.mountPrefix.length ≤ reqPath.length && reqPath.take m.mountPrefix.length = m.mountPrefix &&
    (reqPath.length = m.mountPrefix.length || reqPath[m.mountPrefix.length]? = some 47)

/-- The comparator of the sort. -/
def before (a b : Mount) : Bool :=
  if a.isRoot then false
  else if b.isRoot then true
  else b.mountPrefix.length < a.mountPrefix.length

end Mount

/-- The arguments of one call of `addMount`. -/
structure Call where
  mountPrefix : Str
  root : Str
  defaultFile : Str
  spaFallback : Bool

def Call.mount (c : Call) : Mount :=
  ⟨c.mountPrefix, c.root, if c.defaultFile = [] then ascii "index.html" else c.defaultFile, c.spaFallback⟩

def addMount (mounts : List Mount) (c : Call) : List Mount :=
  (mounts ++ [c.mount]).mergeSort fun a b => !b.before a

def findMount (mounts : List Mount) (reqPath : Str) : Option Mount :=
  (mounts.find? fun m => !m.isRoot && m.meets reqPath).or (mounts.find? Mount.isRoot)

/-- The path is the prefix, or goes on behind it with a slash. -/
def Covers (mountPrefix reqPath : Str) : Prop :=
  reqPath = mountPrefix ∨ ∃ rest, reqPath = mountPrefix ++ 47 :: rest

/-- What a request is to find among the mounts: the longest prefix that covers the path, else the root. -/
def Selects (mounts : List Mount) (reqPath : Str) : Option Mount → Prop
  | some m => m ∈ mounts ∧
      if m.isRoot then ∀ m' ∈ mounts, m'.isRoot = false → ¬ Covers m'.mountPrefix reqPath
      else Covers m.mountPrefix reqPath ∧ ∀ m' ∈ mounts, m'.isRoot = false →
        Covers m'.mountPrefix reqPath → m'.mountPrefix.length ≤ m.mountPrefix.length
  | none => ∀ m ∈ mounts, m.isRoot = false ∧ ¬ Covers m.mountPrefix reqPath

theorem Mount.meets_iff {m : Mount} {reqPath : Str} :
    m.meets reqPath = true ↔ Covers m.mountPrefix reqPath := by
  obtain ⟨pre, _, _, _⟩ := m
  simp only [meets, Covers, Bool.and_eq_true, Bool.or_eq_true, decide_eq_true_eq]
  constructor
  · rintro ⟨⟨hle, htake⟩, hend⟩
    have hsplit : reqPath = pre ++ reqPath.drop pre.length := by
      conv => lhs; rw [← List.take_append_drop pre.length reqPath, htake]
    rcases hend with hlen | hslash
    · left
      rw [hsplit, List.drop_eq_nil_of_le (by omega), List.append_nil]
    · right
      obtain ⟨hlt, hget⟩ := List.getElem?_eq_some_iff.1 hslash
      refine ⟨reqPath.drop (pre.length + 1), ?_⟩
      rw [← hget, ← List.drop_eq_getElem_cons hlt]
      exact hsplit
  · rintro (rfl | ⟨rest, rfl⟩)
    · simp
    · simp

/-! ## The sorted list -/

/-- The list as the sort leaves it. -/
def Sorted (mounts : List Mount) : Prop := mounts.Pairwise fun a b => b.before a = false

theorem before_trans {a b c : Mount} (hba : b.before a = false) (hcb : c.before b = false) :
    c.before a = false := by
  revert hba hcb
  cases ha : a.isRoot <;> cases hb : b.isRoot <;> cases hc : c.isRoot <;> simp [Mount.before, ha, hb, hc]
  intro hba hcb
  omega

theorem before_asymm (a b : Mount) : b.before a = false ∨ a.before b = false := by
  cases ha : a.isRoot <;> cases hb : b.isRoot <;> simp [Mount.before, ha, hb]
  omega

theorem addMount_perm (mounts : List Mount) (c : Call) :
    (addMount mounts c).Perm (c.mount :: mounts) :=
  (List.mergeSort_perm _ _).trans List.perm_append_comm

theorem addMount_sorted (mounts : List Mount) (c : Call) : Sorted (addMount mounts c) := by
  refine (@List.pairwise_mergeSort _ (fun a b : Mount => !b.before a) ?_ ?_ _).imp ?_
  · intro a b c hab hbc
    simp only [Bool.not_eq_true'] at *
    exact before_trans hab hbc
  · intro a b
    simpa using before_asymm a b
  · intro a b h
    simpa using h

/-- The list after any calls. -/
theorem mounts_of (calls : List Call) :
    (calls.foldl addMount []).Perm (calls.map Call.mount) ∧ Sorted (calls.foldl addMount []) := by
  induction calls using List.reverseRecOn with
  | nil => exact ⟨.refl _, .nil⟩
  | append_singleton calls c ih =>
    simp only [List.foldl_append, List.foldl_cons, List.foldl_nil, List.map_append, List.map_cons, List.map_nil]
    refine ⟨?_, addMount_sorted _ c⟩
    exact (addMount_perm _ c).trans ((ih.1.cons _).trans (List.perm_append_singleton _ _).symm)

/-! ## The choice -/

theorem Sorted.first {mounts : List Mount} {p : Mount → Bool} (h : Sorted mounts) {m : Mount}
    (hfind : mounts.find? p = some m) :
    m ∈ mounts ∧ p m = true ∧ ∀ m' ∈ mounts, p m' = true → m' = m ∨ m'.before m = false := by
  obtain ⟨hm, as, bs, rfl, has⟩ := List.find?_eq_some_iff_append.1 hfind
  refine ⟨by simp, hm, ?_⟩
  intro m' hm' hp
  rcases List.mem_append.1 hm' with ha | hb
  · have := has m' ha
    simp [hp] at this
  · rcases List.mem_cons.1 hb with rfl | hb
    · exact .inl rfl
    · exact .inr ((List.pairwise_cons.1 (List.pairwise_append.1 h).2.1).1 m' hb)

/-- In a sorted list the first hit is the one to select. -/
theorem Sorted.selects {mounts : List Mount} (h : Sorted mounts) (reqPath : Str) :
    Selects mounts reqPath (findMount mounts reqPath) := by
  cases hfind : mounts.find? fun m => !m.isRoot && m.meets reqPath with
  | some m =>
    obtain ⟨hmem, hm, hfirst⟩ := h.first hfind
    simp only [Bool.and_eq_true, Bool.not_eq_true'] at hm hfirst
    simp only [findMount, hfind, Option.some_or, Selects, hm.1, Bool.false_eq_true, if_false]
    refine ⟨hmem, Mount.meets_iff.1 hm.2, ?_⟩
    intro m' hm' hroot hcovers
    rcases hfirst m' hm' ⟨hroot, Mount.meets_iff.2 hcovers⟩ with rfl | hbefore
    · exact Nat.le_refl _
    · simpa [Mount.before, hroot, hm.1] using hbefore
  | none =>
    have hnone : ∀ m ∈ mounts, m.isRoot = false → ¬ Covers m.mountPrefix reqPath := by
      intro m hm hroot hcovers
      have := List.find?_eq_none.1 hfind m hm
      simp [hroot, Mount.meets_iff.2 hcovers] at this
    simp only [findMount, hfind, Option.none_or]
    cases hroot : mounts.find? Mount.isRoot with
    | some m => simpa [Selects, List.find?_some hroot, List.mem_of_find?_eq_some hroot] using hnone
    | none =>
      intro m hm
      have hfalse : m.isRoot = false := by simpa using List.find?_eq_none.1 hroot m hm
      exact ⟨hfalse, hnone m hm hfalse⟩

/-- Two prefixes of one length that cover a path are the same. -/
theorem Covers.unique {a b reqPath : Str} (ha : Covers a reqPath) (hb : Covers b reqPath)
    (hlen : a.length = b.length) : a = b := by
  have htake : ∀ {c : Str}, Covers c reqPath → reqPath.take c.length = c := by
    rintro c (rfl | ⟨rest, rfl⟩)
    · exact List.take_length
    · exact List.take_left
  rw [← htake ha, ← htake hb, hlen]

/-- The prefixes are distinct, and one at most is a root. -/
structure Distinct (mounts : List Mount) : Prop where
  prefixes : (mounts.map Mount.mountPrefix).Nodup
  roots : ∀ m ∈ mounts, ∀ m' ∈ mounts, m.isRoot = true → m'.isRoot = true → m.mountPrefix = m'.mountPrefix

theorem Distinct.eq {mounts : List Mount} (h : Distinct mounts) {m m' : Mount} (hm : m ∈ mounts)
    (hm' : m' ∈ mounts) (heq : m.mountPrefix = m'.mountPrefix) : m = m' :=
  List.inj_on_of_nodup_map h.prefixes hm hm' heq

theorem Selects.unique {mounts : List Mount} (h : Distinct mounts) {reqPath : Str} {x y : Option Mount}
    (hx : Selects mounts reqPath x) (hy : Selects mounts reqPath y) : x = y := by
  cases x with
  | none =>
    cases y with
    | none => rfl
    | some m =>
      obtain ⟨hm, hsel⟩ := hy
      obtain ⟨hroot, hcovers⟩ := hx m hm
      simp only [hroot, Bool.false_eq_true, if_false] at hsel
      exact absurd hsel.1 hcovers
  | some m =>
    obtain ⟨hm, hsel⟩ := hx
    cases y with
    | none =>
      obtain ⟨hroot, hcovers⟩ := hy m hm
      simp only [hroot, Bool.false_eq_true, if_false] at hsel
      exact absurd hsel.1 hcovers
    | some m' =>
      obtain ⟨hm', hsel'⟩ := hy
      congr 1
      cases hroot : m.isRoot <;> cases hroot' : m'.isRoot <;>
        simp only [hroot, hroot', Bool.false_eq_true, if_false, if_true] at hsel hsel'
      · have hlen := Nat.le_antisymm (hsel'.2 m hm hroot hsel.1) (hsel.2 m' hm' hroot' hsel'.1)
        exact h.eq hm hm' (hsel.1.unique hsel'.1 hlen)
      · exact absurd hsel.1 (hsel' m hm hroot)
      · exact absurd hsel'.1 (hsel m' hm' hroot')
      · exact h.eq hm hm' (h.roots m hm m' hm' hroot hroot')

/-- What is selected depends on the mounts alone, not on their order. -/
theorem Selects.perm {mounts mounts' : List Mount} (hperm : mounts.Perm mounts') {reqPath : Str}
    {x : Option Mount} (h : Selects mounts reqPath x) : Selects mounts' reqPath x := by
  cases x with
  | none => exact fun m hm => h m (hperm.mem_iff.2 hm)
  | some m =>
    refine ⟨hperm.mem_iff.1 h.1, ?_⟩
    simpa only [hperm.mem_iff] using h.2

/-- **The mount that a request finds**, after any calls with distinct prefixes and one root at most:
the longest that covers the path, else the root. The order of the calls is of no matter. -/
theorem findMount_selects (calls : List Call) (reqPath : Str)
    (hdistinct : (calls.map Call.mountPrefix).Nodup)
    (hroots : ∀ c ∈ calls, ∀ c' ∈ calls, c.mount.isRoot = true → c'.mount.isRoot = true →
      c.mountPrefix = c'.mountPrefix) :
    Selects (calls.map Call.mount) reqPath (findMount (calls.foldl addMount []) reqPath) ∧
      (∀ x, Selects (calls.map Call.mount) reqPath x → x = findMount (calls.foldl addMount []) reqPath) ∧
      ∀ calls' : List Call, calls'.Perm calls →
        findMount (calls'.foldl addMount []) reqPath = findMount (calls.foldl addMount []) reqPath := by
  have hmounts : Distinct (calls.map Call.mount) := by
    refine ⟨by rwa [List.map_map], ?_⟩
    intro m hm m' hm'
    obtain ⟨c, hc, rfl⟩ := List.mem_map.1 hm
    obtain ⟨c', hc', rfl⟩ := List.mem_map.1 hm'
    exact hroots c hc c' hc'
  have hselects : ∀ calls' : List Call, calls'.Perm calls →
      Selects (calls.map Call.mount) reqPath (findMount (calls'.foldl addMount []) reqPath) := by
    intro calls' hperm
    obtain ⟨hsame, hsorted⟩ := mounts_of calls'
    exact (hsorted.selects reqPath).perm (hsame.trans (hperm.map _))
  have hself := hselects calls (.refl _)
  exact ⟨hself, fun x hx => hx.unique hmounts hself,
    fun calls' hperm => (hselects calls' hperm).unique hmounts hself⟩

theorem findMount_selects_sample :
    let calls := [⟨ascii "/", ascii "www", [], true⟩, ⟨ascii "/a", ascii "a", [], false⟩,
      ⟨ascii "/a/b", ascii "b", [], false⟩]
    Selects (calls.map Call.mount) (ascii "/a/bc") (findMount (calls.foldl addMount []) (ascii "/a/bc")) :=
  (findMount_selects _ _ (by decide) (by decide)).1

end VersatileEngine.StaticServer
