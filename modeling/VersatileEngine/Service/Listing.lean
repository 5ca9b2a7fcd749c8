import VersatileEngine.Node.Resolve
import VersatileEngine.Service.Rest

/-!
# VersatileEngine.Service.Listing

`GET /at/<path>?children=1`: the keys of the children, and where they lead behind the path.

* `childKeys`, `getChildren` — what the handler lists.
* `Served`                   — the children whose key means the same to the reader of the URL.
* `listed_resolves`          — **a key leads to its child exactly there**: keys are written with `#` and
  looked up with `:`.
-/

namespace VersatileEngine

namespace Http

open VersatileEngine.Tree

/-- `keyOf` for each of the children. -/
def childKeys (target : Tree) : List Str := (List.range target.kids.length).map (keyAt target.kids)

/-- `bindAtGet` where `children` is set and `meta` is not. -/
def getChildren (nodePath : Str) (root : Tree) : Option Response :=
  match (findAt nodePath root).bind fun p => root.sub p with
  | none => some ⟨200, ascii "[]"⟩
  | some target => fillJson (node (ascii "r") .none ((childKeys target).map fun key => leaf [] (.string key))) 200

/-- The name of the child is alone, and it has no `:`, or all of it is `:` and the position of the child. -/
def Served (ks : List Tree) (i : Nat) (k : Tree) : Prop :=
  k.name ≠ [] ∧ countNamed ks k.name ≤ 1 ∧
    (httpKeySep ∉ k.name ∨
      ∃ ds, k.name = httpKeySep :: ds ∧ ds.all isDigit = true ∧ max (digitsVal32 0 ds) 0 = (i : Int))

section Keys

variable {ks : List Tree} {i : Nat} {k : Tree} {nm key : Str}

/-- A key with a shorter name does not lead to the child that has the whole key for a name. -/
theorem findKey_shorter {sep : UInt8} {b : Str} {d : Int} (hparse : parseKey sep k.name = some (b, d))
    (hb : b ≠ []) (hlen : b.length < k.name.length) (hk : ks[i]? = some k) :
    findKey sep ks k.name ≠ some i := by
  intro h
  rw [findKey, hparse, Option.bind_some] at h
  dsimp only at h
  rw [if_neg (fun h => hb h.1)] at h
  obtain ⟨c, hc, hcn⟩ := childNamed_get h
  rw [hk] at hc
  cases hc
  rw [hcn hb] at hlen
  exact lt_irrefl _ hlen

/-- No name has a `#`, so what is looked up under a name with one is not there. -/
theorem findKey_foreign (hnames : ∀ x ∈ ks, x.name = [] ∨ isName x.name = true) (hkey : httpKeySep ∉ key)
    (hash : keySep ∈ key) : findKey httpKeySep ks key = none := by
  have hne : key ≠ [] := List.ne_nil_of_mem hash
  rw [findKey, parseKey_plain hne hkey, Option.bind_some]
  dsimp only
  rw [if_neg (fun h => hne h.1)]
  refine Option.eq_none_iff_forall_ne_some.mpr fun i h => ?_
  obtain ⟨x, hx, hname⟩ := childNamed_get h
  have hxn := hname hne
  rcases hnames x (List.mem_of_getElem? hx) with h0 | hn
  · exact hne (hxn ▸ h0)
  · exact (isName_spec hn).2.2 (hxn ▸ hash)

/-- A key with an index, written with `#`, leads nowhere. -/
theorem findKey_indexed (hnames : ∀ x ∈ ks, x.name = [] ∨ isName x.name = true) (nm : Str) (n : Nat) :
    findKey httpKeySep ks (nm ++ keySep :: natChars n) = none := by
  have hdigits : httpKeySep ∉ keySep :: natChars n := by
    rw [List.mem_cons, not_or]
    refine ⟨by decide, fun h => ?_⟩
    have := isDigit_natChars h
    revert this
    decide
  by_cases hsep : httpKeySep ∈ nm
  · cases hr : rsplit httpKeySep nm with
    | none => exact absurd hsep (rsplit_eq_none hr)
    | some r =>
      obtain ⟨b, a⟩ := r
      obtain ⟨rfl, ha⟩ := rsplit_spec hr
      have hafter : httpKeySep ∉ a ++ keySep :: natChars n := by
        rw [List.mem_append, not_or]
        exact ⟨ha, hdigits⟩
      rw [findKey, parseKey, if_neg (by simp), List.append_assoc, List.cons_append, rsplit_append b hafter]
      dsimp only
      rw [if_neg (by simp), if_neg]
      · rfl
      · rw [List.all_append, List.all_cons]
        simp [isDigit, keySep]
  · refine findKey_foreign hnames ?_ (by simp)
    rw [List.mem_append, not_or]
    exact ⟨hsep, hdigits⟩

/-- A name that is alone leads to its child, if the reader of the URL does not split it or splits it to the
position of the child. -/
theorem findKey_alone (hk : ks[i]? = some k) (hn : k.name ≠ []) (halone : countNamed ks k.name ≤ 1) :
    findKey httpKeySep ks k.name = some i ↔
      httpKeySep ∉ k.name ∨
        ∃ ds, k.name = httpKeySep :: ds ∧ ds.all isDigit = true ∧ max (digitsVal32 0 ds) 0 = (i : Int) := by
  have hfirst : childNamed ks k.name 0 = some i :=
    (childNamed_first hn).mpr ⟨⟨k, hk, rfl⟩, alone_first hn hk halone⟩
  cases hr : rsplit httpKeySep k.name with
  | none =>
    have hsep := rsplit_eq_none hr
    rw [findKey, parseKey_plain hn hsep, Option.bind_some]
    dsimp only
    rw [if_neg (fun h => hn h.1), if_neg (by omega)]
    exact iff_of_true hfirst (.inl hsep)
  | some r =>
    obtain ⟨b, a⟩ := r
    obtain ⟨hname, ha⟩ := rsplit_spec hr
    have hmem : httpKeySep ∈ k.name := by rw [hname]; simp
    have hparse : parseKey httpKeySep k.name =
        if a.all isDigit = true then some (b, digitsVal32 0 a) else none := by
      rw [parseKey, if_neg hn, hr]
      dsimp only
      split_ifs with h0 h1
      · rw [h0]; rfl
      · rw [h0] at h1; exact absurd rfl h1
      · rfl
      · rfl
    rw [or_iff_right (not_not_intro hmem)]
    by_cases hb : b = []
    · subst hb
      constructor
      · intro h
        split_ifs at hparse with hdigits
        · exact ⟨a, hname, hdigits, (findKey_position hparse (List.getElem?_eq_some_iff.mp hk).1).mp h⟩
        · rw [findKey, hparse] at h
          cases h
      · rintro ⟨ds, hds, hdigits, hi⟩
        obtain rfl : a = ds := (List.cons_injective (hname.symm.trans hds))
        rw [if_pos hdigits] at hparse
        exact (findKey_position hparse (List.getElem?_eq_some_iff.mp hk).1).mpr hi
    · have hlen : b.length < k.name.length := by
        rw [hname, List.length_append, List.length_cons]
        omega
      refine iff_of_false ?_ ?_
      · split_ifs at hparse with hdigits
        · exact findKey_shorter hparse hb hlen hk
        · rw [findKey, hparse]
          rintro ⟨⟩
      · rintro ⟨ds, hds, hdigits, -⟩
        obtain ⟨c, b, rfl⟩ := List.exists_cons_of_ne_nil hb
        have hmem : httpKeySep ∈ ds := by
          rw [hname, List.cons_append, List.cons.injEq] at hds
          rw [← hds.2]
          simp
        have := List.all_eq_true.mp hdigits _ hmem
        revert this
        decide

/-- A key that is listed leads to its child where the child is served, and nowhere else. -/
theorem findKey_served (hk : ks[i]? = some k) (hnames : ∀ x ∈ ks, x.name = [] ∨ isName x.name = true) :
    findKey httpKeySep ks (keyAt ks i) = some i ↔ Served ks i k := by
  unfold keyAt Served
  rw [hk]
  dsimp only
  split_ifs with hn halone
  · refine iff_of_false (fun h => ?_) (fun h => h.1 hn)
    have hno := findKey_indexed hnames [] i
    rw [List.nil_append] at hno
    cases hno.symm.trans h
  · rw [findKey_alone hk hn halone]
    exact ⟨fun h => ⟨hn, halone, h⟩, fun h => h.2.2⟩
  · refine iff_of_false (fun h => ?_) (fun h => halone h.2.1)
    have hkey : toKey keySep k.name (countNamed (ks.take i) k.name) =
        k.name ++ keySep :: natChars (countNamed (ks.take i) k.name) := by
      rw [toKey, if_neg hn, if_neg (by omega)]
      rfl
    rw [hkey, findKey_indexed hnames] at h
    cases h

end Keys

section Listed

variable {nodePath key : Str} {root t k : Tree} {p : List Nat} {i : Nat}

theorem listed_resolves (hnames : ∀ x ∈ t.kids, x.name = [] ∨ isName x.name = true)
    (hfind : findAt nodePath root = some p) (ht : root.sub p = some t) (hk : t.kids[i]? = some k)
    (hkey : (childKeys t)[i]? = some key) :
    findAt (nodePath ++ pathSep :: key) root = some (p ++ [i]) ↔ Served t.kids i k := by
  obtain rfl : key = keyAt t.kids i := by
    rw [childKeys, List.getElem?_map, List.getElem?_range (List.getElem?_eq_some_iff.mp hk).1] at hkey
    exact (Option.some.inj hkey).symm
  obtain ⟨hne, hsep⟩ := keyAt_segment hk (hnames k (List.mem_of_getElem? hk))
  have hpath : findAt (nodePath ++ pathSep :: keyAt t.kids i) root =
      (findKey httpKeySep t.kids (keyAt t.kids i)).map fun j => p ++ [j] := by
    rw [findAt] at hfind ⊢
    rw [findPath_append, hfind, Option.bind_some, ht, Option.bind_some, findPath_segment hne hsep, Option.map_map]
    rfl
  rw [hpath, ← findKey_served hk hnames, Option.map_eq_some_iff]
  constructor
  · rintro ⟨j, hj, hpj⟩
    obtain rfl : j = i := by simpa using hpj
    exact hj
  · exact fun h => ⟨i, h, rfl⟩

end Listed

/-- `c:1` and one more child, below `a`. -/
def listingSample : Tree :=
  node [] .none [node (ascii "a") .none [leaf (ascii "b") .none, leaf (ascii ":1") .none]]

theorem listed_resolves_sample :
    findAt (ascii "a" ++ pathSep :: ascii ":1") listingSample = some [0, 1] ↔
      Served [leaf (ascii "b") .none, leaf (ascii ":1") .none] 1 (leaf (ascii ":1") .none) :=
  @listed_resolves (ascii "a") (ascii ":1") listingSample
    (node (ascii "a") .none [leaf (ascii "b") .none, leaf (ascii ":1") .none]) (leaf (ascii ":1") .none) [0] 1
    (by decide) (by decide) rfl rfl (by decide)

def twins : Tree := node [] .none [leaf (ascii "a") .none, leaf (ascii "a") .none]

/-- Two children of one name: neither of the two keys that are listed leads anywhere. -/
theorem twins_lost :
    getChildren [] twins = some ⟨200, ascii "[\n\"a#0\",\n\"a#1\"\n]\n"⟩ ∧
      childKeys twins = [ascii "a#0", ascii "a#1"] ∧
      findAt (ascii "/a#0") twins = none ∧ findAt (ascii "/a#1") twins = none := by
  refine ⟨?_, by decide, by decide, by decide⟩
  rfl

end Http

end VersatileEngine
