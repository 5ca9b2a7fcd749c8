import VersatileEngine.Core.Text
import VersatileEngine.Node.Resolve
import VersatileEngine.Search.Glob

/-!
# VersatileEngine.Search.Walk

The `search` command: the traversal below the search root and the paths it writes.

* `search`             — the command, from what its arguments say.
* `walk`               — the traversal, with the list of results that it fills up to the limit.
* `below`              — all hits in document order; `walk_eq`: the limit takes the first of them.
* `search_addressable` — **what is found is there and matches, no node is found twice**, and the path of a
  hit leads to it from the root of the tree where every node between it and the search root is the first
  of its name.
-/

namespace VersatileEngine.Search

open VersatileEngine.Tree

def toLower (str : Str) : Str := str.map fun c => if 65 ≤ c ∧ c ≤ 90 then c + 32 else c

/-- What the arguments of the command say. -/
structure Query where
  pattern : Str
  rootPath : Str
  key : Bool
  value : Bool
  path : Bool
  ignoreCase : Bool
  withValue : Bool
  leafOnly : Bool
  top : Int64

namespace Query

variable (o : Query)

def matchKey : Bool := o.key || (!o.value && !o.path)

/-- The pattern, or a text it is compared with, in lower case if the case is ignored. -/
def fold (str : Str) : Str := if o.ignoreCase then toLower str else str

/-- `static_cast<int>(a.integer("top", 10))`. -/
def topN : Int := wrap32 o.top.toInt

/-- `hit`, for a node and the path it is reported under. -/
def Hits (platform : Platform) (c : Tree) (childPath : Str) : Prop :=
  (o.matchKey = true ∧ o.fold o.pattern <:+: o.fold c.name) ∨
    (o.value = true ∧ c.value.isNull = false ∧ o.fold o.pattern <:+: o.fold (c.value.toString platform)) ∨
      (o.path = true ∧ globMatch (o.fold o.pattern) (o.fold childPath) = some true)

instance (platform : Platform) (c : Tree) (childPath : Str) : Decidable (o.Hits platform c childPath) :=
  inferInstanceAs (Decidable (_ ∨ _))

end Query

/-- A node that was found: its place, the path it is reported under and its value. -/
structure Hit where
  place : List Nat
  path : Str
  value : Var

section Traversal

variable (platform : Platform) (o : Query)

/-- What is pushed for a child. -/
def own (c : Tree) (childPath : Str) (place : List Nat) : List Hit :=
  if o.Hits platform c childPath ∧ ¬(o.leafOnly = true ∧ 0 < c.kids.length) then [⟨place, childPath, c.value⟩]
  else []

def join (currentPath nm : Str) : Str := if currentPath = [] then nm else currentPath ++ 47 :: nm

def isCallable : Var → Bool
  | .callable _ => true
  | _ => false

mutual
/-- `walk(n, currentPath)` for the node at `place`, with the results before and after it. -/
def walk (currentPath : Str) (place : List Nat) : Tree → List Hit → List Hit
  | node _ _ ks, results =>
    if o.topN ≤ results.length then results else walkAll currentPath place 0 ks results

/-- The loop of `walk` from the child `i` on. -/
def walkAll (currentPath : Str) (place : List Nat) (i : Nat) : List Tree → List Hit → List Hit
  | [], results => results
  | c :: cs, results =>
    if o.topN ≤ results.length then results
    else if isCallable c.value then walkAll currentPath place (i + 1) cs results
    else
      let childPath := join currentPath c.name
      walkAll currentPath place (i + 1) cs
        (walk childPath (place ++ [i]) c (results ++ own platform o c childPath (place ++ [i])))
end

mutual
/-- All hits below a node. -/
def below (currentPath : Str) (place : List Nat) : Tree → List Hit
  | node _ _ ks => belowAll currentPath place 0 ks

def belowAll (currentPath : Str) (place : List Nat) (i : Nat) : List Tree → List Hit
  | [] => []
  | c :: cs =>
    (if isCallable c.value then []
      else
        own platform o c (join currentPath c.name) (place ++ [i]) ++
          below (join currentPath c.name) (place ++ [i]) c) ++
      belowAll currentPath place (i + 1) cs
end

def searchRoot (root : Tree) : Option (List Nat) :=
  if o.rootPath = [] ∨ o.rootPath = ascii "/" then some [] else root.findPath pathSep keySep o.rootPath

/-- `rootPrefix`. -/
def rootPrefix (root : Tree) (r : List Nat) : Str := if r = [] then [] else root.pathOf r

/-- What is found below the search root. -/
def hits (root : Tree) (r : List Nat) : List Hit :=
  ((root.sub r).map fun t => walk platform o (rootPrefix root r) r t []).getD []

def report (h : Hit) : Var :=
  if o.withValue then .dict [(ascii "path", .string h.path), (ascii "value", h.value)] else .string h.path

def usage : Str :=
  ascii "Usage: search <pattern> [root] [--key|--value|--path] [--ignore-case] [--top N] " ++
    ascii "[--with-value] [--leaf-only]"

/-- The command: the results, or the text it fails with. -/
def search (root : Tree) : Except Str (List Var) :=
  if o.pattern = [] then .error usage
  else
    match searchRoot o root with
    | none => .error (ascii "root not found: " ++ o.rootPath)
    | some r => .ok ((hits platform o root r).map (report o))

end Traversal

/-! ## The limit -/

section Limit

variable {platform : Platform} {o : Query}

theorem full {n : Int} {results : List Hit} (h : n ≤ results.length) (hle : results.length ≤ n.toNat)
    (more : List Hit) : (results ++ more).take n.toNat = results := by
  have hn : results.length = n.toNat := by omega
  rw [← hn, List.take_left']
  rfl

theorem take_more (n : Nat) (a b : List Hit) : (a.take n ++ b).take n = (a ++ b).take n := by
  rw [List.take_append, List.take_append, List.take_take, min_self, List.length_take]
  congr 2
  omega

mutual
theorem walk_eq : ∀ (currentPath : Str) (place : List Nat) (t : Tree) (results : List Hit),
    results.length ≤ o.topN.toNat →
    walk platform o currentPath place t results =
      (results ++ below platform o currentPath place t).take o.topN.toNat
  | currentPath, place, node nm v ks, results, hle => by
    rw [walk, below]
    split_ifs with hfull
    · exact (full hfull hle _).symm
    · exact walkAll_eq currentPath place 0 ks results hle

theorem walkAll_eq : ∀ (currentPath : Str) (place : List Nat) (i : Nat) (ks : List Tree) (results : List Hit),
    results.length ≤ o.topN.toNat →
    walkAll platform o currentPath place i ks results =
      (results ++ belowAll platform o currentPath place i ks).take o.topN.toNat
  | currentPath, place, i, [], results, hle => by
    rw [walkAll, belowAll, List.append_nil, List.take_of_length_le hle]
  | currentPath, place, i, c :: cs, results, hle => by
    rw [walkAll, belowAll]
    by_cases hfull : o.topN ≤ results.length
    · rw [if_pos hfull, full hfull hle]
    rw [if_neg hfull]
    by_cases hcall : isCallable c.value = true
    · rw [if_pos hcall, if_pos hcall, List.nil_append]
      exact walkAll_eq currentPath place (i + 1) cs results hle
    · rw [if_neg hcall, if_neg hcall]
      have hown : (own platform o c (join currentPath c.name) (place ++ [i])).length ≤ 1 := by
        rw [own]
        split_ifs <;> simp
      have hle' : (results ++ own platform o c (join currentPath c.name) (place ++ [i])).length ≤
          o.topN.toNat := by
        rw [List.length_append]
        omega
      dsimp only
      rw [walk_eq _ _ c _ hle', walkAll_eq _ _ _ cs _ (List.length_take_le _ _), take_more]
      simp only [List.append_assoc]
end

end Limit

/-! ## What is found -/

section Found

variable {platform : Platform} {o : Query} {root : Tree}

/-- What is true of a hit that is found below `t`, the node at `place`, with `currentPath` for its path. -/
structure Sound (platform : Platform) (o : Query) (root : Tree) (currentPath : Str) (place : List Nat) (t : Tree)
    (h : Hit) (q : List Nat) (c : Tree) : Prop where
  place_eq : h.place = place ++ q
  sub_eq : t.sub q = some c
  value_eq : h.value = c.value
  matched : o.Hits platform c h.path
  leaf : o.leafOnly = true → c.kids = []
  found : Addressable root → root.findPath pathSep keySep currentPath = some place → root.sub place = some t →
    FirstOnWay q t → root.findPath pathSep keySep h.path = some h.place

theorem own_sound {currentPath : Str} {place : List Nat} {t c : Tree} {i : Nat} {h : Hit}
    (hc : t.kids[i]? = some c) (hmem : h ∈ own platform o c (join currentPath c.name) (place ++ [i])) :
    Sound platform o root currentPath place t h [i] c := by
  rw [own] at hmem
  split_ifs at hmem with hhit
  · obtain rfl := List.mem_singleton.mp hmem
    refine ⟨rfl, by rw [sub_cons, hc]; rfl, rfl, hhit.1, fun hleaf => ?_, fun ha hfind ht hway => ?_⟩
    · exact List.length_eq_zero_iff.mp (by_contra fun hne => hhit.2 ⟨hleaf, Nat.pos_of_ne_zero hne⟩)
    · obtain ⟨k, hk, hn, hfirst, -⟩ := hway
      rw [hc] at hk
      cases hk
      exact findPath_first ha hfind ht hc hn hfirst
  · cases hmem

theorem Sound.under {currentPath : Str} {place q : List Nat} {t c k : Tree} {i : Nat} {h : Hit}
    (hc : t.kids[i]? = some c) (hs : Sound platform o root (join currentPath c.name) (place ++ [i]) c h q k) :
    Sound platform o root currentPath place t h (i :: q) k := by
  refine ⟨?_, by rw [sub_cons, hc]; exact hs.sub_eq, hs.value_eq, hs.matched, hs.leaf, fun ha hfind ht hway => ?_⟩
  · rw [hs.place_eq, List.append_assoc]
    rfl
  · obtain ⟨k, hk, hn, hfirst, hway⟩ := hway
    rw [hc] at hk
    cases hk
    exact hs.found ha (findPath_first ha hfind ht hc hn hfirst) (sub_kid ht hc) hway

mutual
theorem below_sound : ∀ (currentPath : Str) (place : List Nat) (t : Tree) (h : Hit),
    h ∈ below platform o currentPath place t →
    ∃ i q c, Sound platform o root currentPath place t h (i :: q) c
  | currentPath, place, node nm v ks, h, hmem => by
    rw [below] at hmem
    obtain ⟨i, q, c, -, hs⟩ := belowAll_sound currentPath place 0 ks (node nm v ks) rfl h hmem
    exact ⟨i, q, c, hs⟩

theorem belowAll_sound : ∀ (currentPath : Str) (place : List Nat) (i : Nat) (ks : List Tree) (t : Tree),
    t.kids.drop i = ks → ∀ h : Hit, h ∈ belowAll platform o currentPath place i ks →
    ∃ j q c, i ≤ j ∧ Sound platform o root currentPath place t h (j :: q) c
  | currentPath, place, i, [], t, hdrop, h, hmem => by
    rw [belowAll] at hmem
    cases hmem
  | currentPath, place, i, c :: cs, t, hdrop, h, hmem => by
    have hc : t.kids[i]? = some c := by
      rw [← List.head?_drop, hdrop]
      rfl
    have htail : t.kids.drop (i + 1) = cs := by
      rw [← List.tail_drop, hdrop]
      rfl
    rw [belowAll] at hmem
    rcases List.mem_append.mp hmem with hmem | hmem
    · split_ifs at hmem with hcall
      · cases hmem
      · rcases List.mem_append.mp hmem with hmem | hmem
        · exact ⟨i, [], c, le_rfl, own_sound hc hmem⟩
        · obtain ⟨j, q, k, hs⟩ := below_sound _ _ c h hmem
          exact ⟨i, j :: q, k, le_rfl, hs.under hc⟩
    · obtain ⟨j, q, k, hij, hs⟩ := belowAll_sound currentPath place (i + 1) cs t htail h hmem
      exact ⟨j, q, k, by omega, hs⟩
end

mutual
theorem below_nodup : ∀ (currentPath : Str) (place : List Nat) (t : Tree),
    ((below platform o currentPath place t).map Hit.place).Nodup
  | currentPath, place, node nm v ks => by
    rw [below]
    exact belowAll_nodup currentPath place 0 ks (node nm v ks) rfl

theorem belowAll_nodup : ∀ (currentPath : Str) (place : List Nat) (i : Nat) (ks : List Tree) (t : Tree),
    t.kids.drop i = ks → ((belowAll platform o currentPath place i ks).map Hit.place).Nodup
  | currentPath, place, i, [], t, hdrop => by
    rw [belowAll]
    exact List.nodup_nil
  | currentPath, place, i, c :: cs, t, hdrop => by
    have htail : t.kids.drop (i + 1) = cs := by
      rw [← List.tail_drop, hdrop]
      rfl
    have hrest := belowAll_nodup currentPath place (i + 1) cs t htail
    rw [belowAll]
    split_ifs with hcall
    · exact hrest
    · have hown : ∀ h ∈ own platform o c (join currentPath c.name) (place ++ [i]), h.place = place ++ [i] := by
        intro h hmem
        rw [own] at hmem
        split_ifs at hmem
        · rw [List.mem_singleton.mp hmem]
        · cases hmem
      have hbelow : ∀ h ∈ below platform o (join currentPath c.name) (place ++ [i]) c,
          ∃ j q, h.place = place ++ i :: j :: q := by
        intro h hmem
        obtain ⟨j, q, k, hs⟩ := @below_sound platform o c _ _ c h hmem
        exact ⟨j, q, by rw [hs.place_eq, List.append_assoc]; rfl⟩
      have hafter : ∀ h ∈ belowAll platform o currentPath place (i + 1) cs,
          ∃ j q, i < j ∧ h.place = place ++ j :: q := by
        intro h hmem
        obtain ⟨j, q, k, hij, hs⟩ := @belowAll_sound platform o t currentPath place (i + 1) cs t htail h hmem
        exact ⟨j, q, hij, hs.place_eq⟩
      rw [List.map_append, List.map_append, List.nodup_append, List.nodup_append]
      refine ⟨⟨?_, below_nodup _ _ c, ?_⟩, hrest, ?_⟩
      · rw [own]
        split_ifs <;> simp
      · intro a ha b hb hab
        obtain ⟨h, hmem, rfl⟩ := List.mem_map.mp ha
        obtain ⟨h', hmem', rfl⟩ := List.mem_map.mp hb
        obtain ⟨j, q, hq⟩ := hbelow h' hmem'
        rw [hown h hmem, hq, List.append_cancel_left_eq] at hab
        cases hab
      · intro a ha b hb hab
        obtain ⟨h', hmem', rfl⟩ := List.mem_map.mp hb
        obtain ⟨j, q, hij, hq⟩ := hafter h' hmem'
        have hhere : ∃ q, a = place ++ i :: q := by
          rcases List.mem_append.mp ha with ha | ha <;> obtain ⟨h, hmem, rfl⟩ := List.mem_map.mp ha
          · exact ⟨[], hown h hmem⟩
          · obtain ⟨j, q, hq⟩ := hbelow h hmem
            exact ⟨j :: q, hq⟩
        obtain ⟨q', rfl⟩ := hhere
        rw [hq, List.append_cancel_left_eq, List.cons.injEq] at hab
        omega
end

theorem rootPrefix_eq (root : Tree) (r : List Nat) : rootPrefix root r = root.pathOf r := by
  rw [rootPrefix]
  split_ifs with hr
  · rw [hr]
    rfl
  · rfl

theorem hits_eq {r : List Nat} {t : Tree} (ht : root.sub r = some t) :
    hits platform o root r = (below platform o (root.pathOf r) r t).take o.topN.toNat := by
  rw [hits, ht, Option.map_some, Option.getD_some, rootPrefix_eq, walk_eq _ _ t [] (Nat.zero_le _),
    List.nil_append]

theorem search_ok {results : List Var} (h : search platform o root = .ok results) :
    ∃ r t, searchRoot o root = some r ∧ root.sub r = some t ∧
      results = (hits platform o root r).map (report o) := by
  rw [search] at h
  split_ifs at h
  cases hr : searchRoot o root with
  | none =>
    rw [hr] at h
    cases h
  | some r =>
    rw [hr] at h
    have hsub : ∃ t, root.sub r = some t := by
      rw [searchRoot] at hr
      split_ifs at hr
      · cases hr
        exact ⟨root, rfl⟩
      · exact findSegments_sub _ hr
    obtain ⟨t, ht⟩ := hsub
    exact ⟨r, t, rfl, ht, (Except.ok.inj h).symm⟩

/-- Every node from the search root `t` at `r` down to the hit is the first of its name. -/
def Direct (t : Tree) (r : List Nat) (h : Hit) : Prop := ∃ q, h.place = r ++ q ∧ FirstOnWay q t

/-- **Each result is a node below the search root that matches, and no node is there twice. The path leads from
the root of the tree to the node** where every node from the search root down to it is the first of its name;
such nodes have different paths. -/
theorem search_addressable (platform : Platform) (o : Query) {root : Tree} {results : List Var}
    (hroot : Addressable root) (hsearch : search platform o root = .ok results) :
    ∃ r t, searchRoot o root = some r ∧ root.sub r = some t ∧
      results = (hits platform o root r).map (report o) ∧
      (∀ h ∈ hits platform o root r, ∃ q c, h.place = r ++ q ∧ root.sub h.place = some c ∧ h.value = c.value ∧
        o.Hits platform c h.path ∧
        (Direct t r h → root.findPath pathSep keySep h.path = some h.place)) ∧
      (hits platform o root r).Pairwise fun h h' =>
        h.place ≠ h'.place ∧ (Direct t r h → Direct t r h' → h.path ≠ h'.path) := by
  obtain ⟨r, t, hr, ht, hresults⟩ := search_ok hsearch
  have hsound : ∀ h ∈ hits platform o root r, ∃ q c,
      Sound platform o root (root.pathOf r) r t h q c := by
    intro h hmem
    rw [hits_eq ht] at hmem
    obtain ⟨i, q, c, hs⟩ := below_sound _ _ t h (List.mem_of_mem_take hmem)
    exact ⟨i :: q, c, hs⟩
  have hleads : ∀ h ∈ hits platform o root r, Direct t r h →
      root.findPath pathSep keySep h.path = some h.place := by
    rintro h hmem ⟨q, hq, hway⟩
    obtain ⟨q', c, hs⟩ := hsound h hmem
    obtain rfl : q' = q := List.append_cancel_left (hs.place_eq.symm.trans hq)
    exact hs.found hroot (findPath_pathOf hroot ht) ht hway
  refine ⟨r, t, hr, ht, hresults, fun h hmem => ?_, ?_⟩
  · obtain ⟨q, c, hs⟩ := hsound h hmem
    refine ⟨q, c, hs.place_eq, ?_, hs.value_eq, hs.matched, hleads h hmem⟩
    rw [hs.place_eq, sub_append, ht]
    exact hs.sub_eq
  · have hnodup : ((hits platform o root r).map Hit.place).Nodup := by
      rw [hits_eq ht, List.map_take]
      exact List.Nodup.sublist (List.take_sublist _ _) (below_nodup _ _ t)
    rw [List.Nodup, List.pairwise_map] at hnodup
    refine hnodup.imp_of_mem fun {h h'} hmem hmem' hne => ⟨hne, fun hd hd' heq => hne ?_⟩
    have hplace := hleads h hmem hd
    rw [heq, hleads h' hmem' hd'] at hplace
    exact (Option.some.inj hplace).symm

end Found

/-- `ve` with `port` and two times `log`, each with `level`. -/
def searchSample : Tree :=
  node [] .none [node (ascii "ve") .none
    [blank (ascii "port"), node (ascii "log") .none [blank (ascii "level")],
      node (ascii "log") .none [blank (ascii "level")]]]

/-- `search port ve`, and nothing else that is asked for. -/
def samplePlain : Query where
  pattern := ascii "port"
  rootPath := ascii "ve"
  key := false
  value := false
  path := false
  ignoreCase := false
  withValue := false
  leafOnly := false
  top := 10

def samplePlatform : Platform := ⟨fun _ => [], fun _ => [], fun _ => 0, fun _ => 0⟩

theorem addressable_blank (nm : Str) : Addressable (blank nm) := addressable_node (by simp) (by simp)

theorem addressable_searchSample : Addressable searchSample := by
  have hlog : Addressable (node (ascii "log") .none [blank (ascii "level")]) := by
    refine addressable_node (by simp) fun k hk => ?_
    obtain rfl := List.mem_singleton.mp hk
    exact ⟨.inr (by decide), addressable_blank _⟩
  have hve : Addressable (node (ascii "ve") .none
      [blank (ascii "port"), node (ascii "log") .none [blank (ascii "level")],
        node (ascii "log") .none [blank (ascii "level")]]) := by
    refine addressable_node (by simp) fun k hk => ?_
    simp only [List.mem_cons, List.not_mem_nil, or_false] at hk
    rcases hk with rfl | rfl | rfl
    · exact ⟨.inr (by decide), addressable_blank _⟩
    all_goals exact ⟨.inr (by decide), hlog⟩
  refine addressable_node (by simp) fun k hk => ?_
  obtain rfl := List.mem_singleton.mp hk
  exact ⟨.inr (by decide), hve⟩

theorem search_addressable_sample :
    searchSample.findPath pathSep keySep (ascii "ve/port") = some [0, 0] := by
  have hok : search samplePlatform samplePlain searchSample = .ok [.string (ascii "ve/port")] := rfl
  obtain ⟨r, t, hr, ht, -, hhits, -⟩ := search_addressable samplePlatform samplePlain addressable_searchSample hok
  obtain rfl : r = [0] := Option.some.inj (hr.symm.trans (by decide))
  cases ht
  have hmem : (⟨[0, 0], ascii "ve/port", .none⟩ : Hit) ∈ hits samplePlatform samplePlain searchSample [0] := by
    rw [show hits samplePlatform samplePlain searchSample [0] = [⟨[0, 0], ascii "ve/port", .none⟩] from rfl]
    exact List.mem_singleton.mpr rfl
  obtain ⟨q, c, -, -, -, -, hleads⟩ := hhits _ hmem
  refine hleads ⟨[0], rfl, blank (ascii "port"), rfl, by decide, ?_, trivial⟩
  intro x hx
  cases hx

/-- `search port ve` reports a path from the root of the tree, and it leads nowhere from the search root. -/
theorem prefixed_path :
    searchSample.findPath pathSep keySep (ascii "ve") = some [0] ∧
      search samplePlatform samplePlain searchSample = .ok [.string (ascii "ve/port")] ∧
      (searchSample.sub [0]).map (fun t => t.findPath pathSep keySep (ascii "ve/port")) = some none := by
  refine ⟨by decide, ?_, by decide⟩
  rfl

end VersatileEngine.Search
