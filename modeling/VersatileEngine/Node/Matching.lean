import VersatileEngine.Node.Tree

/-!
# VersatileEngine.Node.Matching

The matching of `copy`, in closed form.

`CopyMatchState` walks one cursor through each bucket of equally named children. `Matching` says
what a state means after some source children: each cursor stands behind as many children of its
bucket as sources of that name were seen, and exactly those children are matched. So a source child
is matched with the child of the same key (`takeCopyMatch_eq`), and after all sources the matched
children are those whose key occurs among the sources (`matched_all`).
-/

namespace VersatileEngine

/-- `takeFrom` on a bucket of which the first `n` children are matched. -/
theorem takeFrom_bucket {b matched : List Id} {n : Nat} (hb : b.Nodup)
    (hm : ∀ c ∈ b, c ∈ matched ↔ c ∈ b.take n) :
    takeFrom (b.drop (min n b.length)) (min n b.length) matched =
      (b[n]?, min (n + 1) b.length, match b[n]? with
        | some c => c :: matched
        | none => matched) := by
  by_cases hn : n < b.length
  · have hmin : min n b.length = n := by omega
    have hmin' : min (n + 1) b.length = n + 1 := by omega
    have hfree : b[n] ∉ matched := fun hmem => by
      have htake := (hm _ (List.getElem_mem hn)).mp hmem
      obtain ⟨i, hi, he⟩ := List.getElem_of_mem htake
      rw [List.getElem_take] at he
      rw [List.length_take] at hi
      have := (hb.getElem_inj_iff).mp he
      omega
    rw [hmin, hmin', List.drop_eq_getElem_cons hn, List.getElem?_eq_getElem hn]
    simp [takeFrom, hfree]
  · have hmin : min n b.length = b.length := by omega
    have hmin' : min (n + 1) b.length = b.length := by omega
    rw [hmin, hmin', List.drop_length, List.getElem?_eq_none (by omega)]
    rfl

/-- The state of the matching against `ds` after sources of the names `seen`. -/
structure Matching (name : Id → Str) (ds : List Id) (seen : List Str) (st : CopyMatchState) :
    Prop where
  namedChildren : ∀ nm, nm ≠ [] → st.namedChildren nm = ds.filter (named name nm)
  anonymousChildren : st.anonymousChildren = ds.filter (named name [])
  namedCursor : ∀ nm, nm ≠ [] →
    st.namedCursor nm = min (seen.count nm) (ds.filter (named name nm)).length
  anonymousCursor : st.anonymousCursor = min (seen.count []) (ds.filter (named name [])).length
  matched : ∀ c ∈ ds, c ∈ st.matched ↔
    c ∈ (ds.filter (named name (name c))).take (seen.count (name c))

section Matching

variable {name g : Id → Str} {ds : List Id} {seen : List Str} {st : CopyMatchState} {s : Id}

theorem named_beq (name : Id → Str) (nm : Str) : (fun c => name c == nm) = named name nm := by
  funext c
  simp [named, beq_eq_decide]

theorem matching_bucketChildren (name : Id → Str) (ds : List Id) :
    Matching name ds [] (bucketChildren name ds) := by
  refine ⟨fun nm hn => ?_, rfl, fun nm hn => ?_, ?_, fun c _ => ?_⟩
  · simp only [bucketChildren, hn, if_false]
    rfl
  · simp [bucketChildren]
  · simp [bucketChildren]
  · simp [bucketChildren]

/-- What matching one source of the name `nm` does to the matched set. -/
theorem matched_next {matched : List Id} {nm : Str}
    (hm : ∀ c ∈ ds, c ∈ matched ↔ c ∈ (ds.filter (named name (name c))).take (seen.count (name c))) :
    ∀ c ∈ ds, (c ∈ match (ds.filter (named name nm))[seen.count nm]? with
        | some m => m :: matched
        | none => matched) ↔
      c ∈ (ds.filter (named name (name c))).take ((nm :: seen).count (name c)) := by
  intro c hc
  by_cases hn : name c = nm
  · subst hn
    rw [List.count_cons_self]
    cases hb : (ds.filter (named name (name c)))[seen.count (name c)]? with
    | none =>
      have hlen := List.getElem?_eq_none_iff.mp hb
      simp only [hm c hc]
      rw [List.take_of_length_le hlen, List.take_of_length_le (by omega)]
    | some m =>
      obtain ⟨hlt, rfl⟩ := List.getElem?_eq_some_iff.mp hb
      simp only [List.mem_cons, hm c hc, List.take_succ_eq_append_getElem hlt, List.mem_append]
      rw [or_comm]
      simp
  · rw [List.count_cons_of_ne (Ne.symm hn)]
    cases hb : (ds.filter (named name nm))[seen.count nm]? with
    | none => exact hm c hc
    | some m =>
      have hmn : name m = nm := by
        have := (List.mem_filter.mp (List.mem_of_getElem? hb)).2
        simpa [named] using this
      have hne : c ≠ m := fun he => hn (he ▸ hmn)
      simp only [List.mem_cons, hne, false_or]
      exact hm c hc

/-- **A source child is matched with the child of the same key.** -/
theorem takeCopyMatch_eq (hds : ds.Nodup) (h : Matching name ds seen st) :
    (takeCopyMatch g s st).1 = (keyed name ds).lookup (g s, seen.count (g s)) ∧
      Matching name ds (g s :: seen) (takeCopyMatch g s st).2 := by
  rw [lookup_keyed, named_beq]
  have hbucket : ∀ nm c, c ∈ ds.filter (named name nm) → (c ∈ st.matched ↔
      c ∈ (ds.filter (named name nm)).take (seen.count nm)) := fun nm c hc => by
    obtain ⟨hcd, hcn⟩ := List.mem_filter.mp hc
    have hcn' : name c = nm := by simpa [named] using hcn
    rw [h.matched c hcd, hcn']
  have htake := fun nm => takeFrom_bucket (hds.filter (named name nm)) (hbucket nm)
  have hcount : ∀ nm, nm ≠ g s → (g s :: seen).count nm = seen.count nm := fun nm hn =>
    List.count_cons_of_ne (Ne.symm hn)
  by_cases hs : g s = []
  · have hrun : takeCopyMatch g s st = ((ds.filter (named name []))[seen.count []]?,
        { st with
          anonymousCursor := min (seen.count [] + 1) (ds.filter (named name [])).length
          matched := match (ds.filter (named name []))[seen.count []]? with
            | some c => c :: st.matched
            | none => st.matched }) := by
      simp only [takeCopyMatch, hs, if_true, h.anonymousChildren, h.anonymousCursor, htake]
    rw [hrun, hs]
    refine ⟨rfl, h.namedChildren, h.anonymousChildren, fun nm hn => ?_, ?_, ?_⟩
    · rw [← hs, hcount nm (by rw [hs]; exact hn)]
      exact h.namedCursor nm hn
    · rw [List.count_cons_self]
    · exact matched_next h.matched
  · have hrun : takeCopyMatch g s st = ((ds.filter (named name (g s)))[seen.count (g s)]?,
        { st with
          namedCursor := fun x => if x = g s then
            min (seen.count (g s) + 1) (ds.filter (named name (g s))).length else st.namedCursor x
          matched := match (ds.filter (named name (g s)))[seen.count (g s)]? with
            | some c => c :: st.matched
            | none => st.matched }) := by
      simp only [takeCopyMatch, hs, if_false, h.namedChildren _ hs, h.namedCursor _ hs, htake]
    rw [hrun]
    refine ⟨rfl, h.namedChildren, h.anonymousChildren, fun nm hn => ?_, ?_, ?_⟩
    · by_cases he : nm = g s
      · subst he; simp
      · simp only [he, if_false, hcount nm he]
        exact h.namedCursor nm hn
    · rw [hcount [] (Ne.symm hs)]
      exact h.anonymousCursor
    · exact matched_next h.matched

theorem matching_foldl (hds : ds.Nodup) (ss : List Id) :
    ∀ {seen : List Str} {st : CopyMatchState}, Matching name ds seen st →
      Matching name ds ((ss.map g).reverse ++ seen)
        (ss.foldl (fun st s => (takeCopyMatch g s st).2) st) := by
  induction ss with
  | nil => intro seen st h; exact h
  | cons s ss ih =>
    intro seen st h
    have := ih (takeCopyMatch_eq (g := g) (s := s) hds h).2
    simpa using this

/-- **After all sources exactly the children whose key occurs among the sources are matched.** -/
theorem matched_all (hds : ds.Nodup) (ss : List Id) {key : Str × Nat} {c : Id}
    (hc : (key, c) ∈ keyed name ds) :
    c ∈ (ss.foldl (fun st s => (takeCopyMatch g s st).2) (bucketChildren name ds)).matched ↔
      key.2 < (ss.map g).count key.1 := by
  obtain ⟨nm, j⟩ := key
  have hall := matching_foldl (g := g) hds ss (matching_bucketChildren name ds)
  obtain ⟨hn, -, hmem⟩ := mem_keyedFrom hc
  simp only at hn
  have hget := lookup_of_mem (keyed_nodup name ds) hc
  rw [lookup_keyed, named_beq] at hget
  obtain ⟨hlt, he⟩ := List.getElem?_eq_some_iff.mp hget
  rw [hall.matched c hmem, hn, List.append_nil, List.count_reverse]
  show c ∈ (ds.filter (named name nm)).take ((ss.map g).count nm) ↔ j < (ss.map g).count nm
  constructor
  · intro htake
    obtain ⟨i, hi, hi'⟩ := List.getElem_of_mem htake
    rw [List.getElem_take, ← he] at hi'
    rw [List.length_take] at hi
    have := ((hds.filter _).getElem_inj_iff).mp hi'
    omega
  · intro hj
    rw [← he]
    refine List.mem_iff_getElem.mpr ⟨j, ?_, ?_⟩
    · rw [List.length_take]; omega
    · rw [List.getElem_take]

end Matching

end VersatileEngine
