import VersatileEngine.Md.Nesting

/-!
# VersatileEngine.Md.Onto

The import of a Markdown text straight into a node that holds something already.

* `Onto g`            — a change of the root that lets the nodes below it be added as before.
* `rebase`            — the stack whose lowest node is changed so; `assemble_rebase` adds the sections to it.
* `importDirect_onto` — what the text makes of a fresh node goes behind the children that are there; the
  value is written over when the text has one.
* `topTitles`         — the names of the headings that no heading of a smaller level precedes.
* `names_importDirect` — they are the names of the children that the text makes.
-/

namespace VersatileEngine

namespace Md

/-- A change of a node to which children can be added before or after. -/
def Onto (g : Tree → Tree) : Prop := ∀ t k : Tree, g (t.push k) = (g t).push k

section Rebase

variable {g : Tree → Tree} (hg : Onto g)

/-- The stack with its lowest node changed. -/
def rebase (g : Tree → Tree) : StackEntry → List StackEntry → StackEntry × List StackEntry
  | top, [] => ({ top with node := g top.node }, [])
  | top, parent :: below =>
    let r := rebase g parent below
    (top, r.1 :: r.2)

theorem rebase_level (g : Tree → Tree) (top : StackEntry) (below : List StackEntry) :
    (rebase g top below).1.level = top.level := by
  cases below <;> rfl

include hg in
theorem rebase_adopt (parent child : StackEntry) (below : List StackEntry) :
    rebase g (parent.adopt child) below =
      ((rebase g parent below).1.adopt child, (rebase g parent below).2) := by
  cases below with
  | nil => rw [rebase, rebase, StackEntry.adopt, StackEntry.adopt, hg]
  | cons q below => rfl

include hg in
theorem popTo_rebase (level : Nat) (below : List StackEntry) : ∀ top : StackEntry,
    popTo level (rebase g top below).1 (rebase g top below).2 =
      rebase g (popTo level top below).1 (popTo level top below).2 := by
  induction below with
  | nil => exact fun _ => rfl
  | cons parent below ih =>
    intro top
    rw [rebase, popTo, popTo]
    split_ifs
    · rw [← ih, rebase_adopt hg]
    · rfl

include hg in
theorem close_rebase (below : List StackEntry) : ∀ top : StackEntry,
    close (rebase g top below).1 (rebase g top below).2 = g (close top below) := by
  induction below with
  | nil => exact fun _ => rfl
  | cons parent below ih =>
    intro top
    rw [rebase, close, close, ← ih, rebase_adopt hg]

include hg in
theorem addSection_rebase (s : Section) (top : StackEntry) (below : List StackEntry) :
    addSection (rebase g top below) s =
      rebase g (addSection (top, below) s).1 (addSection (top, below) s).2 := by
  simp only [addSection, popTo_rebase hg, rebase_level]
  rfl

include hg in
/-- **The sections are added as before**: the change of the root can wait to the end. -/
theorem assemble_rebase (sections : List Section) : ∀ (top : StackEntry) (below : List StackEntry),
    assemble (rebase g top below) sections = g (assemble (top, below) sections) := by
  induction sections with
  | nil => exact fun top below => close_rebase hg below top
  | cons s sections ih =>
    intro top below
    have hstep := addSection_rebase hg s top below
    rw [assemble, List.foldl_cons, hstep]
    exact ih _ _

end Rebase

/-- The value after an import: the content, when there is some. -/
def overwrite (old new : Var) : Var := if new.isNull then old else new

/-- **What the text makes of a fresh node goes behind the children that are there.** -/
theorem importDirect_onto (dst : Tree) (nm md : Str) :
    importDirect dst md = .node dst.name (overwrite dst.value (content (chunk (marksOf md))))
      (dst.kids ++ (importDirect (.blank nm) md).kids) := by
  let text := trimTrailingWhitespace (unlines (chunk (marksOf md)))
  let g : Tree → Tree := fun t => .node dst.name (overwrite dst.value (content (chunk (marksOf md))))
    (dst.kids ++ t.kids)
  have hg : Onto g := by
    intro t k
    simp only [g, Tree.push_kids, ← List.append_assoc]
    rfl
  have hflush : ∀ t : Tree, flushContent t (unlines (chunk (marksOf md))) = setContent t text := fun _ => rfl
  have hroot : flushContent dst (unlines (chunk (marksOf md))) = g (setContent (.blank nm) text) := by
    refine Tree.ext ?_ ?_ ?_
    · rw [hflush, setContent_name]
      rfl
    · have hcontent : content (chunk (marksOf md)) = if text.isEmpty then .none else .string text := rfl
      rw [hflush, setContent]
      simp only [g, Tree.value_node, hcontent]
      split_ifs
      · rfl
      · rw [Tree.set_value]
        rfl
    · rw [hflush, setContent_kids]
      simp only [g, Tree.kids_node, setContent_kids]
      exact (List.append_nil _).symm
  have himport : ∀ t : Tree, importDirect t md =
      assemble (⟨flushContent t (unlines (chunk (marksOf md))), 0⟩, []) (outline (marksOf md)).sections := by
    intro t
    rw [importDirect, foldl_line]
    rfl
  have hassemble := assemble_rebase hg (outline (marksOf md)).sections ⟨setContent (.blank nm) text, 0⟩ []
  rw [himport, himport, hroot, hflush]
  exact hassemble

theorem importDirect_name (dst : Tree) (md : Str) : (importDirect dst md).name = dst.name := by
  rw [importDirect_onto dst [] md]
  rfl

theorem importDirect_value (dst : Tree) (md : Str) :
    (importDirect dst md).value = overwrite dst.value (content (chunk (marksOf md))) := by
  rw [importDirect_onto dst [] md]
  rfl

theorem importDirect_kids (dst : Tree) (nm md : Str) :
    (importDirect dst md).kids = dst.kids ++ (importDirect (.blank nm) md).kids := by
  rw [importDirect_onto dst nm md]
  rfl

/-! ## The headings at the top -/

/-- The names of the headings that stand under no other, after headings of the levels `before`. -/
def topTitles (before : List Nat) : List Mark → List Str
  | [] => []
  | .text _ _ :: ms => topTitles before ms
  | .heading level title :: ms =>
    (if ∀ l ∈ before, level ≤ l then [cleanHeadingText title] else []) ++ topTitles (level :: before) ms

theorem nearest_zero (level : Nat) (before : List Nat) :
    (nearest level before).1 = 0 ↔ ∀ l ∈ before, level ≤ l := by
  induction before with
  | nil => simp [nearest]
  | cons l before ih =>
    rw [nearest, List.forall_mem_cons]
    by_cases hl : l < level
    · rw [if_pos hl]
      refine iff_of_false (Nat.succ_ne_zero _) ?_
      rintro ⟨h, -⟩
      omega
    · rw [if_neg hl, ih, and_iff_right (Nat.not_lt.mp hl)]

theorem topTitles_eq (ms : List Mark) : ∀ before : List Nat,
    topTitles before ms = ((nested before ms).filter fun r => r.parent = 0).map Row.name := by
  induction ms with
  | nil => exact fun _ => rfl
  | cons m ms ih =>
    intro before
    cases m with
    | text fenced line => exact ih before
    | heading level title =>
      rw [topTitles, nested, ih, List.filter_cons]
      by_cases h : ∀ l ∈ before, level ≤ l
      · rw [if_pos h, if_pos (decide_eq_true ((nearest_zero level before).mpr h))]
        rfl
      · rw [if_neg h, if_neg fun hp => h ((nearest_zero level before).mp (of_decide_eq_true hp))]
        rfl

/-- The rows below the children of a node name the children as their parents. -/
theorem rows_parent (parent : Nat) (kids : List Tree) : ∀ next, parent < next →
    ((rows parent next kids).filter fun r => r.parent = parent).map Row.name =
        (kids.filter fun k => !isMeta k).map Tree.name ∧
      ∀ r ∈ rows parent next kids, r.parent = parent ∨ next ≤ r.parent := by
  match kids with
  | [] => exact fun _ _ => ⟨rfl, List.forall_mem_nil _⟩
  | .node name value own :: kids =>
    intro next hnext
    by_cases hmeta : isMeta (.node name value own) = true
    · simp only [rows, hmeta, if_true, List.nil_append, List.length_nil, Nat.add_zero]
      rw [List.filter_cons_of_neg (by simp [hmeta])]
      exact rows_parent parent kids next hnext
    · have hrows : rows parent next (.node name value own :: kids) =
          ⟨parent, name, value, own.filter isMeta⟩ :: rows next (next + 1) own ++
            rows parent (next + (rows next (next + 1) own).length + 1) kids := by
        rw [rows, if_neg hmeta, nodeRows, List.length_cons]
        rfl
      obtain ⟨-, hown⟩ := rows_parent next own (next + 1) (Nat.lt_succ_self _)
      obtain ⟨hnames, hkids⟩ := rows_parent parent kids (next + (rows next (next + 1) own).length + 1) (by omega)
      have hdeeper : ∀ r ∈ rows next (next + 1) own, next ≤ r.parent := by
        intro r hr
        rcases hown r hr with h | h <;> omega
      have hnone : (rows next (next + 1) own).filter (fun r => r.parent = parent) = [] := by
        refine List.filter_eq_nil_iff.mpr fun r hr => ?_
        have := hdeeper r hr
        simp only [decide_eq_true_eq]
        omega
      rw [hrows, List.filter_cons_of_pos (by simp [hmeta])]
      refine ⟨?_, ?_⟩
      · rw [List.cons_append, List.filter_cons_of_pos (by simp), List.filter_append, hnone, List.nil_append,
          List.map_cons, hnames]
        rfl
      · intro r hr
        rcases List.mem_append.mp hr with hr | hr
        · rcases List.mem_cons.mp hr with rfl | hr
          · exact .inl rfl
          · exact .inr (hdeeper r hr)
        · rcases hkids r hr with h | h
          · exact .inl h
          · exact .inr (by omega)

/-- **The children that a text makes** have the names of its headings at the top. -/
theorem names_importDirect (nm md : Str) :
    (importDirect (.blank nm) md).kids.map Tree.name = topTitles [] (marksOf md) := by
  obtain ⟨-, -, hmeta, hrows⟩ :=
    build_rows ⟨fun _ => [], fun _ => [], fun _ => 0, fun _ => 0⟩ nm (marksOf_good md)
  obtain ⟨hnames, -⟩ := rows_parent 0 (build nm (outline (marksOf md))).kids 1 Nat.one_pos
  have hall : ((build nm (outline (marksOf md))).kids.filter fun k => !isMeta k) =
      (build nm (outline (marksOf md))).kids := by
    refine List.filter_eq_self.mpr fun k hk => ?_
    rw [hmeta k hk]
    rfl
  rw [topTitles_eq, ← hrows, hnames, hall, importDirect_eq]

/-- The first heading is at the top. -/
theorem topTitles_nil (ms : List Mark) :
    topTitles [] ms = [] ↔ ∀ m ∈ ms, m.isHeading = false := by
  induction ms with
  | nil => exact iff_of_true rfl (List.forall_mem_nil _)
  | cons m ms ih =>
    rw [List.forall_mem_cons]
    cases m with
    | text fenced line => exact ih.trans (and_iff_right rfl).symm
    | heading level title =>
      refine iff_of_false ?_ ?_
      · rw [topTitles, if_pos (List.forall_mem_nil _)]
        exact List.cons_ne_nil _ _
      · rintro ⟨h, -⟩
        cases h

end Md

end VersatileEngine
