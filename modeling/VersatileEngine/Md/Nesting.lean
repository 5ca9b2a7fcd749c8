import VersatileEngine.Md.RoundTrip

/-!
# VersatileEngine.Md.Nesting

Where the import puts each line of a Markdown text.

* `Fences`, `IsHeading` — the lines of code fences and the heading lines, without the state of the import.
* `rows`   — the nodes below a node in document order, each with the number of its parent.
* `nested` — the rows that the marks of a text call for.
* `import_nests` — these are the rows that the import makes.
-/

namespace VersatileEngine

namespace Md

/-! ## Fences -/

/-- The line `l` ends the fence that the line `o` opens. -/
def Closes (o l : Str) : Prop :=
  3 ≤ (fenceRun l).length ∧ (fenceRun l).headD 0 = (fenceRun o).headD 0 ∧
    (fenceRun o).length ≤ (fenceRun l).length

/-- Which lines stand in a fence or at its ends. -/
inductive Fences : List Str → List Bool → Prop
  | nil : Fences [] []
  | plain {l : Str} {lines : List Str} {flags : List Bool} (hl : (fenceRun l).length < 3)
      (h : Fences lines flags) :
    Fences (l :: lines) (false :: flags)
  | closed {o c : Str} {inner lines : List Str} {flags : List Bool} (ho : 3 ≤ (fenceRun o).length)
      (hi : ∀ l ∈ inner, ¬ Closes o l) (hc : Closes o c) (h : Fences lines flags) :
    Fences (o :: (inner ++ c :: lines)) (true :: (inner.map (fun _ => true) ++ true :: flags))
  | unclosed {o : Str} {inner : List Str} (ho : 3 ≤ (fenceRun o).length) (hi : ∀ l ∈ inner, ¬ Closes o l) :
    Fences (o :: inner) (true :: inner.map fun _ => true)

/-- The flags that the import computes. -/
def fenceFlags : Bool × Str → List Str → List Bool
  | _, [] => []
  | fence, line :: lines =>
    let next := isInsideCodeFence line fence.1 fence.2
    (fence.1 || next.1) :: fenceFlags next lines

theorem marks_zip (lines : List Str) : ∀ fence,
    marks fence lines = List.zipWith markOf (fenceFlags fence lines) lines := by
  induction lines with
  | nil => exact fun _ => rfl
  | cons line lines ih =>
    intro fence
    rw [marks, fenceFlags, List.zipWith_cons_cons, ih]

section Fence

variable {o l : Str}

theorem fence_plain (h : (fenceRun l).length < 3) (fence : Bool × Str) :
    isInsideCodeFence l fence.1 fence.2 = fence := by
  rw [isInsideCodeFence, if_pos h]

theorem fence_opened (h : 3 ≤ (fenceRun l).length) (marker : Str) :
    isInsideCodeFence l false marker = (true, fenceRun l) := by
  rw [isInsideCodeFence, if_neg (by omega)]
  rfl

theorem fence_closed (h : Closes o l) : isInsideCodeFence l true (fenceRun o) = (false, []) := by
  rw [isInsideCodeFence, if_neg (by have := h.1; omega)]
  simp only [Bool.not_true, Bool.false_eq_true, if_false]
  exact if_pos h.2

theorem fence_stays (h : ¬ Closes o l) : isInsideCodeFence l true (fenceRun o) = (true, fenceRun o) := by
  by_cases hl : (fenceRun l).length < 3
  · exact fence_plain hl (true, fenceRun o)
  · rw [isInsideCodeFence, if_neg hl]
    simp only [Bool.not_true, Bool.false_eq_true, if_false]
    exact if_neg fun hrun => h ⟨by omega, hrun⟩

/-- A line that does not end the fence may be added after the one that opens it. -/
theorem Fences.insert {lines : List Str} {flags : List Bool} (hl : ¬ Closes o l)
    (h : Fences (o :: lines) (true :: flags)) : Fences (o :: l :: lines) (true :: true :: flags) := by
  cases h with
  | closed ho hi hc h => exact .closed ho (List.forall_mem_cons.mpr ⟨hl, hi⟩) hc h
  | unclosed ho hi => exact .unclosed ho (List.forall_mem_cons.mpr ⟨hl, hi⟩)

/-- The flags computed outside of fences, and in one that a line before has opened. -/
theorem fenceFlags_fences (lines : List Str) :
    (∀ marker, Fences lines (fenceFlags (false, marker) lines)) ∧
      ∀ o, 3 ≤ (fenceRun o).length → Fences (o :: lines) (true :: fenceFlags (true, fenceRun o) lines) := by
  induction lines with
  | nil => exact ⟨fun _ => .nil, fun o ho => @Fences.unclosed o [] ho (by simp)⟩
  | cons l lines ih =>
    refine ⟨fun marker => ?_, fun o ho => ?_⟩
    · by_cases hl : (fenceRun l).length < 3
      · rw [fenceFlags, fence_plain hl (false, marker)]
        exact .plain hl (ih.1 marker)
      · rw [fenceFlags, fence_opened (not_lt.mp hl)]
        exact ih.2 l (not_lt.mp hl)
    · by_cases hl : Closes o l
      · rw [fenceFlags, fence_closed hl]
        exact @Fences.closed o l [] lines _ ho (by simp) hl (ih.1 [])
      · rw [fenceFlags, fence_stays hl]
        exact (ih.2 o ho).insert hl

/-- The lines in a fence that do not end it. -/
theorem fenceFlags_inner {inner : List Str} (hi : ∀ l ∈ inner, ¬ Closes o l) (lines : List Str) :
    fenceFlags (true, fenceRun o) (inner ++ lines) =
      inner.map (fun _ => true) ++ fenceFlags (true, fenceRun o) lines := by
  induction inner with
  | nil => rfl
  | cons l inner ih =>
    obtain ⟨hl, hi⟩ := List.forall_mem_cons.mp hi
    rw [List.cons_append, fenceFlags, fence_stays hl, ih hi]
    rfl

theorem fences_unique {lines : List Str} {flags : List Bool} (h : Fences lines flags) : ∀ marker,
    flags = fenceFlags (false, marker) lines := by
  induction h with
  | nil => exact fun _ => rfl
  | plain hl h ih =>
    intro marker
    rw [fenceFlags, fence_plain hl (false, marker), ← ih marker]
    rfl
  | closed ho hi hc h ih =>
    intro marker
    rw [fenceFlags, fence_opened ho, fenceFlags_inner hi, fenceFlags, fence_closed hc, ← ih []]
    rfl
  | @unclosed o inner ho hi =>
    intro marker
    have hinner := fenceFlags_inner hi []
    rw [List.append_nil] at hinner
    rw [fenceFlags, fence_opened ho, hinner, fenceFlags, List.append_nil]
    rfl

theorem fences_iff {lines : List Str} {flags : List Bool} :
    Fences lines flags ↔ flags = fenceFlags (false, []) lines := by
  refine ⟨fun h => fences_unique h [], ?_⟩
  rintro rfl
  exact (fenceFlags_fences lines).1 []

end Fence

/-! ## Heading lines -/

/-- At most three spaces, one to six `#`, and then nothing or a blank. -/
def IsHeading (level : Nat) (line : Str) : Prop :=
  1 ≤ level ∧ level ≤ 6 ∧ ∃ n rest, n ≤ 3 ∧
    line = List.replicate n 32 ++ (List.replicate level 35 ++ rest) ∧
    (rest = [] ∨ isBlank (rest.headD 0) = true)

theorem skip_spaces (s : Str) : ∀ n : Nat,
    ∃ m, m ≤ n ∧ s = List.replicate m 32 ++ skip (fun c => c = 32) n s := by
  induction s with
  | nil =>
    intro n
    refine ⟨0, Nat.zero_le n, ?_⟩
    cases n <;> rfl
  | cons c s ih =>
    intro n
    cases n with
    | zero => exact ⟨0, Nat.le_refl 0, rfl⟩
    | succ n =>
      by_cases hc : c = 32
      · obtain ⟨m, hm, hs⟩ := ih n
        refine ⟨m + 1, by omega, ?_⟩
        rw [skip, if_pos (by simpa using hc), List.replicate_succ, List.cons_append, ← hs, hc]
      · refine ⟨0, Nat.zero_le _, ?_⟩
        rw [skip, if_neg (by simpa using hc)]
        rfl

theorem skip_replicate (s : Str) : ∀ {m n : Nat}, m ≤ n →
    skip (fun c => c = 32) n (List.replicate m 32 ++ 35 :: s) = 35 :: s := by
  intro m
  induction m with
  | zero =>
    intro n _
    cases n <;> rfl
  | succ m ih =>
    intro n hn
    obtain ⟨n, rfl⟩ : ∃ k, n = k + 1 := ⟨n - 1, by omega⟩
    exact ih (by omega)

theorem hashes_split (s : Str) :
    s = List.replicate (s.takeWhile fun c => c = 35).length 35 ++ s.dropWhile fun c => c = 35 := by
  have hall : s.takeWhile (fun c => c = 35) = List.replicate (s.takeWhile fun c => c = 35).length 35 :=
    List.eq_replicate_iff.mpr ⟨rfl, fun c hc => by simpa using List.mem_takeWhile_imp hc⟩
  rw [← hall, List.takeWhile_append_dropWhile]

/-- The `#` before a line that ends or goes on with a blank. -/
theorem hashes_counted {rest : Str} (h : rest = [] ∨ isBlank (rest.headD 0) = true) (level : Nat) :
    ((List.replicate level 35 ++ rest).takeWhile fun c => c = 35) = List.replicate level 35 ∧
      ((List.replicate level 35 ++ rest).dropWhile fun c => c = 35) = rest := by
  have hrest : (rest.takeWhile fun c => c = 35) = [] ∧ (rest.dropWhile fun c => c = 35) = rest := by
    rcases h with rfl | h
    · exact ⟨rfl, rfl⟩
    · cases rest with
      | nil => exact ⟨rfl, rfl⟩
      | cons c rest =>
        have hc : c ≠ 35 := by
          rintro rfl
          cases h
        simp [hc]
  constructor
  · rw [List.takeWhile_append_of_pos (by simp), hrest.1, List.append_nil]
  · rw [List.dropWhile_append_of_pos (by simp), hrest.2]

/-- The parse of a line, by its `#` and what follows them. -/
theorem parse_level (level : Nat) (line : Str) :
    (∃ h, parseHeadingLine line = some h ∧ h.level = level) ↔ 1 ≤ level ∧ level ≤ 6 ∧
      ∃ rest, skip (fun c => c = 32) 3 line = List.replicate level 35 ++ rest ∧
        (rest = [] ∨ isBlank (rest.headD 0) = true) := by
  rw [parseHeadingLine]
  generalize skip (fun c => c = 32) 3 line = s
  constructor
  · rintro ⟨h, hp, rfl⟩
    simp only at hp
    split_ifs at hp with hlevel hrest
    obtain rfl := Option.some.inj hp
    refine ⟨not_lt.mp fun h => hlevel (.inl h), not_lt.mp fun h => hlevel (.inr h),
      s.dropWhile (fun c => c = 35), hashes_split s, ?_⟩
    by_cases hnil : s.dropWhile (fun c => c = 35) = []
    · exact .inl hnil
    · exact .inr (by simpa [hnil] using hrest)
  · rintro ⟨h1, h6, rest, rfl, hrest⟩
    obtain ⟨htake, hdrop⟩ := hashes_counted hrest level
    simp only [htake, hdrop, List.length_replicate]
    have hblank : ¬ (rest ≠ [] ∧ (!isBlank (rest.headD 0)) = true) := by
      rintro ⟨hne, hb⟩
      rw [hrest.resolve_left hne] at hb
      cases hb
    rw [if_neg (by omega), if_neg hblank]
    exact ⟨_, rfl, rfl⟩

/-- The import takes for a heading what is one. -/
theorem markOf_heading_iff (level : Nat) (line : Str) :
    (∃ title, markOf false line = .heading level title) ↔ IsHeading level line := by
  have hparse : (∃ title, markOf false line = .heading level title) ↔
      ∃ h, parseHeadingLine line = some h ∧ h.level = level := by
    rw [markOf]
    cases parseHeadingLine line <;> simp
  rw [hparse, parse_level]
  refine and_congr_right fun h1 => and_congr_right fun _ => ?_
  constructor
  · rintro ⟨rest, hs, hrest⟩
    obtain ⟨n, hn, hline⟩ := skip_spaces line 3
    rw [hs] at hline
    exact ⟨n, rest, hn, hline, hrest⟩
  · rintro ⟨n, rest, hn, rfl, hrest⟩
    obtain ⟨k, rfl⟩ : ∃ k, level = k + 1 := ⟨level - 1, by omega⟩
    refine ⟨rest, ?_, hrest⟩
    rw [List.replicate_succ, List.cons_append, skip_replicate _ hn]

/-! ## Rows -/

/-- A node in document order: the number of its parent, its name and value, and its nodes about itself. -/
structure Row where
  parent : Nat
  name : Str
  value : Var
  metas : List Tree

mutual
/-- The rows of a node with the number `number` and of the nodes below it. -/
def nodeRows (parent number : Nat) : Tree → List Row
  | .node name value kids => ⟨parent, name, value, kids.filter isMeta⟩ :: rows number (number + 1) kids

/-- The rows of children, the first of which has the number `next`. -/
def rows (parent next : Nat) : List Tree → List Row
  | [] => []
  | k :: kids =>
    let own := if isMeta k then [] else nodeRows parent next k
    own ++ rows parent (next + own.length) kids
end

theorem rows_append (parent : Nat) (b : List Tree) : ∀ (a : List Tree) (next : Nat),
    rows parent next (a ++ b) = rows parent next a ++ rows parent (next + (rows parent next a).length) b := by
  intro a
  induction a with
  | nil => exact fun _ => rfl
  | cons k a ih =>
    intro next
    rw [List.cons_append, rows, rows, ih]
    simp only [List.length_append, List.append_assoc, Nat.add_assoc]

theorem rows_single {k : Tree} (hk : isMeta k = false) (parent next : Nat) :
    rows parent next [k] = nodeRows parent next k := by
  rw [rows, rows, hk]
  exact List.append_nil _

theorem rows_metas {kids : List Tree} (h : ∀ k ∈ kids, isMeta k = true) (parent : Nat) : ∀ next,
    rows parent next kids = [] := by
  induction kids with
  | nil => exact fun _ => rfl
  | cons k kids ih =>
    obtain ⟨hk, h⟩ := List.forall_mem_cons.mp h
    intro next
    rw [rows, if_pos hk, ih h]
    rfl

theorem nodeRows_push {c : Tree} (hc : isMeta c = false) (parent number : Nat) (t : Tree) :
    nodeRows parent number (t.push c) = nodeRows parent number t ++
      nodeRows number (number + (nodeRows parent number t).length) c := by
  obtain ⟨name, value, kids⟩ := t
  have hpush : (Tree.node name value kids).push c = .node name value (kids ++ [c]) := rfl
  rw [hpush, nodeRows, nodeRows, rows_append, rows_single hc, List.filter_append, List.filter_singleton, hc,
    List.length_cons, Nat.add_right_comm, ← Nat.add_assoc]
  simp

/-! ## The stack -/

/-- The number of the top of the stack, and the rows of all nodes on the stack and below them. -/
def stackRows : StackEntry → List StackEntry → Nat × List Row
  | top, [] => (0, rows 0 1 top.node.kids)
  | top, parent :: below =>
    let s := stackRows parent below
    (s.2.length + 1, s.2 ++ nodeRows s.1 (s.2.length + 1) top.node)

theorem stackRows_adopt {parent child : StackEntry} (hc : isMeta child.node = false) (below : List StackEntry) :
    (stackRows (parent.adopt child) below).2 = (stackRows child (parent :: below)).2 := by
  rw [stackRows]
  cases below with
  | nil =>
    rw [stackRows, stackRows, StackEntry.adopt, Tree.push_kids, rows_append, rows_single hc, Nat.add_comm 1]
  | cons q below =>
    rw [stackRows, stackRows, StackEntry.adopt, nodeRows_push hc]
    simp only [List.length_append, List.append_assoc, Nat.add_right_comm]

/-- The name and the value of the root. -/
def rootOf : StackEntry → List StackEntry → Str × Var
  | top, [] => (top.node.name, top.node.value)
  | _, parent :: below => rootOf parent below

theorem rootOf_adopt (parent child : StackEntry) (below : List StackEntry) :
    rootOf (parent.adopt child) below = rootOf parent below := by
  cases below with
  | nil => simp [rootOf, StackEntry.adopt]
  | cons q below => rfl

theorem popTo_root (level : Nat) (below : List StackEntry) : ∀ top : StackEntry,
    rootOf (popTo level top below).1 (popTo level top below).2 = rootOf top below := by
  induction below with
  | nil => exact fun _ => rfl
  | cons parent below ih =>
    intro top
    rw [popTo]
    split_ifs
    · rw [ih, rootOf_adopt, rootOf]
    · rfl

theorem close_root (below : List StackEntry) : ∀ top : StackEntry,
    ((close top below).name, (close top below).value) = rootOf top below := by
  induction below with
  | nil => exact fun _ => rfl
  | cons parent below ih =>
    intro top
    rw [close, ih, rootOf_adopt, rootOf]

theorem popTo_rows {platform : Platform} (level : Nat) (below : List StackEntry) : ∀ top : StackEntry,
    Stacked platform top below →
      (stackRows (popTo level top below).1 (popTo level top below).2).2 = (stackRows top below).2 := by
  induction below with
  | nil => exact fun _ _ => rfl
  | cons parent below ih =>
    intro top h
    rw [popTo]
    split_ifs
    · exact (ih _ (adopt_stacked h.1 h.2)).trans (stackRows_adopt h.1.2 below)
    · rfl

theorem close_rows {platform : Platform} (below : List StackEntry) : ∀ top : StackEntry,
    Stacked platform top below → rows 0 1 (close top below).kids = (stackRows top below).2 := by
  induction below with
  | nil => exact fun _ _ => rfl
  | cons parent below ih =>
    intro top h
    exact (ih _ (adopt_stacked h.1 h.2)).trans (stackRows_adopt h.1.2 below)

/-- Where a heading of a level would go: the number and the level of the parent. -/
def landing (level : Nat) (top : StackEntry) (below : List StackEntry) : Nat × Nat :=
  let parents := popTo level top below
  ((stackRows parents.1 parents.2).1, parents.1.level)

/-- The nearest of the headings before, the last of them first, that has a smaller level, or the root. -/
def nearest (level : Nat) : List Nat → Nat × Nat
  | [] => (0, 0)
  | l :: before => if l < level then (before.length + 1, l) else nearest level before

theorem landing_congr (level : Nat) (below : List StackEntry) : ∀ {e e' : StackEntry}, e.level = e'.level →
    landing level e below = landing level e' below := by
  induction below with
  | nil =>
    intro e e' h
    exact Prod.ext rfl h
  | cons parent below ih =>
    intro e e' h
    rw [landing, landing, popTo, popTo, h]
    split_ifs
    · exact ih rfl
    · exact Prod.ext rfl h

theorem popTo_popTo {level m : Nat} (h : level ≤ m) (below : List StackEntry) : ∀ top : StackEntry,
    popTo level (popTo m top below).1 (popTo m top below).2 = popTo level top below := by
  induction below with
  | nil => exact fun _ => rfl
  | cons parent below ih =>
    intro top
    rw [popTo]
    split_ifs with hm
    · rw [ih, popTo, if_pos (h.trans hm)]
    · rfl

/-- The open headings after one of the level `m` has been added. -/
theorem landing_added {m : Nat} (node : Tree) (level : Nat) (top : StackEntry) (below : List StackEntry) :
    let parents := popTo m top below
    landing level ⟨node, m⟩ (parents.1 :: parents.2) =
      if m < level then ((stackRows parents.1 parents.2).2.length + 1, m) else landing level top below := by
  intro parents
  rw [landing, popTo]
  by_cases h : m < level
  · rw [if_pos h, if_neg (by simpa using h)]
    rfl
  · have hadopt : landing level (parents.1.adopt ⟨node, m⟩) parents.2 = landing level parents.1 parents.2 :=
      landing_congr level parents.2 rfl
    rw [if_neg h, if_pos (not_lt.mp h)]
    refine hadopt.trans ?_
    rw [landing, landing, popTo_popTo (not_lt.mp h)]

/-! ## The rows of a text -/

/-- The value of a node for the lines of its section. -/
def content (lines : List Str) : Var :=
  let text := trimTrailingWhitespace (unlines lines)
  if text.isEmpty then .none else .string text

/-- The rows that the marks of a text call for, after headings of the levels `before`. -/
def nested (before : List Nat) : List Mark → List Row
  | [] => []
  | .text _ _ :: ms => nested before ms
  | .heading level title :: ms =>
    let parent := nearest level before
    ⟨parent.1, cleanHeadingText title, content (chunk ms), metaNodes level title parent.2⟩ ::
      nested (level :: before) ms

theorem metaNodes_meta (level : Nat) (title : Str) (parentLevel : Nat) :
    ∀ k ∈ metaNodes level title parentLevel, isMeta k = true := by
  have hmeta : isMeta (Tree.blank (ascii "_title")) = true ∧ isMeta (Tree.blank (ascii "_level")) = true := by
    decide
  rw [metaNodes]
  refine List.forall_mem_append.mpr ⟨?_, ?_⟩ <;> split_ifs
  · exact List.forall_mem_singleton.mpr hmeta.1
  · exact List.forall_mem_nil _
  · exact List.forall_mem_singleton.mpr hmeta.2
  · exact List.forall_mem_nil _

/-- The row of the node of a heading. -/
theorem section_rows (level : Nat) (title : Str) (ms : List Mark) (parent number parentLevel : Nat) :
    nodeRows parent number ((⟨level, title, (outline ms).preamble⟩ : Section).node parentLevel) =
      [⟨parent, cleanHeadingText title, content (chunk ms), metaNodes level title parentLevel⟩] := by
  have hmetas := metaNodes_meta level title parentLevel
  have hnode : ((⟨level, title, (outline ms).preamble⟩ : Section).node parentLevel) =
      .node (cleanHeadingText title) (content (chunk ms)) (metaNodes level title parentLevel) := by
    rw [node_eq, setContent, content, trim_chunk]
    split_ifs <;> rfl
  rw [hnode, nodeRows, rows_metas hmetas, List.filter_eq_self.mpr hmetas]

/-- What is known of the stack when the headings of the levels `before` have been added. -/
structure Opened (platform : Platform) (root : Str × Var) (before : List Nat) (top : StackEntry)
    (below : List StackEntry) : Prop where
  stacked : Stacked platform top below
  root : rootOf top below = root
  count : (stackRows top below).2.length = before.length
  landing : ∀ level, Md.landing level top below = nearest level before

section Headings

variable {platform : Platform} {root : Str × Var}

theorem addSection_rows {before : List Nat} {top : StackEntry} {below : List StackEntry}
    (h : Opened platform root before top below) {level : Nat} (hlevel : level ≤ 6) (title : Str)
    (ms : List Mark) :
    let next := addSection (top, below) ⟨level, title, (outline ms).preamble⟩
    Opened platform root (level :: before) next.1 next.2 ∧
      (stackRows next.1 next.2).2 = (stackRows top below).2 ++
        [⟨(nearest level before).1, cleanHeadingText title, content (chunk ms),
          metaNodes level title (nearest level before).2⟩] := by
  intro next
  have hland := h.landing level
  have hpop := popTo_rows level below top h.stacked
  have hrows : (stackRows next.1 next.2).2 = (stackRows top below).2 ++
      [⟨(nearest level before).1, cleanHeadingText title, content (chunk ms),
        metaNodes level title (nearest level before).2⟩] := by
    rw [← hland, ← hpop]
    exact congrArg _ (section_rows level title ms _ _ _)
  refine ⟨⟨(addSection_stacked hlevel h.stacked).1, (popTo_root level below top).trans h.root, ?_,
    fun l => ?_⟩, hrows⟩
  · rw [hrows, List.length_append, h.count]
    rfl
  · refine (landing_added _ l top below).trans ?_
    rw [nearest, hpop, h.count, h.landing]

/-- The headings of the marks are added one after the other. -/
theorem foldl_rows {ms : List Mark} (hgood : ∀ m ∈ ms, m.Good) :
    ∀ {before : List Nat} {top : StackEntry} {below : List StackEntry}, Opened platform root before top below →
      let last := (outline ms).sections.foldl addSection (top, below)
      Stacked platform last.1 last.2 ∧ rootOf last.1 last.2 = root ∧
        (stackRows last.1 last.2).2 = (stackRows top below).2 ++ nested before ms := by
  induction ms with
  | nil =>
    intro before top below h
    exact ⟨h.stacked, h.root, (List.append_nil _).symm⟩
  | cons m ms ih =>
    obtain ⟨hm, hms⟩ := List.forall_mem_cons.mp hgood
    intro before top below h
    cases m with
    | text fenced line => exact ih hms h
    | heading level title =>
      obtain ⟨hopen, hrows⟩ := addSection_rows h hm.2.1 title ms
      obtain ⟨hstacked, hroot, hlast⟩ := ih hms hopen
      refine ⟨hstacked, hroot, hlast.trans ?_⟩
      rw [hrows, List.append_assoc]
      rfl

/-- The tree of an outline, by its rows. -/
theorem build_rows (platform : Platform) (nm : Str) {ms : List Mark} (hgood : ∀ m ∈ ms, m.Good) :
    let t := build nm (outline ms)
    t.name = nm ∧ t.value = content (chunk ms) ∧ (∀ k ∈ t.kids, isMeta k = false) ∧
      rows 0 1 t.kids = nested [] ms := by
  intro t
  have hstart : Opened platform (nm, content (chunk ms)) []
      ⟨setContent (.blank nm) (joinLines (outline ms).preamble), 0⟩ [] := by
    refine ⟨⟨rfl, by simp [Tree.blank]⟩, ?_, ?_, fun _ => rfl⟩
    · rw [rootOf, setContent, content, trim_chunk]
      split_ifs <;> rfl
    · rw [stackRows, setContent_kids]
      rfl
  obtain ⟨hstacked, hroot, hrows⟩ := foldl_rows hgood hstart
  have hname := (close_root _ _).trans hroot
  refine ⟨congrArg Prod.fst hname, congrArg Prod.snd hname, (close_stacked _ _ hstacked).1.2, ?_⟩
  refine (close_rows _ _ hstacked).trans (hrows.trans ?_)
  rw [stackRows, setContent_kids]
  rfl

end Headings

/-- **The nesting of a Markdown text**: the import makes one row for each heading outside of fences, in order,
under the nearest heading before it that has a smaller level, and the other lines are the values. -/
theorem import_nests (nm md : Str) :
    ∃ flags, (∀ f, Fences ((getlines md).map dropReturn) f ↔ f = flags) ∧
      (∀ level line, (∃ title, markOf false line = .heading level title) ↔ IsHeading level line) ∧
      let ms := List.zipWith markOf flags ((getlines md).map dropReturn)
      let t := (importTree (.blank nm) md).1
      t.name = nm ∧ t.value = content (chunk ms) ∧ (∀ k ∈ t.kids, isMeta k = false) ∧
        rows 0 1 t.kids = nested [] ms := by
  refine ⟨fenceFlags (false, []) ((getlines md).map dropReturn), fun f => fences_iff, markOf_heading_iff, ?_⟩
  intro ms t
  have hms : ms = marksOf md := (marks_zip _ _).symm
  rw [hms]
  simp only [t, importTree_eq]
  exact build_rows ⟨fun _ => [], fun _ => [], fun _ => 0, fun _ => 0⟩ nm (marksOf_good md)

mutual
/-- How many nodes there are below a node. -/
def nodesBelow : Tree → Nat
  | .node _ _ kids => nodesAll kids

def nodesAll : List Tree → Nat
  | [] => 0
  | k :: kids => 1 + nodesBelow k + nodesAll kids
end

def Mark.isHeading : Mark → Bool
  | heading _ _ => true
  | text _ _ => false

/-- A title that is cleaned for the name makes a second node. -/
theorem title_makes_node : ¬ ∀ nm md : Str, nodesBelow (importTree (.blank nm) md).1 =
    ((marksOf md).filter Mark.isHeading).length := by
  intro h
  have h := h [] (ascii "# *a*")
  revert h
  decide +kernel

end Md

end VersatileEngine
