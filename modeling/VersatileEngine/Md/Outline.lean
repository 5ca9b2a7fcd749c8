import VersatileEngine.Md.Export
import VersatileEngine.Md.Import

/-!
# VersatileEngine.Md.Outline

What a Markdown text says, apart from how it is written, and the two halves of `md.cpp` over it.

* `marks`, `outline` — the lines of a text, each a heading or content; the preamble and the sections.
* `build`   — the tree of an outline, heading by heading.
* `reprint` — the lines that are written for an outline.
* `importDirect_eq`, `exportTree_build` — the import builds the outline of its text, and the export of
  what was built is the reprint.
* `build_inj` — different outlines give different trees: the exporter's own view of a tree, `entries`,
  lists the sections again.
-/

namespace VersatileEngine

namespace Md

inductive Mark where
  | heading (level : Nat) (title : Str)
  | text (fenced : Bool) (line : Str)

/-- What a line is, in a fence or at its ends, and elsewhere. -/
def markOf (fenced : Bool) (line : Str) : Mark :=
  if fenced then .text true line
  else
    match parseHeadingLine line with
    | some h => .heading h.level h.rawTitle
    | none => .text false line

theorem markOf_none {line : Str} (h : parseHeadingLine line = none) (fenced : Bool) :
    markOf fenced line = .text fenced line := by
  cases fenced <;> simp [markOf, h]

theorem markOf_some {line : Str} {h : HeadingLine} (hp : parseHeadingLine line = some h) :
    markOf false line = .heading h.level h.rawTitle := by
  simp [markOf, hp]

def marks : Bool × Str → List Str → List Mark
  | _, [] => []
  | fence, line :: lines =>
    let next := isInsideCodeFence line fence.1 fence.2
    markOf (fence.1 || next.1) line :: marks next lines

/-- The title and the kept content lines of a section. -/
structure Section where
  level : Nat
  title : Str
  lines : List Str

structure Outline where
  preamble : List Str
  sections : List Section

def outline : List Mark → Outline
  | [] => ⟨[], []⟩
  | .heading level title :: ms =>
    ⟨[], ⟨level, title, (outline ms).preamble⟩ :: (outline ms).sections⟩
  | .text _ line :: ms => ⟨keepCons isWhite line (outline ms).preamble, (outline ms).sections⟩

/-- The marks of a whole text. -/
def marksOf (md : Str) : List Mark := marks (false, []) ((getlines md).map dropReturn)

/-! ## Building -/

def setContent (node : Tree) (content : Str) : Tree :=
  if content.isEmpty then node else node.set (.string content)

def Section.node (s : Section) (parentLevel : Nat) : Tree :=
  setContent (headingNode ⟨s.level, s.title, cleanHeadingText s.title⟩ parentLevel)
    (joinLines s.lines)

def addSection (stack : StackEntry × List StackEntry) (s : Section) :
    StackEntry × List StackEntry :=
  let parents := popTo s.level stack.1 stack.2
  (⟨s.node parents.1.level, s.level⟩, parents.1 :: parents.2)

def assemble (stack : StackEntry × List StackEntry) (sections : List Section) : Tree :=
  let last := sections.foldl addSection stack
  close last.1 last.2

/-- The tree of an outline, in a fresh node. -/
def build (nm : Str) (o : Outline) : Tree :=
  assemble (⟨setContent (.blank nm) (joinLines o.preamble), 0⟩, []) o.sections

/-- The content lines before the first heading. -/
def chunk : List Mark → List Str
  | .text _ line :: ms => line :: chunk ms
  | _ => []

theorem outline_preamble (ms : List Mark) :
    (outline ms).preamble = keepLines isWhite (chunk ms) := by
  induction ms with
  | nil => rfl
  | cons m ms ih =>
    cases m with
    | heading level title => rfl
    | text fenced line => simp [outline, chunk, ih]

theorem trim_chunk (ms : List Mark) :
    trimTrailingWhitespace (unlines (chunk ms)) = joinLines (outline ms).preamble := by
  rw [trimTrailingWhitespace, trim_unlines (by decide), outline_preamble]

theorem parseHeadingLine_clean {line : Str} {h : HeadingLine} (hp : parseHeadingLine line = some h) :
    h.cleanTitle = cleanHeadingText h.rawTitle := by
  simp only [parseHeadingLine] at hp
  split at hp
  · cases hp
  · split at hp
    · cases hp
    · cases hp; rfl

theorem foldl_line (lines : List Str) : ∀ s : Importer,
    (lines.foldl Importer.line s).finish =
      assemble
        ({ s.top with
            node := flushContent s.top.node
              (s.contentBuf ++ unlines (chunk (marks (s.inCodeFence, s.fenceMarker) lines))) }, s.below)
        (outline (marks (s.inCodeFence, s.fenceMarker) lines)).sections := by
  induction lines with
  | nil => intro s; simp [marks, chunk, outline, unlines, assemble, Importer.finish]
  | cons line lines ih =>
    intro s
    rw [List.foldl_cons, ih, marks]
    by_cases hf : (s.inCodeFence || (isInsideCodeFence line s.inCodeFence s.fenceMarker).1) = true
    · simp only [Importer.line, hf, if_true, markOf, chunk, outline, unlines]
      simp
    · simp only [Importer.line, hf]
      cases hp : parseHeadingLine line with
      | none => simp [markOf_none hp, chunk, outline, unlines]
      | some h =>
        obtain ⟨level, raw, clean⟩ := h
        obtain rfl : clean = cleanHeadingText raw := parseHeadingLine_clean hp
        simp [markOf_some hp, Importer.heading, chunk, outline, unlines, assemble, addSection, Section.node,
          ← trim_chunk, flushContent, setContent]

/-- **The import builds the outline of its text.** -/
theorem importDirect_eq (nm md : Str) : importDirect (.blank nm) md = build nm (outline (marksOf md)) := by
  rw [importDirect, foldl_line]
  simp [build, marksOf, flushContent, setContent, trim_chunk]

/-! ## The exporter's view of a tree -/

/-- A heading with what stands below it. -/
structure Entry where
  level : Int
  title : Str
  content : Str

section Entries

variable (platform : Platform)

mutual
def entries (parentLevel : Int) : Tree → List Entry
  | .node name value kids =>
    let level := actualLevel platform parentLevel kids
    ⟨level, titleOf platform name kids, value.toString platform⟩ :: entriesAll level kids

def entriesAll (parentLevel : Int) : List Tree → List Entry
  | [] => []
  | child :: kids =>
    (if isMeta child then [] else entries parentLevel child) ++ entriesAll parentLevel kids
end

def Entry.text (e : Entry) : Str :=
  headingText e.level e.title ++ contentText e.content ++ if 0 < e.level then [10] else []

theorem contentText_null {v : Var} :
    (if v.isNull then [] else contentText (v.toString platform)) = contentText (v.toString platform) := by
  cases v <;> simp [Var.isNull, contentText]

mutual
theorem exportNodeRecursive_eq (parentLevel : Int) (t : Tree) :
    exportNodeRecursive platform parentLevel t = (entries platform parentLevel t).flatMap Entry.text := by
  obtain ⟨name, value, kids⟩ := t
  rw [exportNodeRecursive, entries, contentText_null, exportChildren_eq]
  simp [Entry.text]

theorem exportChildren_eq (parentLevel : Int) (kids : List Tree) :
    exportChildren platform parentLevel kids =
      (entriesAll platform parentLevel kids).flatMap Entry.text := by
  match kids with
  | [] => rfl
  | child :: kids =>
    rw [exportChildren, entriesAll, exportChildren_eq parentLevel kids, List.flatMap_append]
    split
    · rfl
    · rw [exportNodeRecursive_eq parentLevel child]
end

theorem entriesAll_append (level : Int) (a b : List Tree) :
    entriesAll platform level (a ++ b) = entriesAll platform level a ++ entriesAll platform level b := by
  induction a with
  | nil => rfl
  | cons k a ih => simp [entriesAll, ih]

/-- The entry of a node whose level is known, and the entries below it. -/
def StackEntry.entries (e : StackEntry) : List Entry :=
  ⟨e.level, titleOf platform e.node.name e.node.kids, e.node.value.toString platform⟩ ::
    entriesAll platform e.level e.node.kids

/-- The entries of the nodes on the stack, from its bottom. -/
def stackEntries : StackEntry → List StackEntry → List Entry
  | top, [] => top.entries platform
  | top, parent :: below => stackEntries parent below ++ top.entries platform

/-- The level on the stack is the one that the exporter computes. -/
def StackEntry.Fits (parent child : StackEntry) : Prop :=
  actualLevel platform parent.level child.node.kids = child.level ∧ isMeta child.node = false

def Stacked : StackEntry → List StackEntry → Prop
  | top, [] => top.level = 0 ∧ ∀ k ∈ top.node.kids, isMeta k = false
  | top, parent :: below => parent.Fits platform top ∧ Stacked parent below

end Entries

section Stack

variable {platform : Platform} {parent child : StackEntry}

theorem findChild_append {nm : Str} (hnm : nm.headD 0 = 95) (kids : List Tree) {k : Tree}
    (hk : isMeta k = false) : findChild nm (kids ++ [k]) = findChild nm kids := by
  have hne : k.name ≠ nm := by
    rintro rfl
    rw [isMeta, decide_eq_false_iff_not] at hk
    exact hk hnm
  simp [findChild, List.find?_append, hne]

theorem adopt_title (hk : isMeta child.node = false) (nm : Str) :
    titleOf platform nm (parent.adopt child).node.kids = titleOf platform nm parent.node.kids := by
  have hname : (ascii "_title").headD 0 = 95 := by decide
  simp [titleOf, StackEntry.adopt, findChild_append hname _ hk]

theorem adopt_level (hk : isMeta child.node = false) (level : Int) :
    actualLevel platform level (parent.adopt child).node.kids =
      actualLevel platform level parent.node.kids := by
  have hname : (ascii "_level").headD 0 = 95 := by decide
  simp [actualLevel, StackEntry.adopt, findChild_append hname _ hk]

theorem adopt_entries (h : parent.Fits platform child) :
    (parent.adopt child).entries platform = parent.entries platform ++ child.entries platform := by
  have hchild : entries platform parent.level child.node = child.entries platform := by
    rw [← Tree.eta child.node, entries, StackEntry.entries, h.1]
  rw [StackEntry.entries, adopt_title h.2]
  simp [StackEntry.adopt, entriesAll_append, entriesAll, h.2, hchild, StackEntry.entries]

theorem adopt_stacked {below : List StackEntry} (h : parent.Fits platform child)
    (hs : Stacked platform parent below) : Stacked platform (parent.adopt child) below := by
  cases below with
  | nil =>
    refine ⟨hs.1, ?_⟩
    intro k hk
    rw [StackEntry.adopt, Tree.push_kids] at hk
    rcases List.mem_append.mp hk with hk | hk
    · exact hs.2 k hk
    · obtain rfl := List.mem_singleton.mp hk
      exact h.2
  | cons q below =>
    refine ⟨⟨?_, ?_⟩, hs.2⟩
    · rw [adopt_level h.2]
      exact hs.1.1
    · simpa [isMeta, StackEntry.adopt] using hs.1.2

theorem adopt_stackEntries {below : List StackEntry} (h : parent.Fits platform child) :
    stackEntries platform (parent.adopt child) below =
      stackEntries platform parent below ++ child.entries platform := by
  cases below with
  | nil => exact adopt_entries h
  | cons q below => simp [stackEntries, adopt_entries h]

theorem popTo_stacked (level : Nat) (below : List StackEntry) : ∀ top : StackEntry,
    Stacked platform top below →
      Stacked platform (popTo level top below).1 (popTo level top below).2 ∧
        stackEntries platform (popTo level top below).1 (popTo level top below).2 =
          stackEntries platform top below := by
  induction below with
  | nil => intro top h; exact ⟨h, rfl⟩
  | cons parent below ih =>
    intro top h
    rw [popTo]
    split
    · obtain ⟨hs, he⟩ := ih _ (adopt_stacked h.1 h.2)
      exact ⟨hs, he.trans (adopt_stackEntries h.1)⟩
    · exact ⟨h, rfl⟩

theorem close_stacked (below : List StackEntry) : ∀ top : StackEntry, Stacked platform top below →
    Stacked platform ⟨close top below, 0⟩ [] ∧
      StackEntry.entries platform ⟨close top below, 0⟩ = stackEntries platform top below := by
  induction below with
  | nil =>
    intro top h
    obtain ⟨node, level⟩ := top
    obtain rfl : level = 0 := h.1
    exact ⟨h, rfl⟩
  | cons parent below ih =>
    intro top h
    obtain ⟨hs, he⟩ := ih _ (adopt_stacked h.1 h.2)
    exact ⟨hs, he.trans (adopt_stackEntries h.1)⟩

end Stack

/-! ## The nodes of headings -/

section Headings

variable (platform : Platform)

theorem cleanHeadingText_mem {text : Str} {c : UInt8} (h : c ∈ cleanHeadingText text) :
    isMarkup c = false := by
  have h := (List.dropWhile_sublist _).subset ((List.rdropWhile_prefix _ _).subset h)
  obtain ⟨x, hx, rfl⟩ := List.mem_map.mp h
  have hx := (List.mem_filter.mp hx).2
  split
  · decide
  · simpa using hx

theorem cleanHeadingText_head (text : Str) : (cleanHeadingText text).headD 0 ≠ 95 := by
  intro h
  cases hc : cleanHeadingText text with
  | nil => rw [hc] at h; exact absurd h (by decide)
  | cons c s =>
    rw [hc] at h
    obtain rfl : c = 95 := h
    have hmem : 95 ∈ cleanHeadingText text := by simp [hc]
    exact absurd (cleanHeadingText_mem hmem) (by decide)

theorem stripNodeNameSuffix_clean (text : Str) :
    stripNodeNameSuffix (cleanHeadingText text) = cleanHeadingText text := by
  refine List.takeWhile_eq_self_iff.mpr fun c hc => ?_
  have := cleanHeadingText_mem hc
  simp only [ne_eq, decide_eq_true_eq]
  rintro rfl
  exact absurd this (by decide)

variable (s : Section) (parentLevel : Nat)

@[simp] theorem setContent_name (t : Tree) (content : Str) : (setContent t content).name = t.name := by
  rw [setContent]; split <;> simp

@[simp] theorem setContent_kids (t : Tree) (content : Str) : (setContent t content).kids = t.kids := by
  rw [setContent]; split <;> simp

theorem setContent_text {t : Tree} (h : t.value = .none) (content : Str) :
    (setContent t content).value.toString platform = content := by
  rw [setContent]
  split
  · rename_i hc
    rw [h, Var.toString_none, List.isEmpty_iff.mp hc]
  · simp

/-- The nodes that keep what the name and the place of a heading do not say. -/
def metaNodes (level : Nat) (title : Str) (parentLevel : Nat) : List Tree :=
  (if cleanHeadingText title ≠ title then [(Tree.blank (ascii "_title")).set (.string title)] else []) ++
    if level ≠ parentLevel + 1 then
      [(Tree.blank (ascii "_level")).set (.int (Int64.ofNat level))]
    else []

theorem node_eq : s.node parentLevel = setContent
    (.node (cleanHeadingText s.title) .none (metaNodes s.level s.title parentLevel))
    (joinLines s.lines) := by
  rw [Section.node, headingNode, metaNodes]
  split <;> split <;> rfl

theorem findChild_level (level : Nat) (title : Str) :
    findChild (ascii "_level") (metaNodes level title parentLevel) =
      if level ≠ parentLevel + 1 then
        some ((Tree.blank (ascii "_level")).set (.int (Int64.ofNat level)))
      else none := by
  have hname : ascii "_title" ≠ ascii "_level" := by decide
  rw [metaNodes]
  split <;> split <;> simp [findChild, hname, Tree.blank]

theorem findChild_title (level : Nat) (title : Str) :
    findChild (ascii "_title") (metaNodes level title parentLevel) =
      if cleanHeadingText title ≠ title then
        some ((Tree.blank (ascii "_title")).set (.string title))
      else none := by
  have hname : ascii "_level" ≠ ascii "_title" := by decide
  rw [metaNodes]
  split <;> split <;> simp [findChild, hname, Tree.blank]

theorem metaNodes_level {level : Nat} (title : Str) (h : level ≤ 6) :
    actualLevel platform parentLevel (metaNodes level title parentLevel) = level := by
  rw [actualLevel, findChild_level]
  by_cases hl : level = parentLevel + 1
  · rw [if_neg (by simpa using hl)]
    show min ((parentLevel : Int) + 1) 6 = level
    omega
  · simp only [ne_eq, hl, not_false_eq_true, if_true, Tree.set_value]
    rw [toInt_ofNat platform _ (by omega)]
    exact min_eq_left (by omega)

theorem metaNodes_title (level : Nat) (title : Str) :
    titleOf platform (cleanHeadingText title) (metaNodes level title parentLevel) = title := by
  rw [titleOf, findChild_title]
  by_cases ht : cleanHeadingText title = title
  · simp only [ht, ne_eq, not_true_eq_false, if_false]
    rw [← ht, stripNodeNameSuffix_clean]
  · simp [ht]

theorem metaNodes_entries (level : Nat) (title : Str) (l : Int) :
    entriesAll platform l (metaNodes level title parentLevel) = [] := by
  have hmeta : isMeta (Tree.blank (ascii "_title")) = true ∧
      isMeta (Tree.blank (ascii "_level")) = true := by decide
  rw [metaNodes]
  split <;> split <;> simp [entriesAll, isMeta] at hmeta ⊢ <;> simp [hmeta]

/-- The entry of a section. -/
def Section.entry (s : Section) : Entry := ⟨s.level, s.title, joinLines s.lines⟩

theorem node_entries :
    StackEntry.entries platform ⟨s.node parentLevel, s.level⟩ = [s.entry] := by
  rw [StackEntry.entries, node_eq, setContent_text platform rfl]
  simp [metaNodes_title, metaNodes_entries, Section.entry]

theorem node_fits {parent : StackEntry} (h : s.level ≤ 6) :
    parent.Fits platform ⟨s.node parent.level, s.level⟩ := by
  refine ⟨?_, ?_⟩
  · rw [node_eq]
    simpa using metaNodes_level platform parent.level s.title h
  · rw [node_eq, isMeta]
    simpa using cleanHeadingText_head s.title

end Headings

/-! ## The outline of a tree that was built -/

section Built

variable {platform : Platform}

theorem addSection_stacked {stack : StackEntry × List StackEntry} {s : Section} (hs : s.level ≤ 6)
    (h : Stacked platform stack.1 stack.2) :
    Stacked platform (addSection stack s).1 (addSection stack s).2 ∧
      stackEntries platform (addSection stack s).1 (addSection stack s).2 =
        stackEntries platform stack.1 stack.2 ++ [s.entry] := by
  obtain ⟨hpop, he⟩ := popTo_stacked s.level stack.2 stack.1 h
  refine ⟨⟨node_fits platform s hs, hpop⟩, ?_⟩
  rw [addSection, stackEntries, he, node_entries]

theorem foldl_addSection {sections : List Section} (hlevel : ∀ s ∈ sections, s.level ≤ 6) :
    ∀ stack : StackEntry × List StackEntry, Stacked platform stack.1 stack.2 →
      let last := sections.foldl addSection stack
      Stacked platform last.1 last.2 ∧ stackEntries platform last.1 last.2 =
        stackEntries platform stack.1 stack.2 ++ sections.map Section.entry := by
  induction sections with
  | nil => intro stack h; simpa using h
  | cons s sections ih =>
    intro stack h
    obtain ⟨hs, he⟩ := addSection_stacked (hlevel s (by simp)) h
    obtain ⟨hl, hel⟩ := ih (fun x hx => hlevel x (by simp [hx])) _ hs
    exact ⟨hl, by simpa [he] using hel⟩

/-- **What was built is shown as its outline.** -/
theorem build_entries {nm : Str} {o : Outline} (hlevel : ∀ s ∈ o.sections, s.level ≤ 6) :
    (build nm o).value.toString platform = joinLines o.preamble ∧
      entriesAll platform 0 (build nm o).kids = o.sections.map Section.entry ∧
      ∀ k ∈ (build nm o).kids, isMeta k = false := by
  have hstart : Stacked platform ⟨setContent (.blank nm) (joinLines o.preamble), 0⟩ [] :=
    ⟨rfl, by simp [Tree.blank]⟩
  obtain ⟨hs, he⟩ := foldl_addSection hlevel (_, []) hstart
  obtain ⟨hroot, hentries⟩ := close_stacked _ _ hs
  rw [he, stackEntries, StackEntry.entries, StackEntry.entries, setContent_text platform rfl] at hentries
  simp only [List.cons_append, List.cons.injEq, Entry.mk.injEq] at hentries
  refine ⟨hentries.1.2.2, ?_, hroot.2⟩
  exact hentries.2.trans (by simp [entriesAll, Tree.blank])

end Built

/-! ## Well-formed outlines -/

/-- Content lines as they are kept. -/
structure Kept (lines : List Str) : Prop where
  clean : ∀ l ∈ lines, 10 ∉ l
  ends : Ends isWhite lines

structure Section.Good (s : Section) : Prop where
  pos : 1 ≤ s.level
  le : s.level ≤ 6
  title : 10 ∉ s.title
  lines : Kept s.lines

structure Outline.Good (o : Outline) : Prop where
  preamble : Kept o.preamble
  sections : ∀ s ∈ o.sections, s.Good

theorem skip_mem (p : UInt8 → Bool) {s : Str} {c : UInt8} : ∀ {n : Nat}, c ∈ skip p n s → c ∈ s := by
  induction s with
  | nil => intro n; cases n <;> simp [skip]
  | cons x s ih =>
    intro n hc
    cases n with
    | zero => simpa [skip] using hc
    | succ n =>
      rw [skip] at hc
      split at hc
      · exact List.mem_cons_of_mem x (ih hc)
      · exact hc

theorem stripClosing_before (title : Str) : stripClosing title <+: title := by
  have hpre := List.rdropWhile_prefix isBlank title
  rw [stripClosing]
  cases h : title.rdropWhile isBlank with
  | nil => exact List.nil_prefix
  | cons x s =>
    rw [h] at hpre
    have hs : x :: s.rdropWhile (fun c => c = 35) <+: x :: s :=
      (List.prefix_cons_inj x).mpr (List.rdropWhile_prefix _ s)
    simp only
    split
    · exact ((List.rdropWhile_prefix _ _).trans hs).trans hpre
    · exact hpre

theorem prefix_head {a b : Str} (hpre : a <+: b) (h : isBlank (b.headD 0) = false) :
    isBlank (a.headD 0) = false := by
  obtain ⟨c, rfl⟩ := hpre
  cases a with
  | nil => decide
  | cons x a => simpa using h

theorem dropWhile_head (p : UInt8 → Bool) (h0 : p 0 = false) (s : Str) :
    p ((s.dropWhile p).headD 0) = false := by
  cases h : s.dropWhile p with
  | nil => exact h0
  | cons c r =>
    have := @List.head_dropWhile_not _ p s (by simp [h])
    simpa [h] using this

theorem parseHeadingLine_good {line : Str} {h : HeadingLine} (hp : parseHeadingLine line = some h) :
    1 ≤ h.level ∧ h.level ≤ 6 ∧ isBlank (h.rawTitle.headD 0) = false ∧
      ∀ c ∈ h.rawTitle, c ∈ line := by
  simp only [parseHeadingLine] at hp
  split at hp
  · cases hp
  · rename_i hlevel
    split at hp
    · cases hp
    · cases hp
      rw [not_or, Nat.not_lt, Nat.not_lt] at hlevel
      refine ⟨hlevel.1, hlevel.2, ?_, ?_⟩
      · exact prefix_head (stripClosing_before _) (dropWhile_head isBlank (by decide) _)
      intro c hc
      have hc := (List.dropWhile_sublist _).subset ((stripClosing_before _).subset hc)
      exact skip_mem _ ((List.dropWhile_sublist _).subset hc)

/-- The headings and the lines of marks that come from lines without newlines. -/
def Mark.Good : Mark → Prop
  | heading level title => 1 ≤ level ∧ level ≤ 6 ∧ 10 ∉ title ∧ isBlank (title.headD 0) = false
  | text fenced line => 10 ∉ line ∧ (fenced = false → parseHeadingLine line = none)

theorem markOf_good {line : Str} (h : 10 ∉ line) (fenced : Bool) : (markOf fenced line).Good := by
  cases fenced with
  | true => exact ⟨h, by simp⟩
  | false =>
    rw [markOf]
    cases hp : parseHeadingLine line with
    | none => exact ⟨h, fun _ => hp⟩
    | some heading =>
      obtain ⟨h1, h6, hhead, hmem⟩ := parseHeadingLine_good hp
      exact ⟨h1, h6, fun hc => h (hmem 10 hc), hhead⟩

theorem marks_good {lines : List Str} (h : ∀ l ∈ lines, 10 ∉ l) :
    ∀ fence, ∀ m ∈ marks fence lines, m.Good := by
  induction lines with
  | nil => intro fence; simp [marks]
  | cons line lines ih =>
    intro fence m hm
    rcases List.mem_cons.mp hm with rfl | hm
    · exact markOf_good (h line (by simp)) _
    · exact ih (fun l hl => h l (by simp [hl])) _ m hm

theorem outline_good {ms : List Mark} (h : ∀ m ∈ ms, m.Good) : (outline ms).Good := by
  induction ms with
  | nil => exact ⟨⟨by simp [outline], by simp [outline, Ends]⟩, by simp [outline]⟩
  | cons m ms ih =>
    have ih := ih fun x hx => h x (by simp [hx])
    have hm := h m (by simp)
    cases m with
    | heading level title =>
      refine ⟨⟨by simp [outline], by simp [outline, Ends]⟩, ?_⟩
      intro s hs
      rcases List.mem_cons.mp hs with rfl | hs
      · exact ⟨hm.1, hm.2.1, hm.2.2.1, ih.preamble⟩
      · exact ih.sections s hs
    | text fenced line =>
      exact ⟨⟨keepCons_clean hm.1 ih.preamble.clean, keepCons_ends ih.preamble.ends⟩, ih.sections⟩

theorem dropReturn_clean {l : Str} (h : 10 ∉ l) : 10 ∉ dropReturn l := by
  rw [dropReturn]
  split
  · exact fun hc => h (List.dropLast_subset l hc)
  · exact h

theorem marksOf_good (md : Str) : ∀ m ∈ marksOf md, m.Good := by
  refine marks_good ?_ _
  simpa using fun l hl => dropReturn_clean (getlines_clean l hl)

theorem Kept.inj {a b : List Str} (ha : Kept a) (hb : Kept b) (h : joinLines a = joinLines b) : a = b :=
  joinLines_inj ha.clean hb.clean ha.ends hb.ends h

theorem Section.entry_inj {a b : Section} (ha : a.Good) (hb : b.Good) (h : a.entry = b.entry) : a = b := by
  obtain ⟨la, ta, ca⟩ := a
  obtain ⟨lb, tb, cb⟩ := b
  simp only [Section.entry, Entry.mk.injEq, Nat.cast_inj] at h
  obtain ⟨rfl, rfl, hc⟩ := h
  have hlines : ca = cb := ha.lines.inj hb.lines hc
  rw [hlines]

theorem sections_inj {a : List Section} (ha : ∀ s ∈ a, s.Good) : ∀ {b : List Section},
    (∀ s ∈ b, s.Good) → a.map Section.entry = b.map Section.entry → a = b := by
  induction a with
  | nil => intro b _ h; exact (List.map_eq_nil_iff.mp h.symm).symm
  | cons s a ih =>
    intro b hb h
    obtain ⟨s', b', rfl, hs, hrest⟩ := List.map_eq_cons_iff.mp h.symm
    rw [Section.entry_inj (ha s (by simp)) (hb s' (by simp)) hs.symm,
      ih (fun x hx => ha x (by simp [hx])) (fun x hx => hb x (by simp [hx])) hrest.symm]

/-- **Different outlines give different trees.** -/
theorem build_inj {nm : Str} {a b : Outline} (ha : a.Good) (hb : b.Good)
    (h : build nm a = build nm b) : a = b := by
  have platform : Platform := ⟨fun _ => [], fun _ => [], fun _ => 0, fun _ => 0⟩
  obtain ⟨hpa, hea, -⟩ := @build_entries platform nm a fun s hs => (ha.sections s hs).le
  obtain ⟨hpb, heb, -⟩ := @build_entries platform nm b fun s hs => (hb.sections s hs).le
  rw [h] at hpa hea
  obtain ⟨pa, sa⟩ := a
  obtain ⟨pb, sb⟩ := b
  have hp : pa = pb := ha.preamble.inj hb.preamble (hpa.symm.trans hpb)
  have hs : sa = sb := sections_inj ha.sections hb.sections (hea.symm.trans heb)
  rw [hp, hs]

/-! ## Printing -/

def Section.reprint (s : Section) : List Str :=
  (if s.title = [] then [] else [List.replicate s.level 35 ++ 32 :: s.title]) ++ s.lines ++ [[]]

/-- The lines that are written. A section without a title has no heading line. -/
def Outline.reprint (o : Outline) : List Str :=
  (if o.preamble = [] then [] else o.preamble ++ [[]]) ++ o.sections.flatMap Section.reprint

theorem contentText_joinLines {lines : List Str} (h : Kept lines) :
    contentText (joinLines lines) = unlines lines := by
  rw [contentText]
  split
  · rename_i hnil
    rw [(joinLines_eq_nil h.ends).mp (List.isEmpty_iff.mp hnil)]
    rfl
  · rename_i hne
    rw [List.isEmpty_iff] at hne
    have hlines : lines ≠ [] := fun hl => hne (by rw [hl]; rfl)
    have hlast := List.rdropWhile_eq_self_iff.mp (joinLines_trimmed h.ends) hne
    rw [if_neg, joinLines_newline hlines]
    rw [List.getLastD_eq_getLast? , List.getLast?_eq_some_getLast hne]
    intro h10
    rw [Option.getD_some] at h10
    rw [h10] at hlast
    exact hlast (by decide)

theorem Section.entry_text {s : Section} (h : s.Good) : s.entry.text = unlines s.reprint := by
  have hpos : 0 < s.level := h.pos
  rw [Entry.text, Section.entry, contentText_joinLines h.lines, Section.reprint, headingText]
  by_cases ht : s.title = []
  · simp [ht, hpos.ne', unlines_append, unlines]
  · simp [ht, hpos, unlines_append, unlines]

theorem sections_text {sections : List Section} (h : ∀ s ∈ sections, s.Good) :
    (sections.map Section.entry).flatMap Entry.text = unlines (sections.flatMap Section.reprint) := by
  induction sections with
  | nil => rfl
  | cons s sections ih =>
    simp only [List.map_cons, List.flatMap_cons, unlines_append]
    rw [Section.entry_text (h s (by simp)), ih fun x hx => h x (by simp [hx])]

/-- **The export of what was built is the reprint of its outline.** -/
theorem exportTree_build (platform : Platform) (nm : Str) {o : Outline} (h : o.Good) :
    exportTree platform (build nm o) = unlines o.reprint := by
  obtain ⟨hp, he, hmeta⟩ := @build_entries platform nm o fun s hs => (h.sections s hs).le
  have hlevel : findChild (ascii "_level") (build nm o).kids = none := by
    refine List.find?_eq_none.mpr fun k hk => ?_
    have hk := hmeta k hk
    rw [isMeta, decide_eq_false_iff_not] at hk
    simp only [decide_eq_true_eq]
    intro hname
    exact hk (by rw [hname]; decide)
  have hpre : (if (!(build nm o).value.isNull && (none : Option Tree).isNone) = true then
      contentText ((build nm o).value.toString platform) else []) = unlines o.preamble := by
    rw [← contentText_joinLines h.preamble, ← hp, ← contentText_null]
    cases (build nm o).value.isNull <;> simp
  rw [exportTree, hlevel, hpre, exportChildren_eq, he, sections_text h.sections, Outline.reprint,
    unlines_append]
  congr 1
  cases o.preamble with
  | nil => rfl
  | cons l ls => simp [unlines, unlines_append]

end Md

end VersatileEngine
