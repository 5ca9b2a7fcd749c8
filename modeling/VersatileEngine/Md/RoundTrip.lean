import VersatileEngine.Md.Outline

/-!
# VersatileEngine.Md.RoundTrip

When an exported Markdown text reads back as the tree it was exported from.

* `Settled` — the condition, line by line: no heading is empty, ends in a return or has a closing run
  of `#` left, and no content line that is kept ends in a return or becomes a heading when it is cut.
* `marks_reprint` — the marks of the exported text, computed from the marks of the first one.
* `markdown_normal_form` — the round trip is the identity exactly when the text is settled.

Fences need no condition: the exported lines go through the same fence states (`fenceRun_append`).
-/

namespace VersatileEngine

namespace Md

/-! ## What printing does to a line -/

section Fences

theorem isWhite_fence {c : UInt8} (h : isWhite c = true) : ¬(c = 96 || c = 126) = true := by
  intro hc
  rw [Bool.or_eq_true, decide_eq_true_eq, decide_eq_true_eq] at hc
  rcases hc with rfl | rfl <;> exact absurd h (by decide)

theorem fenceRun_white {b : Str} (hb : ∀ c ∈ b, isWhite c = true) : fenceRun b = [] := by
  rw [fenceRun]
  split
  · rfl
  · rename_i c s hs
    have hc := hb c (skip_mem isBlank (by rw [hs]; simp))
    rw [if_neg (isWhite_fence hc)]

theorem skip_append (p : UInt8 → Bool) (b : Str) {c : UInt8} {r : Str} : ∀ {a : Str} {n : Nat},
    skip p n a = c :: r → skip p n (a ++ b) = c :: r ++ b := by
  intro a
  induction a with
  | nil => intro n h; cases n <;> cases h
  | cons x a ih =>
    intro n h
    cases n with
    | zero => simp [skip] at h ⊢; simp [h]
    | succ n =>
      simp only [List.cons_append, skip] at h ⊢
      split
      · rename_i hx
        rw [if_pos hx] at h
        exact ih h
      · rename_i hx
        rw [if_neg hx] at h
        rw [← List.cons_append, h, List.cons_append]

theorem skip_eq_nil (p : UInt8 → Bool) {a : Str} : ∀ {n : Nat}, skip p n a = [] →
    ∀ c ∈ a, p c = true := by
  induction a with
  | nil => intro n _ c hc; cases hc
  | cons x a ih =>
    intro n h
    cases n with
    | zero => cases h
    | succ n =>
      rw [skip] at h
      split at h
      · rename_i hx
        simpa [hx] using ih h
      · cases h

theorem takeWhile_append_of_none {p : UInt8 → Bool} {b : Str} (hb : ∀ c ∈ b, p c = false) (a : Str) :
    (a ++ b).takeWhile p = a.takeWhile p := by
  induction a with
  | nil =>
    cases b with
    | nil => rfl
    | cons c b => simp [hb c (by simp)]
  | cons x a ih => simp [List.takeWhile_cons, ih]

/-- White space at the end of a line is nothing to a fence. -/
theorem fenceRun_append (a : Str) {b : Str} (hb : ∀ c ∈ b, isWhite c = true) :
    fenceRun (a ++ b) = fenceRun a := by
  cases h : skip isBlank 3 a with
  | nil =>
    have ha : ∀ c ∈ a, isWhite c = true := fun c hc => by
      have := skip_eq_nil isBlank h c hc
      simp only [isBlank, isWhite, Bool.or_eq_true] at this ⊢
      exact .inl (.inl this)
    rw [fenceRun_white ha, fenceRun_white]
    intro c hc
    rcases List.mem_append.mp hc with hc | hc
    · exact ha c hc
    · exact hb c hc
  | cons c r =>
    rw [fenceRun, fenceRun, skip_append isBlank b h, h]
    simp only [List.cons_append]
    split
    · rename_i hc
      refine takeWhile_append_of_none (fun x hx => ?_) (c :: r)
      rw [decide_eq_false_iff_not]
      rintro rfl
      exact isWhite_fence (hb x hx) hc
    · rfl

theorem dropReturn_split (line : Str) : ∃ b, line = dropReturn line ++ b ∧ ∀ c ∈ b, isWhite c = true := by
  rw [dropReturn]
  split
  · rename_i h
    cases line using List.reverseRecOn with
    | nil => exact ⟨[], rfl, by simp⟩
    | append_singleton l c =>
      obtain rfl : c = 13 := by simpa using h
      exact ⟨[13], by simp, by simp [isWhite]⟩
  · exact ⟨[], by simp, by simp⟩

theorem trim_split (line : Str) :
    ∃ b, line = trimTrailingWhitespace line ++ b ∧ ∀ c ∈ b, isWhite c = true :=
  ⟨line.rtakeWhile isWhite, List.rdropWhile_append_rtakeWhile.symm,
    fun _ hc => List.mem_rtakeWhile_imp hc⟩

theorem isInsideCodeFence_append (a : Str) {b : Str} (hb : ∀ c ∈ b, isWhite c = true)
    (inFence : Bool) (marker : Str) :
    isInsideCodeFence (a ++ b) inFence marker = isInsideCodeFence a inFence marker := by
  rw [isInsideCodeFence, isInsideCodeFence, fenceRun_append a hb]

theorem isInsideCodeFence_dropReturn (line : Str) (inFence : Bool) (marker : Str) :
    isInsideCodeFence (dropReturn line) inFence marker = isInsideCodeFence line inFence marker := by
  obtain ⟨b, hline, hb⟩ := dropReturn_split line
  conv_rhs => rw [hline]
  rw [isInsideCodeFence_append _ hb]

theorem isInsideCodeFence_trim (line : Str) (inFence : Bool) (marker : Str) :
    isInsideCodeFence (trimTrailingWhitespace line) inFence marker =
      isInsideCodeFence line inFence marker := by
  obtain ⟨b, hline, hb⟩ := trim_split line
  conv_rhs => rw [hline]
  rw [isInsideCodeFence_append _ hb]

theorem isInsideCodeFence_nil (inFence : Bool) (marker : Str) :
    isInsideCodeFence [] inFence marker = (inFence, marker) := rfl

theorem isInsideCodeFence_white {line : Str} (h : trimTrailingWhitespace line = []) (inFence : Bool)
    (marker : Str) : isInsideCodeFence line inFence marker = (inFence, marker) := by
  rw [← isInsideCodeFence_trim, h, isInsideCodeFence_nil]

theorem skip_hash {s : Str} : ∀ {line : Str} {n : Nat}, skip (fun c => c = 32) n line = 35 :: s →
    skip isBlank n line = 35 :: s := by
  intro line
  induction line with
  | nil => intro n h; cases n <;> cases h
  | cons c line ih =>
    intro n h
    cases n with
    | zero => exact h
    | succ n =>
      rw [skip] at h ⊢
      split at h
      · rename_i hc
        rw [if_pos (by simp only [decide_eq_true_eq] at hc; simp [isBlank, hc])]
        exact ih h
      · obtain ⟨rfl, rfl⟩ := List.cons.inj h
        rw [if_neg (by decide)]

theorem isInsideCodeFence_heading {line : Str} {h : HeadingLine} (hp : parseHeadingLine line = some h)
    (inFence : Bool) (marker : Str) : isInsideCodeFence line inFence marker = (inFence, marker) := by
  have hlevel := (parseHeadingLine_good hp).1
  have hrun : fenceRun line = [] := by
    simp only [parseHeadingLine] at hp
    cases hs : skip (fun c => c = 32) 3 line with
    | nil => simp [hs] at hp
    | cons c s =>
      by_cases hc : c = 35
      · subst hc
        rw [fenceRun, skip_hash hs]
        rfl
      · simp [hs, hc] at hp
  simp [isInsideCodeFence, hrun]

end Fences

/-! ## Printed headings -/

/-- The line of a heading. -/
def headingLine (level : Nat) (title : Str) : Str := List.replicate level 35 ++ 32 :: title

theorem dropReturn_concat (l : Str) (c : UInt8) :
    dropReturn (l ++ [c]) = if c = 13 then l else l ++ [c] := by
  simp [dropReturn]

theorem dropReturn_headingLine (level : Nat) {title : Str} (ht : title ≠ []) :
    dropReturn (headingLine level title) = headingLine level (dropReturn title) := by
  obtain ⟨l, c, rfl⟩ := (List.eq_nil_or_concat title).resolve_left ht
  have hline : headingLine level (l ++ [c]) = headingLine level l ++ [c] := by simp [headingLine]
  rw [List.concat_eq_append, hline, dropReturn_concat, dropReturn_concat]
  split
  · rfl
  · rw [hline]

theorem parse_headingLine {level : Nat} {title : Str} (h1 : 1 ≤ level) (h6 : level ≤ 6)
    (hhead : isBlank (title.headD 0) = false) :
    parseHeadingLine (headingLine level title) =
      some ⟨level, stripClosing title, cleanHeadingText (stripClosing title)⟩ := by
  obtain ⟨n, rfl⟩ : ∃ n, level = n + 1 := ⟨level - 1, by omega⟩
  have hskip : skip (fun c => c = 32) 3 (headingLine (n + 1) title) = headingLine (n + 1) title := by
    simp [headingLine, List.replicate_succ, skip]
  have htake : ((headingLine (n + 1) title).takeWhile fun c => c = 35).length = n + 1 := by
    simp [headingLine]
  have hdrop : ((headingLine (n + 1) title).dropWhile fun c => c = 35) = 32 :: title := by
    simp [headingLine]
  have hblank : (32 :: title).dropWhile isBlank = title := by
    rw [List.dropWhile_cons_of_pos (by decide)]
    cases title with
    | nil => rfl
    | cons c title => rw [List.dropWhile_cons_of_neg (by simpa using hhead)]
  rw [parseHeadingLine, hskip, htake, hdrop, if_neg (by omega), if_neg (by simp [isBlank]), hblank]

theorem retitle_eq {title : Str} :
    stripClosing (dropReturn title) = title ↔ title.getLastD 0 ≠ 13 ∧ stripClosing title = title := by
  refine ⟨fun h => ?_, fun ⟨h1, h2⟩ => ?_⟩
  · have hle := (stripClosing_before (dropReturn title)).length_le
    rw [h, dropReturn] at hle
    by_cases h13 : title.getLastD 0 = 13
    · rw [if_pos h13, List.length_dropLast] at hle
      have hnil : title = [] := List.length_eq_zero_iff.mp (by omega)
      rw [hnil] at h13
      exact absurd h13 (by decide)
    · rw [dropReturn, if_neg h13] at h
      exact ⟨h13, h⟩
  · rw [dropReturn, if_neg h1, h2]

/-! ## The marks of the exported text -/

/-- Content follows before the next heading. -/
def moreText : List Mark → Bool
  | .text _ line :: ms => trimTrailingWhitespace line ≠ [] || moreText ms
  | _ => false

theorem moreText_iff (ms : List Mark) : moreText ms = true ↔ (outline ms).preamble ≠ [] := by
  induction ms with
  | nil => simp [moreText, outline]
  | cons m ms ih =>
    cases m with
    | heading level title => simp [moreText, outline]
    | text fenced line =>
      rw [moreText, outline, Bool.or_eq_true, ih, decide_eq_true_eq]
      cases (outline ms).preamble with
      | nil =>
        rw [keepCons, trimTrailingWhitespace]
        split <;> simp_all
      | cons k ks => simp [keepCons]

/-- The marks that the exported text has. `open_` says that a section is open, which an empty line
will end; `g` is the fence at the end of the text. -/
def reread (g : Bool) : Bool → List Mark → List Mark
  | started, [] => if started then [.text g []] else []
  | started, .heading level title :: ms =>
    (if started then [.text false []] else []) ++
      (if title = [] then [] else [.heading level (stripClosing (dropReturn title))]) ++
      reread g true ms
  | started, .text fenced line :: ms =>
    if moreText ms then markOf fenced (dropReturn line) :: reread g true ms
    else if trimTrailingWhitespace line = [] then reread g started ms
    else markOf fenced (trimTrailingWhitespace line) :: reread g true ms

/-- What is written after the lines that are already there. -/
def Outline.reprintFrom (started : Bool) (o : Outline) : List Str :=
  o.preamble ++ (if started || !o.preamble.isEmpty then [[]] else []) ++
    o.sections.flatMap Section.reprint

theorem reprintFrom_false (o : Outline) : o.reprintFrom false = o.reprint := by
  rw [Outline.reprintFrom, Outline.reprint]
  cases o.preamble <;> rfl

section Reprint

variable (started : Bool) (ms : List Mark)

theorem reprintFrom_heading (level : Nat) (title : Str) :
    (outline (.heading level title :: ms)).reprintFrom started =
      (if started then [[]] else []) ++ (if title = [] then [] else [headingLine level title]) ++
        (outline ms).reprintFrom true := by
  simp [Outline.reprintFrom, outline, Section.reprint, headingLine]

theorem reprintFrom_text (fenced : Bool) (line : Str) :
    (outline (.text fenced line :: ms)).reprintFrom started =
      if moreText ms then line :: (outline ms).reprintFrom true
      else if trimTrailingWhitespace line = [] then (outline ms).reprintFrom started
      else trimTrailingWhitespace line :: (outline ms).reprintFrom true := by
  by_cases hm : moreText ms = true
  · have hne := (moreText_iff ms).mp hm
    rw [if_pos hm, Outline.reprintFrom, outline, keepCons_of_ne_nil line hne]
    simp [Outline.reprintFrom]
  · have hnil : (outline ms).preamble = [] := by
      by_contra hne
      exact hm ((moreText_iff ms).mpr hne)
    rw [if_neg hm, Outline.reprintFrom, outline, hnil, keepCons]
    by_cases ht : line.rdropWhile isWhite = []
    · simp only [trimTrailingWhitespace, ht, if_true, Outline.reprintFrom, hnil]
    · simp only [trimTrailingWhitespace, if_neg ht, Outline.reprintFrom, hnil]
      simp

end Reprint

theorem dropReturn_trim (line : Str) :
    dropReturn (trimTrailingWhitespace line) = trimTrailingWhitespace line := by
  rw [dropReturn, if_neg]
  intro h
  by_cases hne : trimTrailingWhitespace line = []
  · rw [hne] at h
    exact absurd h (by decide)
  · have hlast : ¬isWhite ((trimTrailingWhitespace line).getLast hne) = true :=
      List.rdropWhile_last_not isWhite line hne
    rw [List.getLastD_eq_getLast?, List.getLast?_eq_some_getLast hne, Option.getD_some] at h
    rw [h] at hlast
    exact hlast (by decide)

theorem marks_cons {fence next : Bool × Str} {line : Str}
    (h : isInsideCodeFence line fence.1 fence.2 = next) (lines : List Str) :
    marks fence (line :: lines) = markOf (fence.1 || next.1) line :: marks next lines := by
  subst h; rfl

theorem marks_empty (fence : Bool × Str) (lines : List Str) :
    marks fence ([] :: lines) = .text fence.1 [] :: marks fence lines := by
  rw [marks_cons (isInsideCodeFence_nil fence.1 fence.2), Bool.or_self, markOf_none rfl]

theorem marks_headingLine {fence : Bool × Str} {level : Nat} {title : Str} (hf : fence.1 = false)
    (h1 : 1 ≤ level) (h6 : level ≤ 6) (hhead : isBlank (title.headD 0) = false) (lines : List Str) :
    marks fence (headingLine level title :: lines) =
      .heading level (stripClosing title) :: marks fence lines := by
  obtain ⟨inFence, marker⟩ := fence
  obtain rfl : inFence = false := hf
  have hp := parse_headingLine h1 h6 hhead
  rw [marks_cons (isInsideCodeFence_heading hp false marker), Bool.or_self, markOf_some hp]

theorem markOf_cases (fenced : Bool) (line : Str) :
    markOf fenced line = .text fenced line ∨ fenced = false ∧ ∃ h, parseHeadingLine line = some h ∧
      markOf fenced line = .heading h.level h.rawTitle := by
  cases fenced with
  | true => exact .inl rfl
  | false =>
    cases hp : parseHeadingLine line with
    | none => exact .inl (markOf_none hp false)
    | some h => exact .inr ⟨rfl, h, rfl, markOf_some hp⟩

/-- **The marks of what is written**, computed from the marks that were read. -/
theorem marks_reprint (lines : List Str) : ∀ (fence : Bool × Str) (started : Bool), ∃ g,
    marks fence (((outline (marks fence lines)).reprintFrom started).map dropReturn) =
      reread g started (marks fence lines) := by
  induction lines with
  | nil =>
    intro fence started
    refine ⟨fence.1, ?_⟩
    cases started with
    | false => rfl
    | true => exact marks_empty fence []
  | cons line lines ih =>
    intro fence started
    obtain ⟨next, hnext⟩ : ∃ next, isInsideCodeFence line fence.1 fence.2 = next := ⟨_, rfl⟩
    rw [marks_cons hnext]
    rcases markOf_cases (fence.1 || next.1) line with hm | ⟨hf, h, hp, hm⟩
    · rw [hm]
      rw [reprintFrom_text]
      by_cases hmore : moreText (marks next lines) = true
      · obtain ⟨g, hg⟩ := ih next true
        refine ⟨g, ?_⟩
        rw [if_pos hmore, List.map_cons,
          marks_cons ((isInsideCodeFence_dropReturn line fence.1 fence.2).trans hnext), hg, reread,
          if_pos hmore]
      · rw [if_neg hmore]
        by_cases hwhite : trimTrailingWhitespace line = []
        · obtain rfl : next = fence := hnext.symm.trans (isInsideCodeFence_white hwhite _ _)
          obtain ⟨g, hg⟩ := ih next started
          refine ⟨g, ?_⟩
          rw [if_pos hwhite, hg, reread, if_neg hmore, if_pos hwhite]
        · obtain ⟨g, hg⟩ := ih next true
          refine ⟨g, ?_⟩
          rw [if_neg hwhite, List.map_cons, dropReturn_trim,
            marks_cons ((isInsideCodeFence_trim line fence.1 fence.2).trans hnext), hg, reread,
            if_neg hmore, if_neg hwhite]
    · obtain rfl : next = fence := hnext.symm.trans (isInsideCodeFence_heading hp _ _)
      have hout : next.1 = false := by simpa using hf
      obtain ⟨g, hg⟩ := ih next true
      refine ⟨g, ?_⟩
      have hempty : ∀ rest, marks next ((if started then [[]] else []) ++ rest) =
          (if started then [.text false []] else []) ++ marks next rest := by
        intro rest
        cases started with
        | false => rfl
        | true => rw [← hout]; exact marks_empty next rest
      obtain ⟨h1, h6, hhead, -⟩ := parseHeadingLine_good hp
      rw [hm, reprintFrom_heading, reread, List.append_assoc, List.append_assoc, List.map_append,
        List.map_append, apply_ite (List.map dropReturn), List.map_nil, List.map_singleton]
      rw [show dropReturn ([] : Str) = [] from rfl, hempty]
      congr 1
      by_cases ht : h.rawTitle = []
      · rw [if_pos ht, if_pos ht]
        exact hg
      · rw [if_neg ht, if_neg ht, List.map_singleton, dropReturn_headingLine _ ht]
        obtain ⟨b, hsplit, -⟩ := dropReturn_split h.rawTitle
        have hhead' := prefix_head ⟨b, hsplit.symm⟩ hhead
        rw [List.singleton_append, marks_headingLine hout h1 h6 hhead', hg, List.singleton_append]

/-! ## Comparing two outlines -/

/-- A heading or a line that is not blank, without what stands at its end. -/
inductive Item where
  | heading (level : Nat) (title : Str)
  | line (text : Str)

def lineItems (line : Str) : List Item :=
  if trimTrailingWhitespace line = [] then [] else [.line (trimTrailingWhitespace line)]

def Mark.items : Mark → List Item
  | heading level title => [.heading level title]
  | text _ line => lineItems line

def Outline.items (o : Outline) : List Item :=
  o.preamble.flatMap lineItems ++
    o.sections.flatMap fun s => .heading s.level s.title :: s.lines.flatMap lineItems

theorem lineItems_keepCons (line : Str) (lines : List Str) :
    (keepCons isWhite line lines).flatMap lineItems = lineItems line ++ lines.flatMap lineItems := by
  cases lines with
  | nil =>
    rw [keepCons]
    split
    · rename_i h
      rw [lineItems, trimTrailingWhitespace, if_pos h]
      rfl
    · simp [lineItems, trimTrailingWhitespace, List.rdropWhile_idempotent]
  | cons k ks => simp [keepCons]

theorem outline_items (ms : List Mark) : (outline ms).items = ms.flatMap Mark.items := by
  induction ms with
  | nil => rfl
  | cons m ms ih =>
    rw [List.flatMap_cons, ← ih]
    cases m with
    | heading level title => simp [outline, Outline.items, Mark.items]
    | text fenced line => simp [outline, Outline.items, Mark.items, lineItems_keepCons]

theorem trim_dropReturn (line : Str) :
    trimTrailingWhitespace (dropReturn line) = trimTrailingWhitespace line := by
  obtain ⟨b, hline, hb⟩ := dropReturn_split line
  conv_rhs => rw [hline]
  exact (rdropWhile_append_of_all hb).symm

theorem trim_trim (line : Str) :
    trimTrailingWhitespace (trimTrailingWhitespace line) = trimTrailingWhitespace line :=
  List.rdropWhile_idempotent isWhite line

/-- What a content line is written as. -/
def printedLine (more : Bool) (line : Str) : Str :=
  if more then dropReturn line else trimTrailingWhitespace line

theorem trim_printedLine (more : Bool) (line : Str) :
    trimTrailingWhitespace (printedLine more line) = trimTrailingWhitespace line := by
  cases more with
  | true => exact trim_dropReturn line
  | false => exact trim_trim line

/-- No heading line is left out or read differently, and no content line becomes a heading. -/
def Aligned : List Mark → Prop
  | [] => True
  | .heading _ title :: ms =>
    (title ≠ [] ∧ stripClosing (dropReturn title) = title) ∧ Aligned ms
  | .text fenced line :: ms =>
    (fenced = true ∨ parseHeadingLine (printedLine (moreText ms) line) = none) ∧ Aligned ms

theorem parse_white {line : Str} (h : trimTrailingWhitespace line = []) : parseHeadingLine line = none := by
  rw [trimTrailingWhitespace, List.rdropWhile_eq_nil_iff] at h
  have hskip : ∀ c ∈ skip (fun c => c = 32) 3 line, isWhite c = true := fun c hc => h c (skip_mem _ hc)
  rw [parseHeadingLine]
  cases hs : skip (fun c => c = 32) 3 line with
  | nil => simp
  | cons c s =>
    have hc : c ≠ 35 := by
      rintro rfl
      exact absurd (hskip 35 (by simp [hs])) (by decide)
    simp [hc]

theorem reread_text (g started fenced : Bool) (line : Str) (ms : List Mark) :
    reread g started (.text fenced line :: ms) =
      if moreText ms = false ∧ trimTrailingWhitespace line = [] then reread g started ms
      else markOf fenced (printedLine (moreText ms) line) :: reread g true ms := by
  rw [reread, printedLine]
  cases moreText ms <;> simp

theorem lineItems_printed (more : Bool) (line : Str) :
    lineItems (printedLine more line) = lineItems line := by
  rw [lineItems, lineItems, trim_printedLine]

theorem started_items (started g : Bool) :
    (if started then [Mark.text g []] else []).flatMap Mark.items = [] := by
  cases started <;> simp [Mark.items, lineItems, trimTrailingWhitespace]

/-- A content line is printed as content, or else it is not blank and has become a heading. -/
theorem markOf_printed (fenced more : Bool) (line : Str) :
    ((markOf fenced (printedLine more line)).items = lineItems line ∧
      (fenced = true ∨ parseHeadingLine (printedLine more line) = none)) ∨
    ∃ level title text, (markOf fenced (printedLine more line)).items = [.heading level title] ∧
      lineItems line = [.line text] := by
  cases fenced with
  | true => exact .inl ⟨lineItems_printed more line, .inl rfl⟩
  | false =>
    cases hp : parseHeadingLine (printedLine more line) with
    | none =>
      rw [markOf_none hp]
      exact .inl ⟨lineItems_printed more line, .inr rfl⟩
    | some h =>
      have hne : trimTrailingWhitespace line ≠ [] := fun hnil => by
        rw [parse_white ((trim_printedLine more line).trans hnil)] at hp
        cases hp
      rw [markOf_some hp]
      exact .inr ⟨_, _, _, rfl, by rw [lineItems, if_neg hne]⟩

/-- Printing and reading adds no item, and when none is lost or changed the marks are aligned. -/
theorem items_reread (g : Bool) (ms : List Mark) : ∀ started,
    ((reread g started ms).flatMap Mark.items).length ≤ (ms.flatMap Mark.items).length ∧
      ((reread g started ms).flatMap Mark.items = ms.flatMap Mark.items → Aligned ms) := by
  induction ms with
  | nil => intro started; simp [reread, started_items, Aligned]
  | cons m ms ih =>
    intro started
    cases m with
    | heading level title =>
      obtain ⟨hlen, halign⟩ := ih true
      simp only [reread, List.flatMap_append, started_items, List.nil_append, List.flatMap_cons]
      by_cases ht : title = []
      · simp only [ht, if_true, List.flatMap_nil, List.nil_append, Mark.items]
        refine ⟨by rw [List.length_append]; omega, fun heq => ?_⟩
        have := congrArg List.length heq
        rw [List.length_append, List.length_singleton] at this
        omega
      · simp only [ht, if_false, List.flatMap_cons, List.flatMap_nil, List.append_nil, Mark.items]
        refine ⟨by simpa using hlen, fun heq => ?_⟩
        simp only [List.singleton_append, List.cons.injEq, Item.heading.injEq] at heq
        exact ⟨⟨ht, heq.1.2⟩, halign heq.2⟩
    | text fenced line =>
      rw [reread_text]
      by_cases hdrop : moreText ms = false ∧ trimTrailingWhitespace line = []
      · obtain ⟨hlen, halign⟩ := ih started
        have hnone : lineItems line = [] := by rw [lineItems, if_pos hdrop.2]
        rw [if_pos hdrop, List.flatMap_cons, Mark.items, hnone, List.nil_append]
        refine ⟨hlen, fun heq => ⟨.inr (parse_white ?_), halign heq⟩⟩
        rw [trim_printedLine, hdrop.2]
      · obtain ⟨hlen, halign⟩ := ih true
        rw [if_neg hdrop, List.flatMap_cons, List.flatMap_cons, Mark.items]
        rcases markOf_printed fenced (moreText ms) line with ⟨hitems, hnone⟩ | ⟨l, t, x, hitems, hline⟩
        · rw [hitems]
          refine ⟨by simpa using hlen, fun heq => ⟨hnone, halign (List.append_cancel_left heq)⟩⟩
        · rw [hitems, hline]
          refine ⟨by simpa using hlen, fun heq => ?_⟩
          simp at heq

/-! ## Aligned texts -/

def Section.mapLines (f : Str → Str) (s : Section) : Section := { s with lines := s.lines.map f }

def Outline.mapLines (f : Str → Str) (o : Outline) : Outline :=
  ⟨o.preamble.map f, o.sections.map (Section.mapLines f)⟩

theorem moreText_false {ms : List Mark} (h : moreText ms = false) : (outline ms).preamble = [] := by
  by_contra hne
  rw [(moreText_iff ms).mpr hne] at h
  cases h

theorem outline_started (started g : Bool) (ms : List Mark) (h : (outline ms).preamble = []) :
    outline ((if started then [Mark.text g []] else []) ++ ms) = outline ms := by
  cases started with
  | false => rfl
  | true =>
    have hkeep : keepCons isWhite [] [] = [] := by decide
    rw [if_pos rfl, List.singleton_append, outline, h, hkeep, ← h]

theorem keepCons_last {line : Str} (h : trimTrailingWhitespace line ≠ []) :
    keepCons isWhite line [] = [trimTrailingWhitespace line] := by
  rw [keepCons, ← trimTrailingWhitespace, if_neg h]

/-- Where nothing is out of place, the outline is read back but for returns at the ends of lines. -/
theorem outline_reread (g : Bool) {ms : List Mark} : ∀ started, Aligned ms →
    outline (reread g started ms) = (outline ms).mapLines dropReturn := by
  induction ms with
  | nil =>
    intro started _
    have := outline_started started g [] rfl
    rwa [List.append_nil] at this
  | cons m ms ih =>
    intro started h
    cases m with
    | heading level title =>
      obtain ⟨⟨hne, htitle⟩, hms⟩ := h
      rw [reread, List.append_assoc, if_neg hne, htitle, outline_started _ _ _ rfl]
      simp [outline, ih true hms, Outline.mapLines, Section.mapLines]
    | text fenced line =>
      obtain ⟨hnone, hms⟩ := h
      have hmark : markOf fenced (printedLine (moreText ms) line) =
          .text fenced (printedLine (moreText ms) line) := by
        rcases hnone with rfl | hnone
        · rfl
        · exact markOf_none hnone fenced
      rw [reread_text, hmark]
      cases hmore : moreText ms with
      | true =>
        have hpre := (moreText_iff ms).mp hmore
        have hpre' : (outline ms).preamble.map dropReturn ≠ [] := by simpa using hpre
        simp [outline, ih true hms, Outline.mapLines, keepCons_of_ne_nil _ hpre,
          keepCons_of_ne_nil _ hpre', printedLine]
      | false =>
        have hpre := moreText_false hmore
        by_cases ht : trimTrailingWhitespace line = []
        · rw [if_pos ⟨rfl, ht⟩, ih started hms, outline, hpre, keepCons]
          rw [trimTrailingWhitespace] at ht
          rw [if_pos ht, Outline.mapLines, Outline.mapLines, hpre]
        · rw [if_neg (by simp [ht]), outline, ih true hms, outline]
          simp only [Outline.mapLines, hpre, List.map_nil, printedLine]
          rw [keepCons_last ht, keepCons_last (by simpa [trim_trim] using ht)]
          simp [trim_trim, dropReturn_trim]

/-! ## The round trip -/

/-- **What the round trip needs of a text**, from each mark to the next. -/
def Settles : List Mark → Prop
  | [] => True
  | .heading _ title :: ms =>
    (title ≠ [] ∧ title.getLastD 0 ≠ 13 ∧ stripClosing title = title) ∧ Settles ms
  | .text fenced line :: ms =>
    (if moreText ms then line.getLastD 0 ≠ 13
      else fenced = true ∨ parseHeadingLine (trimTrailingWhitespace line) = none) ∧ Settles ms

/-- The condition on a Markdown text. -/
def Settled (md : Str) : Prop := Settles (marksOf md)

theorem dropReturn_eq_self {line : Str} : dropReturn line = line ↔ line.getLastD 0 ≠ 13 := by
  rw [dropReturn]
  split
  · rename_i h
    refine ⟨fun hd => ?_, fun hd => absurd h hd⟩
    have hlen := congrArg List.length hd
    rw [List.length_dropLast] at hlen
    have hnil : line = [] := List.length_eq_zero_iff.mp (by omega)
    rw [hnil] at h
    exact absurd h (by decide)
  · rename_i h
    exact ⟨fun _ => h, fun _ => rfl⟩

theorem mapLines_heading (level : Nat) (title : Str) (ms : List Mark) :
    (outline (.heading level title :: ms)).mapLines dropReturn = outline (.heading level title :: ms) ↔
      (outline ms).mapLines dropReturn = outline ms := by
  obtain ⟨preamble, sections, h⟩ : ∃ p s, outline ms = ⟨p, s⟩ := ⟨_, _, rfl⟩
  simp [outline, h, Outline.mapLines, Section.mapLines]

theorem mapLines_text (fenced : Bool) (line : Str) (ms : List Mark) :
    (outline (.text fenced line :: ms)).mapLines dropReturn = outline (.text fenced line :: ms) ↔
      (moreText ms = true → dropReturn line = line) ∧ (outline ms).mapLines dropReturn = outline ms := by
  cases hmore : moreText ms with
  | true =>
    have hne := (moreText_iff ms).mp hmore
    obtain ⟨preamble, sections, h⟩ : ∃ p s, outline ms = ⟨p, s⟩ := ⟨_, _, rfl⟩
    rw [h] at hne
    simp [outline, h, Outline.mapLines, keepCons_of_ne_nil line hne, and_assoc]
  | false =>
    have hpre := moreText_false hmore
    obtain ⟨preamble, sections, h⟩ : ∃ p s, outline ms = ⟨p, s⟩ := ⟨_, _, rfl⟩
    rw [h] at hpre
    obtain rfl : preamble = [] := hpre
    by_cases ht : trimTrailingWhitespace line = []
    · have hkeep : keepCons isWhite line [] = [] := by
        rw [keepCons, ← trimTrailingWhitespace, if_pos ht]
      simp [outline, h, Outline.mapLines, hkeep]
    · simp [outline, h, Outline.mapLines, keepCons_last ht, dropReturn_trim]

theorem settles_iff {ms : List Mark} (hgood : ∀ m ∈ ms, m.Good) :
    Settles ms ↔ Aligned ms ∧ (outline ms).mapLines dropReturn = outline ms := by
  induction ms with
  | nil => simp [Settles, Aligned, outline, Outline.mapLines]
  | cons m ms ih =>
    have ih := ih fun x hx => hgood x (by simp [hx])
    have hm := hgood m (by simp)
    cases m with
    | heading level title =>
      rw [Settles, Aligned, ih, retitle_eq, mapLines_heading]
      exact and_assoc.symm
    | text fenced line =>
      rw [Settles, Aligned, ih, mapLines_text, printedLine]
      cases moreText ms with
      | true =>
        have hnone : dropReturn line = line → (fenced = true ∨ parseHeadingLine (dropReturn line) = none) := by
          intro heq
          rw [heq]
          cases fenced with
          | true => exact .inl rfl
          | false => exact .inr (hm.2 rfl)
        rw [if_pos rfl, if_pos rfl, ← dropReturn_eq_self]
        constructor
        · rintro ⟨h1, h2, h3⟩
          exact ⟨⟨hnone h1, h2⟩, fun _ => h1, h3⟩
        · rintro ⟨⟨-, h2⟩, h1, h3⟩
          exact ⟨h1 rfl, h2, h3⟩
      | false => simp [and_assoc]

theorem reprint_clean {o : Outline} (h : o.Good) : ∀ l ∈ o.reprint, 10 ∉ l := by
  intro l hl
  rw [Outline.reprint, List.mem_append] at hl
  rcases hl with hl | hl
  · split at hl
    · cases hl
    · rcases List.mem_append.mp hl with hl | hl
      · exact h.preamble.clean l hl
      · rw [List.mem_singleton.mp hl]
        simp
  · obtain ⟨s, hs, hl⟩ := List.mem_flatMap.mp hl
    have hs := h.sections s hs
    rw [Section.reprint, List.mem_append, List.mem_append] at hl
    rcases hl with (hl | hl) | hl
    · split at hl
      · cases hl
      · rw [List.mem_singleton.mp hl]
        simpa [List.mem_replicate] using hs.title
    · exact hs.lines.clean l hl
    · rw [List.mem_singleton.mp hl]
      simp

/-- The import of any text; the empty one is not looked at. -/
theorem importTree_eq (nm md : Str) : (importTree (.blank nm) md).1 = build nm (outline (marksOf md)) := by
  rw [importTree]
  split
  · rename_i h
    rw [List.isEmpty_iff.mp h]
    rfl
  · exact importDirect_eq nm md

/-- **The Markdown round trip**: importing what was exported gives the tree again exactly when the
text that was imported first is settled. -/
theorem markdown_normal_form (platform : Platform) (nm m : Str) :
    (importTree (.blank nm) (exportTree platform (importTree (.blank nm) m).1)).1 =
      (importTree (.blank nm) m).1 ↔ Settled m := by
  have hgood := outline_good (marksOf_good m)
  obtain ⟨g, hmarks⟩ := marks_reprint ((getlines m).map dropReturn) (false, []) false
  have hagain : marksOf (exportTree platform (build nm (outline (marksOf m)))) =
      reread g false (marksOf m) := by
    rw [exportTree_build platform nm hgood, marksOf, getlines_unlines (reprint_clean hgood),
      ← reprintFrom_false]
    exact hmarks
  rw [importTree_eq, importTree_eq, hagain, Settled, settles_iff (marksOf_good m)]
  constructor
  · intro h
    have hre : ∀ x ∈ reread g false (marksOf m), x.Good := by
      rw [← hagain]
      exact marksOf_good _
    have houtline := build_inj (outline_good hre) hgood h
    have hal : Aligned (marksOf m) := by
      refine (items_reread g (marksOf m) false).2 ?_
      rw [← outline_items, ← outline_items, houtline]
    exact ⟨hal, by rw [← outline_reread g false hal, houtline]⟩
  · rintro ⟨hal, hmap⟩
    rw [outline_reread g false hal, hmap]

/-- A heading without a title is not written again. -/
theorem markdown_heading_dropped : ¬ ∀ (platform : Platform) (nm m : Str),
    (importTree (.blank nm) (exportTree platform (importTree (.blank nm) m).1)).1 =
      (importTree (.blank nm) m).1 := by
  intro h
  have h := congrArg (fun t => t.kids.length) (h ⟨fun _ => [], fun _ => [], fun _ => 0, fun _ => 0⟩ [] (ascii "#\n"))
  revert h
  decide +kernel

end Md

end VersatileEngine
