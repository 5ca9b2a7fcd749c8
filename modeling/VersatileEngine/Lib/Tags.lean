import Mathlib.Data.List.TakeWhile
import VersatileEngine.Lib.Decimal

/-!
# VersatileEngine.Lib.Tags

Reading the tags of a text from left to right, byte by byte.

* `Reader`   — what is being read, and the names of the elements that are open, the last one first. A tag
  ends at the first `>` outside quotes; before that a `<` outside quotes is malformed, and so is a quote in
  a name. A tag with a slash at its end is an element of its own.
* `Balanced` — at the end no tag and no element is open.
* `run_tag`, `run_closers` — a whole tag, and closing tags one after another.
* `run_section`, `section_closers` — a section up to its end; one that is still open when only closing tags follow: too few are left.
-/

namespace VersatileEngine.Tags

def isQuote (c : UInt8) : Bool := c = 34 || c = 39

/-- White space, or a slash: the end of a name. -/
def isGap (c : UInt8) : Bool := c = 32 || c = 9 || c = 13 || c = 10 || c = 47

def nameOf (content : Str) : Str := content.takeWhile fun c => !isGap c

inductive Mode where
  | text
  | tag (content : Str) (quote : Option UInt8)
  | cdata (brackets : Nat)
  | malformed
deriving DecidableEq, Repr

structure Reader where
  mode : Mode
  opened : List Str
deriving DecidableEq, Repr

namespace Reader

/-- The end of a tag. Declarations and instructions are no tags, and neither is `<>`. -/
def finish (content : Str) (opened : List Str) : Reader :=
  if content = [] ∨ content.head? = some 33 ∨ content.head? = some 63 then ⟨.text, opened⟩
  else if content.head? = some 47 then
    if opened.head? = some (nameOf content.tail) then ⟨.text, opened.tail⟩ else ⟨.malformed, opened⟩
  else if (nameOf content).any isQuote then ⟨.malformed, opened⟩
  else if content.getLast? = some 47 then ⟨.text, opened⟩
  else ⟨.text, nameOf content :: opened⟩

def nextQuote (quote : Option UInt8) (c : UInt8) : Option UInt8 :=
  match quote with
  | some q => if c = q then none else some q
  | none => if isQuote c then some c else none

def step (r : Reader) (c : UInt8) : Reader :=
  match r.mode with
  | .text => if c = 60 then ⟨.tag [] none, r.opened⟩ else r
  | .tag content quote =>
    if quote = none ∧ c = 62 then finish content r.opened
    else if quote = none ∧ c = 60 then ⟨.malformed, r.opened⟩
    else if content ++ [c] = ascii "![CDATA[" then ⟨.cdata 0, r.opened⟩
    else ⟨.tag (content ++ [c]) (nextQuote quote c), r.opened⟩
  | .cdata brackets =>
    if c = 62 ∧ 2 ≤ brackets then ⟨.text, r.opened⟩
    else ⟨.cdata (if c = 93 then brackets + 1 else 0), r.opened⟩
  | .malformed => r

def run (r : Reader) (s : Str) : Reader := s.foldl step r

def accepted (r : Reader) : Prop := r.mode = .text ∧ r.opened = []

instance (r : Reader) : Decidable r.accepted := inferInstanceAs (Decidable (_ ∧ _))

end Reader

open Reader

def Balanced (s : Str) : Prop := (run ⟨.text, []⟩ s).accepted

instance (s : Str) : Decidable (Balanced s) := inferInstanceAs (Decidable (accepted _))

/-- The byte is nowhere outside quotes. -/
def Free (bad : UInt8) : Option UInt8 → Str → Prop
  | _, [] => True
  | quote, c :: s => (quote = none → c ≠ bad) ∧ Free bad (nextQuote quote c) s

def endQuote (quote : Option UInt8) (s : Str) : Option UInt8 := s.foldl nextQuote quote

/-- A name without the bytes that a reader stops at. -/
def Plain (n : Str) : Prop := ∀ c ∈ n, c ≠ 60 ∧ c ≠ 62 ∧ isQuote c = false ∧ isGap c = false

def closeTags (names : List Str) : Str := names.flatMap fun n => 60 :: 47 :: (n ++ [62])

theorem closeTags_cons (n : Str) (names : List Str) :
    closeTags (n :: names) = 60 :: 47 :: (n ++ [62]) ++ closeTags names := rfl

section Run

variable {s content pre : Str} {opened : List Str} {quote : Option UInt8} {r : Reader}

theorem run_append (r : Reader) (s s' : Str) : run r (s ++ s') = run (run r s) s' := List.foldl_append ..

theorem run_cons (r : Reader) (c : UInt8) (s : Str) : run r (c :: s) = run (r.step c) s := rfl

@[simp] theorem run_nil (r : Reader) : run r [] = r := rfl

theorem run_malformed : run ⟨.malformed, opened⟩ s = ⟨.malformed, opened⟩ := by
  induction s with
  | nil => rfl
  | cons c s ih => exact ih

theorem malformed_rejects : ¬ (run ⟨.malformed, opened⟩ s).accepted := by
  rw [run_malformed]
  exact fun h => (by cases h.1)

theorem run_text (h : ∀ c ∈ s, c ≠ 60) : run ⟨.text, opened⟩ s = ⟨.text, opened⟩ := by
  induction s with
  | nil => rfl
  | cons c s ih =>
    rw [List.forall_mem_cons] at h
    have hstep : step ⟨.text, opened⟩ c = ⟨.text, opened⟩ := by simp [step, h.1]
    rw [run_cons, hstep, ih h.2]

/-- Inside a tag, up to where it ends or a `<` comes. -/
theorem run_inside (hgt : Free 62 quote s) (hbang : (pre ++ s).head? ≠ some 33) :
    (Free 60 quote s → run ⟨.tag pre quote, opened⟩ s = ⟨.tag (pre ++ s) (endQuote quote s), opened⟩) ∧
      (¬ Free 60 quote s → run ⟨.tag pre quote, opened⟩ s = ⟨.malformed, opened⟩) := by
  induction s generalizing pre quote with
  | nil => exact ⟨fun _ => by simp [endQuote], fun h => absurd trivial h⟩
  | cons c s ih =>
    obtain ⟨hc, hgt⟩ := hgt
    have hend : ¬ (quote = none ∧ c = 62) := fun h => hc h.1 h.2
    have hcdata : pre ++ [c] ≠ ascii "![CDATA[" := by
      intro h
      refine hbang ?_
      rw [List.append_cons, h]
      rfl
    rw [List.append_cons] at hbang
    have hih := ih hgt hbang
    by_cases hlt : quote = none ∧ c = 60
    · have hstep : step ⟨.tag pre quote, opened⟩ c = ⟨.malformed, opened⟩ := by simp [step, hlt]
      rw [run_cons, hstep]
      exact ⟨fun h => absurd hlt.2 (h.1 hlt.1), fun _ => run_malformed⟩
    · have hstep : step ⟨.tag pre quote, opened⟩ c = ⟨.tag (pre ++ [c]) (nextQuote quote c), opened⟩ := by
        simp only [step, hend, hlt, hcdata, if_false]
      rw [run_cons, hstep]
      refine ⟨fun h => ?_, fun h => hih.2 fun h' => h ⟨fun hq he => hlt ⟨hq, he⟩, h'⟩⟩
      rw [hih.1 h.2, List.append_cons pre c s]
      rfl

/-- **A whole tag.** -/
theorem run_tag (hgt : Free 62 none content) (hend : endQuote none content = none)
    (hbang : content.head? ≠ some 33) :
    (Free 60 none content →
      run ⟨.text, opened⟩ (60 :: (content ++ [62])) = finish content opened) ∧
    (¬ Free 60 none content →
      run ⟨.text, opened⟩ (60 :: (content ++ [62])) = ⟨.malformed, opened⟩) := by
  have hopen : step ⟨.text, opened⟩ 60 = ⟨.tag [] none, opened⟩ := rfl
  have hinside := @run_inside content [] opened none hgt hbang
  rw [run_cons, hopen, run_append]
  refine ⟨fun h => ?_, fun h => ?_⟩
  · rw [hinside.1 h, hend]
    simp [run_cons, step]
  · rw [hinside.2 h, run_malformed]

/-- In quotes, everything up to the next one is of the tag. -/
theorem run_quoted {q : UInt8} (hq : isQuote q = true) (h : ∀ c ∈ s, isQuote c = false)
    (hbang : (pre ++ s).head? ≠ some 33) :
    run ⟨.tag pre (some q), opened⟩ s = ⟨.tag (pre ++ s) (some q), opened⟩ := by
  induction s generalizing pre with
  | nil => simp
  | cons c s ih =>
    rw [List.forall_mem_cons] at h
    have hne : c ≠ q := by
      rintro rfl
      rw [hq] at h
      cases h.1
    have hcdata : pre ++ [c] ≠ ascii "![CDATA[" := by
      intro he
      refine hbang ?_
      rw [List.append_cons, he]
      rfl
    have hstep : step ⟨.tag pre (some q), opened⟩ c = ⟨.tag (pre ++ [c]) (some q), opened⟩ := by
      simp [step, nextQuote, hne, hcdata]
    rw [List.append_cons] at hbang ⊢
    rw [run_cons, hstep, ih h.2 hbang]

theorem endQuote_isQuote {q : UInt8} (h : endQuote none s = some q) : isQuote q = true := by
  have hkeep : ∀ {quote : Option UInt8}, (∀ q, quote = some q → isQuote q = true) →
      ∀ q, endQuote quote s = some q → isQuote q = true := by
    clear h
    induction s with
    | nil => exact fun h => h
    | cons c s ih =>
      intro quote h
      refine @ih (nextQuote quote c) fun q hq => ?_
      cases quote with
      | none =>
        simp only [nextQuote] at hq
        split_ifs at hq with hc
        cases hq
        exact hc
      | some q' =>
        simp only [nextQuote] at hq
        split_ifs at hq
        exact h q hq
  exact hkeep (by simp) q h

theorem closeTags_unquoted {names : List Str} (h : ∀ n ∈ names, Plain n) :
    ∀ c ∈ closeTags names, isQuote c = false := by
  intro c hc
  obtain ⟨n, hn, hc⟩ := List.mem_flatMap.1 hc
  rcases List.mem_cons.1 hc with rfl | hc
  · rfl
  rcases List.mem_cons.1 hc with rfl | hc
  · rfl
  rcases List.mem_append.1 hc with hc | hc
  · exact (h n hn c hc).2.2.1
  · rw [List.mem_singleton.1 hc]
    rfl

theorem Plain.free {n : Str} (h : Plain n) (bad : UInt8) (hbad : bad = 60 ∨ bad = 62) :
    Free bad none n ∧ endQuote none n = none := by
  induction n with
  | nil => exact ⟨trivial, rfl⟩
  | cons c n ih =>
    obtain ⟨⟨hlt, hgt, hquote, -⟩, htail⟩ := List.forall_mem_cons.1 h
    have hnext : nextQuote none c = none := by simp [nextQuote, hquote]
    obtain ⟨hfree, hend⟩ := ih htail
    refine ⟨⟨fun _ => ?_, by rwa [hnext]⟩, ?_⟩
    · rcases hbad with rfl | rfl
      · exact hlt
      · exact hgt
    · show endQuote (nextQuote none c) n = none
      rw [hnext, hend]

theorem Plain.nameOf {n : Str} (h : Plain n) : nameOf n = n :=
  List.takeWhile_eq_self_iff.2 fun c hc => by simp [(h c hc).2.2.2]

/-- One closing tag. -/
theorem run_close {m : Str} (h : Plain m) : run ⟨.text, opened⟩ (60 :: 47 :: (m ++ [62])) =
    if opened.head? = some m then ⟨.text, opened.tail⟩ else ⟨.malformed, opened⟩ := by
  have hslash : nextQuote none 47 = none := rfl
  have hgt := h.free 62 (.inr rfl)
  have hlt := h.free 60 (.inl rfl)
  have htag := @run_tag (47 :: m) opened ⟨fun _ => by decide, by rw [hslash]; exact hgt.1⟩ hgt.2 (by simp)
  rw [← List.cons_append, htag.1 ⟨fun _ => by decide, by rw [hslash]; exact hlt.1⟩]
  simp [finish, h.nameOf]

/-- **Closing tags and nothing else are accepted** when they are those of the open elements. -/
theorem run_closers {ms : List Str} (h : ∀ m ∈ ms, Plain m) :
    (run ⟨.text, opened⟩ (closeTags ms)).accepted ↔ ms = opened := by
  induction ms generalizing opened with
  | nil => simp [closeTags, accepted, eq_comm]
  | cons m ms ih =>
    rw [List.forall_mem_cons] at h
    rw [closeTags_cons, run_append, run_close h.1]
    cases opened with
    | nil => simpa using malformed_rejects
    | cons n opened =>
      by_cases hm : n = m
      · subst hm
        simpa using ih h.2
      · simpa [hm, Ne.symm hm] using malformed_rejects

/-- The tags of the innermost elements, when they are closed by their names. -/
theorem run_close_some {ms inner : List Str} (h : ∀ m ∈ ms, Plain m) (hlen : ms.length = inner.length) :
    run ⟨.text, inner ++ opened⟩ (closeTags ms) = ⟨.text, opened⟩ ∧ ms = inner ∨
      (∃ o, run ⟨.text, inner ++ opened⟩ (closeTags ms) = ⟨.malformed, o⟩) ∧ ms ≠ inner := by
  induction ms generalizing inner with
  | nil =>
    obtain rfl : inner = [] := List.length_eq_zero_iff.1 hlen.symm
    exact .inl ⟨rfl, rfl⟩
  | cons m ms ih =>
    rw [List.forall_mem_cons] at h
    obtain _ | ⟨n, inner⟩ := inner
    · cases hlen
    rw [closeTags_cons, run_append, run_close h.1, List.cons_append, List.head?_cons, List.tail_cons]
    by_cases hm : n = m
    · subst hm
      simpa using ih h.2 (Nat.succ.inj hlen)
    · rw [if_neg (by simpa using hm)]
      exact .inr ⟨⟨_, run_malformed⟩, by simp [Ne.symm hm]⟩

theorem run_cdata {brackets : Nat} (h : ∀ c ∈ s, c ≠ 62) :
    ∃ k, run ⟨.cdata brackets, opened⟩ s = ⟨.cdata k, opened⟩ := by
  induction s generalizing brackets with
  | nil => exact ⟨_, rfl⟩
  | cons c s ih =>
    rw [List.forall_mem_cons] at h
    have hstep : step ⟨.cdata brackets, opened⟩ c =
        ⟨.cdata (if c = 93 then brackets + 1 else 0), opened⟩ := by simp [step, h.1]
    rw [run_cons, hstep]
    exact ih h.2

/-- What follows the end of a section, some brackets after it began. -/
def sectionEnd : Nat → Str → Option Str
  | _, [] => none
  | brackets, c :: s =>
    if c = 62 ∧ 2 ≤ brackets then some s else sectionEnd (if c = 93 then brackets + 1 else 0) s

theorem run_section {brackets : Nat} : (∀ rest, sectionEnd brackets s = some rest →
      run ⟨.cdata brackets, opened⟩ s = run ⟨.text, opened⟩ rest) ∧
    (sectionEnd brackets s = none → ∃ k, run ⟨.cdata brackets, opened⟩ s = ⟨.cdata k, opened⟩) := by
  induction s generalizing brackets with
  | nil => exact ⟨fun rest h => (by cases h), fun _ => ⟨_, rfl⟩⟩
  | cons c s ih =>
    rw [sectionEnd, run_cons]
    by_cases hend : c = 62 ∧ 2 ≤ brackets
    · have hstep : step ⟨.cdata brackets, opened⟩ c = ⟨.text, opened⟩ := by simp [step, hend]
      rw [if_pos hend, hstep]
      exact ⟨fun rest h => by cases h; rfl, fun h => (by cases h)⟩
    · have hstep : step ⟨.cdata brackets, opened⟩ c =
          ⟨.cdata (if c = 93 then brackets + 1 else 0), opened⟩ := by simp only [step, hend, if_false]
      rw [if_neg hend, hstep]
      exact ih

/-- A section that is open takes a closing tag away, whether it ends in it or not. -/
theorem section_closers {ms : List Str} {brackets : Nat} (h : ∀ m ∈ ms, Plain m)
    (hacc : (run ⟨.cdata brackets, opened⟩ (closeTags ms)).accepted) : opened.length < ms.length := by
  induction ms generalizing brackets with
  | nil => cases hacc.1
  | cons m ms ih =>
    rw [List.forall_mem_cons] at h
    have hrest : closeTags (m :: ms) = 60 :: 47 :: m ++ ([62] ++ closeTags ms) := by simp [closeTags_cons]
    have hno : ∀ c ∈ 60 :: 47 :: m, c ≠ 62 := by
      intro c hc
      rcases List.mem_cons.1 hc with rfl | hc
      · decide
      rcases List.mem_cons.1 hc with rfl | hc
      · decide
      · exact (h.1 c hc).2.1
    obtain ⟨k, hk⟩ := @run_cdata _ opened brackets hno
    have hstep : run ⟨.cdata k, opened⟩ [62] = if 2 ≤ k then ⟨.text, opened⟩ else ⟨.cdata 0, opened⟩ := by
      simp [run_cons, step]
    rw [hrest, run_append, hk, run_append, hstep] at hacc
    split_ifs at hacc with hend
    · rw [← (run_closers h.2).1 hacc]
      simp
    · have := ih h.2 hacc
      simp only [List.length_cons]
      omega

end Run

end VersatileEngine.Tags
