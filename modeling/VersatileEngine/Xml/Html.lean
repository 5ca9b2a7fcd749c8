import VersatileEngine.Lib.Tags

/-!
# VersatileEngine.Xml.Html

`fixHtmlToXml`: HTML made into something that an XML reader takes.

* `removeTag`    — the `script` and `style` elements are taken out.
* `Markup`       — what begins at a `<`; `balance` is the loop over the text, with the open elements.
* `fixHtmlToXml` — no result would mean that a loop does not end.
* `Markup.Good`  — what comes out as it has to: a tag or section that ends, and an opening tag that is whole
  and has its name in lower case where it is to be closed again.
* `fix_balanced` — **the result is balanced exactly when all markup is good**.
-/

namespace VersatileEngine.Html

open Tags

/-- `s.find(pat)`, as what lies before the place and what follows it. -/
def find (pat : Str) : Str → Option (Str × Str)
  | [] => none
  | c :: s =>
    if (c :: s).take pat.length = pat then some ([], (c :: s).drop pat.length)
    else (find pat s).map fun (before, after) => (c :: before, after)

/-! ## Scripts and styles -/

/-- The characters that may follow the name of a tag that is taken out. -/
def isBoundary (c : UInt8) : Bool := c = 62 || c = 32 || c = 9 || c = 13 || c = 10 || c = 47

/-- The text behind an element that begins with its opening tag; the text behind its opening tag, if there
is no closing one. -/
def behind (closeTag after : Str) : Option Str :=
  match find closeTag after with
  | some (_, rest) => some (((find [62] rest).map Prod.snd).getD rest)
  | none => (find [62] after).map Prod.snd

/-- The loop for one of the tags. -/
def removeTag (tag : Str) : Nat → Str → Option Str
  | 0, _ => none
  | fuel + 1, s =>
    match find (60 :: tag) s with
    | none => some s
    | some (before, after) =>
      let kept := (removeTag tag fuel after).map fun rest => before ++ 60 :: tag ++ rest
      if !after.head?.any isBoundary then kept
      else
        match behind (60 :: 47 :: tag) after with
        | some rest => (removeTag tag fuel rest).map fun rest => before ++ rest
        | none => kept

def clean (html : Str) : Option Str :=
  (removeTag (ascii "script") (html.length + 1) html).bind fun s => removeTag (ascii "style") (s.length + 1) s

/-! ## Tags -/

/-- The end of a tag, ignoring `>` in quotes: its content and what follows. -/
def tagEnd : Option UInt8 → Str → Option (Str × Str)
  | _, [] => none
  | quote, c :: s =>
    if quote = none ∧ c = 62 then some ([], s)
    else (tagEnd (Reader.nextQuote quote c) s).map fun (content, rest) => (c :: content, rest)

/-- What begins at a `<`: something that is left out, or unfinished and left out with all that follows; a
section or a tag; `<>`; an unfinished section or tag, which is copied with all that follows. -/
inductive Markup where
  | skipped (rest : Str)
  | cut
  | cdata (body rest : Str)
  | blank (rest : Str)
  | tag (content rest : Str)
  | raw

def markup (s : Str) : Markup :=
  if s.take 4 = ascii "<!--" then ((find (ascii "-->") (s.drop 4)).map fun r => Markup.skipped r.2).getD .cut
  else if s.take 9 = ascii "<![CDATA[" then
    ((find (ascii "]]>") (s.drop 9)).map fun r => Markup.cdata r.1 r.2).getD .raw
  else if s.take 2 = ascii "<!" then ((find [62] (s.drop 2)).map fun r => Markup.skipped r.2).getD .cut
  else
    match tagEnd none (s.drop 1) with
    | none => .raw
    | some (content, rest) =>
      if content = [] then .blank rest
      else if content.head? = some 63 then .skipped rest
      else .tag content rest

def voidTags : List Str :=
  ["area", "base", "br", "col", "embed", "hr", "img", "input", "link", "meta", "param", "source", "track",
    "wbr"].map ascii

/-- `std::tolower`. -/
def lower (c : UInt8) : UInt8 := if 65 ≤ c ∧ c ≤ 90 then c + 32 else c

def tagName (content : Str) : Str := nameOf (if content.head? = some 47 then content.tail else content)

/-- What is written for a tag, and the elements that are open after it, the last one first. -/
def writeTag (content : Str) (stack : List Str) : Str × List Str :=
  let isSelfClosing := content.getLast? = some 47
  let lowerName := (tagName content).map lower
  if content.head? = some 47 then
    match stack.idxOf? lowerName with
    | some i => (closeTags (stack.take (i + 1)), stack.drop (i + 1))
    | none => ([], stack)
  else if lowerName ∈ voidTags then
    (60 :: content ++ (if isSelfClosing then [62] else [47, 62]), stack)
  else (60 :: content ++ [62], if isSelfClosing then stack else lowerName :: stack)

/-- What the loop body writes for what begins here; with what is left of the text and the elements that are
open then, where the loop goes on. -/
def Markup.write (s : Str) (stack : List Str) : Markup → Str × Option (Str × List Str)
  | skipped rest => ([], some (rest, stack))
  | cut => ([], none)
  | cdata body rest => (ascii "<![CDATA[" ++ body ++ ascii "]]>", some (rest, stack))
  | blank rest => (ascii "<>", some (rest, stack))
  | tag content rest => ((writeTag content stack).1, some (rest, (writeTag content stack).2))
  | raw => (s, none)

/-- The loop: what is written from here on, the closing tags at the end included. -/
def balance : Nat → Str → List Str → Option Str
  | 0, _, _ => none
  | fuel + 1, s, stack =>
    let text := s.takeWhile (· ≠ 60)
    match s.dropWhile (· ≠ 60) with
    | [] => some (text ++ closeTags stack)
    | c :: tail =>
      let written := (markup (c :: tail)).write (c :: tail) stack
      match written.2 with
      | none => some (text ++ (written.1 ++ closeTags stack))
      | some (rest, stack) => (balance fuel rest stack).map fun out => text ++ (written.1 ++ out)

def fixHtmlToXml (html : Str) : Option Str :=
  (clean html).bind fun cleaned => (balance (cleaned.length + 1) cleaned []).map fun xml =>
    ascii "<root>" ++ xml ++ ascii "</root>"

/-! ## The markup of a text -/

/-- Where the loop goes on. -/
def Markup.rest? : Markup → Option Str
  | skipped rest => some rest
  | cut => none
  | cdata _ rest => some rest
  | blank rest => some rest
  | tag _ rest => some rest
  | raw => none

/-- What the text is made of, beside plain text. -/
def pieces : Nat → Str → List Markup
  | 0, _ => []
  | fuel + 1, s =>
    match s.dropWhile (· ≠ 60) with
    | [] => []
    | c :: tail => markup (c :: tail) :: ((markup (c :: tail)).rest?.map (pieces fuel)).getD []

/-- An opening tag has no `<` outside quotes and no quote in its name; the name is in lower case, unless the
tag is an element of its own. Nothing is unfinished and copied. -/
def Markup.Good : Markup → Prop
  | raw => False
  | tag content _ => content.head? ≠ some 47 → Free 60 none content ∧ (tagName content).any isQuote = false ∧
      ((tagName content).map lower ∈ voidTags ∨ content.getLast? = some 47 ∨
        (tagName content).map lower = tagName content)
  | _ => True

/-! ## Places in a text -/

theorem find_split {pat s before after : Str} (h : find pat s = some (before, after)) :
    s = before ++ pat ++ after := by
  induction s generalizing before with
  | nil => cases h
  | cons c s ih =>
    rw [find] at h
    split_ifs at h with hpat
    · cases h
      conv => lhs; rw [← List.take_append_drop pat.length (c :: s), hpat]
      rfl
    · obtain ⟨⟨b, a⟩, hfind, heq⟩ := Option.map_eq_some_iff.1 h
      cases heq
      rw [ih hfind]
      rfl

/-- What follows the place is of no matter. -/
theorem find_other {pat s before after : Str} (h : find pat s = some (before, after)) (out : Str)
    (hpat : pat ≠ []) : find pat (before ++ pat ++ out) = some (before, out) := by
  induction s generalizing before with
  | nil => cases h
  | cons c s ih =>
    have hsplit := find_split h
    rw [find] at h
    split_ifs at h with hhere
    · cases h
      obtain ⟨d, pat, rfl⟩ := List.exists_cons_of_ne_nil hpat
      simp [find]
    · obtain ⟨⟨b, a⟩, hfind, heq⟩ := Option.map_eq_some_iff.1 h
      cases heq
      have hlen : pat.length ≤ (c :: b ++ pat).length := by
        simp only [List.length_append]
        omega
      have hsame : (c :: b ++ pat ++ out).take pat.length = (c :: s).take pat.length := by
        rw [hsplit, List.take_append_of_le_length hlen, List.take_append_of_le_length hlen]
      rw [List.cons_append, List.cons_append] at hsame ⊢
      rw [find, if_neg (by rwa [hsame]), ih hfind]
      rfl

theorem length_find {pat s before after : Str} (h : find pat s = some (before, after)) :
    after.length + pat.length ≤ s.length := by
  rw [find_split h]
  simp only [List.length_append]
  omega

/-- What follows a mark that is found behind the first characters is shorter than the text. -/
theorem find_drop {pat s before after : Str} {n : Nat} (hpat : pat ≠ [])
    (h : find pat (s.drop n) = some (before, after)) : after.length < s.length := by
  have hlen := length_find h
  have hpos := List.length_pos_iff.mpr hpat
  rw [List.length_drop] at hlen
  omega

theorem find_skip {pat : Str} {c : UInt8} {s : Str} (h : (c :: s).take pat.length ≠ pat) :
    (find pat (c :: s)).map Prod.snd = (find pat s).map Prod.snd := by
  rw [find, if_neg h, Option.map_map]
  rfl

/-- The end of a section is where its mark is found. -/
theorem find_section (s : Str) (k : Nat) :
    sectionEnd k s = (find (ascii "]]>") (List.replicate (min k 2) 93 ++ s)).map Prod.snd := by
  have hpat : ascii "]]>" = [93, 93, 62] := rfl
  rw [hpat]
  induction s generalizing k with
  | nil =>
    rw [List.append_nil]
    obtain _ | _ | k := k
    · rfl
    · rfl
    · rw [Nat.min_eq_right (by omega)]
      rfl
  | cons c s ih =>
    rw [sectionEnd]
    by_cases hb : c = 93
    · subst hb
      rw [if_neg (fun h => absurd h.1 (by decide)), if_pos rfl, ih]
      obtain _ | _ | k := k
      · rfl
      · rfl
      · rw [Nat.min_eq_right (by omega), Nat.min_eq_right (by omega)]
        exact (find_skip (c := 93) (s := 93 :: 93 :: s) (by simp)).symm
    · have hlast : (find [93, 93, 62] (c :: s)).map Prod.snd = (find [93, 93, 62] s).map Prod.snd :=
        find_skip (by simp [hb])
      have hnext : sectionEnd 0 s = (find [93, 93, 62] s).map Prod.snd := ih 0
      rw [if_neg hb, hnext]
      obtain _ | _ | k := k
      · rw [if_neg (by omega), ← hlast]
        rfl
      · rw [if_neg (by omega), ← hlast]
        exact (find_skip (c := 93) (s := c :: s) (by simp [hb])).symm
      · have hmin : min (k + 1 + 1) 2 = 2 := by omega
        rw [hmin]
        by_cases hend : c = 62
        · subst hend
          rw [if_pos ⟨rfl, by omega⟩]
          rfl
        · rw [if_neg fun h => hend h.1, ← hlast]
          have htwo := @find_skip [93, 93, 62] 93 (93 :: c :: s) (by simp [hend])
          have hone := @find_skip [93, 93, 62] 93 (c :: s) (by simp [hb])
          exact (htwo.trans hone).symm

theorem tagEnd_some {quote : Option UInt8} {s content rest : Str} (h : tagEnd quote s = some (content, rest)) :
    s = content ++ 62 :: rest ∧ Free 62 quote content ∧ endQuote quote content = none := by
  induction s generalizing quote content with
  | nil => cases h
  | cons c s ih =>
    rw [tagEnd] at h
    split_ifs at h with hend
    · cases h
      obtain ⟨rfl, rfl⟩ := hend
      exact ⟨rfl, trivial, rfl⟩
    · obtain ⟨⟨b, a⟩, htail, heq⟩ := Option.map_eq_some_iff.1 h
      cases heq
      obtain ⟨hs, hfree, hquote⟩ := ih htail
      exact ⟨by rw [hs]; rfl, ⟨fun hq he => hend ⟨hq, he⟩, hfree⟩, hquote⟩

theorem tagEnd_none {quote : Option UInt8} {s : Str} (h : tagEnd quote s = none) : Free 62 quote s := by
  induction s generalizing quote with
  | nil => trivial
  | cons c s ih =>
    rw [tagEnd] at h
    split_ifs at h with hend
    exact ⟨fun hq he => hend ⟨hq, he⟩, ih (Option.map_eq_none_iff.1 h)⟩

/-- What the cases of `markup` say of the text. -/
inductive Begins (s : Str) : Markup → Prop
  | skipped {rest : Str} : rest.length < s.length → Begins s (.skipped rest)
  | cut : Begins s .cut
  | cdata {t body rest : Str} : s = ascii "<![CDATA[" ++ t → find (ascii "]]>") t = some (body, rest) →
      Begins s (.cdata body rest)
  | openSection {t : Str} : s = ascii "<![CDATA[" ++ t → find (ascii "]]>") t = none → Begins s .raw
  | blank {rest : Str} : rest.length < s.length → Begins s (.blank rest)
  | tag {content rest : Str} : s = 60 :: (content ++ 62 :: rest) → content ≠ [] → content.head? ≠ some 33 →
      content.head? ≠ some 63 → Free 62 none content → endQuote none content = none →
      Begins s (.tag content rest)
  | openTag {t : Str} : s = 60 :: t → t.head? ≠ some 33 → tagEnd none t = none → Begins s .raw

theorem markup_begins (tail : Str) : Begins (60 :: tail) (markup (60 :: tail)) := by
  rw [markup]
  split_ifs with hcomment hsection hdecl
  · cases hfind : find (ascii "-->") ((60 :: tail).drop 4) with
    | none => exact .cut
    | some r => exact .skipped (@find_drop _ _ r.1 r.2 4 (by decide) hfind)
  · have hs : 60 :: tail = ascii "<![CDATA[" ++ (60 :: tail).drop 9 := by
      rw [← hsection, List.take_append_drop]
    cases hfind : find (ascii "]]>") ((60 :: tail).drop 9) with
    | none => exact .openSection hs hfind
    | some r => exact .cdata hs hfind
  · cases hfind : find [62] ((60 :: tail).drop 2) with
    | none => exact .cut
    | some r => exact .skipped (@find_drop _ _ r.1 r.2 2 (by decide) hfind)
  · have hbang : tail.head? ≠ some 33 := by
      intro h
      obtain _ | ⟨c, tail⟩ := tail
      · cases h
      cases h
      exact hdecl rfl
    cases hend : tagEnd none ((60 :: tail).drop 1) with
    | none => exact .openTag rfl hbang hend
    | some r =>
      obtain ⟨content, rest⟩ := r
      obtain ⟨hs, hfree, hquote⟩ := tagEnd_some hend
      replace hs : tail = content ++ 62 :: rest := hs
      have hlen : rest.length < (60 :: tail).length := by
        rw [hs]
        simp only [List.length_cons, List.length_append]
        omega
      simp only []
      split_ifs with hnil hpi
      · exact .blank hlen
      · exact .skipped hlen
      · refine .tag (by rw [hs]) hnil ?_ hpi hfree hquote
        intro h
        refine hbang ?_
        rw [hs, List.head?_append, h]
        rfl

/-! ## What is written -/

/-- Every name is in lower case already. -/
def Fine (opened : List Str) : Prop := opened.map (List.map lower) = opened

theorem lower_plain {c : UInt8} (h : c ≠ 60 ∧ c ≠ 62 ∧ isQuote c = false ∧ isGap c = false) :
    lower c ≠ 60 ∧ lower c ≠ 62 ∧ isQuote (lower c) = false ∧ isGap (lower c) = false := by
  rw [lower]
  split_ifs with hup
  · have hval : (c + 32).toNat = c.toNat + 32 := by
      rw [UInt8.toNat_add]
      have h90 : c.toNat ≤ 90 := hup.2
      have h32 : (32 : UInt8).toNat = 32 := rfl
      omega
    have h65 : 65 ≤ c.toNat := hup.1
    have hother : ∀ d : UInt8, d.toNat < 97 → c + 32 ≠ d := by
      intro d hd he
      rw [he] at hval
      omega
    simp only [isQuote, isGap, Bool.or_eq_false_iff, decide_eq_false_iff_not]
    exact ⟨hother 60 (by decide), hother 62 (by decide), ⟨hother 34 (by decide), hother 39 (by decide)⟩,
      ⟨⟨⟨hother 32 (by decide), hother 9 (by decide)⟩, hother 13 (by decide)⟩, hother 10 (by decide)⟩,
      hother 47 (by decide)⟩
  · exact h

theorem plain_lower {opened : List Str} (h : ∀ n ∈ opened, Plain n) :
    ∀ n ∈ opened.map (List.map lower), Plain n := by
  intro n hn c hc
  obtain ⟨m, hm, rfl⟩ := List.mem_map.1 hn
  obtain ⟨d, hd, rfl⟩ := List.mem_map.1 hc
  exact lower_plain (h m hm d hd)

/-- Before its first quote, a byte that is not outside quotes is nowhere. -/
theorem free_name {bad : UInt8} {content : Str} (h : Free bad none content)
    (hquote : (nameOf content).any isQuote = false) : ∀ c ∈ nameOf content, c ≠ bad := by
  induction content with
  | nil => exact fun c hc => (by cases hc)
  | cons d content ih =>
    intro c hc
    rw [nameOf, List.takeWhile_cons] at hc hquote
    split_ifs at hc hquote with hgap
    · rw [List.any_cons, Bool.or_eq_false_iff] at hquote
      have hnext : Reader.nextQuote none d = none := by simp [Reader.nextQuote, hquote.1]
      obtain ⟨hd, htail⟩ := h
      rw [hnext] at htail
      rcases List.mem_cons.1 hc with rfl | hc
      · exact hd rfl
      · exact ih htail hquote.2 c hc
    · cases hc

theorem plain_name {content : Str} (hlt : Free 60 none content) (hgt : Free 62 none content)
    (hquote : (nameOf content).any isQuote = false) : Plain (nameOf content) := by
  intro c hc
  have hgap : (!isGap c) = true := List.mem_takeWhile_imp (p := fun c => !isGap c) hc
  refine ⟨free_name hlt hquote c hc, free_name hgt hquote c hc, ?_, by simpa using hgap⟩
  simpa using (List.any_eq_false.1 hquote) c hc

section Write

variable {content rest : Str} {opened base : List Str}

/-- What is written for a tag is read with the elements that are open after it, or is malformed. -/
def Written (content rest : Str) (opened base : List Str) : Prop :=
  (∃ opened', (writeTag content (opened.map (List.map lower))).2 = opened'.map (List.map lower) ∧
    (∀ n ∈ opened', Plain n) ∧
    Reader.run ⟨.text, opened ++ base⟩ (writeTag content (opened.map (List.map lower))).1 =
      ⟨.text, opened' ++ base⟩ ∧ (Fine opened' ↔ Fine opened ∧ (Markup.tag content rest).Good)) ∨
  ((∃ o, Reader.run ⟨.text, opened ++ base⟩ (writeTag content (opened.map (List.map lower))).1 =
      ⟨.malformed, o⟩) ∧ ¬ (Fine opened ∧ (Markup.tag content rest).Good))

/-- A closing tag closes what it is for, with all that was opened since. -/
theorem write_closing (hopened : ∀ n ∈ opened, Plain n) (hclosing : content.head? = some 47) :
    Written content rest opened base := by
  have hgood : (Markup.tag content rest).Good := fun h => absurd hclosing h
  simp only [Written, writeTag, if_pos hclosing]
  cases (opened.map (List.map lower)).idxOf? ((tagName content).map lower) with
  | none => exact .inl ⟨opened, rfl, hopened, rfl, (and_iff_left hgood).symm⟩
  | some i =>
    have hinner : ∀ m ∈ (opened.map (List.map lower)).take (i + 1), Plain m :=
      fun m hm => plain_lower hopened m (List.mem_of_mem_take hm)
    have hfine : Fine opened ↔
        (opened.map (List.map lower)).take (i + 1) = opened.take (i + 1) ∧ Fine (opened.drop (i + 1)) := by
      conv => lhs; rw [Fine, ← List.take_append_drop (i + 1) opened]
      rw [List.map_append, ← List.map_take]
      refine ⟨fun h => List.append_inj h (by simp), fun h => ?_⟩
      rw [h.1, h.2]
    have hrun := @run_close_some (opened.drop (i + 1) ++ base) _ (opened.take (i + 1)) hinner (by simp)
    rw [← List.append_assoc, List.take_append_drop] at hrun
    rcases hrun with ⟨hrun, heq⟩ | ⟨hrun, hne⟩
    · exact .inl ⟨opened.drop (i + 1), List.map_drop.symm, fun n hn => hopened n (List.mem_of_mem_drop hn),
        hrun, (hfine.trans (and_iff_right heq)).symm.trans (and_iff_left hgood).symm⟩
    · exact .inr ⟨hrun, fun h => hne (hfine.1 h.1).1⟩

theorem free_concat {bad c : UInt8} {quote : Option UInt8} {s : Str} :
    Free bad quote (s ++ [c]) ↔ Free bad quote s ∧ (endQuote quote s = none → c ≠ bad) := by
  induction s generalizing quote with
  | nil => simp [Free, endQuote]
  | cons d s ih =>
    rw [List.cons_append, Free, Free, ih, and_assoc]
    rfl

theorem nameOf_slash {s : Str} : nameOf (s ++ [47]) = nameOf s := by
  induction s with
  | nil => rfl
  | cons c s ih =>
    rw [nameOf, nameOf] at ih ⊢
    rw [List.cons_append, List.takeWhile_cons, List.takeWhile_cons, ih]

/-- The text of an opening tag, read with a slash at its end or without. -/
theorem run_opening {slash : Str} (hslash : slash = [] ∨ slash = [47]) (hne : content ≠ [])
    (hbang : content.head? ≠ some 33) (hpi : content.head? ≠ some 63) (hopening : content.head? ≠ some 47)
    (hgt : Free 62 none content) (hend : endQuote none content = none) :
    (Free 60 none content ∧ (nameOf content).any isQuote = false →
      Reader.run ⟨.text, base⟩ (60 :: content ++ (slash ++ [62])) =
        ⟨.text, if (content ++ slash).getLast? = some 47 then base else nameOf content :: base⟩) ∧
    (¬ (Free 60 none content ∧ (nameOf content).any isQuote = false) →
      ∃ o, Reader.run ⟨.text, base⟩ (60 :: content ++ (slash ++ [62])) = ⟨.malformed, o⟩) := by
  have hname : nameOf (content ++ slash) = nameOf content := by
    rcases hslash with rfl | rfl
    · rw [List.append_nil]
    · exact nameOf_slash
  have hfree : ∀ bad, bad ≠ 47 → (Free bad none (content ++ slash) ↔ Free bad none content) := by
    intro bad hbad
    rcases hslash with rfl | rfl
    · rw [List.append_nil]
    · rw [free_concat]
      exact and_iff_left fun _ => hbad.symm
  have hquote : endQuote none (content ++ slash) = none := by
    rcases hslash with rfl | rfl
    · rwa [List.append_nil]
    · have hsplit : endQuote none (content ++ [47]) = Reader.nextQuote (endQuote none content) 47 :=
        List.foldl_append ..
      rw [hsplit, hend]
      rfl
  have hhead : (content ++ slash).head? = content.head? := by
    obtain ⟨c, s, rfl⟩ := List.exists_cons_of_ne_nil hne
    rfl
  have htag := @run_tag (content ++ slash) base ((hfree 62 (by decide)).2 hgt) hquote (by rwa [hhead])
  have hsame : 60 :: content ++ (slash ++ [62]) = 60 :: (content ++ slash ++ [62]) := by simp
  have hfinish : Reader.finish (content ++ slash) base =
      if (nameOf content).any isQuote then ⟨.malformed, base⟩
      else if (content ++ slash).getLast? = some 47 then ⟨.text, base⟩
      else ⟨.text, nameOf content :: base⟩ := by
    rw [Reader.finish, if_neg (by simp [hhead, hne, hbang, hpi]), if_neg (by rwa [hhead]), hname]
  rw [hsame]
  refine ⟨fun h => ?_, fun h => ?_⟩
  · rw [htag.1 ((hfree 60 (by decide)).2 h.1), hfinish, if_neg (by simp [h.2])]
    split_ifs <;> rfl
  · by_cases hlt : Free 60 none content
    · have hany : (nameOf content).any isQuote = true := by
        by_contra hno
        exact h ⟨hlt, by simpa using hno⟩
      refine ⟨base, ?_⟩
      rw [htag.1 ((hfree 60 (by decide)).2 hlt), hfinish, hany]
      rfl
    · exact ⟨base, htag.2 fun h' => hlt ((hfree 60 (by decide)).1 h')⟩

/-- An opening tag is written as it was, or closed in itself. -/
theorem write_opening (hopened : ∀ n ∈ opened, Plain n) (hne : content ≠ [])
    (hbang : content.head? ≠ some 33) (hpi : content.head? ≠ some 63) (hopening : content.head? ≠ some 47)
    (hgt : Free 62 none content) (hend : endQuote none content = none) :
    Written content rest opened base := by
  have hname : tagName content = nameOf content := by rw [tagName, if_neg hopening]
  have hgood : (Markup.tag content rest).Good ↔ (Free 60 none content ∧ (nameOf content).any isQuote = false) ∧
      ((nameOf content).map lower ∈ voidTags ∨ content.getLast? = some 47 ∨
        (nameOf content).map lower = nameOf content) := by
    simp only [Markup.Good, hname, and_assoc]
    exact ⟨fun h => h hopening, fun h _ => h⟩
  have hrun : ∀ {slash : Str}, slash = [] ∨ slash = [47] → _ := fun h =>
    @run_opening content (opened ++ base) _ h hne hbang hpi hopening hgt hend
  simp only [Written, writeTag, if_neg hopening, hname, hgood]
  by_cases hsound : Free 60 none content ∧ (nameOf content).any isQuote = false
  · left
    by_cases hvoid : (nameOf content).map lower ∈ voidTags
    · simp only [if_pos hvoid]
      refine ⟨opened, rfl, hopened, ?_, (and_iff_left ⟨hsound, .inl hvoid⟩).symm⟩
      split_ifs with hlast
      · have := (hrun (.inl rfl)).1 hsound
        rwa [List.append_nil, if_pos hlast, List.nil_append] at this
      · have := (hrun (.inr rfl)).1 hsound
        rwa [if_pos List.getLast?_concat] at this
    · have := (hrun (.inl rfl)).1 hsound
      rw [List.append_nil, List.nil_append] at this
      simp only [if_neg hvoid]
      by_cases hlast : content.getLast? = some 47
      · rw [if_pos hlast] at this ⊢
        exact ⟨opened, rfl, hopened, this, (and_iff_left ⟨hsound, .inr (.inl hlast)⟩).symm⟩
      · rw [if_neg hlast] at this ⊢
        refine ⟨nameOf content :: opened, rfl, ?_, this, ?_⟩
        · exact List.forall_mem_cons.2 ⟨plain_name hsound.1 hgt hsound.2, hopened⟩
        · simp only [Fine, List.map_cons, List.cons.injEq, hvoid, hlast, hsound, true_and, false_or, and_comm]
  · right
    refine ⟨?_, fun h => hsound h.2.1⟩
    by_cases hvoid : (nameOf content).map lower ∈ voidTags
    · simp only [if_pos hvoid]
      split_ifs with hlast
      · exact (hrun (.inl rfl)).2 hsound
      · exact (hrun (.inr rfl)).2 hsound
    · simp only [if_neg hvoid]
      exact (hrun (.inl rfl)).2 hsound

end Write

theorem written {content rest : Str} {opened base : List Str} (hopened : ∀ n ∈ opened, Plain n)
    (hne : content ≠ []) (hbang : content.head? ≠ some 33) (hpi : content.head? ≠ some 63)
    (hgt : Free 62 none content) (hend : endQuote none content = none) : Written content rest opened base := by
  by_cases hclosing : content.head? = some 47
  · exact write_closing hopened hclosing
  · exact write_opening hopened hne hbang hpi hclosing hgt hend

/-! ## The loop -/

theorem rest_shorter {s rest : Str} {m : Markup} (h : Begins s m) (hrest : m.rest? = some rest) :
    rest.length < s.length := by
  cases h with
  | skipped hlen => cases hrest; exact hlen
  | cut => cases hrest
  | @cdata t body rest hs hfind =>
    cases hrest
    have := length_find hfind
    rw [hs, List.length_append]
    have hlen : (ascii "<![CDATA[").length = 9 := rfl
    omega
  | openSection => cases hrest
  | blank hlen => cases hrest; exact hlen
  | @tag content rest hs =>
    cases hrest
    rw [hs]
    simp only [List.length_cons, List.length_append]
    omega
  | openTag => cases hrest

theorem write_rest {s : Str} {stack : List Str} {m : Markup} :
    (m.write s stack).2.map Prod.fst = m.rest? := by
  cases m <;> rfl

/-- The text up to the next markup, which begins with a `<`. -/
theorem dropWhile_markup {s tail : Str} {c : UInt8} (h : s.dropWhile (· ≠ 60) = c :: tail) :
    c = 60 ∧ (c :: tail).length ≤ s.length := by
  refine ⟨?_, h ▸ (List.dropWhile_sublist _).length_le⟩
  have := List.head?_dropWhile_not (· ≠ (60 : UInt8)) s
  rw [h] at this
  simpa using this

/-- **The loop ends.** -/
theorem balance_total (fuel : Nat) : ∀ (s : Str) (stack : List Str), s.length < fuel →
    ∃ out, balance fuel s stack = some out := by
  induction fuel with
  | zero => intro s stack h; omega
  | succ fuel ih =>
    intro s stack h
    rw [balance]
    cases hs : s.dropWhile (· ≠ 60) with
    | nil => exact ⟨_, rfl⟩
    | cons c tail =>
      obtain ⟨rfl, hlen⟩ := dropWhile_markup hs
      have hrest := @write_rest (60 :: tail) stack (markup (60 :: tail))
      simp only
      cases hw : ((markup (60 :: tail)).write (60 :: tail) stack).2 with
      | none => exact ⟨_, rfl⟩
      | some next =>
        rw [hw] at hrest
        have := rest_shorter (markup_begins tail) hrest.symm
        obtain ⟨out, hout⟩ := ih next.1 next.2 (by omega)
        exact ⟨_, by simp only [hout]; rfl⟩

/-- The closing tags at the end, with that of the root. -/
def closing (opened : List Str) : Str := closeTags (opened.map (List.map lower) ++ [ascii "root"])

theorem plain_closing {opened : List Str} (h : ∀ n ∈ opened, Plain n) :
    ∀ n ∈ opened.map (List.map lower) ++ [ascii "root"], Plain n := by
  intro n hn
  rcases List.mem_append.1 hn with hn | hn
  · exact plain_lower h n hn
  · rw [List.mem_singleton.1 hn]
    simp [Plain, ascii, isQuote, isGap]

theorem closing_accepted {opened : List Str} (h : ∀ n ∈ opened, Plain n) :
    (Reader.run ⟨.text, opened ++ [ascii "root"]⟩ (closing opened)).accepted ↔ Fine opened := by
  rw [closing, run_closers (plain_closing h), List.append_left_inj]
  rfl

/-- What is unfinished and copied is never read as something whole. -/
theorem raw_rejects {s : Str} {opened : List Str} (h : ∀ n ∈ opened, Plain n) (hraw : Begins s .raw) :
    ¬ (Reader.run ⟨.text, opened ++ [ascii "root"]⟩ (s ++ closing opened)).accepted := by
  have hplain := plain_closing h
  cases hraw with
  | @openSection t hs hfind =>
    intro hacc
    have hstart : Reader.run ⟨.text, opened ++ [ascii "root"]⟩ (ascii "<![CDATA[") =
        ⟨.cdata 0, opened ++ [ascii "root"]⟩ := rfl
    have hsection : sectionEnd 0 t = none := by
      rw [find_section t 0]
      exact Option.map_eq_none_iff.2 hfind
    obtain ⟨k, hk⟩ := (@run_section t (opened ++ [ascii "root"]) 0).2 hsection
    rw [hs, run_append, run_append, hstart, hk] at hacc
    have hlen := section_closers hplain hacc
    simp at hlen
  | @openTag t hs hbang hend =>
    subst hs
    have hopen : Reader.step ⟨.text, opened ++ [ascii "root"]⟩ 60 = ⟨.tag [] none, opened ++ [ascii "root"]⟩ := rfl
    have hinside := @run_inside t [] (opened ++ [ascii "root"]) none (tagEnd_none hend) (by simpa using hbang)
    rw [List.cons_append, run_cons, hopen, run_append]
    by_cases hlt : Free 60 none t
    · rw [hinside.1 hlt, List.nil_append]
      have hnames : closing opened = 60 :: (closing opened).tail := by
        rw [closing]
        cases opened <;> rfl
      cases hquote : endQuote none t with
      | none =>
        have hstep : Reader.step ⟨.tag t none, opened ++ [ascii "root"]⟩ 60 =
            ⟨.malformed, opened ++ [ascii "root"]⟩ := by simp [Reader.step]
        rw [hnames, run_cons, hstep]
        exact malformed_rejects
      | some q =>
        have hquiet : ∀ c ∈ closing opened, isQuote c = false := closeTags_unquoted hplain
        rw [run_quoted (endQuote_isQuote hquote) hquiet]
        · exact fun hacc => (by cases hacc.1)
        · rw [List.head?_append]
          cases t with
          | nil => rw [hnames]; simp
          | cons c t => exact hbang
    · rw [hinside.2 hlt]
      exact malformed_rejects

theorem run_section_body {t body rest out : Str} {opened : List Str}
    (h : find (ascii "]]>") t = some (body, rest)) :
    Reader.run ⟨.text, opened⟩ (ascii "<![CDATA[" ++ body ++ ascii "]]>" ++ out) =
      Reader.run ⟨.text, opened⟩ out := by
  have hstart : Reader.run ⟨.text, opened⟩ (ascii "<![CDATA[") = ⟨.cdata 0, opened⟩ := rfl
  have hend : sectionEnd 0 (body ++ ascii "]]>" ++ out) = some out := by
    rw [find_section _ 0]
    show (find (ascii "]]>") (body ++ ascii "]]>" ++ out)).map Prod.snd = some out
    rw [find_other h out (by decide)]
    rfl
  rw [List.append_assoc, List.append_assoc, run_append, hstart, ← List.append_assoc]
  exact (@run_section _ opened 0).1 out hend

theorem good_rest {m : Markup} {fuel : Nat} {rest : Str} (h : m.rest? = some rest) :
    (∀ m' ∈ m :: (m.rest?.map (pieces fuel)).getD [], m'.Good) ↔
      m.Good ∧ ∀ m' ∈ pieces fuel rest, m'.Good := by
  rw [h]
  exact List.forall_mem_cons

theorem good_last {m : Markup} {fuel : Nat} (h : m.rest? = none) :
    (∀ m' ∈ m :: (m.rest?.map (pieces fuel)).getD [], m'.Good) ↔ m.Good := by
  rw [h]
  exact List.forall_mem_singleton

/-- **What the loop writes is balanced** when the open elements are in lower case and all markup is good. -/
theorem balance_accepted (fuel : Nat) : ∀ (s : Str) (opened : List Str) (out : Str), (∀ n ∈ opened, Plain n) →
    s.length < fuel → balance fuel s (opened.map (List.map lower)) = some out →
    ((Reader.run ⟨.text, opened ++ [ascii "root"]⟩ (out ++ closeTags [ascii "root"])).accepted ↔
      Fine opened ∧ ∀ m ∈ pieces fuel s, m.Good) := by
  induction fuel with
  | zero => intro s opened out _ h; omega
  | succ fuel ih =>
    intro s opened out hopened hlen hbalance
    have hend : closeTags (opened.map (List.map lower)) ++ closeTags [ascii "root"] = closing opened :=
      List.flatMap_append.symm
    have htext : ∀ c ∈ s.takeWhile (· ≠ 60), c ≠ 60 :=
      fun c hc => by simpa using List.mem_takeWhile_imp hc
    rw [balance] at hbalance
    rw [pieces]
    cases hs : s.dropWhile (· ≠ 60) with
    | nil =>
      rw [hs] at hbalance
      cases hbalance
      rw [List.append_assoc, run_append, run_text htext, hend, closing_accepted hopened]
      simp
    | cons c tail =>
      obtain ⟨rfl, htail⟩ := dropWhile_markup hs
      simp only [hs] at hbalance
      have hbegins := markup_begins tail
      have hshorter := fun rest => @rest_shorter (60 :: tail) rest _ hbegins
      -- what is left goes on from the elements that are open after the markup
      have hgo : ∀ {rest more : Str} {opened' : List Str}, (∀ n ∈ opened', Plain n) →
          rest.length < (60 :: tail).length → balance fuel rest (opened'.map (List.map lower)) = some more →
          ((Reader.run ⟨.text, opened' ++ [ascii "root"]⟩ (more ++ closeTags [ascii "root"])).accepted ↔
            Fine opened' ∧ ∀ m ∈ pieces fuel rest, m.Good) := by
        intro rest more opened' hopened' hrest hmore
        exact ih rest opened' more hopened' (by omega) hmore
      -- markup that is read past leaves the open elements as they are
      have hpast : ∀ {m : Markup} {rest more : Str}, m.Good → rest.length < (60 :: tail).length →
          balance fuel rest (opened.map (List.map lower)) = some more →
          ((Reader.run ⟨.text, opened ++ [ascii "root"]⟩ (more ++ closeTags [ascii "root"])).accepted ↔
            Fine opened ∧ m.Good ∧ ∀ m ∈ pieces fuel rest, m.Good) := by
        intro m rest more hm hrest hmore
        rw [hgo hopened hrest hmore, and_iff_right hm]
      simp only
      generalize markup (60 :: tail) = m at hbalance hbegins hshorter ⊢
      cases m with
      | skipped rest =>
        obtain ⟨more, hmore, rfl⟩ := Option.map_eq_some_iff.1 hbalance
        rw [good_rest rfl, List.append_assoc, run_append, run_text htext]
        exact hpast trivial (hshorter rest rfl) hmore
      | cut =>
        cases hbalance
        rw [good_last rfl, List.append_assoc, run_append, run_text htext, List.append_assoc, hend]
        exact (closing_accepted hopened).trans (and_iff_left trivial).symm
      | cdata body rest =>
        obtain ⟨more, hmore, rfl⟩ := Option.map_eq_some_iff.1 hbalance
        cases hbegins with
        | cdata _ hfind =>
          rw [good_rest rfl, List.append_assoc, run_append, run_text htext, List.append_assoc]
          show (Reader.run _ (ascii "<![CDATA[" ++ body ++ ascii "]]>" ++ _)).accepted ↔ _
          rw [run_section_body hfind]
          exact hpast trivial (hshorter rest rfl) hmore
      | blank rest =>
        obtain ⟨more, hmore, rfl⟩ := Option.map_eq_some_iff.1 hbalance
        have hblank : Reader.run ⟨.text, opened ++ [ascii "root"]⟩ (ascii "<>") =
            ⟨.text, opened ++ [ascii "root"]⟩ := rfl
        rw [good_rest rfl, List.append_assoc, run_append, run_text htext, List.append_assoc, run_append]
        show (Reader.run (Reader.run _ (ascii "<>")) _).accepted ↔ _
        rw [hblank]
        exact hpast trivial (hshorter rest rfl) hmore
      | tag content rest =>
        obtain ⟨more, hmore, rfl⟩ := Option.map_eq_some_iff.1 hbalance
        rw [good_rest rfl, List.append_assoc, run_append, run_text htext, List.append_assoc, run_append]
        show (Reader.run (Reader.run _ (writeTag content _).1) _).accepted ↔ _
        cases hbegins with
        | tag _ hne hbang hpi hgt hquote =>
          rcases @written content rest opened [ascii "root"] hopened hne hbang hpi hgt hquote with
            ⟨opened', hstack, hopened', hrun, hfine⟩ | ⟨⟨o, hrun⟩, hbad⟩
          · rw [hrun, hgo hopened' (hshorter rest rfl) (hstack ▸ hmore), hfine, and_assoc]
          · rw [hrun]
            exact iff_of_false malformed_rejects fun h => hbad ⟨h.1, h.2.1⟩
      | raw =>
        cases hbalance
        rw [good_last rfl, List.append_assoc, run_append, run_text htext, List.append_assoc, hend]
        exact iff_of_false (raw_rejects hopened hbegins) fun h => h.2

theorem removeTag_total {tag : Str} (fuel : Nat) : ∀ s : Str, s.length < fuel →
    ∃ out, removeTag tag fuel s = some out := by
  induction fuel with
  | zero => intro s h; omega
  | succ fuel ih =>
    intro s h
    rw [removeTag]
    cases hfind : find (60 :: tag) s with
    | none => exact ⟨_, rfl⟩
    | some r =>
      obtain ⟨before, after⟩ := r
      have hafter := length_find hfind
      rw [List.length_cons] at hafter
      obtain ⟨out, hout⟩ := ih after (by omega)
      simp only [hout]
      split_ifs
      · exact ⟨_, rfl⟩
      cases hbehind : behind (60 :: 47 :: tag) after with
      | none => exact ⟨_, rfl⟩
      | some rest =>
        have hrest : rest.length ≤ after.length := by
          rw [behind] at hbehind
          split at hbehind
          · rename_i before' r hclose
            have hr := length_find hclose
            cases hgt : find [62] r with
            | none =>
              rw [hgt] at hbehind
              cases hbehind
              show r.length ≤ _
              omega
            | some p =>
              have hp := @length_find _ _ p.1 p.2 hgt
              rw [hgt] at hbehind
              cases hbehind
              show p.2.length ≤ _
              omega
          · obtain ⟨p, hp, rfl⟩ := Option.map_eq_some_iff.1 hbehind
            have := @length_find _ _ p.1 p.2 hp
            omega
        obtain ⟨out', hout'⟩ := ih rest (by omega)
        exact ⟨_, by simp only [hout']; rfl⟩

theorem clean_total (html : Str) : ∃ cleaned, clean html = some cleaned := by
  obtain ⟨s, hs⟩ := removeTag_total (html.length + 1) html (Nat.lt_succ_self _)
  obtain ⟨t, ht⟩ := removeTag_total (s.length + 1) s (Nat.lt_succ_self _)
  exact ⟨t, by rw [clean, hs, Option.bind_some, ht]⟩

/-- The markup of an input, once the scripts and styles are out. -/
def inputMarkup (html : Str) : List Markup :=
  ((clean html).map fun cleaned => pieces (cleaned.length + 1) cleaned).getD []

/-- **The repaired text is balanced** exactly when all markup of the input is good; there always is one. -/
theorem fix_balanced (html : Str) :
    (∃ out, fixHtmlToXml html = some out ∧ Balanced out) ↔ ∀ m ∈ inputMarkup html, m.Good := by
  obtain ⟨cleaned, hclean⟩ := clean_total html
  obtain ⟨xml, hxml⟩ := balance_total (cleaned.length + 1) cleaned [] (Nat.lt_succ_self _)
  have hout : fixHtmlToXml html = some (ascii "<root>" ++ xml ++ ascii "</root>") := by
    rw [fixHtmlToXml, hclean, Option.bind_some, hxml]
    rfl
  have hstart : Reader.run ⟨.text, []⟩ (ascii "<root>") = ⟨.text, [ascii "root"]⟩ := rfl
  have haccepted := balance_accepted (cleaned.length + 1) cleaned [] xml (by simp) (Nat.lt_succ_self _) hxml
  rw [hout, inputMarkup, hclean]
  simp only [Option.some.injEq, exists_eq_left', Option.map_some, Option.getD_some]
  rw [Tags.Balanced, List.append_assoc, run_append, hstart]
  exact haccepted.trans (and_iff_right rfl)

/-- Tags in upper case are closed in lower case. -/
theorem upper_case_unbalanced : ¬ ∀ html : Str, ∃ out, fixHtmlToXml html = some out ∧ Balanced out := by
  intro h
  obtain ⟨out, hout, hbalanced⟩ := h (ascii "<DIV></DIV>")
  have hfix : fixHtmlToXml (ascii "<DIV></DIV>") = some (ascii "<root><DIV></div></root>") := by decide
  rw [hfix, Option.some.injEq] at hout
  subst hout
  exact absurd hbalanced (by decide)

end VersatileEngine.Html
