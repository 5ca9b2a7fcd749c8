import Mathlib.Data.List.Destutter
import VersatileEngine.Service.Candidates
import VersatileEngine.Service.Tabs

/-!
# VersatileEngine.Service.Leading

Whether the completion of a command that is half typed leads to the command. Registered keys join their words by
dots; the completer takes them to be joined by slashes, and the editor replaces only the last word of the line.

* `firstWords`   — the names the first word of a line is completed to.
* `Leads`        — what is expected of the completion of a text on the way to a phrase.
* `not_leads_spaced` — no text with a space is completed as expected.
* `leads_iff`    — **exactly within the first word, and where one of those names goes on as the phrase does**.
* `always_leads_iff` — so every beginning leads to a registered command just where its key is one word.
-/

namespace VersatileEngine

namespace Terminal

open VersatileEngine.LineEditor

/-- The form of a command in which it is typed. -/
def phrase (words : List Str) : Str := [32].intercalate words

/-- The key under which `resolveCommand` looks a command up. -/
def commandKey (words : List Str) : Str := [46].intercalate words

/-- A text that is one token and has to be neither quoted nor escaped. -/
def Word (w : Str) : Prop := w ≠ [] ∧ ∀ c ∈ w, Ordinary c

/-- The names of `initCommands`. -/
def builtinNames : List Str :=
  ["cd", "pwd", "root", "up", "first", "last", "prev", "next", "sibling", "take", "orphans", "adopt", "ls", "get",
    "g", "set", "s", "mk", "rm", "mv", "cp", "schema", "shadow", "help"].map ascii

/-- A key up to its first slash, which is taken for the space behind the first word. -/
def firstWord (key : Str) : Str := key.takeWhile fun c => c ≠ 47 && c ≠ 32

/-- The names that the first word of a line is completed to. -/
def TreeSession.firstWords (s : TreeSession) : List Str :=
  s.cmds ++ [ascii "quit", ascii "exit"] ++ s.keys.map firstWord

/-- **The completion of a text leads to a phrase**: a candidate goes on as the phrase does, and a tab behind the
text extends it to what the candidates have in common, all of which still begin with the line. -/
structure Leads (s : TreeSession) (phrase p : Str) : Prop where
  offered : ∃ cand ∈ s.complete p, cand <+: phrase ∧ p.length < cand.length
  extended : ∀ (ans : Answers) (e : Editor), ans.complete = s.complete → AtEnd .controlled e → e.line = p →
    ∃ e' r, e.completeAtCursor ans = some (e', r) ∧ p <+: e'.line ∧ common (s.complete p) <+: e'.line ∧
      ∀ cand ∈ s.complete p, e'.line <+: cand ∨ ∃ line, e'.line = line ++ [32] ∧ line <+: cand

section Leading

variable {s : TreeSession} {words : List Str} {p x : Str}

/-! ### Candidates for the first word -/

theorem mem_destutter' {l : List Str} : ∀ {a : Str}, x ∈ l.destutter' (· ≠ ·) a ↔ x = a ∨ x ∈ l := by
  induction l with
  | nil =>
    intro a
    rw [List.destutter'_nil, List.mem_cons]
  | cons b l ih =>
    intro a
    rw [List.destutter'_cons]
    split_ifs with hab
    · rw [List.mem_cons, ih, List.mem_cons]
    · rw [ih, List.mem_cons, not_not.mp hab]
      tauto

/-- Equal neighbours are dropped, and no candidate is lost. -/
theorem mem_destutter {l : List Str} : x ∈ l.destutter (· ≠ ·) ↔ x ∈ l := by
  cases l with
  | nil => exact Iff.rfl
  | cons a l => rw [List.destutter_cons', mem_destutter', List.mem_cons]

theorem take_word {keySpace : Str} (hp : p <+: keySpace) (hspace : 32 ∉ p) :
    p ++ (keySpace.drop p.length).takeWhile (· ≠ 32) = keySpace.takeWhile (· ≠ 32) := by
  obtain ⟨rest, rfl⟩ := hp
  rw [List.drop_left, List.takeWhile_append_of_pos]
  rintro c hc
  exact decide_eq_true fun h => hspace (by rwa [h] at hc)

theorem firstWord_spaced (key : Str) :
    (key.map fun c => if c = 47 then 32 else c).takeWhile (· ≠ 32) = firstWord key := by
  induction key with
  | nil => rfl
  | cons c key ih =>
    rw [List.map_cons, List.takeWhile_cons, ih, firstWord, firstWord, List.takeWhile_cons]
    by_cases h47 : c = 47
    · simp [h47]
    · by_cases h32 : c = 32
      · simp [h32]
      · simp [h47, h32]

/-- A key is offered for a text of one word where its first word is. -/
theorem prefix_firstWord {key : Str} (hspace : 32 ∉ p) :
    p <+: (key.map fun c => if c = 47 then 32 else c) ↔ p <+: firstWord key := by
  rw [← firstWord_spaced]
  refine ⟨fun hp => ?_, fun hp => hp.trans (List.takeWhile_prefix _)⟩
  rw [← take_word hp hspace]
  exact List.prefix_append _ _

theorem split_word (hword : ∀ c ∈ p, Ordinary c) : split p = if p = [] then [] else [p] := by
  split_ifs with hne
  · rw [hne]
    rfl
  · exact split_ordinary hword hne

theorem word_no_space (hword : ∀ c ∈ p, Ordinary c) : 32 ∉ p := fun h => absurd (hword 32 h).1 (by decide)

theorem word_end (hword : ∀ c ∈ p, Ordinary c) : TreeSession.endsWithSpace p = false := by
  rw [TreeSession.endsWithSpace]
  cases hl : p.getLast? with
  | none => rfl
  | some c => exact (hword c (List.mem_of_getLast? hl)).1

/-- **One word is completed to the names that begin with it.** -/
theorem mem_complete (hword : ∀ c ∈ p, Ordinary c) : x ∈ s.complete p ↔ x ∈ s.firstWords ∧ p <+: x := by
  have hspace := word_no_space hword
  have harg : s.argument p = none := by
    cases harg : s.argument p with
    | none => rfl
    | some token =>
      refine absurd (TreeSession.space_before harg fun c hc => hword c ?_) hspace
      exact (List.rtakeWhile_suffix (p := _) (l := p)).subset hc
  have htyped : [32].intercalate (split p) = p := by
    rw [split_word hword]
    split_ifs with hne
    · exact hne.symm
    · exact List.intercalate_singleton
  rw [TreeSession.complete, harg]
  dsimp only
  rw [TreeSession.commandNames, word_end hword]
  simp only [Bool.false_eq_true, false_and, if_false, List.append_nil]
  rw [htyped, if_neg hspace, mem_destutter, List.mem_mergeSort, List.mem_append, List.mem_filter,
    TreeSession.firstWords, List.mem_append (s := s.cmds ++ _), or_and_right, decide_eq_true_iff]
  refine or_congr Iff.rfl ?_
  rw [List.mem_filterMap, List.mem_map]
  constructor
  · rintro ⟨keySpace, hkey, hout⟩
    obtain ⟨key, hregistered, rfl⟩ := List.mem_map.mp hkey
    split_ifs at hout with hp
    obtain rfl := Option.some.inj hout
    rw [take_word hp hspace, firstWord_spaced]
    exact ⟨⟨key, hregistered, rfl⟩, (prefix_firstWord hspace).mp hp⟩
  · rintro ⟨⟨key, hkey, rfl⟩, hp⟩
    have hspaced := (prefix_firstWord hspace).mpr hp
    refine ⟨_, List.mem_map_of_mem hkey, ?_⟩
    rw [if_pos hspaced, take_word hspaced hspace, firstWord_spaced]

/-! ### Texts on the way to a phrase -/

theorem phrase_cons (w v : Str) (words : List Str) : phrase (w :: v :: words) = w ++ 32 :: phrase (v :: words) := by
  rw [phrase, List.intercalate_cons_cons, ← phrase, List.append_assoc]
  rfl

theorem phrase_ordinary {c : UInt8} (hwords : ∀ w ∈ words, Word w) (hc : c ∈ phrase words) : c = 32 ∨ Ordinary c := by
  induction words with
  | nil => cases hc
  | cons w words ih =>
    rw [List.forall_mem_cons] at hwords
    cases words with
    | nil =>
      rw [phrase, List.intercalate_singleton] at hc
      exact .inr (hwords.1.2 c hc)
    | cons v words =>
      rw [phrase_cons, List.mem_append, List.mem_cons] at hc
      rcases hc with hc | hc | hc
      · exact .inr (hwords.1.2 c hc)
      · exact .inl hc
      · exact ih hwords.2 hc

theorem phrase_head (hwords : ∀ w ∈ words, Word w) : (phrase words).head? ≠ some 32 := by
  cases words with
  | nil => exact fun h => by cases h
  | cons w words =>
    rw [List.forall_mem_cons] at hwords
    have hhead : (phrase (w :: words)).head? = w.head? := by
      cases words with
      | nil => rw [phrase, List.intercalate_singleton]
      | cons v words => rw [phrase_cons, List.head?_append_of_ne_nil _ hwords.1.1]
    rw [hhead]
    exact fun h => absurd (hwords.1.2 32 (List.mem_of_mem_head? h)).1 (by decide)

/-- In front of the last word of a text with a space there are a space and something else. -/
theorem lastWord_short (hspace : 32 ∈ p) (hhead : p.head? ≠ some 32) : (lastWord p).length + 2 ≤ p.length := by
  have hfront := TreeSession.front_append p
  have hlen := congrArg List.length hfront
  rw [List.length_append] at hlen
  cases hf : TreeSession.front p with
  | nil =>
    rw [hf, List.nil_append] at hfront
    rw [← hfront, lastWord] at hspace
    exact absurd (List.mem_rtakeWhile_imp hspace) (by decide)
  | cons c rest =>
    cases rest with
    | nil =>
      have hlast := List.rdropWhile_last_not (fun c : UInt8 => decide (c ≠ 32)) p
      rw [← TreeSession.front] at hlast
      simp only [hf, List.getLast_singleton] at hlast
      obtain rfl : c = 32 := by simpa using hlast
      rw [← hfront, hf] at hhead
      exact absurd rfl hhead
    | cons d rest =>
      rw [hf] at hlen
      simp only [List.length_cons] at hlen
      omega

/-- **Behind the first word no completion leads on**: the tab puts the whole phrase behind the words in front. -/
theorem not_leads_spaced (hwords : ∀ w ∈ words, Word w) (hp : p <+: phrase words) (hspace : 32 ∈ p) :
    ¬ Leads s (phrase words) p := by
  intro h
  have hhead : p.head? ≠ some 32 := by
    obtain ⟨rest, hrest⟩ := hp
    have hphrase := phrase_head hwords
    rw [← hrest, List.head?_append_of_ne_nil _ (List.ne_nil_of_mem hspace)] at hphrase
    exact hphrase
  have hshort := lastWord_short hspace hhead
  obtain ⟨cand, hcand, -⟩ := h.offered
  have hfound : s.complete p ≠ [] := List.ne_nil_of_mem hcand
  have hend : AtEnd .controlled (typed p) := ⟨rfl, rfl, rfl⟩
  obtain ⟨e', r, hrun, -, -, hall⟩ := h.extended (answers s) (typed p) rfl hend rfl
  obtain ⟨r', hrun', -, htab⟩ := @complete_atEnd (answers s) _ hend
  obtain rfl := Option.some.inj (hrun.symm.trans hrun')
  have hends : Editor.endsWord (s.complete p) p = false := by simp [Editor.endsWord, hspace]
  rw [applyTabs_tab] at htab
  change (if s.complete p = [] then (p, []) else if Editor.endsWord (s.complete p) p = true then _ else _) = _ at htab
  rw [if_neg hfound, hends, if_neg Bool.false_ne_true] at htab
  have hline : p ++ (common (s.complete p)).drop (lastWord p).length = e'.line := congrArg Prod.fst htab
  have hcommon : e'.line.dropLast <+: common (s.complete p) := by
    refine (common_longest hfound).2 _ fun cand hcand => ?_
    rcases hall cand hcand with hpre | ⟨line, hline, hpre⟩
    · exact (List.dropLast_prefix _).trans hpre
    · rw [hline, List.dropLast_concat]
      exact hpre
  have hle := hcommon.length_le
  rw [← hline, List.length_dropLast, List.length_append, List.length_drop] at hle
  omega

/-- **Within the first word** the completion leads on where a name does. -/
theorem leads_word {target : Str} (hp : p <+: target) (hword : ∀ c ∈ p, Ordinary c) :
    Leads s target p ↔ ∃ name ∈ s.firstWords, name <+: target ∧ p.length < name.length := by
  constructor
  · rintro ⟨⟨cand, hcand, hon⟩, -⟩
    exact ⟨cand, ((mem_complete hword).mp hcand).1, hon⟩
  rintro ⟨name, hname, hpre, hlen⟩
  have hcand : name ∈ s.complete p :=
    (mem_complete hword).mpr ⟨hname, List.prefix_of_prefix_length_le hp hpre (Nat.le_of_lt hlen)⟩
  have hfound : s.complete p ≠ [] := List.ne_nil_of_mem hcand
  refine ⟨⟨name, hcand, hpre, hlen⟩, fun ans e hans hend hline => ?_⟩
  obtain ⟨r, hrun, -, htab⟩ := @complete_atEnd ans _ hend
  obtain ⟨hbelow, hmost⟩ := common_longest hfound
  have hlast : lastWord p = p :=
    List.rtakeWhile_eq_self_iff.mpr fun c hc => decide_eq_true fun h => word_no_space hword (by rwa [h] at hc)
  have hbegin : p <+: common (s.complete p) := hmost p fun cand hcand => ((mem_complete hword).mp hcand).2
  have hcommon : p ++ Editor.addition (s.complete p) (lastWord p) = common (s.complete p) := by
    rw [hlast, Editor.addition]
    exact (List.prefix_iff_eq_append.mp hbegin)
  rw [applyTabs_tab, hline, hans, if_neg hfound, hcommon] at htab
  refine ⟨r.1, r.2, hrun, ?_⟩
  split_ifs at htab
  all_goals obtain ⟨hline', -⟩ := Prod.mk.inj htab
  all_goals rw [← hline']
  · refine ⟨hbegin.trans (List.prefix_append _ _), List.prefix_append _ _, fun cand hcand => ?_⟩
    exact .inr ⟨_, rfl, hbelow cand hcand⟩
  all_goals exact ⟨hbegin, List.prefix_refl _, fun cand hcand => .inl (hbelow cand hcand)⟩

/-- **The completion of a beginning of a command leads to it** exactly within the first word, and there where the
name of a builtin, or a key up to its first slash, goes on as the command does. -/
theorem leads_iff (s : TreeSession) (words : List Str) (hwords : ∀ w ∈ words, Word w) {p : Str}
    (hp : p <+: phrase words) :
    Leads s (phrase words) p ↔
      32 ∉ p ∧ ∃ name ∈ s.firstWords, name <+: phrase words ∧ p.length < name.length := by
  by_cases hspace : 32 ∈ p
  · exact iff_of_false (not_leads_spaced hwords hp hspace) fun h => h.1 hspace
  · have hword : ∀ c ∈ p, Ordinary c := fun c hc =>
      (phrase_ordinary hwords (hp.subset hc)).resolve_left fun h => hspace (by rwa [h] at hc)
    rw [leads_word hp hword, and_iff_right hspace]

/-- A session with `ros.topic` registered, beside the builtins. -/
def topicSession : TreeSession where
  root := .node [] .none []
  cur := []
  cmds := builtinNames
  has := fun key => key = ascii "ros.topic"
  keys := [ascii "ros.topic"]

theorem topic_words : ∀ w ∈ [ascii "ros", ascii "topic"], Word w := by
  have hros := @ordinary_of_all (ascii "ros") rfl
  have htopic := @ordinary_of_all (ascii "topic") rfl
  exact List.forall_mem_cons.mpr ⟨⟨by decide, hros⟩, List.forall_mem_singleton.mpr ⟨by decide, htopic⟩⟩

/-- `ro` is completed towards `root` and `ros.topic`, neither of which begins `ros topic`. -/
theorem leads_iff_sample : ¬ Leads topicSession (phrase [ascii "ros", ascii "topic"]) (ascii "ro") := by
  rw [leads_iff topicSession _ topic_words (by decide)]
  rintro ⟨-, name, hname, hpre, hlen⟩
  revert hpre hlen
  revert name
  decide

/-- Behind `ros` the only candidate is `ros.topic`, which is no beginning of `ros topic`. -/
theorem dotted_key_offered : ¬ ∀ (s : TreeSession) (words : List Str) (p : Str), (∀ w ∈ words, Word w) →
    commandKey words ∈ s.keys → p <+: phrase words → p ≠ phrase words →
    ∃ cand ∈ s.complete p, cand <+: phrase words ∧ p.length < cand.length := by
  intro h
  obtain ⟨cand, hcand, hpre, hlen⟩ := h topicSession [ascii "ros", ascii "topic"] (ascii "ros") topic_words
    (by decide) (by decide) (by decide)
  have hword := @ordinary_of_all (ascii "ros") rfl
  obtain ⟨hname, -⟩ := (mem_complete hword).mp hcand
  clear hcand
  revert hpre hlen
  revert cand
  decide

theorem firstWords_no_slash {name : Str} (hcmds : ∀ name ∈ s.cmds, 47 ∉ name) (hname : name ∈ s.firstWords) :
    47 ∉ name := by
  rw [TreeSession.firstWords, List.mem_append, List.mem_append] at hname
  rcases hname with (hname | hname) | hname
  · exact hcmds name hname
  · revert name
    decide
  · obtain ⟨key, -, rfl⟩ := List.mem_map.mp hname
    exact fun h => absurd (List.mem_takeWhile_imp h) (by decide)

/-- **Every beginning leads to a registered command** just where its key is one word without a slash. -/
theorem always_leads_iff (hwords : ∀ w ∈ words, Word w) (hne : words ≠ []) (hkey : commandKey words ∈ s.keys)
    (hcmds : ∀ name ∈ s.cmds, 47 ∉ name) :
    (∀ p, p <+: phrase words → p ≠ phrase words → Leads s (phrase words) p) ↔ ∃ w, words = [w] ∧ 47 ∉ w := by
  obtain ⟨w, rest, rfl⟩ := List.exists_cons_of_ne_nil hne
  cases rest with
  | cons v rest =>
    refine iff_of_false (fun h => ?_) fun ⟨_, h, _⟩ => by cases h
    have hpre : w ++ [32] <+: phrase (w :: v :: rest) := by
      rw [phrase_cons]
      exact ⟨phrase (v :: rest), List.append_assoc _ _ _⟩
    refine not_leads_spaced hwords hpre (by simp) (h _ hpre fun heq => ?_)
    have hphrase : phrase (v :: rest) = [] := by
      rw [phrase_cons] at heq
      exact (List.cons.inj (List.append_cancel_left heq)).2.symm
    rw [List.forall_mem_cons, List.forall_mem_cons] at hwords
    cases rest with
    | nil =>
      rw [phrase, List.intercalate_singleton] at hphrase
      exact hwords.2.1.1 hphrase
    | cons u rest =>
      rw [phrase_cons] at hphrase
      exact absurd hphrase (by simp)
  | nil =>
    have hw : Word w := hwords w (List.mem_singleton.mpr rfl)
    have hphrase : phrase [w] = w := List.intercalate_singleton
    have hown : commandKey [w] = w := List.intercalate_singleton
    rw [hphrase]
    rw [hown] at hkey
    constructor
    · refine fun h => ⟨w, rfl, fun hslash => ?_⟩
      -- up to a slash no name goes on behind it
      obtain ⟨p, rest, rfl⟩ := List.append_of_mem hslash
      have hpre : p <+: p ++ 47 :: rest := List.prefix_append _ _
      have hword : ∀ c ∈ p, Ordinary c := fun c hc => hw.2 c (hpre.subset hc)
      have hproper : p ≠ p ++ 47 :: rest := fun heq => by simp at heq
      obtain ⟨name, hname, hon, hlen⟩ := (leads_word hpre hword).mp (h p hpre hproper)
      have hpast : p ++ [47] <+: p ++ 47 :: rest := ⟨rest, List.append_assoc _ _ _⟩
      have hslash : p ++ [47] <+: name := by
        refine List.prefix_of_prefix_length_le hpast hon ?_
        rw [List.length_append]
        exact hlen
      exact firstWords_no_slash hcmds hname (hslash.subset (by simp))
    · rintro ⟨w', heq, hslash⟩ p hp hproper
      obtain rfl := (List.cons.inj heq).1
      have hfirst : firstWord w = w := by
        refine List.takeWhile_eq_self_iff.mpr fun c hc => ?_
        rw [Bool.and_eq_true, decide_eq_true_iff, decide_eq_true_iff]
        exact ⟨fun h => hslash (by rwa [h] at hc), fun h => word_no_space hw.2 (by rwa [h] at hc)⟩
      refine (leads_word hp fun c hc => hw.2 c (hp.subset hc)).mpr ⟨w, ?_, List.prefix_refl _, ?_⟩
      · rw [TreeSession.firstWords, List.mem_append]
        exact .inr (List.mem_map.mpr ⟨w, hkey, hfirst⟩)
      · exact lt_of_le_of_ne hp.length_le fun hlen => hproper (hp.eq_of_length hlen)

end Leading

end Terminal

end VersatileEngine
