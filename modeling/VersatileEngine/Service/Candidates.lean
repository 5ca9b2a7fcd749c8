import VersatileEngine.Node.Resolve
import VersatileEngine.Service.LineEditor

/-!
# VersatileEngine.Service.Candidates

`TerminalSession::complete` on a tree, and what becomes of the only candidate when it is inserted.

* `TreeSession.argument`     — the token that is completed as a path, if the line is past its command.
* `TreeSession.candidates`   — `completeNodePath`, with the nodes that the candidates stand for.
* `TreeSession.resolve`      — the node that an argument names.
* `completion_sound`     — **behind a word that is typed without quotes and backslashes the completed argument
  names its node** where the candidate has no white space, quote or backslash and is neither `.` nor `..`.
-/

namespace VersatileEngine

namespace Terminal

open VersatileEngine.Tree VersatileEngine.LineEditor

/-- A session on a tree: the node it is at, its own commands, and the registered ones. -/
structure TreeSession where
  root : Tree
  cur : List Nat
  cmds : List Str
  has : Str → Bool
  keys : List Str

namespace TreeSession

variable (s : TreeSession)

/-- `base->find(path)`, for the node at a place. -/
def find (base : List Nat) (path : Str) : Option (List Nat) :=
  if path.head? = some pathSep then s.root.findPath pathSep keySep path
  else (s.root.sub base).bind fun t => (t.findPath pathSep keySep path).map (base ++ ·)

def resolve (path : Str) : Option (List Nat) :=
  if path = [] ∨ path = ascii "." then some s.cur
  else if path = ascii ".." then some s.cur.dropLast
  else
    let absolute : Bool := path.head? = some pathSep
    let base := if absolute then [] else s.cur
    let relPath := if absolute then path.drop 1 else path
    if relPath = [] then some base else s.find base relPath

/-- `parentPath` and `leafPrefix`; without a slash the first is empty. -/
def cut (token : Str) : Str × Str := (rsplit pathSep token).getD ([], token)

/-- `pathPrefix`. -/
def pathPrefix (token : Str) : Str := token.take (token.length - (cut token).2.length)

/-- `base` of `completeNodePath`. -/
def base (token : Str) : Option (List Nat) :=
  let absolute : Bool := token.head? = some pathSep
  let parentPath := (cut token).1
  if parentPath = [] then some (if absolute then [] else s.cur)
  else if absolute then
    let rel := if parentPath.head? = some pathSep then parentPath.drop 1 else parentPath
    if rel = [] then some [] else s.find [] rel
  else s.find s.cur parentPath

/-- What `completeNodePath` finds, and for which node. -/
def candidates (token : Str) : List (Str × List Nat) :=
  match s.base token with
  | none => []
  | some b =>
    (((s.root.sub b).map kids).getD []).zipIdx.filterMap fun (c, i) =>
      if c.name ≠ [] ∧ (cut token).2 <+: c.name then some (pathPrefix token ++ c.name, b ++ [i]) else none

def completeNodePath (token : Str) : List Str := (s.candidates token).map Prod.fst

/-- The longest of the first `i` words that is a registered command, and how many words it has. -/
def resolveCommand (args : List Str) : Nat → Str × Nat
  | 0 => ([], 0)
  | i + 1 =>
    let candidate := [46].intercalate (args.take (i + 1))
    if s.has candidate then (candidate, i + 1) else resolveCommand args i

def endsWithSpace (line : Str) : Bool := line.getLast?.any isSpace

def isBuiltin (word : Str) : Bool := s.cmds.contains word || word = ascii "quit" || word = ascii "exit"

/-- The argument of the line that is completed as a path. -/
def argument (line : Str) : Option Str :=
  let tokens := split line
  let (cmdKey, cmdWords) := s.resolveCommand tokens tokens.length
  let firstIsBuiltin := tokens.head?.any s.isBuiltin
  let pastCmd : Bool := (cmdKey ≠ [] && (endsWithSpace line || cmdWords < tokens.length)) ||
    (firstIsBuiltin && (endsWithSpace line || 1 < tokens.length))
  let cmdWordCount := if cmdKey ≠ [] then cmdWords else 1
  if pastCmd then
    some (if endsWithSpace line then [] else if cmdWordCount < tokens.length then tokens.getLastD [] else [])
  else none

/-- The names of commands that go on as the line does, each once and in order. -/
def commandNames (line : Str) : List Str :=
  let tokens := split line
  let typedPrefix := [32].intercalate tokens ++ if endsWithSpace line ∧ tokens ≠ [] then [32] else []
  let own := if 32 ∈ typedPrefix then []
    else (s.cmds ++ [ascii "quit", ascii "exit"]).filter fun name => typedPrefix <+: name
  let registered := (s.keys.map fun key => key.map fun c => if c = 47 then 32 else c).filterMap fun keySpace =>
    if typedPrefix <+: keySpace then
      some (typedPrefix ++ (keySpace.drop typedPrefix.length).takeWhile (· ≠ 32))
    else none
  ((own ++ registered).mergeSort fun a b => decide (a ≤ b)).destutter (· ≠ ·)

/-- `complete(partial)`. -/
def complete (line : Str) : List Str :=
  match s.argument line with
  | some token => s.completeNodePath token
  | none => s.commandNames line

/-! ### Paths -/

section Paths

variable {s : TreeSession} {token parent seg : Str} {b c : List Nat} {t : Tree}

/-- A token has a slash to be cut at, or it is all leaf. -/
theorem cut_cases (token : Str) :
    (pathSep ∉ token ∧ cut token = ([], token) ∧ pathPrefix token = []) ∨
      ∃ parent leaf, token = parent ++ pathSep :: leaf ∧ pathSep ∉ leaf ∧ cut token = (parent, leaf) ∧
        pathPrefix token = parent ++ [pathSep] := by
  cases hr : rsplit pathSep token with
  | none =>
    have hcut : cut token = ([], token) := by rw [cut, hr]; rfl
    exact .inl ⟨rsplit_eq_none hr, hcut, by rw [pathPrefix, hcut]; simp⟩
  | some r =>
    obtain ⟨parent, leaf⟩ := r
    obtain ⟨rfl, hleaf⟩ := rsplit_spec hr
    have hcut : cut (parent ++ pathSep :: leaf) = (parent, leaf) := by rw [cut, hr]; rfl
    refine .inr ⟨parent, leaf, rfl, hleaf, hcut, ?_⟩
    rw [pathPrefix, hcut]
    have hlen : (parent ++ pathSep :: leaf).length - leaf.length = (parent ++ [pathSep]).length := by
      simp only [List.length_append, List.length_cons, List.length_nil]
      omega
    dsimp only
    rw [hlen, List.append_cons parent pathSep leaf, List.take_left]

theorem pathPrefix_leaf (token : Str) : pathPrefix token ++ (cut token).2 = token := by
  rcases cut_cases token with ⟨-, hcut, hpp⟩ | ⟨parent, leaf, rfl, -, hcut, hpp⟩
  · rw [hcut, hpp, List.nil_append]
  · rw [hcut, hpp, List.append_assoc]
    rfl

theorem find_segment (hhead : seg.head? ≠ some pathSep) (ht : s.root.sub c = some t) :
    s.find c seg = (t.findPath pathSep keySep seg).map (c ++ ·) := by
  rw [find, if_neg hhead, ht]
  rfl

theorem find_below (hparent : parent ≠ []) (hb : s.find c parent = some b) (ht : s.root.sub b = some t) :
    s.find c (parent ++ pathSep :: seg) = (t.findPath pathSep keySep seg).map (b ++ ·) := by
  rw [find] at hb ⊢
  rw [List.head?_append_of_ne_nil _ hparent]
  split_ifs at hb ⊢ with habs
  · rw [findPath_append, hb, Option.bind_some, ht]
    rfl
  · obtain ⟨t', ht', hb⟩ := Option.bind_eq_some_iff.mp hb
    obtain ⟨p, hp, rfl⟩ := Option.map_eq_some_iff.mp hb
    rw [sub_append, ht', Option.bind_some] at ht
    rw [ht', Option.bind_some, findPath_append, hp, Option.bind_some, ht, Option.bind_some, Option.map_map]
    simp only [Function.comp_def, List.append_assoc]

/-- An argument that begins like the token leads on from the node that the token is completed at. -/
theorem resolve_leaf (hb : s.base token = some b) (ht : s.root.sub b = some t) (hsep : pathSep ∉ seg)
    (hdot : pathPrefix token ++ seg ≠ ascii ".") (hdots : pathPrefix token ++ seg ≠ ascii "..") :
    s.resolve (pathPrefix token ++ seg) = (t.findPath pathSep keySep seg).map (b ++ ·) := by
  have hhead : seg.head? ≠ some pathSep := fun h => hsep (List.mem_of_mem_head? h)
  have hself : t.findPath pathSep keySep [] = some [] := rfl
  rw [base] at hb
  rcases cut_cases token with ⟨htoken, hcut, hpp⟩ | ⟨parent, leaf, rfl, -, hcut, hpp⟩
  · have habs : token.head? ≠ some pathSep := fun h => htoken (List.mem_of_mem_head? h)
    rw [hcut] at hb
    simp only [if_true, habs, decide_false, Bool.false_eq_true, if_false, Option.some.injEq] at hb
    subst hb
    rw [hpp, List.nil_append] at hdot hdots ⊢
    rw [resolve]
    by_cases hseg : seg = []
    · rw [if_pos (.inl hseg), hseg, hself, Option.map_some, List.append_nil]
    · rw [if_neg (not_or.mpr ⟨hseg, hdot⟩), if_neg hdots]
      simp only [hhead, decide_false, Bool.false_eq_true, if_false, hseg]
      exact find_segment hhead ht
  · rw [resolve, if_neg (not_or.mpr ⟨by rw [hpp]; simp, hdot⟩), if_neg hdots, hpp, List.append_assoc,
      List.cons_append, List.nil_append]
    rw [hcut] at hb
    dsimp only at hb ⊢
    by_cases hparent : parent = []
    · subst hparent
      obtain rfl : [] = b := Option.some.inj hb
      rw [List.nil_append, List.head?_cons, decide_eq_true rfl]
      simp only [if_true, List.drop_one, List.tail_cons]
      split_ifs with hseg
      · rw [hseg, hself]
        rfl
      · exact find_segment hhead ht
    rw [if_neg hparent, List.head?_append_of_ne_nil _ hparent] at hb
    rw [List.head?_append_of_ne_nil _ hparent]
    by_cases habs : parent.head? = some pathSep
    · obtain ⟨rel, rfl⟩ : ∃ rel, parent = pathSep :: rel := by
        cases parent with
        | nil => exact absurd rfl hparent
        | cons d rel => exact ⟨rel, by rw [Option.some.inj habs]⟩
      simp only [List.head?_cons, decide_true, if_true, List.drop_one, List.tail_cons] at hb ⊢
      rw [List.cons_append, List.tail_cons, if_neg (by simp)]
      split_ifs at hb with hrel
      · subst hrel
        obtain rfl : [] = b := Option.some.inj hb
        have happend := @findPath_append pathSep keySep [] seg s.root
        have hempty : findPath pathSep keySep [] s.root = some [] := rfl
        rw [List.nil_append] at happend ⊢
        rw [find, if_pos List.head?_cons, happend, hempty, Option.bind_some, ht]
        rfl
      · exact find_below hrel hb ht
    · simp only [habs, decide_false, Bool.false_eq_true, if_false] at hb ⊢
      rw [if_neg (by simp)]
      exact find_below hparent hb ht

/-- The two words for the node of the session and the one above it name no child. -/
theorem resolve_dots {x : Str} {i : Nat} (hb : s.base token = some b) (hx : x = pathPrefix token ++ seg)
    (hdots : x = ascii "." ∨ x = ascii "..") : s.resolve x ≠ some (b ++ [i]) := by
  have hslash : pathSep ∉ x := by rcases hdots with rfl | rfl <;> decide
  rcases cut_cases token with ⟨htoken, hcut, hpp⟩ | ⟨parent, leaf, rfl, -, hcut, hpp⟩
  · have habs : token.head? ≠ some pathSep := fun h => htoken (List.mem_of_mem_head? h)
    rw [base, hcut] at hb
    simp only [if_true, habs, decide_false, Bool.false_eq_true, if_false, Option.some.injEq] at hb
    subst hb
    intro h
    rw [resolve] at h
    split_ifs at h with h1 h2
    · have := congrArg List.length (Option.some.inj h)
      rw [List.length_append, List.length_singleton] at this
      omega
    · have := congrArg List.length (Option.some.inj h)
      rw [List.length_append, List.length_singleton, List.length_dropLast] at this
      omega
    all_goals rcases hdots with rfl | rfl
    all_goals first
      | exact h1 (.inr rfl)
      | exact h2 rfl
  · exact absurd (by rw [hx, hpp]; simp) hslash

/-- The only candidate stands for the only child of its name. -/
theorem candidates_single {cand : Str} {place : List Nat} (h : s.candidates token = [(cand, place)]) :
    ∃ b t i k, s.base token = some b ∧ s.root.sub b = some t ∧ t.kids[i]? = some k ∧ k.name ≠ [] ∧
      (cut token).2 <+: k.name ∧ cand = pathPrefix token ++ k.name ∧ place = b ++ [i] ∧
      ∀ x ∈ t.kids.take i, x.name ≠ k.name := by
  rw [candidates] at h
  cases hb : s.base token with
  | none =>
    rw [hb] at h
    cases h
  | some b =>
    rw [hb] at h
    dsimp only at h
    cases ht : s.root.sub b with
    | none =>
      rw [ht] at h
      cases h
    | some t =>
      rw [ht, Option.map_some, Option.getD_some] at h
      have hmem : ∀ (x : Tree) (j : Nat), t.kids[j]? = some x → x.name ≠ [] → (cut token).2 <+: x.name →
          (pathPrefix token ++ x.name, b ++ [j]) = (cand, place) := by
        intro x j hx hne hpre
        rw [← List.mem_singleton, ← h, List.mem_filterMap]
        exact ⟨(x, j), List.mem_zipIdx_iff_getElem?.mpr hx, if_pos ⟨hne, hpre⟩⟩
      have hfound : (cand, place) ∈ [(cand, place)] := List.mem_singleton.mpr rfl
      rw [← h, List.mem_filterMap] at hfound
      obtain ⟨⟨k, i⟩, hk, hout⟩ := hfound
      have hk := List.mem_zipIdx_iff_getElem?.mp hk
      dsimp only at hk hout
      split_ifs at hout with hkey
      obtain ⟨rfl, rfl⟩ := Prod.mk.inj (Option.some.inj hout)
      refine ⟨b, t, i, k, rfl, ht, hk, hkey.1, hkey.2, rfl, rfl, fun x hx hname => ?_⟩
      obtain ⟨j, hlt, rfl⟩ := List.mem_take_iff_getElem.mp hx
      obtain ⟨hlt, hlen⟩ := lt_min_iff.mp hlt
      have hfound := hmem _ j (List.getElem?_eq_getElem hlen) (by rw [hname]; exact hkey.1) (by rw [hname]; exact hkey.2)
      have hsame := (Prod.mk.inj hfound).2
      have : j = i := by simpa using hsame
      omega

end Paths

/-! ### The word that is completed -/

section Words

variable {s : TreeSession} {token head cand : Str} {b place : List Nat} {t k : Tree} {i : Nat}

/-- The line in front of its last word. -/
def front (head : Str) : Str := head.rdropWhile (· ≠ 32)

/-- Neither of the two words for other nodes, and of ordinary bytes. -/
def Clean (cand : Str) : Prop := (∀ c ∈ cand, Ordinary c) ∧ cand ≠ ascii "." ∧ cand ≠ ascii ".."

instance (cand : Str) : Decidable (Clean cand) :=
  @instDecidableAnd _ _ (List.decidableBAll Ordinary cand) (inferInstanceAs (Decidable (_ ∧ _)))

/-- The first token of a candidate names the child just where the candidate is clean. -/
theorem first_names (hb : s.base token = some b) (ht : s.root.sub b = some t) (hk : t.kids[i]? = some k)
    (hname : isName k.name = true) (hleaf : (cut token).2 <+: k.name)
    (hfirst : ∀ x ∈ t.kids.take i, x.name ≠ k.name) (htoken : ∀ c ∈ token, Ordinary c) :
    (split (pathPrefix token ++ k.name)).head?.bind s.resolve = some (b ++ [i]) ↔
      Clean (pathPrefix token ++ k.name) := by
  obtain ⟨hne, hsep, hhash⟩ := isName_spec hname
  have hnonempty : pathPrefix token ++ k.name ≠ [] := fun h => hne (List.append_eq_nil_iff.mp h).2
  by_cases hordinary : ∀ c ∈ pathPrefix token ++ k.name, Ordinary c
  · rw [split_ordinary hordinary hnonempty, List.head?_cons, Option.bind_some]
    by_cases hdots : pathPrefix token ++ k.name = ascii "." ∨ pathPrefix token ++ k.name = ascii ".."
    · exact iff_of_false (resolve_dots hb rfl hdots) fun h => hdots.elim h.2.1 h.2.2
    · obtain ⟨hdot, hdots⟩ := not_or.mp hdots
      refine iff_of_true ?_ ⟨hordinary, hdot, hdots⟩
      have hkey : findKey keySep t.kids k.name = some i := by
        rw [@findKey_named keySep _ _ _ 0 (parseKey_name hname) hne]
        exact (childNamed_first hne).mpr ⟨⟨k, hk, rfl⟩, hfirst⟩
      rw [resolve_leaf hb ht hsep hdot hdots, findPath_segment hne hsep, hkey]
      rfl
  · refine iff_of_false (fun h => ?_) fun h => hordinary h.1
    -- what the tokenizer drops is in the part of the name that is inserted, so the name looked up is shorter
    obtain ⟨rest, hrest⟩ := hleaf
    have hcand : pathPrefix token ++ k.name = token ++ rest := by
      rw [← hrest, ← List.append_assoc, pathPrefix_leaf]
    have hspecial : ∃ c ∈ rest, ¬Ordinary c := by
      by_contra hall
      push Not at hall
      refine hordinary fun c hc => ?_
      rw [hcand] at hc
      exact (List.mem_append.mp hc).elim (htoken c) (hall c)
    obtain ⟨x, hx, hresolve⟩ := Option.bind_eq_some_iff.mp h
    rw [hcand, split, splitLoop_ordinary htoken, List.nil_append] at hx
    obtain ⟨y, rfl, hsub, hlt⟩ := splitLoop_shorter hx hspecial
    have hxpath : token ++ y = pathPrefix token ++ ((cut token).2 ++ y) := by
      rw [← List.append_assoc, pathPrefix_leaf]
    have hsubname : ((cut token).2 ++ y).Sublist k.name := by
      rw [← hrest]
      exact List.Sublist.append_left hsub _
    have hshort : ((cut token).2 ++ y).length < k.name.length := by
      rw [← hrest, List.length_append, List.length_append]
      omega
    by_cases hdots : token ++ y = ascii "." ∨ token ++ y = ascii ".."
    · exact resolve_dots hb hxpath hdots hresolve
    · obtain ⟨hdot, hdotdot⟩ := not_or.mp hdots
      rw [hxpath] at hresolve hdot hdotdot
      have hplain := fun h => hsep (hsubname.subset h)
      rw [resolve_leaf hb ht hplain hdot hdotdot] at hresolve
      by_cases hnil : (cut token).2 ++ y = []
      · have hself : t.findPath pathSep keySep [] = some [] := rfl
        rw [hnil, hself] at hresolve
        simp at hresolve
      · rw [findPath_segment hnil hplain, Option.map_map] at hresolve
        obtain ⟨j, hj, hplace⟩ := Option.map_eq_some_iff.mp hresolve
        obtain rfl : j = i := by simpa using hplace
        have hparse := parseKey_plain hnil fun h => hhash (hsubname.subset h)
        rw [@findKey_named keySep _ _ _ 0 hparse hnil] at hj
        obtain ⟨k', hk', hsame⟩ := childNamed_get hj
        rw [hk] at hk'
        cases hk'
        rw [hsame hnil] at hshort
        exact lt_irrefl _ hshort

theorem front_append (head : Str) : front head ++ lastWord head = head := List.rdropWhile_append_rtakeWhile

/-- A command that is found has a word. -/
theorem resolveCommand_words (s : TreeSession) (args : List Str) : ∀ n, s.resolveCommand args n = ([], 0) ∨
    0 < (s.resolveCommand args n).2
  | 0 => .inl rfl
  | n + 1 => by
    rw [resolveCommand]
    split_ifs
    · exact .inr (Nat.succ_pos n)
    · exact resolveCommand_words s args n

/-- An argument that is typed plainly stands behind a space. -/
theorem space_before (harg : s.argument head = some token) (hordinary : ∀ c ∈ lastWord head, Ordinary c) :
    32 ∈ head := by
  by_contra hspace
  have hword : lastWord head = head :=
    List.rtakeWhile_eq_self_iff.mpr fun c hc => decide_eq_true fun h => hspace (h ▸ hc)
  rw [hword] at hordinary
  have hend : endsWithSpace head = false := by
    rw [endsWithSpace]
    cases hl : head.getLast? with
    | none => rfl
    | some c => exact (hordinary c (List.mem_of_getLast? hl)).1
  have hlen : (split head).length ≤ 1 := by
    by_cases hne : head = []
    · rw [hne]
      exact Nat.zero_le _
    · rw [split_ordinary hordinary hne]
      exact Nat.le_refl _
  rw [argument] at harg
  have hwords := resolveCommand_words s (split head) (split head).length
  cases hr : s.resolveCommand (split head) (split head).length with
  | mk cmdKey cmdWords =>
    rw [hr] at harg hwords
    dsimp only at harg hwords
    rw [if_neg] at harg
    · cases harg
    · rw [hend, Bool.false_or, Bool.false_or, Bool.or_eq_true, Bool.and_eq_true, Bool.and_eq_true,
        decide_eq_true_eq, decide_eq_true_eq, decide_eq_true_eq]
      rintro (⟨hkey, hlt⟩ | ⟨-, hlt⟩)
      · rcases hwords with hnone | hpos
        · exact hkey (Prod.mk.inj hnone).1
        · omega
      · omega

end Words

end TreeSession

section Completed

open TreeSession

variable {s : TreeSession} {ans : Answers} {e e' : Editor} {r : EditResult} {token cand : Str} {place : List Nat}

/-- What a completion that inserts its only candidate leaves: the candidate in place of the last word. -/
theorem completed (hfound : ans.complete (e.line.take e.cursor) = [cand]) (hsession : e.session = true)
    (hrun : e.completeAtCursor ans = some (e', r)) (hspace : 32 ∈ e.line.take e.cursor)
    (hpre : lastWord (e.line.take e.cursor) <+: cand)
    (hmore : (lastWord (e.line.take e.cursor)).length < cand.length) :
    e'.line.take e'.cursor = front (e.line.take e.cursor) ++ cand ∧
      e'.line = front (e.line.take e.cursor) ++ cand ++ e.line.drop e.cursor := by
  obtain ⟨rest, rfl⟩ := hpre
  have haddition : Editor.addition [lastWord (e.line.take e.cursor) ++ rest] (lastWord (e.line.take e.cursor)) =
      rest := List.drop_left
  have hrest : rest ≠ [] := by
    rintro rfl
    simp at hmore
  have hends : Editor.endsWord [lastWord (e.line.take e.cursor) ++ rest] (e.line.take e.cursor) = false := by
    simp [Editor.endsWord, hspace]
  rw [Editor.completeAtCursor, if_neg (by simp [hsession])] at hrun
  dsimp only at hrun
  rw [hfound, if_neg (by simp), haddition, if_neg hrest] at hrun
  simp only [hends, Bool.false_eq_true, false_and, if_false, Option.map_some] at hrun
  obtain ⟨e₁, he₁, hrun⟩ := Option.bind_eq_some_iff.mp hrun
  obtain ⟨rfl, -⟩ := Prod.mk.inj (Option.some.inj hrun)
  rw [Editor.insert, insertAt] at he₁
  split_ifs at he₁ with hle
  · obtain rfl := Option.some.inj he₁
    have hhead := front_append (e.line.take e.cursor)
    have hline : e.line.take e.cursor ++ rest ++ e.line.drop e.cursor =
        front (e.line.take e.cursor) ++ (lastWord (e.line.take e.cursor) ++ rest) ++ e.line.drop e.cursor := by
      rw [← List.append_assoc (front _), hhead]
    refine ⟨?_, hline⟩
    have hlen : e.cursor + rest.length = (e.line.take e.cursor ++ rest).length := by
      rw [List.length_append, List.length_take, min_eq_left hle]
    show (e.line.take e.cursor ++ rest ++ e.line.drop e.cursor).take (e.cursor + rest.length) = _
    rw [hlen, List.take_left, ← List.append_assoc, hhead]
  · cases he₁

/-- The token is the word in front of the cursor as it stands there: it has no special byte, and nothing is
open in front of it. -/
structure Plainly (head token : Str) : Prop where
  word : token = lastWord head
  ordinary : ∀ c ∈ token, Ordinary c
  fresh : Fresh (front head)

/-- The node that the argument number `n` of a line names. -/
def executed (s : TreeSession) (line : Str) (n : Nat) : Option (List Nat) := (split line)[n]?.bind s.resolve

/-- **Behind a word that is typed plainly, the completed argument names the node of a valid name just where the
candidate is clean**; and then it does in the whole line too, if white space or nothing is behind the cursor. -/
theorem completion_sound (hans : ans.complete = s.complete) (hsession : e.session = true)
    (hrun : e.completeAtCursor ans = some (e', r)) (harg : s.argument (e.line.take e.cursor) = some token)
    (hcand : s.candidates token = [(cand, place)])
    (hmore : (lastWord (e.line.take e.cursor)).length < cand.length)
    (hplain : Plainly (e.line.take e.cursor) token)
    (hname : ∀ k, s.root.sub place = some k → isName k.name = true) :
    (executed s (e'.line.take e'.cursor) (split (front (e.line.take e.cursor))).length = some place ↔ Clean cand) ∧
      (Clean cand → (∀ c ∈ (e.line.drop e.cursor).head?, isSpace c = true) →
        executed s e'.line (split (front (e.line.take e.cursor))).length = some place) := by
  obtain ⟨b, t, i, k, hb, ht, hk, hne, hleaf, rfl, rfl, hfirst⟩ := candidates_single hcand
  have hvalid : isName k.name = true := hname k (sub_kid ht hk)
  have hfound : ans.complete (e.line.take e.cursor) = [pathPrefix token ++ k.name] := by
    rw [hans, complete, harg]
    dsimp only
    rw [completeNodePath, hcand]
    rfl
  have hordinary := hplain.ordinary
  have hspace := space_before harg (hplain.word ▸ hordinary)
  have hpre : lastWord (e.line.take e.cursor) <+: pathPrefix token ++ k.name := by
    obtain ⟨rest, hrest⟩ := hleaf
    rw [← hplain.word, ← hrest, ← List.append_assoc, pathPrefix_leaf]
    exact List.prefix_append _ _
  obtain ⟨hcut, hline⟩ := completed hfound hsession hrun hspace hpre hmore
  have hsplit : ∀ more, (split (front (e.line.take e.cursor) ++ more))[
      (split (front (e.line.take e.cursor))).length]? = (split more).head? := by
    intro more
    rw [split_fresh hplain.fresh, List.getElem?_append_right le_rfl, Nat.sub_self, List.head?_eq_getElem?]
  have hiff := first_names hb ht hk hvalid hleaf hfirst hordinary
  rw [executed, hcut, hsplit]
  refine ⟨hiff, fun hclean hbehind => ?_⟩
  have hnonempty : pathPrefix token ++ k.name ≠ [] := fun h => hne (List.append_eq_nil_iff.mp h).2
  have hnames := hiff.mpr hclean
  rw [split_ordinary hclean.1 hnonempty] at hnames
  rw [executed, hline, List.append_assoc, hsplit, split_before hclean.1 hnonempty hbehind]
  exact hnames

/-- A session at the root of a tree with `my node` and `log`. -/
def sampleSession : TreeSession where
  root := node [] .none [blank (ascii "my node"), blank (ascii "log")]
  cur := []
  cmds := [ascii "ls"]
  has := fun _ => false
  keys := []

def answers (s : TreeSession) : Answers := ⟨s.complete, fun _ => []⟩

/-- A line with the cursor behind it. -/
def typed (line : Str) : Editor := ⟨true, .controlled, line, line.length, -1, [], []⟩

theorem completion_sound_sample :
    ((typed (ascii "ls l")).completeAtCursor (answers sampleSession)).map (fun out => out.1.line) =
        some (ascii "ls log") ∧
      executed sampleSession (ascii "ls log") 1 = some [1] := by
  have hrun : (typed (ascii "ls l")).completeAtCursor (answers sampleSession) =
      some (typed (ascii "ls log"), .drawn true) := by rfl
  have hword : ∀ c ∈ ascii "l", Ordinary c := List.forall_mem_singleton.mpr (by decide)
  have hsound := @completion_sound sampleSession (answers sampleSession) (typed (ascii "ls l"))
    (typed (ascii "ls log")) (.drawn true) (ascii "l") (ascii "log") [1] rfl rfl hrun rfl rfl (by decide)
    ⟨rfl, hword, by decide⟩ (by rintro k ⟨⟩; decide)
  exact ⟨by rw [hrun]; rfl, hsound.1.mpr (by decide)⟩

/-- `ls m` is completed to `ls my node`, which has three arguments; `my` names nothing. -/
theorem unquoted_space :
    (typed (ascii "ls m")).completeAtCursor (answers sampleSession) =
        some (typed (ascii "ls my node"), .drawn true) ∧
      sampleSession.candidates (ascii "m") = [(ascii "my node", [0])] ∧
      split (ascii "ls my node") = [ascii "ls", ascii "my", ascii "node"] ∧
      executed sampleSession (ascii "ls my node") 1 = none := by
  refine ⟨rfl, by decide, by decide, by decide⟩

end Completed

end Terminal

end VersatileEngine
