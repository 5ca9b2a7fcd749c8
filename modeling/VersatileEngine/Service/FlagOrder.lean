import VersatileEngine.Service.Builtins
import Mathlib.Data.List.Chain

/-!
# VersatileEngine.Service.FlagOrder

Where the flags of a command line may stand.

* `parseTokens_rule` — an induction rule for `parseFlags`: one case for each way to read a token.
* `Settled`    — no flag stands directly before a token that it would take as its value.
* `Rearranged` — the flags of a command line, which the command only tests for presence, at other places.
* `parse_reads` — **the parser reads the positional arguments as written exactly when the line is settled.**
* `flags_movable` — **flags may move between settled lines**, for `rm` as long as `target` finds what it found.
-/

namespace VersatileEngine

namespace Terminal

namespace Builtins

/-- The flags of which a command reads the value. -/
def valued : Builtin → Str → Bool
  | .rm, key => Flags.isFlag (ascii "index") (some 105) key || Flags.isFlag (ascii "name") (some 110) key ||
      Flags.isFlag (ascii "overlap") (some 111) key || Flags.isFlag (ascii "all") none key
  | _, _ => false

/-- The keys that a token names. -/
def keysOf (a : Str) : List Str :=
  match Token.of a with
  | .assigned key _ => [key]
  | .keys keys => keys
  | _ => []

def isPositional (a : Str) : Bool :=
  match Token.of a with
  | .positional => true
  | _ => false

def takesNext (a : Str) : Bool :=
  match Token.of a with
  | .keys _ => true
  | _ => false

def Settled (tokens : List Str) : Prop := tokens.IsChain fun a b => ¬ (takesNext a = true ∧ isValue b = true)

/-- The arguments before a `--`, or all of them. -/
def Open (tokens : List Str) : Prop := ∀ a ∈ tokens, a ≠ ascii "--"

/-- The same positional arguments in the same order, and the same flags anywhere between them. -/
structure Rearranged (cmd : Builtin) (tokens tokens' : List Str) : Prop where
  isOpen : Open tokens
  positional : tokens'.filter isPositional = tokens.filter isPositional
  flags : (tokens'.filter fun a => !isPositional a).Perm (tokens.filter fun a => !isPositional a)
  tested : ∀ key ∈ tokens.flatMap keysOf, valued cmd key = false

/-- Where `--` stands, or nothing. -/
def EndOfFlags (rest : List Str) : Prop := rest = [] ∨ rest.head? = some (ascii "--")

/-! ## Tokens -/

theorem of_endOfFlags {a : Str} (h : Token.of a = .endOfFlags) : a = ascii "--" := by
  by_contra hne
  simp only [Token.of, if_neg hne] at h
  split_ifs at h
  split at h <;> cases h

theorem of_positional {a : Str} (h : isValue a = true) : Token.of a = .positional := by
  simp only [isValue, Bool.and_eq_true, decide_eq_true_eq] at h
  obtain ⟨-, hdash⟩ := h
  have hend : a ≠ ascii "--" := by
    rintro rfl
    exact hdash rfl
  simp [Token.of, hend, hdash]

theorem keys_ne_nil {a : Str} {keys : List Str} (h : Token.of a = .keys keys) : keys ≠ [] := by
  simp only [Token.of] at h
  split_ifs at h with hend hlong hshort
  · split at h
    · cases h
    · cases h
      simp
  · cases h
    have hlen : 0 < (a.drop 1).length := by
      rw [List.length_drop]
      omega
    exact fun hnil => by simp [List.map_eq_nil_iff.1 hnil] at hlen

theorem withValue_keys {keys : List Str} (h : keys ≠ []) (value : Str) :
    (withValue keys value).map Prod.fst = keys := by
  rw [withValue, List.map_append, List.map_map]
  simp only [List.map_cons, List.map_nil, List.getLastD_eq_getLast?, List.getLast?_eq_some_getLast h,
    Option.getD_some]
  simp [Function.comp_def, List.dropLast_append_getLast h]

/-- One case for each way to read a token. -/
theorem parseTokens_rule {P : List Str → Flags → Prop} (nil : P [] ⟨[], []⟩)
    (ends : ∀ rest, P (ascii "--" :: rest) ⟨[], rest⟩)
    (assigned : ∀ a rest key value, Token.of a = .assigned key value → P rest (parseTokens rest) →
      P (a :: rest) ((parseTokens rest).add [(key, value)]))
    (keys : ∀ a rest keys, Token.of a = .keys keys → (∀ b ∈ rest.head?, isValue b = false) →
      P rest (parseTokens rest) → P (a :: rest) ((parseTokens rest).add (withValue keys [])))
    (value : ∀ a b rest keys, Token.of a = .keys keys → isValue b = true → P rest (parseTokens rest) →
      P (a :: b :: rest) ((parseTokens rest).add (withValue keys b)))
    (positional : ∀ a rest, Token.of a = .positional → P rest (parseTokens rest) →
      P (a :: rest) ((parseTokens rest).push a)) (tokens : List Str) : P tokens (parseTokens tokens) := by
  fun_induction parseTokens tokens with
  | case1 => exact nil
  | case2 a h =>
    rw [of_endOfFlags h]
    exact ends []
  | case3 a key v h => exact assigned a [] key v h nil
  | case4 a ks h =>
    have := keys a [] ks h (by simp) nil
    simpa [Flags.add, parseTokens] using this
  | case5 a h => exact positional a [] h nil
  | case6 a b rest h =>
    rw [of_endOfFlags h]
    exact ends (b :: rest)
  | case7 a b rest key v h ih => exact assigned a (b :: rest) key v h ih
  | case8 a b rest ks h hb ih => exact value a b rest ks h hb ih
  | case9 a b rest ks h hb ih => exact keys a (b :: rest) ks h (by simpa using hb) ih
  | case10 a b rest h ih => exact positional a (b :: rest) h ih

/-! ## Reading a line -/

/-- What is read of a line before `--`: its keys and its positional arguments. -/
structure Reads (tokens : List Str) (flags : Flags) : Prop where
  keys : flags.named.map Prod.fst = tokens.flatMap keysOf
  positional : flags.positional = tokens.filter isPositional

theorem open_cons {a : Str} {rest : List Str} (h : Open (a :: rest)) : Open rest :=
  fun b hb => h b (List.mem_cons_of_mem a hb)

theorem settled_cons {a : Str} {rest : List Str}
    (h : ∀ b ∈ rest.head?, ¬ (takesNext a = true ∧ isValue b = true)) : Settled (a :: rest) ↔ Settled rest :=
  List.isChain_cons.trans (and_iff_right h)

theorem reads_flag {a : Str} {rest : List Str} {flags : Flags} {named : List (Str × Str)}
    (hkeys : named.map Prod.fst = keysOf a) (ha : isPositional a = false) (h : Reads rest flags) :
    Reads (a :: rest) (flags.add named) := by
  refine ⟨?_, ?_⟩
  · rw [List.flatMap_cons, ← h.keys, ← hkeys]
    exact List.map_append
  · rw [List.filter_cons_of_neg (by simp [ha])]
    exact h.positional

/-- A settled line is read as written; any other loses a positional argument. -/
theorem parse_cases (tokens : List Str) : Open tokens →
    (Settled tokens → Reads tokens (parseTokens tokens)) ∧
    (¬ Settled tokens → (parseTokens tokens).positional.length < (tokens.filter isPositional).length) := by
  refine parseTokens_rule (P := fun tokens flags => Open tokens → (Settled tokens → Reads tokens flags) ∧
    (¬ Settled tokens → flags.positional.length < (tokens.filter isPositional).length)) ?_ ?_ ?_ ?_ ?_ ?_ tokens
  · exact fun _ => ⟨fun _ => ⟨rfl, rfl⟩, fun h => absurd List.isChain_nil h⟩
  · exact fun rest hopen => absurd rfl (hopen _ (List.mem_cons_self ..))
  · intro a rest key value ha ih hopen
    have hpos : isPositional a = false := by simp [isPositional, ha]
    have hs : Settled (a :: rest) ↔ Settled rest := settled_cons (by simp [takesNext, ha])
    rw [hs, List.filter_cons_of_neg (by simp [hpos])]
    refine ⟨fun h => reads_flag ?_ hpos ((ih (open_cons hopen)).1 h), (ih (open_cons hopen)).2⟩
    simp [keysOf, ha]
  · intro a rest keys ha hnext ih hopen
    have hpos : isPositional a = false := by simp [isPositional, ha]
    have hs : Settled (a :: rest) ↔ Settled rest := settled_cons fun b hb h => by
      rw [hnext b hb] at h
      cases h.2
    rw [hs, List.filter_cons_of_neg (by simp [hpos])]
    refine ⟨fun h => reads_flag ?_ hpos ((ih (open_cons hopen)).1 h), (ih (open_cons hopen)).2⟩
    rw [withValue_keys (keys_ne_nil ha)]
    simp [keysOf, ha]
  · intro a b rest keys ha hb ih hopen
    -- the argument `b` is taken, and what follows loses none or some
    have hpos : isPositional a = false := by simp [isPositional, ha]
    have hposb : isPositional b = true := by simp [isPositional, of_positional hb]
    have hs : ¬ Settled (a :: b :: rest) := fun h =>
      (List.isChain_cons_cons.1 h).1 ⟨by simp [takesNext, ha], hb⟩
    refine ⟨fun h => absurd h hs, fun _ => ?_⟩
    rw [List.filter_cons_of_neg (by simp [hpos]), List.filter_cons_of_pos hposb, List.length_cons]
    have hrest := ih (open_cons (open_cons hopen))
    have hle : (parseTokens rest).positional.length ≤ (rest.filter isPositional).length := by
      by_cases h : Settled rest
      · rw [(hrest.1 h).positional]
      · exact (hrest.2 h).le
    exact Nat.lt_succ_of_le hle
  · intro a rest ha ih hopen
    have hpos : isPositional a = true := by simp [isPositional, ha]
    have hs : Settled (a :: rest) ↔ Settled rest := settled_cons (by simp [takesNext, ha])
    rw [hs, List.filter_cons_of_pos hpos]
    have hrest := ih (open_cons hopen)
    refine ⟨fun h => ⟨?_, ?_⟩, fun h => Nat.succ_lt_succ (hrest.2 h)⟩
    · rw [List.flatMap_cons, ← (hrest.1 h).keys]
      simp [Flags.push, keysOf, ha]
    · rw [List.filter_cons_of_pos hpos, ← (hrest.1 h).positional]
      rfl

section Tokens

variable {a b : Str} {rest : List Str} {key value : Str} {keys : List Str}

theorem parseTokens_assigned (h : Token.of a = .assigned key value) :
    parseTokens (a :: rest) = (parseTokens rest).add [(key, value)] := by
  cases rest <;> simp [parseTokens, h, Flags.add]

theorem parseTokens_keys (h : Token.of a = .keys keys) (hnext : ∀ b ∈ rest.head?, isValue b = false) :
    parseTokens (a :: rest) = (parseTokens rest).add (withValue keys []) := by
  cases rest with
  | nil => simp [parseTokens, h, Flags.add]
  | cons b rest => simp [parseTokens, h, hnext b rfl]

theorem parseTokens_value (h : Token.of a = .keys keys) (hb : isValue b = true) :
    parseTokens (a :: b :: rest) = (parseTokens rest).add (withValue keys b) := by
  simp [parseTokens, h, hb]

theorem parseTokens_push (h : Token.of a = .positional) : parseTokens (a :: rest) = (parseTokens rest).push a := by
  cases rest <;> simp [parseTokens, h, Flags.push]

theorem parseTokens_end : parseTokens (ascii "--" :: rest) = ⟨[], rest⟩ := by
  have h : Token.of (ascii "--") = .endOfFlags := rfl
  cases rest <;> simp [parseTokens, h]

end Tokens

/-- What follows `--` is positional. -/
theorem parse_end (more : List Str) (tokens : List Str) : Open tokens →
    parseTokens (tokens ++ ascii "--" :: more) =
      ⟨(parseTokens tokens).named, (parseTokens tokens).positional ++ more⟩ := by
  refine parseTokens_rule (P := fun tokens flags => Open tokens → parseTokens (tokens ++ ascii "--" :: more) =
    ⟨flags.named, flags.positional ++ more⟩) ?_ ?_ ?_ ?_ ?_ ?_ tokens
  · exact fun _ => parseTokens_end
  · exact fun rest hopen => absurd rfl (hopen _ (List.mem_cons_self ..))
  · intro a rest key value ha ih hopen
    rw [List.cons_append, parseTokens_assigned ha, ih (open_cons hopen)]
    rfl
  · intro a rest keys ha hnext ih hopen
    have hnext' : ∀ b ∈ (rest ++ ascii "--" :: more).head?, isValue b = false := by
      cases rest with
      | nil => simp [isValue, show (ascii "--").head? = some 45 from rfl]
      | cons b rest => exact hnext
    rw [List.cons_append, parseTokens_keys ha hnext', ih (open_cons hopen)]
    rfl
  · intro a b rest keys ha hb ih hopen
    rw [List.cons_append, List.cons_append, parseTokens_value ha hb, ih (open_cons (open_cons hopen))]
    rfl
  · intro a rest ha ih hopen
    rw [List.cons_append, parseTokens_push ha, ih (open_cons hopen)]
    rfl

theorem parse_append {tokens rest : List Str} (hopen : Open tokens) (hrest : EndOfFlags rest) :
    parseTokens (tokens ++ rest) =
      ⟨(parseTokens tokens).named, (parseTokens tokens).positional ++ rest.drop 1⟩ := by
  rcases hrest with rfl | hhead
  · simp
  · obtain ⟨more, rfl⟩ := List.head?_eq_some_iff.1 hhead
    exact parse_end more tokens hopen

/-- **The positional arguments are read as written exactly when the line is settled.** -/
theorem parse_reads (word : Str) {tokens rest : List Str} (hopen : Open tokens) (hrest : EndOfFlags rest) :
    (parseFlags (word :: tokens ++ rest)).positional = tokens.filter isPositional ++ rest.drop 1 ↔
      Settled tokens := by
  have heq : parseFlags (word :: tokens ++ rest) = parseTokens (tokens ++ rest) := rfl
  rw [heq, parse_append hopen hrest]
  constructor
  · intro h
    by_contra hs
    have hlt := (parse_cases tokens hopen).2 hs
    rw [List.append_cancel_right h] at hlt
    exact Nat.lt_irrefl _ hlt
  · intro h
    rw [((parse_cases tokens hopen).1 h).positional]

/-! ## Commands -/

/-- Flags that no test for presence and no read of an argument tells apart. -/
structure Alike (flags flags' : Flags) : Prop where
  positional : flags'.positional = flags.positional
  has : ∀ longName shortName, flags'.has longName shortName = flags.has longName shortName

theorem has_keys (flags : Flags) (longName : Str) (shortName : Option UInt8) :
    flags.has longName shortName = (flags.named.map Prod.fst).any (Flags.isFlag longName shortName) := by
  simp [Flags.has, List.any_map, Function.comp_def]

section Alike

variable {stod : Str → Option Binary64} {platform : Platform} {k : Nat} {f : Forest} {s : Session}
  {flags flags' : Flags} (h : Alike flags flags')

include h

theorem Alike.pos (idx : Nat) : flags'.pos idx = flags.pos idx := by
  simp [Flags.pos, h.positional]

theorem atMostOne_alike {usage : Str} {next : Id → Option Outcome} :
    atMostOne k f s flags' usage next = atMostOne k f s flags usage next := by
  simp only [atMostOne, h.positional]

theorem ls_alike : ls platform k f s flags' = ls platform k f s flags := by
  simp only [ls, atMostOne_alike h, h.has]

theorem get_alike : get platform k f s flags' = get platform k f s flags := by
  simp only [get, atMostOne_alike h, h.has]

theorem set_alike : set stod platform k f s flags' = set stod platform k f s flags := by
  simp only [set, atMostOne_alike h, h.has, h.positional]

theorem cp_alike : cp k f s flags' = cp k f s flags := by
  have hcopy : ∀ src, copyTo k f s flags' src = copyTo k f s flags src := fun src => by
    funext dest
    simp only [copyTo, h.has]
  simp only [cp, h.pos, hcopy]

/-- `rm` where no key is given whose value it would read. -/
theorem rm_alike (htested : ∀ key ∈ flags.named.map Prod.fst, valued .rm key = false) (t : Id) :
    rm k f s flags' t = rm k f s flags t := by
  have hnone : ∀ longName shortName, (∀ key, Flags.isFlag longName shortName key = true → valued .rm key = true) →
      flags.has longName shortName = false := by
    intro longName shortName himp
    rw [has_keys, List.any_eq_false]
    intro key hkey hflag
    exact absurd (himp key hflag) (by simp [htested key hkey])
  have hindex := hnone (ascii "index") (some 105) fun key hkey => by simp [valued, hkey]
  have hname := hnone (ascii "name") (some 110) fun key hkey => by simp [valued, hkey]
  have hall := hnone (ascii "all") none fun key hkey => by simp [valued, hkey]
  simp only [rm, h.has, h.pos, hindex, hname, hall, Bool.false_eq_true, if_false]

end Alike

/-! ## Lines -/

/-- The first argument, if `target` takes it for a path. -/
def lead (args : List Str) : Option Str := args.head?.filter isValue

theorem target_lead {k : Nat} {f : Forest} {s : Session} {word : Str} {args args' : List Str}
    (h : lead args' = lead args) : s.target k f (word :: args') = s.target k f (word :: args) := by
  have htarget : ∀ l, s.target k f (word :: l) =
      (lead l).elim (some s.cur) fun a => (s.resolve k f a).map fun n => n.getD s.cur := by
    intro l
    cases l with
    | nil => rfl
    | cons a l => by_cases ha : isValue a <;> simp [Session.target, lead, ha, Option.filter]
  rw [htarget, htarget, h]

namespace Rearranged

variable {cmd : Builtin} {tokens tokens' : List Str} (h : Rearranged cmd tokens tokens')

include h

theorem mem {a : Str} (ha : a ∈ tokens') : a ∈ tokens := by
  by_cases hpos : isPositional a
  · have hmem : a ∈ tokens'.filter isPositional := List.mem_filter.2 ⟨ha, hpos⟩
    rw [h.positional] at hmem
    exact (List.mem_filter.1 hmem).1
  · have hmem : a ∈ tokens'.filter fun a => !isPositional a := List.mem_filter.2 ⟨ha, by simp [hpos]⟩
    exact (List.mem_filter.1 (h.flags.mem_iff.1 hmem)).1

theorem isOpen' : Open tokens' := fun _ ha => h.isOpen _ (h.mem ha)

theorem keys : (tokens'.flatMap keysOf).Perm (tokens.flatMap keysOf) := by
  have hflags : ∀ l : List Str, l.flatMap keysOf = (l.filter fun a => !isPositional a).flatMap keysOf := by
    intro l
    induction l with
    | nil => rfl
    | cons a l ih =>
      by_cases hpos : isPositional a
      · have hnil : keysOf a = [] := by
          simp only [isPositional] at hpos
          split at hpos
          · rename_i ha
            simp [keysOf, ha]
          · cases hpos
        rw [List.filter_cons_of_neg (by simp [hpos]), List.flatMap_cons, hnil, ih]
        rfl
      · rw [List.filter_cons_of_pos (by simp [hpos]), List.flatMap_cons, List.flatMap_cons, ih]
  rw [hflags tokens, hflags tokens']
  exact h.flags.flatMap_right _

/-- Two settled lines with the same flags are read alike. -/
theorem alike {word : Str} {rest : List Str} (hrest : EndOfFlags rest) (hs : Settled tokens)
    (hs' : Settled tokens') :
    Alike (parseFlags (word :: tokens ++ rest)) (parseFlags (word :: tokens' ++ rest)) := by
  have hread := (parse_cases tokens h.isOpen).1 hs
  have hread' := (parse_cases tokens' h.isOpen').1 hs'
  refine ⟨?_, fun longName shortName => ?_⟩
  · rw [(parse_reads word h.isOpen' hrest).2 hs', (parse_reads word h.isOpen hrest).2 hs, h.positional]
  · have heq : ∀ l, parseFlags (word :: l ++ rest) = parseTokens (l ++ rest) := fun _ => rfl
    rw [has_keys, has_keys, heq, heq, parse_append h.isOpen hrest, parse_append h.isOpen' hrest]
    simp only [hread.keys, hread'.keys]
    exact h.keys.any_eq

theorem parsed_tested {word : Str} {rest : List Str} (hrest : EndOfFlags rest) (hs : Settled tokens) :
    ∀ key ∈ (parseFlags (word :: tokens ++ rest)).named.map Prod.fst, valued cmd key = false := by
  have heq : parseFlags (word :: tokens ++ rest) = parseTokens (tokens ++ rest) := rfl
  rw [heq, parse_append h.isOpen hrest]
  simp only [((parse_cases tokens h.isOpen).1 hs).keys]
  exact h.tested

end Rearranged

/-- **Flags may move**: the positional arguments are read as written exactly when no flag stands directly before
one that it would take as its value, and a command does the same on two such lines with the same flags, `rm` when
its target is the same. -/
theorem flags_movable (stod : Str → Option Binary64) (platform : Platform) (k : Nat) (f : Forest) (s : Session) :
    (∀ word tokens rest, Open tokens → EndOfFlags rest →
      ((parseFlags (word :: tokens ++ rest)).positional = tokens.filter isPositional ++ rest.drop 1 ↔
        Settled tokens)) ∧
    ∀ cmd word tokens tokens' rest, Rearranged cmd tokens tokens' → EndOfFlags rest → Settled tokens →
      Settled tokens' → (cmd = .rm → lead (tokens' ++ rest) = lead (tokens ++ rest)) →
      builtin stod platform k f s cmd (word :: tokens' ++ rest) =
        builtin stod platform k f s cmd (word :: tokens ++ rest) := by
  refine ⟨fun word tokens rest hopen hrest => parse_reads word hopen hrest, ?_⟩
  intro cmd word tokens tokens' rest h hrest hs hs' hlead
  have halike : Alike (parseFlags (word :: tokens ++ rest)) (parseFlags (word :: tokens' ++ rest)) :=
    h.alike hrest hs hs'
  simp only [builtin]
  congr 1
  cases cmd with
  | ls => exact ls_alike halike
  | get => exact get_alike halike
  | set => exact set_alike halike
  | cp => exact cp_alike halike
  | rm =>
    have htarget : s.target k f (word :: tokens' ++ rest) = s.target k f (word :: tokens ++ rest) :=
      target_lead (hlead rfl)
    simp only [htarget, rm_alike halike (h.parsed_tested hrest hs)]

theorem flags_movable_sample :
    let platform : Platform := ⟨fun _ => [], fun _ => [], fun _ => 0, fun _ => 0⟩
    builtin (fun _ => none) platform 2 (Forest.init.newNode []).1 ⟨0, 0, []⟩ .cp
        [ascii "cp", ascii "--remove=1", ascii "a", ascii "b", ascii "-u"] =
      builtin (fun _ => none) platform 2 (Forest.init.newNode []).1 ⟨0, 0, []⟩ .cp
        [ascii "cp", ascii "a", ascii "b", ascii "-u", ascii "--remove=1"] := by
  have hopen : Open [ascii "a", ascii "b", ascii "-u", ascii "--remove=1"] := by
    unfold Open
    decide
  have hsettled : Settled [ascii "a", ascii "b", ascii "-u", ascii "--remove=1"] := by
    unfold Settled
    decide
  have hsettled' : Settled [ascii "--remove=1", ascii "a", ascii "b", ascii "-u"] := by
    unfold Settled
    decide
  exact (flags_movable _ _ _ _ _).2 .cp _ [ascii "a", ascii "b", ascii "-u", ascii "--remove=1"]
    [ascii "--remove=1", ascii "a", ascii "b", ascii "-u"] [] ⟨hopen, by decide, by decide, by decide⟩ (.inl rfl)
    hsettled hsettled' fun h => by cases h

/-- A flag before a path takes the path. -/
theorem flag_takes_path : ¬ ∀ (stod : Str → Option Binary64) (platform : Platform) (k : Nat) (f : Forest)
    (s : Session) (cmd : Builtin) (word : Str) (tokens tokens' : List Str), Rearranged cmd tokens tokens' →
    builtin stod platform k f s cmd (word :: tokens') = builtin stod platform k f s cmd (word :: tokens) := by
  intro h
  have hopen : Open [ascii "x", ascii "-t"] := by
    unfold Open
    decide
  have heq := h (fun _ => none) ⟨fun _ => [], fun _ => [], fun _ => 0, fun _ => 0⟩ 2 (Forest.init.newNode []).1
    ⟨0, 0, []⟩ .get (ascii "get") [ascii "x", ascii "-t"] [ascii "-t", ascii "x"]
    ⟨hopen, by decide, by decide, by decide⟩
  have hout := congrArg (Option.map Outcome.output) heq
  revert hout
  decide

end Builtins

end Terminal

end VersatileEngine
