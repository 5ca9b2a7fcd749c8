import VersatileEngine.Node.Confined
import VersatileEngine.Service.Terminal

/-!
# VersatileEngine.Service.Targets

The terminal commands that act on a target: `mk -n`, `rm -c`, `-i`, `-n` and `--all`, and `shadow`.

* `Session.mkNode` — the command `mk`; `rm` and `shadow` are with the other commands.
* `perform`        — the tree after a command of these three.
* `Line`           — a command line with a path somewhere between the flags.
* `Idle`           — the flags ask for nothing, or for what is not there, at a node.
* `perform_acts`   — a command acts on its target and is not seen exactly when it is idle there.
* `named_target_iff` — **the command keeps to the node that the path leads to exactly when the path comes
  first and leads somewhere, or the current node is below it, or nothing is to be done.**
-/

namespace VersatileEngine

namespace Terminal

open Command (isInt isDouble)

inductive NamedCmd where
  | mk | rm | shadow

/-- What a command line comes to: one operation, a node that is inserted, or `at(path)`. -/
inductive Deed where
  | effect (e : Effect)
  | insertNew (t : Id) (name : Str) (idx : Int)
  | create (base : Id) (path : Str)

/-- `overlap`, 0 where it is not a whole number. -/
def overlapOf (flags : Flags) : Option Int :=
  let ovStr := flags.get (ascii "overlap") (some 111) (ascii "0")
  if isInt ovStr then stoi ovStr else some 0

def nameOf (flags : Flags) : Str := flags.get (ascii "name") (some 110) []

def anon (flags : Flags) : Bool := flags.has (ascii "anon") (some 97)

def hasAt (flags : Flags) : Bool := flags.has (ascii "at") none && isInt (flags.get (ascii "at") none [])

namespace Session

variable (k : Nat) (f : Forest) (s : Session)

/-- The command `mk`. -/
def mkNode (args : List Str) : Option Deed :=
  let flags := parseFlags args
  if nameOf flags ≠ [] ∨ anon flags = true then
    (s.target k f args).bind fun t =>
      (overlapOf flags).bind fun overlap =>
        if anon flags then some (.effect (.op (.append t [] overlap)))
        else if hasAt flags then
          (stoi (flags.get (ascii "at") none [])).map fun idx => .insertNew t (nameOf flags) idx
        else some (.effect (.op (.append t (nameOf flags) overlap)))
  else
    let path := flags.pos 0
    if path = [] then some (.effect .print)
    else if path.head? = some pathSep then some (.create s.root (path.drop 1))
    else some (.create s.cur path)

def deed (cmd : NamedCmd) (args : List Str) : Option Deed :=
  match cmd with
  | .mk => s.mkNode k f args
  | .rm => (s.rm k f args).map .effect
  | .shadow => (s.shadow k f args).map .effect

end Session

def Deed.apply (k : Nat) (f : Forest) (s : Session) : Deed → Option Forest
  | .effect e => (e.apply k f s).map Prod.fst
  | .insertNew t name idx => if f.live t then f.insertNew k t name idx else none
  | .create base path => if f.live base then (f.ensurePath k base path true).map Prod.fst else none

/-- The tree after a command. -/
def perform (k : Nat) (f : Forest) (s : Session) (cmd : NamedCmd) (args : List Str) : Option Forest :=
  if !f.live s.cur then none else (s.deed k f cmd args).bind (Deed.apply k f s)

/-! ## Command lines with a path -/

/-- The flags name what is to be done on the target. -/
def Named (flags : Flags) : NamedCmd → Prop
  | .mk => nameOf flags ≠ [] ∨ anon flags = true
  | .rm => flags.has (ascii "clear") (some 99) = true ∨ flags.has (ascii "index") (some 105) = true ∨
      flags.has (ascii "name") (some 110) = true ∨ flags.has (ascii "all") none = true
  | .shadow => True

/-- A path with flags and their values before and after it. -/
structure Line where
  word : Str
  before : List Str
  path : Str
  after : List Str
  flagFirst : ∀ a ∈ before.head?, a.head? = some 45
  isPath : before = [] → isValue path = true

namespace Line

def args (l : Line) : List Str := l.word :: l.before ++ l.path :: l.after

/-- The node the command acts on, when the path leads to `r`. -/
def target (l : Line) (s : Session) (r : Option Id) : Id := if l.before = [] then r.getD s.cur else s.cur

end Line

section Idle

variable (k : Nat) (f : Forest) (s : Session) (flags : Flags) (t : Id)

def mkIdle : Prop :=
  if anon flags = true ∨ hasAt flags = false then ∀ o, overlapOf flags = some o → o < 0
  else ∀ i, stoi (flags.get (ascii "at") none []) = some i → resolveIndex i (f.nodes t).length = none

def rmIdle : Prop :=
  if flags.has (ascii "clear") (some 99) then f.nodes t = []
  else if flags.has (ascii "index") (some 105) then
    let idx := flags.get (ascii "index") (some 105) []
    isInt idx = true → ∀ i, stoi idx = some i → f.child t i = none
  else if flags.has (ascii "name") (some 110) then
    nameOf flags ≠ [] → ∀ o, overlapOf flags = some o → f.childNamed t (nameOf flags) o = none
  else
    let nm := flags.get (ascii "all") none []
    nm ≠ [] → ∀ c ∈ f.nodes t, f.name c ≠ nm

def shadowIdle : Prop :=
  if flags.has (ascii "clear") none then f.shadow t = none
  else if flags.has (ascii "set") none then
    let path := flags.get (ascii "set") none []
    path ≠ [] → ∀ sh, s.resolve k f path = some (some sh) → f.shadow t = some sh
  else True

/-- Nothing is to be done at `t`, or what is to go is not there, or what is to come is there. -/
def Idle : NamedCmd → Prop
  | .mk => mkIdle f flags t
  | .rm => rmIdle f flags t
  | .shadow => shadowIdle k f s flags t

end Idle

/-- Only what is below the node that the path leads to changes, and nothing when it leads nowhere. -/
def OnNamed (f f' : Forest) : Option Id → Prop
  | some n => f.Confined f' n
  | none => f.Still f'

section Perform

open Forest

variable {k : Nat} {f f' : Forest} {s : Session} {args : List Str} {t : Id}

/-- The target of a line: the node of a path that comes first and leads somewhere, else the current one. -/
theorem target_line (l : Line) {r : Option Id} (hr : s.resolve k f l.path = some r) :
    s.target k f l.args = some (l.target s r) := by
  obtain ⟨word, before, path, after, hfirst, hpath⟩ := l
  cases before with
  | nil => simp [Session.target, Line.args, Line.target, hpath rfl, show s.resolve k f path = some r from hr]
  | cons a before =>
    have hflag : isValue a = false := by
      have ha : a.head? = some 45 := hfirst a rfl
      simp [isValue, ha]
    simp [Session.target, Line.args, Line.target, hflag]

theorem acts_print (h : Inv f) {idle : Prop} (hidle : idle) : Acts f f t idle :=
  ⟨h, (Still.refl f).confined t, fun _ => hidle, fun _ => .refl f⟩

/-- One operation that the tree accepts. -/
theorem apply_op {o : Op} (hrun : Deed.apply k f s (.effect (.op o)) = some f') :
    Valid f o ∧ f.run k o = some f' := by
  simp only [Deed.apply, Effect.apply] at hrun
  split_ifs at hrun with hvalid
  · obtain ⟨p, hp, rfl⟩ := Option.map_eq_some_iff.mp hrun
    obtain ⟨g, hg, rfl⟩ := Option.map_eq_some_iff.mp hp
    exact ⟨valid_of_validB hvalid, hg⟩
  · cases hrun

theorem mk_acts (h : Inv f) (ht : s.target k f args = some t) (hcmd : Named (parseFlags args) .mk)
    {d : Deed} (hd : s.mkNode k f args = some d) (hrun : d.apply k f s = some f') :
    Acts f f' t (mkIdle f (parseFlags args) t) := by
  simp only [Session.mkNode] at hd
  rw [if_pos (show nameOf _ ≠ [] ∨ anon _ = true from hcmd), ht, Option.bind_some] at hd
  obtain ⟨overlap, hov, hd⟩ := Option.bind_eq_some_iff.mp hd
  have hover : (∀ o, overlapOf (parseFlags args) = some o → o < 0) ↔ overlap < 0 := by
    simp [hov]
  have happend : ∀ nm, Deed.apply k f s (.effect (.op (.append t nm overlap))) = some f' →
      Acts f f' t (overlap < 0) := by
    intro nm hrun
    obtain ⟨hv, hrun⟩ := apply_op hrun
    cases hrun
    exact acts_append h (hv.live t (by simp [Op.args]))
  unfold mkIdle
  split_ifs at hd with hanon hat
  · cases hd
    rw [if_pos (.inl hanon), hover]
    exact happend [] hrun
  · obtain ⟨idx, hidx, rfl⟩ := Option.map_eq_some_iff.mp hd
    rw [if_neg (by simp [hanon, hat])]
    simp only [Deed.apply] at hrun
    split_ifs at hrun with hlive
    simpa [hidx] using acts_insertNew h hlive hrun
  · cases hd
    rw [if_pos (.inr (by simpa using hat)), hover]
    exact happend _ hrun

theorem rm_acts (h : Inv f) (ht : s.target k f args = some t) (hcmd : Named (parseFlags args) .rm)
    {e : Effect} (he : s.rm k f args = some e) (hrun : Deed.apply k f s (.effect e) = some f') :
    Acts f f' t (rmIdle f (parseFlags args) t) := by
  have hprint : ∀ {idle : Prop}, e = .print → idle → Acts f f' t idle := by
    rintro idle rfl hidle
    cases hrun
    exact acts_print h hidle
  have hremove : ∀ child, (∀ c, child = some c → c ∈ f.nodes t) → e = .op (.remove t child) →
      Acts f f' t (child = none) := by
    rintro child hchild rfl
    exact acts_remove h hchild (apply_op hrun).2
  simp only [Session.rm, ht, Option.bind_some] at he
  unfold rmIdle
  by_cases hclear : (parseFlags args).has (ascii "clear") (some 99) = true
  · rw [if_pos hclear] at he ⊢
    cases he
    obtain ⟨hv, hrun⟩ := apply_op hrun
    exact acts_clear h ⟨hv, k, hrun⟩
  rw [if_neg hclear] at he ⊢
  by_cases hindex : (parseFlags args).has (ascii "index") (some 105) = true
  · rw [if_pos hindex] at he ⊢
    extract_lets idx
    by_cases hint : isInt idx = true
    · rw [if_pos hint] at he
      obtain ⟨i, hi, rfl⟩ := Option.map_eq_some_iff.mp he
      simpa [hint, show stoi idx = some i from hi] using hremove _ (fun c => child_mem) rfl
    · rw [if_neg hint] at he
      exact hprint (Option.some.inj he).symm fun h => absurd h hint
  rw [if_neg hindex] at he ⊢
  by_cases hname : (parseFlags args).has (ascii "name") (some 110) = true
  · rw [if_pos hname] at he ⊢
    by_cases hnil : (parseFlags args).get (ascii "name") (some 110) [] = []
    · rw [if_pos hnil] at he
      exact hprint (Option.some.inj he).symm fun h => absurd hnil h
    · rw [if_neg hnil] at he
      obtain ⟨o, ho, rfl⟩ := Option.map_eq_some_iff.mp he
      have hov : overlapOf (parseFlags args) = some o := ho
      simpa [nameOf, hnil, hov] using hremove _ (fun c => childNamed_mem) rfl
  rw [if_neg hname] at he ⊢
  have hall : (parseFlags args).has (ascii "all") none = true :=
    ((hcmd.resolve_left hclear).resolve_left hindex).resolve_left hname
  rw [if_pos hall] at he
  extract_lets nm
  by_cases hnil : nm = []
  · rw [if_pos (show _ = [] from hnil)] at he
    exact hprint (Option.some.inj he).symm fun h => absurd hnil h
  · rw [if_neg (show ¬ _ = [] from hnil)] at he
    cases he
    obtain ⟨hv, hrun⟩ := apply_op hrun
    simpa [hnil] using acts_removeNamed h hnil ⟨hv, k, hrun⟩

theorem shadow_acts (h : Inv f) (ht : s.target k f args = some t) {e : Effect}
    (he : s.shadow k f args = some e) (hrun : Deed.apply k f s (.effect e) = some f') :
    Acts f f' t (shadowIdle k f s (parseFlags args) t) := by
  have hset : ∀ sh, e = .op (.setShadow t sh) → Acts f f' t (f.shadow t = sh) := by
    rintro sh rfl
    obtain ⟨hv, hrun⟩ := apply_op hrun
    have hinv := (step_frees h ⟨hv, k, hrun⟩ fun {_ _ _ _} hins => by cases hins).inv
    cases hrun
    exact acts_setShadow hinv
  have hprint : ∀ {idle : Prop}, e = .print → idle → Acts f f' t idle := by
    rintro idle rfl hidle
    cases hrun
    exact acts_print h hidle
  simp only [Session.shadow, ht, Option.bind_some] at he
  unfold shadowIdle
  by_cases hclear : (parseFlags args).has (ascii "clear") none = true
  · rw [if_pos hclear] at he ⊢
    exact hset none (Option.some.inj he).symm
  rw [if_neg hclear] at he ⊢
  by_cases hflag : (parseFlags args).has (ascii "set") none = true
  · rw [if_pos hflag] at he ⊢
    extract_lets path
    by_cases hnil : path = []
    · rw [if_pos (show _ = [] from hnil)] at he
      exact hprint (Option.some.inj he).symm fun h => absurd hnil h
    · rw [if_neg (show ¬ _ = [] from hnil)] at he
      obtain ⟨r, hr, hre⟩ := Option.map_eq_some_iff.mp he
      have hpath : s.resolve k f path = some r := hr
      cases r with
      | none => exact hprint hre.symm fun _ sh hsh => by simp [hpath] at hsh
      | some sh => simpa [hnil, hpath] using hset (some sh) hre.symm
  · rw [if_neg hflag] at he ⊢
    exact hprint (Option.some.inj he).symm trivial

theorem perform_some {cmd : NamedCmd} (hrun : perform k f s cmd args = some f') :
    f.live s.cur = true ∧ ∃ d, s.deed k f cmd args = some d ∧ d.apply k f s = some f' := by
  rw [perform] at hrun
  split_ifs at hrun with hlive
  exact ⟨by simpa using hlive, Option.bind_eq_some_iff.mp hrun⟩

/-- A command acts on its target, and is not seen exactly when it is idle there. -/
theorem perform_acts {cmd : NamedCmd} (h : Inv f) (ht : s.target k f args = some t)
    (hcmd : Named (parseFlags args) cmd) (hrun : perform k f s cmd args = some f') :
    Acts f f' t (Idle k f s (parseFlags args) t cmd) := by
  obtain ⟨-, d, hd, happly⟩ := perform_some hrun
  cases cmd with
  | mk => exact mk_acts h ht hcmd hd happly
  | rm =>
    obtain ⟨e, he, rfl⟩ := Option.map_eq_some_iff.mp hd
    exact rm_acts h ht hcmd he happly
  | shadow =>
    obtain ⟨e, he, rfl⟩ := Option.map_eq_some_iff.mp hd
    exact shadow_acts h ht he happly

/-- **The node a command names.** With a path among the flags, a command changes only what is below the node
that the path leads to, and nothing when it leads nowhere, exactly when nothing is to be done at its target, or
the path leads somewhere and comes first, or the current node is below that node. -/
theorem named_target_iff (cmd : NamedCmd) (l : Line) {r : Option Id} (h : Inv f)
    (hcmd : Named (parseFlags l.args) cmd) (hr : s.resolve k f l.path = some r)
    (hrun : perform k f s cmd l.args = some f') :
    OnNamed f f' r ↔ Idle k f s (parseFlags l.args) (l.target s r) cmd ∨
      ∃ n, r = some n ∧ (l.before = [] ∨ Below f n s.cur) := by
  have hacts := perform_acts h (target_line l hr) hcmd hrun
  constructor
  · intro hon
    by_cases hbelow : ∃ n, r = some n ∧ Below f n (l.target s r)
    · obtain ⟨n, rfl, hb⟩ := hbelow
      refine .inr ⟨n, rfl, ?_⟩
      rw [Line.target] at hb
      split_ifs at hb with hfirst
      · exact .inl hfirst
      · exact .inr hb
    · -- the target is outside, so it is as it was
      refine .inl (hacts.noticed ?_)
      have htarget : l.target s r = s.cur := by
        rw [Line.target]
        split_ifs with hfirst
        · cases r with
          | none => rfl
          | some n => exact absurd ⟨n, rfl, by rw [Line.target, if_pos hfirst]; exact .refl⟩ hbelow
        · rfl
      have hlive : f.live (l.target s r) = true := htarget ▸ (perform_some hrun).1
      cases r with
      | none => exact Still.kept hon _ hlive
      | some n => exact Confined.kept hon _ hlive fun hb => hbelow ⟨n, rfl, hb⟩
  · rintro (hidle | ⟨n, rfl, hfirst⟩)
    · have hstill := hacts.quiet hidle
      cases r with
      | none => exact hstill
      | some n => exact hstill.confined n
    · refine hacts.confined.mono ?_
      rw [Line.target]
      split_ifs with hnil
      · exact .refl
      · exact hfirst.resolve_left hnil

/-- `r` with the children `a` and `b`. -/
def twoOps : List Op :=
  [.new (ascii "r"), .new (ascii "a"), .new (ascii "b"), .insertBatch 0 [some 1, some 2] (-1)]

def twoKids : Forest := scriptResult distinctB 0 twoOps

theorem inv_twoKids : Inv twoKids :=
  inv_of_runs (runs_scriptResult distinct_of_distinctB twoOps (by decide))

/-- `rm a -c`, and `rm -c a`. -/
def clearAfter : Line := ⟨ascii "rm", [], ascii "a", [ascii "-c"], by simp, fun _ => by decide⟩

def clearBefore : Line := ⟨ascii "rm", [ascii "-c"], ascii "a", [], by simp; decide, fun h => by cases h⟩

theorem named_target_sample : ∃ f', perform 3 twoKids ⟨0, 0, []⟩ .rm clearAfter.args = some f' ∧
    OnNamed twoKids f' (some 1) := by
  have hret : (perform 3 twoKids ⟨0, 0, []⟩ .rm clearAfter.args).isSome = true := by decide
  obtain ⟨f', hrun⟩ := Option.isSome_iff_exists.mp hret
  exact ⟨f', hrun, (named_target_iff .rm clearAfter inv_twoKids (.inl (by decide)) (by decide) hrun).mpr
    (.inr ⟨1, rfl, .inl rfl⟩)⟩

/-- With the flag in front of the path, the children of the current node go, `a` among them. -/
theorem clears_current : ∃ f', perform 3 twoKids ⟨0, 0, []⟩ .rm clearBefore.args = some f' ∧
    (⟨0, 0, []⟩ : Session).resolve 3 twoKids clearBefore.path = some (some 1) ∧ f'.nodes 0 = [] ∧
    ¬ OnNamed twoKids f' (some 1) := by
  have hret : (perform 3 twoKids ⟨0, 0, []⟩ .rm clearBefore.args).any
      (fun f' => !f'.live 2 && f'.nodes 0 = []) = true := by decide
  obtain ⟨f', hrun, hdead⟩ := (Option.any_eq_true _ _).mp hret
  rw [Bool.and_eq_true, Bool.not_eq_true', decide_eq_true_eq] at hdead
  refine ⟨f', hrun, by decide, hdead.2, fun hon => ?_⟩
  have hroot : ∀ {p}, 0 ∉ twoKids.nodes p := fun {p} hmem => by
    have hpar := inv_twoKids.mem_iff.mpr hmem
    rw [show twoKids.parent 0 = none by decide] at hpar
    cases hpar
  have hnot : ¬ Below twoKids 1 2 := by
    intro hb
    cases hb with
    | step hb hmem =>
      have hpar := inv_twoKids.mem_iff.mpr hmem
      rw [show twoKids.parent 2 = some 0 by decide] at hpar
      cases hpar
      cases hb with
      | step _ hmem => exact hroot hmem
  have hsame := Confined.kept hon 2 (by decide) hnot
  rw [hsame.live] at hdead
  exact absurd hdead.1 (by decide)

end Perform

end Terminal

end VersatileEngine
