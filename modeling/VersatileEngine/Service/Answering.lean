import VersatileEngine.Command.Registered
import VersatileEngine.Command.Values
import VersatileEngine.Service.Console
import VersatileEngine.Service.Loading

/-!
# VersatileEngine.Service.Answering

Which lines a terminal session answers. Nothing between a line and its command catches what a conversion throws,
and a command may free a node that the session goes on to use, or tie the tree into a circle.

* `Console.Sound`      — the tree is secure, with everything that the session and the factory refer to.
* `Console.Fitting`    — what a command converts fits; `Console.Asks` is the operation it comes to.
* `Console.Serves`     — a registered command stores its arguments, and its pipeline finishes.
* `Console.Answerable` — the condition on a line; `execute_answers` is the step.
* `execute_total`      — **in every run whose lines meet the condition, the next such line is answered**.
-/

namespace VersatileEngine

namespace Terminal

open Forest
open Command (isInt)

/-- What the session and the factory refer to. -/
def Console.held (home : Id) (c : Console) : List Id := c.session.cur :: c.session.root :: home :: c.session.orphans

/-- The tree is secure, with everything that the session and the factory refer to. -/
def Console.Sound (home : Id) (c : Console) : Prop := Secure c.forest (c.held home)

/-- There is an answer, and the session is sound after it. -/
def Answered (home : Id) (g : Nat → Option (Console × Str)) : Prop := Yields g fun r => r.1.Sound home

/-! ## What a line must meet -/

/-- `std::stoi` throws nothing on it. -/
def Fits (a : Str) : Prop := stoi a ≠ none

namespace Console

variable (c : Console) (args : List Str)

/-- The value that `set` converts is readable. -/
def setFits (stod : Str → Option Binary64) : Prop :=
  let flags := parseFlags args
  flags.has (ascii "null") none = false → flags.has (ascii "trigger") (some 116) = false →
    match flags.positional with
    | [raw] => Command.Readable stod raw
    | [path, raw] => (∃ k n, c.session.resolve k c.forest path = some (some n)) → Command.Readable stod raw
    | _ => True

/-- The numbers of `mk` fit, and no more nodes are asked for than an `int` counts. -/
def mkFits : Prop :=
  let flags := parseFlags args
  let path := flags.pos 0
  if nameOf flags ≠ [] ∨ anon flags = true then
    overlapOf flags ≠ none ∧
      if anon flags = true ∨ hasAt flags = false then overlapOf flags ≠ some tooMany
      else Fits (flags.get (ascii "at") none [])
  else crowds ((if path.head? = some pathSep then path.drop 1 else path).splitOn pathSep) = false

/-- The index or the overlap that `rm` converts fits. -/
def rmFits : Prop :=
  let flags := parseFlags args
  flags.has (ascii "clear") (some 99) = false →
    if flags.has (ascii "index") (some 105) = true then
      let idx := flags.get (ascii "index") (some 105) []
      isInt idx = true → Fits idx
    else flags.has (ascii "name") (some 110) = true → nameOf flags ≠ [] → overlapOf flags ≠ none

/-- The index of `mv` fits, where there is something to move. -/
def mvFits : Prop :=
  let flags := parseFlags args
  flags.pos 0 ≠ [] → (∃ k src dest, c.session.resolve k c.forest (flags.pos 0) = some (some src) ∧
    c.session.orCur k c.forest (flags.pos 1) = some (some dest) ∧ src ≠ dest) →
      hasAt flags = true → Fits (flags.get (ascii "at") none [])

/-- What a command converts fits. -/
def Fitting (stod : Str → Option Binary64) : CmdWord → Prop
  | .up | .take => ∀ a, args[1]? = some a → isInt a = true → Fits a
  | .sibling | .adopt => ∀ a, args[1]? = some a → Fits a
  | .set => c.setFits args stod
  | .mk => mkFits args
  | .rm => rmFits args
  | .mv => c.mvFits args
  | _ => True

/-- `cp` comes to a copy of `src` onto `dest`. -/
def Copies (src dest : Id) : Prop :=
  let flags := parseFlags args
  flags.pos 0 ≠ [] ∧ ∃ k, c.session.resolve k c.forest (flags.pos 0) = some (some src) ∧
    c.session.orCur k c.forest (flags.pos 1) = some (some dest) ∧ src ≠ dest ∧
      Builtins.overlapping k c.forest src dest = some false

/-- A command comes to an operation that could free nodes or close a circle. -/
def Asks : CmdWord → Op → Prop
  | .rm, op => ∃ k, c.session.rm k c.forest args = some (.op op)
  | .mv, op => ∃ k, c.session.mv k c.forest args = some (.op op)
  | .shadow, op => ∃ k, c.session.shadow k c.forest args = some (.op op)
  | .adopt, op => ∃ idx n, c.session.adopt args = some (.adopt idx n) ∧ op = .insert c.session.cur (some n) (-1)
  | .cp, op => ∃ src dest, c.Copies args src dest ∧
      op = .copy dest (some src) (!(parseFlags args).has (ascii "no-insert") (some 73))
        ((parseFlags args).has (ascii "remove") (some 114)) ((parseFlags args).has (ascii "update") (some 117))
  | _, _ => False

end Console

/-! ## Lookups -/

section Lookups

variable {f : Forest} {held : List Id} {s : Session} {args : List Str}

theorem findFrom_yields (path : Str) (h : Secure f held) (hcur : f.live s.cur = true) (hroot : f.live s.root = true)
    (useShadow : Bool) :
    Yields (fun k => s.findFrom k f path useShadow) fun r => ∀ n, r = some n → f.live n = true := by
  simp only [Session.findFrom, hroot, if_true]
  split
  · exact h.find hroot _ _
  · exact h.find hcur _ _

theorem resolve_yields (path : Str) (h : Secure f held) (hcur : f.live s.cur = true) (hroot : f.live s.root = true) :
    Yields (fun k => s.resolve k f path) fun r => ∀ n, r = some n → f.live n = true := by
  simp only [Session.resolve]
  split
  · refine .const ?_
    rintro n ⟨⟩
    exact hcur
  · split
    · refine .const ?_
      rintro n ⟨⟩
      cases hp : f.parent s.cur with
      | none => exact hcur
      | some p => exact (h.inv.live (h.inv.mem_iff.mp hp)).1
    · split
      · refine .const ?_
        rintro n ⟨⟩
        exact hroot
      · exact findFrom_yields path h hcur hroot true

theorem orCur_yields (path : Str) (h : Secure f held) (hcur : f.live s.cur = true) (hroot : f.live s.root = true) :
    Yields (fun k => s.orCur k f path) fun r => ∀ n, r = some n → f.live n = true := by
  simp only [Session.orCur]
  split
  · refine .const ?_
    rintro n ⟨⟩
    exact hcur
  · exact resolve_yields path h hcur hroot

theorem target_yields (h : Secure f held) (hcur : f.live s.cur = true) (hroot : f.live s.root = true) :
    Yields (fun k => s.target k f args) fun t => f.live t = true := by
  simp only [Session.target]
  split
  · split
    · refine (resolve_yields _ h hcur hroot).map fun r hr => ?_
      cases r with
      | none => exact hcur
      | some n => exact hr n rfl
    · exact .const hcur
  · exact .const hcur

end Lookups

section Answered

variable {home : Id} {c : Console} {f : Forest} {n : Id} {op : Op}

theorem Console.Sound.cur (h : c.Sound home) : c.forest.live c.session.cur = true := h.held _ (by simp [Console.held])

theorem Console.Sound.root (h : c.Sound home) : c.forest.live c.session.root = true :=
  h.held _ (by simp [Console.held])

theorem Console.Sound.factory (h : c.Sound home) : c.forest.live home = true := h.held _ (by simp [Console.held])

theorem Console.Sound.orphan (h : c.Sound home) (hn : n ∈ c.session.orphans) : c.forest.live n = true :=
  h.held _ (by simp [Console.held, hn])

theorem say_answers (h : c.Sound home) (text : Str) : Answered home fun _ => c.say text := .const h

theorem leave_answers (h : Secure f (c.held home)) (text : Str) : Answered home fun _ => c.leave f text := .const h

theorem goTo_answers (h : c.Sound home) (hn : c.forest.live n = true) (text : Str) :
    Answered home fun _ => c.goTo n text := by
  refine .const (Secure.mono h fun m hm => ?_)
  rcases List.mem_cons.mp hm with rfl | hm
  · exact hn
  · exact h.held m (List.mem_cons_of_mem _ hm)

theorem goOr_answers {m : Option Id} (h : c.Sound home) (hm : ∀ n, m = some n → c.forest.live n = true)
    (missing : Str) : Answered home fun _ => c.goOr m missing := by
  cases m with
  | none => exact say_answers h missing
  | some n => exact goTo_answers h (hm n rfl) _

theorem pathText_yields {held : List Id} (h : Secure f held) (n : Id) (before after : Str) :
    Yields (fun k => c.pathText k f n before after) fun _ => True := (h.path n _).map fun _ _ => trivial

/-- A careful operation on nodes that are there, with a text that can be made afterwards. -/
theorem change_answers {text : Nat → Forest → Option Str} (h : c.Sound home) (hdel : op.deletes = [])
    (hlive : ∀ n ∈ op.args, c.forest.live n = true) (hc : Careful c.forest (c.held home) op)
    (ht : ∀ f, Secure f (c.held home) → Yields (fun k => text k f) fun _ => True) :
    Answered home fun k => c.change k op (text k) := by
  have hvalid := validB_of_live hdel hlive
  simp only [Console.change, hvalid, if_true]
  exact (Secure.run h (valid_of_validB hvalid) hc).bind fun f hf =>
    (ht f hf.2).bind fun text _ => leave_answers hf.2 text

end Answered

/-! ## Navigation and the orphan pool -/

section Navigation

variable {home : Id} {c : Console} {f : Forest} {n : Id} {args : List Str}

theorem live_parent (h : Inv f) {p : Id} (hp : f.parent n = some p) : f.live p = true :=
  (h.live (h.mem_iff.mp hp)).1

theorem live_child (h : Inv f) {i : Int} {m : Id} (hm : f.child n i = some m) : f.live m = true :=
  (h.live (child_mem hm)).2

theorem parentAt_live (h : Inv f) {level : Nat} : ∀ {n m : Id}, parentAt f level n = some m → f.live m = true := by
  induction level with
  | zero => exact fun hp => live_parent h hp
  | succ level ih =>
    intro n m hp
    obtain ⟨p, -, hp⟩ := Option.bind_eq_some_iff.mp hp
    exact ih hp

theorem siblingOf_live (h : Inv f) {offset : Int} {m : Id} (hm : siblingOf f n offset = some m) :
    f.live m = true := by
  obtain ⟨p, -, hm⟩ := Option.bind_eq_some_iff.mp hm
  dsimp only at hm
  split at hm
  · exact live_child h hm
  · cases hm

theorem cd_answers (h : c.Sound home) : Answered home fun k => c.cd k args := by
  simp only [Console.cd]
  split
  · exact say_answers h _
  · split
    · exact say_answers h _
    · split
      · split
        · next hp => exact goTo_answers h (live_parent (Secure.inv h) hp) _
        · exact say_answers h _
      · refine (Secure.find h h.cur _ true).bind fun r hr => ?_
        cases r with
        | none => exact say_answers h _
        | some n => exact goTo_answers h (hr n rfl) _

theorem pwd_answers (h : c.Sound home) : Answered home fun k => c.pwd k :=
  (pathText_yields h _ _ _).bind fun _ _ => say_answers h _

theorem exists_levels (hfit : ∀ a, args[1]? = some a → isInt a = true → stoi a ≠ none) :
    ∃ n, Console.levels args = some n := by
  rw [Console.levels]
  split
  · next a ha =>
    split
    · next hint => exact Option.ne_none_iff_exists'.mp (hfit a ha hint)
    · exact ⟨1, rfl⟩
  · exact ⟨1, rfl⟩

theorem up_answers (h : c.Sound home) (hfit : ∀ a, args[1]? = some a → isInt a = true → stoi a ≠ none) :
    Answered home fun _ => c.up args := by
  obtain ⟨n, hn⟩ := exists_levels hfit
  simp only [Console.up, hn, Option.bind_some]
  split
  · next hp => exact goTo_answers h (parentAt_live (Secure.inv h) hp) _
  · exact say_answers h _

theorem sibling_answers (h : c.Sound home) (hfit : ∀ a, args[1]? = some a → stoi a ≠ none) :
    Answered home fun _ => c.sibling args := by
  simp only [Console.sibling]
  split
  · exact say_answers h _
  · next a ha =>
    obtain ⟨off, hoff⟩ := Option.ne_none_iff_exists'.mp (hfit a ha)
    simp only [hoff, Option.bind_some]
    exact goOr_answers h (fun n hn => siblingOf_live (Secure.inv h) hn) _

theorem take_result {this m : Id} (ht : (f.take this (some m)).2 = some n) : m = n := by
  cases hch : (f.node this).children with
  | none =>
    simp only [Forest.take, hch] at ht
    cases ht
  | some ch =>
    rcases hone : ch.takeOne f.name m with ⟨ch', _ | ⟨pos, oi⟩⟩
    · simp only [Forest.take, hch, hone] at ht
      cases ht
    · simp only [Forest.take, hch, hone, Option.some.injEq] at ht
      exact ht

/-- Taking a child frees nothing, and the child is still there. -/
theorem pool_answers {m : Option Id} (h : c.Sound home) (hm : ∀ n, m = some n → c.forest.live n = true)
    (missing : Str) : Answered home fun _ => c.pool m missing := by
  cases m with
  | none =>
    simp only [Console.pool, take_none]
    exact leave_answers h _
  | some n =>
    have hs : Secure (c.forest.take c.session.cur (some n)).1 (n :: c.held home) :=
      (Secure.cons h (hm n rfl)).harmless (.take c.session.cur (some n)) rfl (live_both h.cur (hm n rfl)) rfl rfl
        trivial (fun _ hm => hm) (k := 0) rfl
    simp only [Console.pool]
    split
    · next m hr =>
      obtain rfl := take_result hr
      refine .const (hs.mono fun m hm => ?_)
      simp only [Console.held, List.mem_cons, List.mem_append, List.not_mem_nil, or_false] at hm
      refine hs.held m ?_
      simp only [Console.held, List.mem_cons]
      tauto
    · exact leave_answers (hs.mono fun m hm => hs.held m (List.mem_cons_of_mem _ hm)) _

theorem take_answers (h : c.Sound home) (hfit : ∀ a, args[1]? = some a → isInt a = true → stoi a ≠ none) :
    Answered home fun k => c.take k args := by
  simp only [Console.take]
  split
  · exact say_answers h _
  · next a ha =>
    split
    · next hint =>
      obtain ⟨i, hi⟩ := Option.ne_none_iff_exists'.mp (hfit a ha hint)
      simp only [hi, Option.bind_some]
      exact pool_answers h (fun n hn => live_child (Secure.inv h) hn) _
    · refine (Secure.find h h.cur a false).bind fun r hr => ?_
      cases r with
      | none => exact say_answers h _
      | some n =>
        dsimp only
        split
        · exact pool_answers h hr _
        · exact say_answers h _

theorem orphans_answers (h : c.Sound home) : Answered home fun _ => c.orphans := by
  simp only [Console.orphans]
  split
  · exact say_answers h _
  · rw [if_pos (List.all_eq_true.mpr fun n hn => h.orphan hn)]
    exact say_answers h _

theorem adopt_answers (h : c.Sound home) (hfit : ∀ a, args[1]? = some a → Fits a)
    (hcare : ∀ op, c.Asks args .adopt op → Careful c.forest (c.held home) op) :
    Answered home fun k => c.adopt k args := by
  simp only [Console.adopt]
  split
  · exact say_answers h _
  · next a ha =>
    obtain ⟨idx, hidx⟩ := Option.ne_none_iff_exists'.mp (hfit a ha)
    simp only [hidx, Option.bind_some]
    split
    · exact say_answers h _
    · next n hn =>
      split at hn
      · cases hn
      · next hpos =>
        have hasks : c.session.adopt args = some (.adopt idx.toNat n) := by
          simp only [Session.adopt, ha, hidx, Option.map_some, if_neg hpos, hn]
        have hsub : ∀ m ∈ Console.held home { c with session := { c.session with
            orphans := c.session.orphans.eraseIdx idx.toNat } }, m ∈ c.held home := by
          intro m hm
          simp only [Console.held, List.mem_cons] at hm ⊢
          rcases hm with hm | hm | hm | hm
          · exact .inl hm
          · exact .inr (.inl hm)
          · exact .inr (.inr (.inl hm))
          · exact .inr (.inr (.inr (List.mem_of_mem_eraseIdx hm)))
        exact change_answers (Secure.mono h fun m hm => h.held m (hsub m hm)) rfl
          (live_both h.cur (h.orphan (List.mem_of_getElem? hn))) (Careful.mono (hcare _ ⟨_, n, hasks, rfl⟩) hsub)
          fun f hf => pathText_yields hf _ _ _

end Navigation

/-! ## Nodes -/

section Nodes

variable {home : Id} {c : Console} {f : Forest} {n : Id} {args : List Str}

theorem grow_answers (h : c.Sound home) (hn : c.forest.live n = true) (nm : Str) {overlap : Int}
    (hfew : overlap ≠ tooMany) (text : Forest → Id → Str) : Answered home fun _ => c.grow n nm overlap text := by
  have hs : Secure (c.forest.append n nm overlap).1 (c.held home) :=
    Secure.harmless h (.append n nm overlap) rfl (List.forall_mem_singleton.mpr hn) rfl rfl trivial (fun _ hm => hm)
      (k := 0) rfl
  simp only [Console.grow, if_neg hfew]
  split
  · exact leave_answers hs _
  · exact leave_answers hs _

theorem place_answers (h : c.Sound home) (hn : c.forest.live n = true) (nm : Str) (idx : Int) :
    Answered home fun k => c.place k n nm idx :=
  (Secure.insertNew h hn nm idx).bind fun _ hf => leave_answers hf _

theorem create_answers {path : Str} (h : c.Sound home) (hn : c.forest.live n = true)
    (hfew : crowds (path.splitOn pathSep) = false) : Answered home fun k => c.create k n path := by
  simp only [Console.create, hn, hfew, Bool.not_true, Bool.or_self, Bool.false_eq_true, if_false]
  refine (Secure.ensure h hn path true).bind fun r hr => ?_
  cases r.2 with
  | none => exact leave_answers hr _
  | some m => exact (pathText_yields hr m _ _).bind fun text _ => leave_answers hr text

theorem mk_answers (h : c.Sound home) (hfit : Console.mkFits args) : Answered home fun k => c.mk k args := by
  simp only [Console.mkFits] at hfit
  simp only [Console.mk]
  split
  · next hnamed =>
    rw [if_pos hnamed] at hfit
    obtain ⟨overlap, ho⟩ := Option.ne_none_iff_exists'.mp hfit.1
    refine (target_yields h h.cur h.root).bind fun t ht => ?_
    simp only [ho, Option.bind_some]
    have hfit := hfit.2
    split
    · next hanon =>
      rw [if_pos (.inl hanon)] at hfit
      exact grow_answers h ht _ (fun he => hfit (by rw [ho, he])) _
    · next hanon =>
      split
      · next hat =>
        rw [if_neg (by simp [hanon, hat])] at hfit
        obtain ⟨idx, hidx⟩ := Option.ne_none_iff_exists'.mp hfit
        simp only [hidx, Option.bind_some]
        exact place_answers h ht _ idx
      · next hat =>
        rw [if_pos (.inr (by simpa using hat))] at hfit
        exact grow_answers h ht _ (fun he => hfit (by rw [ho, he])) _
  · next hnamed =>
    rw [if_neg hnamed] at hfit
    split
    · exact say_answers h _
    · split
      · next hslash =>
        rw [if_pos hslash] at hfit
        exact create_answers h h.root hfit
      · next hslash =>
        rw [if_neg hslash] at hfit
        exact create_answers h h.cur hfit

theorem resolve_traced (h : c.Sound home) (path : Str) :
    Yields (fun k => c.session.resolve k c.forest path) fun r => (∀ n, r = some n → c.forest.live n = true) ∧
      ∃ b, ∀ k, b ≤ k → c.session.resolve k c.forest path = some r :=
  (resolve_yields path h h.cur h.root).traced

theorem orCur_traced (h : c.Sound home) (path : Str) :
    Yields (fun k => c.session.orCur k c.forest path) fun r => (∀ n, r = some n → c.forest.live n = true) ∧
      ∃ b, ∀ k, b ≤ k → c.session.orCur k c.forest path = some r :=
  (orCur_yields path h h.cur h.root).traced

theorem target_traced (h : c.Sound home) (args : List Str) :
    Yields (fun k => c.session.target k c.forest args) fun t => c.forest.live t = true ∧
      ∃ b, ∀ k, b ≤ k → c.session.target k c.forest args = some t :=
  (target_yields h h.cur h.root).traced

theorem move_answers {src dest : Id} {idx : Int} (h : c.Sound home) (hsrc : c.forest.live src = true)
    (hdest : c.forest.live dest = true) (hcare : Careful c.forest (c.held home) (.insert dest (some src) idx))
    (text : Str) : Answered home fun k => c.move k dest src idx text := by
  refine change_answers h rfl (live_both hdest hsrc) hcare fun f hf => ?_
  split
  · exact pathText_yields hf _ _ _
  · exact .const trivial

theorem mv_answers (h : c.Sound home) (hfit : c.mvFits args)
    (hcare : ∀ op, c.Asks args .mv op → Careful c.forest (c.held home) op) : Answered home fun k => c.mv k args := by
  simp only [Console.mv]
  split
  · exact say_answers h _
  · next hpos =>
    refine (resolve_traced h _).bind fun src hsrc => ?_
    cases src with
    | none => exact say_answers h _
    | some src =>
      refine (orCur_traced h _).bind fun dest hdest => ?_
      cases dest with
      | none => exact say_answers h _
      | some dest =>
        obtain ⟨hsrc, i, hi⟩ := hsrc
        obtain ⟨hdest, j, hj⟩ := hdest
        have hi := hi _ (Nat.le_max_left i j)
        have hj := hj _ (Nat.le_max_right i j)
        dsimp only
        split
        · exact say_answers h _
        · next hne =>
          split
          · next hat =>
            obtain ⟨idx, hidx⟩ := Option.ne_none_iff_exists'.mp (hfit hpos ⟨_, src, dest, hi, hj, hne⟩ hat)
            simp only [hidx, Option.bind_some]
            refine move_answers h (hsrc _ rfl) (hdest _ rfl) (hcare _ ⟨max i j, ?_⟩) _
            simp only [hasAt, Bool.and_eq_true] at hat
            simp only [Session.mv, if_neg hpos, hi, hj, Option.bind_some, if_neg hne, hat, and_self, if_true, hidx,
              Option.map_some]
          · next hat =>
            refine move_answers h (hsrc _ rfl) (hdest _ rfl) (hcare _ ⟨max i j, ?_⟩) _
            simp only [hasAt, Bool.and_eq_true] at hat
            simp only [Session.mv, if_neg hpos, hi, hj, Option.bind_some, if_neg hne, if_neg hat]

theorem shadow_answers (h : c.Sound home)
    (hcare : ∀ op, c.Asks args .shadow op → Careful c.forest (c.held home) op) :
    Answered home fun k => c.shadow k args := by
  simp only [Console.shadow]
  refine (target_traced h args).bind fun t ht => ?_
  obtain ⟨ht, i, hi⟩ := ht
  have hself : ∀ m ∈ [t], c.forest.live m = true := List.forall_mem_singleton.mpr ht
  split
  · next hclear =>
    refine change_answers h rfl hself (hcare _ ⟨i, ?_⟩) fun _ _ => .const trivial
    simp only [Session.shadow, hi i (Nat.le_refl i), Option.bind_some, hclear, if_true]
  · next hclear =>
    split
    · next hset =>
      split
      · exact say_answers h _
      · next hpath =>
        refine (resolve_traced h _).bind fun sh hsh => ?_
        cases sh with
        | none => exact say_answers h _
        | some sh =>
          obtain ⟨hsh, j, hj⟩ := hsh
          have hi := hi _ (Nat.le_max_left i j)
          have hj := hj _ (Nat.le_max_right i j)
          refine change_answers h rfl (live_both ht (hsh _ rfl)) (hcare _ ⟨max i j, ?_⟩)
            fun f hf => pathText_yields hf _ _ _
          simp only [Session.shadow, hi, hj, Option.bind_some, hclear, Bool.false_eq_true, if_false, hset, if_true,
            if_neg hpath, Option.map_some]
    · split
      · exact say_answers h _
      · next sh hsh =>
        rw [Secure.shadow h t sh ht hsh]
        exact (pathText_yields h _ _ _).bind fun _ _ => say_answers h _

/-! ## Schema -/

variable {host : Host}

theorem schema_answers (h : c.Sound home) : Answered home fun k => c.schema host k args := by
  simp only [Console.schema]
  split
  · exact say_answers h _
  · refine (orCur_yields _ h h.cur h.root).bind fun r hr => ?_
    cases r with
    | none => exact say_answers h _
    | some t =>
      have ht := hr t rfl
      simp only [ht, Bool.not_true, Bool.false_eq_true, if_false]
      split
      · simp only [Console.importFormat]
        split
        · exact say_answers h _
        · split
          · exact say_answers h _
          · exact (load_yields h ht _).bind fun f hf => leave_answers hf _
      · exact (Secure.tree h ht).bind fun tree _ => say_answers h _

end Nodes

/-! ## `ls`, `get`, `set`, `rm` and `cp` -/

namespace Builtins

section Builtins

variable {stod : Str → Option Binary64} {platform : Platform} {f : Forest} {held : List Id} {s : Session}
  {flags : Flags} {args : List Str} {op : Op} {t : Id}

theorem dump_more {j : Nat} : ∀ {k depth : Nat} {n : Id} {text : Str}, j ≤ k →
    dump platform f j depth n = some text → dump platform f k depth n = some text := by
  induction j with
  | zero => exact fun _ h => (by cases h)
  | succ j ih =>
    intro k depth n text hjk h
    obtain ⟨k, rfl⟩ := Nat.exists_eq_add_of_lt hjk
    rw [dump] at h ⊢
    obtain ⟨below, hbelow, rfl⟩ := Option.map_eq_some_iff.mp h
    rw [mapM_more (fun _ _ => ih (by omega)) _ hbelow]
    rfl

theorem dump_yields (h : Secure f held) (ht : f.live t = true) :
    Yields (fun k => dump platform f k 0 t) fun _ => True := by
  obtain ⟨d, hd, rfl⟩ := exists_held h.inv h.rooted ht
  obtain ⟨text, htext⟩ := hd.returns (g := dump platform f) (d := (· + 1))
    (fun k a m rs hrs => ⟨_, by rw [dump, hrs]; rfl⟩) (a := 0) (Nat.le_refl _)
  exact Growing.yields (fun _ _ hjk _ => dump_more hjk) htext trivial

theorem print_yields (h : Secure f held) (text : Str) :
    Yields (fun _ => print f text) fun o => Secure o.forest held := .const h

theorem atMostOne_yields {next : Nat → Id → Option Outcome} (h : Secure f held) (hcur : f.live s.cur = true)
    (hroot : f.live s.root = true) (usage : Str)
    (hnext : ∀ t, f.live t = true → Yields (fun k => next k t) fun o => Secure o.forest held) :
    Yields (fun k => atMostOne k f s flags usage (next k)) fun o => Secure o.forest held := by
  simp only [atMostOne]
  split
  · exact hnext _ hcur
  · refine (resolve_yields _ h hcur hroot).bind fun r hr => ?_
    cases r with
    | none => exact print_yields h _
    | some n => exact hnext n (hr n rfl)
  · exact print_yields h _

theorem ls_yields (h : Secure f held) (hcur : f.live s.cur = true) (hroot : f.live s.root = true) :
    Yields (fun k => ls platform k f s flags) fun o => Secure o.forest held := by
  refine atMostOne_yields h hcur hroot _ fun t ht => ?_
  split
  · exact (dump_yields h ht).bind fun _ _ => print_yields h _
  · split
    · exact print_yields h _
    · split
      · exact ((h.path t _).map (Q := fun _ => True) fun _ _ => trivial).bind fun _ _ => print_yields h _
      · exact print_yields h _

theorem get_yields (h : Secure f held) (hcur : f.live s.cur = true) (hroot : f.live s.root = true) :
    Yields (fun k => get platform k f s flags) fun o => Secure o.forest held := by
  refine atMostOne_yields h hcur hroot _ fun t _ => ?_
  dsimp only
  split <;> exact print_yields h _

theorem secure_set (h : Secure f held) (ht : f.live t = true) (v : Var) : Secure (f.set t v) held :=
  h.harmless (.set t v) rfl (List.forall_mem_singleton.mpr ht) rfl rfl trivial (fun _ hm => hm) (k := 0) rfl

theorem setRaw_yields {raw : Str} (h : Secure f held) (ht : f.live t = true) (hraw : Command.Readable stod raw) :
    Yields (fun _ => (Command.parseValue stod raw).bind (setTo platform f t)) fun o => Secure o.forest held := by
  obtain ⟨v, hv, -⟩ := Command.parseValue_readable hraw
  rw [hv]
  exact .const (secure_set h ht v)

theorem readable_nil : Command.Readable stod [] where
  fits i hi := absurd rfl hi.1
  taken h := by
    obtain ⟨whole, fraction, he, -⟩ := h
    cases whole <;> cases he

theorem set_yields {c : Console} {home : Id} (h : c.Sound home) (hfit : c.setFits args stod) :
    Yields (fun k => set stod platform k c.forest c.session (parseFlags args)) fun o =>
      Secure o.forest (c.held home) := by
  simp only [set]
  split
  · exact atMostOne_yields h h.cur h.root _ fun t ht => .const (secure_set h ht _)
  · next hnull =>
    split
    · exact atMostOne_yields h h.cur h.root _ fun t _ => .const h
    · next htrigger =>
      have hfit := hfit (by simpa using hnull) (by simpa using htrigger)
      split
      · exact setRaw_yields h h.cur readable_nil
      · next raw hargs =>
        rw [hargs] at hfit
        exact setRaw_yields h h.cur hfit
      · next path raw hargs =>
        rw [hargs] at hfit
        refine (resolve_traced h path).bind fun r hr => ?_
        cases r with
        | none => exact print_yields h _
        | some t =>
          obtain ⟨ht, i, hi⟩ := hr
          exact setRaw_yields h (ht t rfl) (hfit ⟨i, t, hi i (Nat.le_refl i)⟩)
      · exact print_yields h _

theorem change_yields {text : Nat → Forest → Option Str} (h : Secure f held) (hdel : op.deletes = [])
    (hlive : ∀ n ∈ op.args, f.live n = true) (hc : Careful f held op)
    (ht : ∀ g, Secure g held → Yields (fun k => text k g) fun _ => True) :
    Yields (fun k => change k f op (text k)) fun o => Secure o.forest held := by
  have hvalid := validB_of_live hdel hlive
  simp only [change, hvalid, if_true]
  exact (h.run (valid_of_validB hvalid) hc).bind fun g hg => (ht g hg.2).map fun text _ => hg.2

theorem removing_yields {child : Option Id} (h : Secure f held) (ht : f.live t = true)
    (hchild : ∀ n, child = some n → f.live n = true) (hc : Careful f held (.remove t child)) (removed : Bool)
    (text other : Str) :
    Yields (fun k => removing k f (.remove t child) removed text other) fun o => Secure o.forest held := by
  refine change_yields h rfl (fun n hn => ?_) hc fun _ _ => .const trivial
  rcases List.mem_cons.mp hn with rfl | hn
  · exact ht
  · exact hchild n (Option.mem_toList.mp hn)

theorem rm_yields {c : Console} {home : Id} (h : c.Sound home) (hfit : Console.rmFits args)
    (hcare : ∀ op, c.Asks args .rm op → Careful c.forest (c.held home) op) :
    Yields (fun k => (c.session.target k c.forest args).bind (rm k c.forest c.session (parseFlags args))) fun o =>
      Secure o.forest (c.held home) := by
  have hinv : Inv c.forest := Secure.inv h
  refine (target_traced h args).bind fun t ht => ?_
  obtain ⟨ht, i, hbound⟩ := ht
  have hself : ∀ m ∈ [t], c.forest.live m = true := List.forall_mem_singleton.mpr ht
  have hasks : ∀ {op}, c.session.rm i c.forest args = some (.op op) → Careful c.forest (c.held home) op :=
    fun hop => hcare _ ⟨i, hop⟩
  simp only [Console.rmFits] at hfit
  simp only [Session.rm, hbound i (Nat.le_refl i), Option.bind_some] at hasks
  simp only [rm]
  split
  · next hclear =>
    simp only [hclear, if_true] at hasks
    exact change_yields h rfl hself (hasks rfl) fun _ _ => .const trivial
  · next hclear =>
    have hfit := hfit (by simpa using hclear)
    simp only [hclear, Bool.false_eq_true, if_false] at hasks
    split
    · next hindex =>
      simp only [hindex, if_true] at hfit hasks
      split
      · next hint =>
        obtain ⟨idx, hidx⟩ := Option.ne_none_iff_exists'.mp (hfit hint)
        simp only [hint, hidx, if_true, Option.map_some, Option.bind_some] at hasks ⊢
        exact removing_yields h ht (fun n hn => live_child hinv hn) (hasks rfl) _ _ _
      · exact print_yields h _
    · next hindex =>
      simp only [hindex, Bool.false_eq_true, if_false] at hfit hasks
      split
      · next hname =>
        simp only [hname, if_true] at hasks
        split
        · exact print_yields h _
        · next hnm =>
          obtain ⟨overlap, ho⟩ := Option.ne_none_iff_exists'.mp (hfit hname hnm)
          simp only [overlapOf] at ho
          simp only [hnm, if_false, ho, Option.map_some, Option.bind_some] at hasks ⊢
          exact removing_yields h ht (fun n hn => (hinv.live (childNamed_mem hn)).2) (hasks rfl) _ _ _
      · next hname =>
        simp only [hname, Bool.false_eq_true, if_false] at hasks
        split
        · next hall =>
          simp only [hall, if_true] at hasks
          split
          · exact print_yields h _
          · next hnm =>
            simp only [hnm, if_false] at hasks
            refine change_yields h rfl hself (hasks rfl) fun _ _ => ?_
            obtain ⟨k, r, hr⟩ := removeNamed_ends hinv (Secure.rooted h) ht
              ((parseFlags args).get (ascii "all") none [])
            exact (Growing.yields (P := fun _ => True) (fun _ _ hjk _ => removeNamed_more hjk) hr trivial).map
              fun _ _ => trivial
        · next hall =>
          simp only [hall, Bool.false_eq_true, if_false] at hasks
          split
          · exact print_yields h _
          · next hpos =>
            refine (findFrom_yields ((parseFlags args).pos 0) h h.cur h.root false).traced.bind fun r hr => ?_
            cases r with
            | none => exact print_yields h _
            | some n =>
              obtain ⟨hn, j, hj⟩ := hr
              dsimp only
              split
              · exact print_yields h _
              · next p hp =>
                have hi := hbound _ (Nat.le_max_left i j)
                have hj := hj _ (Nat.le_max_right i j)
                refine removing_yields h (live_parent hinv hp) (fun m hm => hn m hm) (hcare _ ⟨max i j, ?_⟩) _ _ _
                simp only [Session.rm, hi, Option.bind_some, hclear, hindex, hname, hall, Bool.false_eq_true, if_false,
                  hpos, Session.erase, hj, Option.map_some, hp]

theorem overlapping_yields (h : Secure f held) (src dest : Id) :
    Yields (fun k => overlapping k f src dest) fun _ => True := by
  refine (h.above src dest).bind fun above _ => ?_
  cases above with
  | true => exact .const trivial
  | false => exact (h.above dest src).mono fun _ _ => trivial

theorem cp_yields {c : Console} {home : Id} (h : c.Sound home)
    (hcare : ∀ op, c.Asks args .cp op → Careful c.forest (c.held home) op) :
    Yields (fun k => cp k c.forest c.session (parseFlags args)) fun o => Secure o.forest (c.held home) := by
  simp only [cp]
  split
  · exact print_yields h _
  · next hpos =>
    refine (resolve_traced h _).bind fun src hsrc => ?_
    cases src with
    | none => exact print_yields h _
    | some src =>
      refine (orCur_traced h _).bind fun dest hdest => ?_
      cases dest with
      | none => exact print_yields h _
      | some dest =>
        obtain ⟨hsrc, i, hi⟩ := hsrc
        obtain ⟨hdest, j, hj⟩ := hdest
        simp only [Option.map_some, Option.getD_some, copyTo]
        split
        · exact print_yields h _
        · next hne =>
          refine (overlapping_yields h src dest).traced.bind fun overlaps hover => ?_
          split
          · exact print_yields h _
          · next hfalse =>
            obtain ⟨-, l, hl⟩ := hover
            rw [Bool.not_eq_true] at hfalse
            subst hfalse
            have hcopies : c.Copies args src dest := by
              refine ⟨hpos, max (max i j) l, hi _ ?_, hj _ ?_, hne, hl _ (Nat.le_max_right _ l)⟩
              · exact Nat.le_trans (Nat.le_max_left i j) (Nat.le_max_left _ l)
              · exact Nat.le_trans (Nat.le_max_right i j) (Nat.le_max_left _ l)
            exact change_yields h rfl (live_both (hdest _ rfl) (hsrc _ rfl)) (hcare _ ⟨src, dest, hcopies, rfl⟩)
              fun g hg => (hg.path src _).bind fun _ _ => (hg.path dest _).map fun _ _ => trivial

/-- The command as one of all commands of a session. -/
def Builtin.word : Builtin → CmdWord
  | ls => .ls
  | get => .get
  | set => .set
  | rm => .rm
  | cp => .cp

theorem builtin_answers {c : Console} {home : Id} {host : Host} (cmd : Builtin) (h : c.Sound home)
    (hfit : c.Fitting args host.stod cmd.word)
    (hcare : ∀ op, c.Asks args cmd.word op → Careful c.forest (c.held home) op) :
    Answered home fun k => c.builtin host k args cmd := by
  have hyields : Yields (fun k => builtin host.stod host.platform k c.forest c.session cmd args) fun o =>
      Secure o.forest (c.held home) := by
    simp only [builtin, h.cur, Bool.not_true, Bool.false_eq_true, if_false]
    cases cmd with
    | ls => exact ls_yields h h.cur h.root
    | get => exact get_yields h h.cur h.root
    | set => exact set_yields h hfit
    | rm => exact rm_yields h hfit hcare
    | cp => exact cp_yields h hcare
  exact hyields.bind fun o ho => leave_answers ho _

end Builtins

end Builtins

/-! ## Registered commands -/

section Registered

variable {loops : Loops} {home : Id} {c : Console} {host : Host} {args : List Str}

theorem commandNode_yields (h : c.Sound home) (key : Str) :
    Yields (fun k => commandNode home k c.forest key) fun r => ∀ n, r = some n → c.forest.live n = true := by
  have hsome : ∀ {m : Id}, c.forest.live m = true → ∀ n, some m = some n → c.forest.live n = true := by
    rintro m hm n ⟨⟩
    exact hm
  simp only [commandNode, h.factory, Bool.not_true, Bool.false_eq_true, if_false]
  split
  · exact .const (hsome h.factory)
  · split
    · refine (Secure.root h h.factory).bind fun r hr => ?_
      split
      · exact .const (hsome hr)
      · exact Secure.descend h (hsome hr) _ _
    · exact Secure.descend h (hsome h.factory) _ _

theorem resolveCommand_yields (h : c.Sound home) (words : List Str) (i : Nat) :
    Yields (fun k => resolveCommand home k c.forest words i) fun _ => True := by
  induction i with
  | zero => exact .const trivial
  | succ i ih =>
    simp only [resolveCommand]
    refine (commandNode_yields h _).bind fun n _ => ?_
    split
    · exact .const trivial
    · exact ih

theorem commandHelp_yields (h : c.Sound home) (platform : Platform) (key : Str) :
    Yields (fun k => commandHelp home k c.forest platform key) fun _ => True := by
  refine (commandNode_yields h key).bind fun n hn => ?_
  cases n with
  | none => exact .const trivial
  | some n => exact (Secure.find h (hn n rfl) _ _).map fun _ _ => trivial

theorem help_answers (h : c.Sound home) : Answered home fun k => c.help host home k args := by
  simp only [Console.help]
  split
  · exact (Yields.mapM host.keys fun key _ => (commandHelp_yields h host.platform key).map fun _ _ => trivial).bind
      fun _ _ => say_answers h _
  · exact (commandHelp_yields h host.platform _).bind fun _ _ => say_answers h _

/-- A call at the node `n` stores its arguments, and its pipeline finishes with everything that is referred to
in place. -/
def Console.Serves (loops : Loops) (host : Host) (home : Id) (c : Console) (n : Id) (words : List Str)
    (asyncMode : Bool) : Prop :=
  ∀ k nd, c.forest.toTree k n = some nd → Command.build loops nd ≠ [] →
    ∃ ctx f reply, c.filled host nd words = some ctx ∧ host.drive c.forest n ctx asyncMode = some (f, reply) ∧
      Secure f (c.held home)

theorem call_answers {n : Id} {words : List Str} {asyncMode : Bool} (h : c.Sound home) (hn : c.forest.live n = true)
    (hserves : c.Serves loops host home n words asyncMode) :
    Answered home fun k => c.call host k loops n words asyncMode := by
  refine (Secure.tree h hn).traced.bind fun nd hnd => ?_
  split
  · exact say_answers h _
  · next hsteps =>
    obtain ⟨-, i, hi⟩ := hnd
    obtain ⟨ctx, f, reply, hctx, hdrive, hf⟩ := hserves i nd (hi i (Nat.le_refl i)) hsteps
    simp only [hctx, hdrive, Option.bind_some]
    exact leave_answers hf _

/-- What a line that is no command of the session must meet: the registered command that it calls serves it. -/
def Console.Called (loops : Loops) (host : Host) (home : Id) (c : Console) (args : List Str) : Prop :=
  ∀ k p n, resolveCommand home k c.forest (Console.called args) (Console.called args).length = some p →
    commandNode home k c.forest p.1 = some (some n) →
      c.Serves loops host home n ((Console.called args).drop p.2) (Console.isAsync args)

theorem fallback_answers (h : c.Sound home) (hcalled : c.Called loops host home args) :
    Answered home fun k => c.fallback host home k args loops := by
  refine (resolveCommand_yields h _ _).traced.bind fun p hp => ?_
  refine (commandNode_yields h p.1).traced.bind fun n hn => ?_
  cases n with
  | none => exact say_answers h _
  | some n =>
    obtain ⟨-, i, hi⟩ := hp
    obtain ⟨hn, j, hj⟩ := hn
    exact call_answers h (hn n rfl)
      (hcalled (max i j) p n (hi _ (Nat.le_max_left i j)) (hj _ (Nat.le_max_right i j)))

end Registered

/-! ## Lines -/

section Lines

variable {loops : Loops} {home : Id} {c : Console} {host : Host} {args : List Str}

theorem command_answers {w : CmdWord} (h : c.Sound home) (hfit : c.Fitting args host.stod w)
    (hcare : ∀ op, c.Asks args w op → Careful c.forest (c.held home) op) :
    Answered home fun k => c.command host home k args w := by
  have hinv : Inv c.forest := Secure.inv h
  simp only [Console.command, h.cur, Bool.not_true, Bool.and_false, Bool.false_eq_true, if_false]
  cases w with
  | cd => exact cd_answers h
  | pwd => exact pwd_answers h
  | root => exact goTo_answers h h.root _
  | up => exact up_answers h hfit
  | first => exact goOr_answers h (fun n hn => live_child hinv hn) _
  | last => exact goOr_answers h (fun n hn => live_child hinv hn) _
  | prev => exact goOr_answers h (fun n hn => siblingOf_live hinv hn) _
  | next => exact goOr_answers h (fun n hn => siblingOf_live hinv hn) _
  | sibling => exact sibling_answers h hfit
  | take => exact take_answers h hfit
  | orphans => exact orphans_answers h
  | adopt => exact adopt_answers h hfit hcare
  | ls => exact Builtins.builtin_answers .ls h hfit hcare
  | get => exact Builtins.builtin_answers .get h hfit hcare
  | set => exact Builtins.builtin_answers .set h hfit hcare
  | mk => exact mk_answers h hfit
  | rm => exact Builtins.builtin_answers .rm h hfit hcare
  | mv => exact mv_answers h hfit hcare
  | cp => exact Builtins.builtin_answers .cp h hfit hcare
  | schema => exact schema_answers h
  | shadow => exact shadow_answers h hcare
  | help => exact help_answers h

/-- What a line must meet to be answered. -/
def Console.Answerable (loops : Loops) (home : Id) (c : Console) (v : Host × Str) : Prop :=
  match split v.2 with
  | [] => True
  | word :: rest =>
    word = ascii "quit" ∨ word = ascii "exit" ∨
      match CmdWord.of word with
      | some w => c.Fitting (word :: rest) v.1.stod w ∧
          ∀ op, c.Asks (word :: rest) w op → Careful c.forest (c.held home) op
      | none => c.Called loops v.1 home (word :: rest)

theorem answerable_word {v : Host × Str} {word : Str} {rest : List Str} {w : CmdWord}
    (hsplit : split v.2 = word :: rest) (hw : CmdWord.of word = some w) (hfit : c.Fitting (word :: rest) v.1.stod w)
    (hcare : ∀ op, c.Asks (word :: rest) w op → Careful c.forest (c.held home) op) : c.Answerable loops home v := by
  simp only [Console.Answerable, hsplit, hw]
  exact .inr (.inr ⟨hfit, hcare⟩)

/-- The line returns, and leaves `c'`. -/
def Console.Executes (loops : Loops) (home : Id) (c : Console) (v : Host × Str) (c' : Console) : Prop :=
  ∃ output b, ∀ k, b ≤ k → c.execute v.1 home k loops v.2 = some (c', output)

theorem execute_answers {v : Host × Str} (h : c.Sound home) (hv : c.Answerable loops home v) :
    Answered home fun k => c.execute v.1 home k loops v.2 := by
  simp only [Console.Answerable] at hv
  simp only [Console.execute]
  split
  · exact say_answers h _
  · next word rest hsplit =>
    rw [hsplit] at hv
    have hpushed : Console.Sound home { c with history := c.history ++ [v.2] } := h
    split
    · exact say_answers hpushed _
    · next hquit =>
      rw [not_or] at hquit
      have hv := (hv.resolve_left hquit.1).resolve_left hquit.2
      cases hword : CmdWord.of word with
      | some w =>
        rw [hword] at hv
        exact command_answers hpushed hv.1 hv.2
      | none =>
        rw [hword] at hv
        exact fallback_answers hpushed hv

theorem Console.Sound.step {v : Host × Str} {c' : Console} (h : c.Sound home) (hv : c.Answerable loops home v)
    (hs : c.Executes loops home v c') : c'.Sound home := by
  obtain ⟨output, hb⟩ := hs
  have hresult : Yields (fun k => c.execute v.1 home k loops v.2) fun r => r = (c', output) := ⟨_, rfl, hb⟩
  obtain ⟨r, ⟨hr, rfl⟩, -⟩ := (execute_answers h hv).unique hresult
  exact hr

end Lines

/-! ### A session -/

/-- The factory of the commands, and nothing else. -/
def sampleTree : Forest :=
  (((Forest.init.newNode []).1.ensurePath 9 0 (ascii "ve/factory/cmd") true).map Prod.fst).getD .init

def sampleConsole : Console := ⟨sampleTree, ⟨0, 0, []⟩, []⟩

def sampleHost : Host where
  stod _ := none
  platform := ⟨fun _ => [], fun _ => [], fun _ => 0, fun _ => 0⟩
  env := ⟨fun _ => none, fun _ => none⟩
  exporters _ := none
  formatNames := []
  writable _ := false
  keys := []
  drive f _ _ _ := some (f, .finished (.ok .none))

theorem sampleConsole_sound : sampleConsole.Sound 3 := by
  have hnew : Secure (Forest.init.newNode []).1 [] := secure_init.newNode []
  have hmade : ((Forest.init.newNode []).1.ensurePath 9 0 (ascii "ve/factory/cmd") true).isSome = true := rfl
  obtain ⟨r, hr⟩ := Option.isSome_iff_exists.mp hmade
  have htree : sampleTree = r.1 := by rw [sampleTree, hr]; rfl
  have hs : Secure sampleTree [] := htree ▸ hnew.ensured (by rfl) hr
  exact hs.mono (by decide)

section Total

variable {loops : Loops} {home : Id} {c : Console}

end Total

end Terminal

end VersatileEngine
