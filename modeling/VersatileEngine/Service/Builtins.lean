import VersatileEngine.Service.Setting

/-!
# VersatileEngine.Service.Builtins

The commands `ls`, `get`, `set`, `rm` and `cp` of a terminal session, with what they print.

* `nodeSummary`, `varPreview`, `dump`, `names`, `long`, `listing` — the texts read off a node.
* `Outcome`   — the tree after a command, the node it triggered, and its output.
* `builtin`   — what one of the five does; no result where a lookup never ends, a conversion throws or a freed
  node is used.
* `rm_effect`, `set_effect` — the effects of `rm` and `set` are those of the other terminal modules.
-/

namespace VersatileEngine

namespace Terminal

open Command (isInt parseValue)

namespace Builtins

/-- The commands whose flags are told apart here. -/
inductive Builtin where
  | ls | get | set | rm | cp

structure Outcome where
  forest : Forest
  triggered : Option Id
  output : Str

/-! ## Texts -/

section Texts

variable (platform : Platform) (f : Forest)

def orAnon (nm : Str) : Str := if nm = [] then ascii "(anon)" else nm

def nodeSummary (n : Id) : Str := orAnon (f.name n)

def varTypeName : Var → Str
  | .none => ascii "Null"
  | .bool _ => ascii "Bool"
  | .int _ => ascii "Int"
  | .double _ => ascii "Double"
  | .string _ => ascii "String"
  | .bin _ => ascii "Bin"
  | .list _ => ascii "List"
  | .dict _ => ascii "Dict"
  | .pointer _ => ascii "Pointer"
  | .custom _ _ => ascii "Custom"
  | .callable _ => ascii "?"

def varPreview (v : Var) (maxLen : Nat) : Str :=
  let s := v.toString platform
  if maxLen < s.length then s.take (maxLen - 3) ++ ascii "..." else s

/-- `Node::dump`, with a bound on the depth. -/
def dump : Nat → Nat → Id → Option Str
  | 0, _, _ => none
  | k + 1, depth, t =>
    let key := match f.parent t with
      | some p => f.keyOf p (some t) (-1)
      | none => f.name t
    let value := if (f.value t).isNull then [] else ascii " = " ++ (f.value t).toString platform
    let shadow := match f.shadow t with
      | some sn => ascii "  -> " ++ f.name sn
      | none => []
    ((f.nodes t).mapM (dump k (depth + 1))).map fun below =>
      List.replicate (depth * 2) 32 ++ orAnon key ++ value ++ shadow ++ [10] ++ below.flatten

/-- `Node::childNames`: the names in the order in which they first appear. -/
def childNames (t : Id) : List Str := (((f.nodes t).map f.name).filter (· ≠ [])).eraseDups

def names (t : Id) : Str :=
  let anonCnt := ((f.nodes t).filter fun c => f.name c = []).length
  (if 0 < anonCnt then ascii "  (anon) x" ++ intChars anonCnt ++ ascii "\n" else []) ++
    (childNames f t).flatMap fun nm => ascii "  " ++ nm ++ ascii "\n"

def yesNo (b : Bool) : Str := if b then ascii "yes" else ascii "no"

def summaryOr (n : Option Id) : Str := (n.map (nodeSummary f)).getD (ascii "(none)")

def long (k : Nat) (root t : Id) : Option Str :=
  (f.path k t (some root)).map fun path =>
    let v := f.value t
    ascii "  name:      " ++ nodeSummary f t ++ ascii "\n" ++
    ascii "  path:      /" ++ path ++ ascii "\n" ++
    ascii "  parent:    " ++ summaryOr f (f.parent t) ++ ascii "\n" ++
    ascii "  children:  " ++ intChars (f.count t) ++ ascii "\n" ++
    ascii "  empty:     " ++ yesNo (f.count t = 0) ++ ascii "\n" ++
    ascii "  shadow:    " ++ summaryOr f (f.shadow t) ++ ascii "\n" ++
    (if v.isNull then ascii "  value:     (none)\n"
     else ascii "  value:     " ++ varPreview platform v 60 ++ ascii "\n" ++
      ascii "  type:      " ++ varTypeName v ++ ascii "\n") ++
    ascii "  watching:  " ++ yesNo (f.node t).watching ++ ascii "\n" ++
    ascii "  silent:    " ++ yesNo (f.node t).silent ++ ascii "\n"

/-- The line of the child `c` at position `i`. -/
def listLine (t : Id) (c : Id) (i : Nat) : Str :=
  let nm := nodeSummary f c
  let key := f.keyOf t (some c) (-1)
  let v := f.value c
  ascii "  [" ++ intChars i ++ ascii "] " ++ nm ++
    (if key ≠ nm ∧ key ≠ ascii "(anon)" then ascii "  (key: " ++ key ++ ascii ")" else []) ++
    (if v.isNull then [] else ascii "  = " ++ varPreview platform v 60) ++ ascii "\n"

def listing (t : Id) : Str :=
  let total := f.count t
  if total = 0 then ascii "  (empty)\n"
  else ((f.nodes t).zipIdx.flatMap fun p => listLine platform f t p.1 p.2) ++
    ascii "  (" ++ intChars total ++ ascii " total)\n"

/-- A value with its type. -/
def typed (v : Var) (maxLen : Nat) : Str :=
  varPreview platform v maxLen ++ ascii "  (" ++ varTypeName v ++ ascii ")\n"

end Texts

/-! ## Commands -/

section Commands

variable (stod : Str → Option Binary64) (platform : Platform) (k : Nat) (f : Forest) (s : Session) (flags : Flags)

def print (text : Str) : Option Outcome := some ⟨f, none, text⟩

def notFound (path : Str) : Option Outcome := print f (ascii "not found: " ++ path ++ ascii "\n")

/-- An operation on nodes that are there, and what is printed afterwards. -/
def change (op : Op) (text : Forest → Option Str) : Option Outcome :=
  if f.validB op then (f.run k op).bind fun g => (text g).map fun text => ⟨g, none, text⟩ else none

/-- The node of the only argument, or the current one without an argument. -/
def atMostOne (usage : Str) (next : Id → Option Outcome) : Option Outcome :=
  match flags.positional with
  | [] => next s.cur
  | [path] => (s.resolve k f path).bind fun t => (t.map next).getD (notFound f path)
  | _ => print f usage

def ls : Option Outcome :=
  atMostOne k f s flags (ascii "usage: ls [path] [-t] [-l] [-n]\n") fun t =>
    if flags.has (ascii "tree") (some 116) then (dump platform f k 0 t).bind (print f)
    else if flags.has (ascii "names") (some 110) then print f (names f t)
    else if flags.has (ascii "long") (some 108) then (long platform f k s.root t).bind (print f)
    else print f (listing platform f t)

def get : Option Outcome :=
  atMostOne k f s flags (ascii "usage: get [path] [-t]\n") fun t =>
    let v := f.value t
    if flags.has (ascii "type") (some 116) then
      print f (if v.isNull then ascii "(none)\n" else varTypeName v ++ ascii "\n")
    else print f (if v.isNull then ascii "(none)\n" else typed platform v 256)

/-- `t->set(v)` and the value that is there then. -/
def setTo (t : Id) (v : Var) : Option Outcome :=
  some ⟨f.set t v, none, ascii "set: " ++ typed platform ((f.set t v).value t) 60⟩

def set : Option Outcome :=
  if flags.has (ascii "null") none then
    atMostOne k f s flags (ascii "usage: set [path] --null\n") fun t =>
      some ⟨f.set t .none, none, ascii "value cleared\n"⟩
  else if flags.has (ascii "trigger") (some 116) then
    atMostOne k f s flags (ascii "usage: set [path] --trigger\n") fun t =>
      some ⟨f, some t, ascii "triggered: " ++ nodeSummary f t ++ ascii "\n"⟩
  else
    match flags.positional with
    | [] => (parseValue stod []).bind (setTo platform f s.cur)
    | [raw] => (parseValue stod raw).bind (setTo platform f s.cur)
    | [path, raw] => (s.resolve k f path).bind fun t =>
        (t.map fun t => (parseValue stod raw).bind (setTo platform f t)).getD (notFound f path)
    | _ => print f (ascii "usage: set [path] [value] [--null] [--trigger/-t]\n")

/-- A removal, with the texts for a child that was there and one that was not. -/
def removing (op : Op) (removed : Bool) (text other : Str) : Option Outcome :=
  change k f op fun _ => some (if removed then text else other)

/-- `rm`, on the target `t`. -/
def rm (t : Id) : Option Outcome :=
  if flags.has (ascii "clear") (some 99) then
    change k f (.clear t true) fun _ =>
      some (ascii "cleared " ++ intChars (f.count t) ++ ascii " children\n")
  else if flags.has (ascii "index") (some 105) then
    let idxStr := flags.get (ascii "index") (some 105) []
    if isInt idxStr then
      (stoi idxStr).bind fun idx =>
        removing k f (.remove t (f.child t idx)) (f.take t (f.child t idx)).2.isSome
          (ascii "removed [" ++ intChars idx ++ ascii "]\n")
          (ascii "no child at index " ++ intChars idx ++ ascii "\n")
    else print f (ascii "usage: rm -i <index>\n")
  else if flags.has (ascii "name") (some 110) then
    let nm := flags.get (ascii "name") (some 110) []
    let ovStr := flags.get (ascii "overlap") (some 111) (ascii "0")
    if nm = [] then print f (ascii "usage: rm -n <name> [-o N]\n")
    else (if isInt ovStr then stoi ovStr else some 0).bind fun overlap =>
      removing k f (.remove t (f.childNamed t nm overlap)) (f.take t (f.childNamed t nm overlap)).2.isSome
        (ascii "removed '" ++ nm ++ ascii "'\n")
        (ascii "no child '" ++ nm ++ ascii "' overlap " ++ intChars overlap ++ ascii "\n")
  else if flags.has (ascii "all") none then
    let nm := flags.get (ascii "all") none []
    if nm = [] then print f (ascii "usage: rm --all <name>\n")
    else change k f (.removeNamed t nm) fun _ => (f.removeNamed k t nm).map fun r =>
      ascii "removed " ++ intChars (if r.2 then 1 else 0) ++ ascii " children named '" ++ nm ++ ascii "'\n"
  else
    let childPath := flags.pos 0
    let failed := ascii "failed (not found or is root)\n"
    if childPath = [] then
      print f (ascii "usage: rm [path] <target> | rm -i IDX | rm -n NAME [-o N] | rm --all NAME | rm -c\n")
    else (s.findFrom k f childPath false).bind fun t =>
      match t with
      | none => print f failed
      | some t =>
        match f.parent t with
        | none => print f failed
        | some p => removing k f (.remove p (some t)) (f.take p (some t)).2.isSome (ascii "removed\n") failed

def onOff (b : Bool) : Str := if b then ascii "on" else ascii "off"

/-- `src->isAncestorOf(dest) || dest->isAncestorOf(src)`. -/
def overlapping (src dest : Id) : Option Bool :=
  (f.isAncestorOf src k dest).bind fun above => if above then some true else f.isAncestorOf dest k src

def copyTo (src dest : Id) : Option Outcome :=
  if src = dest then print f (ascii "cannot copy node onto itself\n")
  else (overlapping k f src dest).bind fun overlaps =>
    if overlaps then print f (ascii "cannot copy between overlapping subtrees\n")
    else
      let ai := !flags.has (ascii "no-insert") (some 73)
      let ar := flags.has (ascii "remove") (some 114)
      let au := flags.has (ascii "update") (some 117)
      change k f (.copy dest (some src) ai ar au) fun g =>
        (g.path k src (some s.root)).bind fun srcPath =>
          (g.path k dest (some s.root)).map fun destPath =>
            ascii "copied /" ++ srcPath ++ ascii " -> /" ++ destPath ++ ascii "  (insert:" ++ onOff ai ++
              ascii ", remove:" ++ onOff ar ++ ascii ", update:" ++ onOff au ++ ascii ")\n"

def cp : Option Outcome :=
  let srcPath := flags.pos 0
  if srcPath = [] then print f (ascii "usage: cp <src> [dest] [-r] [-u] [-I]\n")
  else (s.resolve k f srcPath).bind fun src =>
    match src with
    | none => notFound f srcPath
    | some src =>
      let destPath := flags.pos 1
      (s.orCur k f destPath).bind fun dest =>
        (dest.map (copyTo k f s flags src)).getD (print f (ascii "dest not found: " ++ destPath ++ ascii "\n"))

/-- The command `cmd` with its arguments, the command itself among them. -/
def builtin (cmd : Builtin) (args : List Str) : Option Outcome :=
  if !f.live s.cur then none
  else
    let flags := parseFlags args
    match cmd with
    | .ls => ls platform k f s flags
    | .get => get platform k f s flags
    | .set => set stod platform k f s flags
    | .rm => (s.target k f args).bind (rm k f s flags)
    | .cp => cp k f s flags

end Commands

/-! ## Effects -/

def effectOf (f : Forest) : SetEffect → Forest × Option Id
  | .print => (f, none)
  | .set t v => (f.set t v, none)
  | .trigger t => (f, some t)

section Effects

variable {stod : Str → Option Binary64} {platform : Platform} {k : Nat} {f : Forest} {s : Session}
  {args : List Str}

theorem change_forest (op : Op) {text : Forest → Option Str}
    (htext : ∀ g, f.run k op = some g → (text g).isSome = true) :
    (change k f op text).map Outcome.forest = ((Effect.op op).apply k f s).map Prod.fst := by
  simp only [change, Effect.apply]
  split_ifs
  · cases hrun : f.run k op with
    | none => rfl
    | some g =>
      obtain ⟨out, hout⟩ := Option.isSome_iff_exists.1 (htext g hrun)
      simp [hout]
  · rfl

theorem removing_forest (op : Op) (removed : Bool) (text other : Str) :
    (removing k f op removed text other).map Outcome.forest = ((Effect.op op).apply k f s).map Prod.fst :=
  change_forest op fun _ _ => rfl

/-- The tree after `rm` is that of its effect. -/
theorem rm_effect : ((s.target k f args).bind (rm k f s (parseFlags args))).map Outcome.forest =
    (s.rm k f args).bind fun e => (e.apply k f s).map Prod.fst := by
  simp only [Session.rm]
  cases s.target k f args with
  | none => rfl
  | some t =>
    simp only [Option.bind_some, rm]
    split_ifs
    · exact change_forest _ fun _ _ => rfl
    · cases stoi ((parseFlags args).get (ascii "index") (some 105) []) with
      | none => rfl
      | some idx => exact removing_forest _ _ _ _
    · rfl
    · rfl
    · cases stoi ((parseFlags args).get (ascii "overlap") (some 111) (ascii "0")) with
      | none => rfl
      | some overlap => exact removing_forest _ _ _ _
    · exact removing_forest _ _ _ _
    · rfl
    · refine change_forest _ fun g hrun => ?_
      obtain ⟨r, hr, -⟩ := Option.map_eq_some_iff.mp (show (f.removeNamed k t _).map Prod.fst = some g from hrun)
      simp [hr]
    · rfl
    · simp only [Session.erase]
      cases s.findFrom k f ((parseFlags args).pos 0) false with
      | none => rfl
      | some n =>
        cases n with
        | none => rfl
        | some n =>
          simp only [Option.bind_some, Option.map_some]
          cases f.parent n with
          | none => rfl
          | some p => exact removing_forest _ _ _ _

theorem atMostOne_effect {flags : Flags} {usage : Str} {next : Id → Option Outcome} {effect : Id → SetEffect}
    (hnext : ∀ t, (next t).map (fun o => (o.forest, o.triggered)) = some (effectOf f (effect t))) :
    (atMostOne k f s flags usage next).map (fun o => (o.forest, o.triggered)) =
      (s.setTarget k f flags effect).map (effectOf f) := by
  simp only [atMostOne, Session.setTarget]
  rcases flags.positional with _ | ⟨path, _ | ⟨raw, rest⟩⟩
  · exact hnext s.cur
  · simp only
    cases s.resolve k f path with
    | none => rfl
    | some t =>
      cases t with
      | none => rfl
      | some t => exact hnext t
  · rfl

/-- The tree and the trigger after `set` are those of its effect. -/
theorem set_effect : (set stod platform k f s (parseFlags args)).map (fun o => (o.forest, o.triggered)) =
    (s.set stod k f args).map (effectOf f) := by
  have hset : ∀ t raw, ((parseValue stod raw).bind (setTo platform f t)).map (fun o => (o.forest, o.triggered)) =
      ((parseValue stod raw).map (SetEffect.set t)).map (effectOf f) := by
    intro t raw
    cases parseValue stod raw <;> rfl
  simp only [set, Session.set]
  split_ifs
  · exact atMostOne_effect fun _ => rfl
  · exact atMostOne_effect fun _ => rfl
  rcases (parseFlags args).positional with _ | ⟨path, _ | ⟨raw, _ | ⟨other, rest⟩⟩⟩
  · exact hset _ _
  · exact hset _ _
  · simp only
    cases s.resolve k f path with
    | none => rfl
    | some t =>
      cases t with
      | none => rfl
      | some t => exact hset t raw
  · rfl

end Effects

end Builtins

end Terminal

end VersatileEngine
