import VersatileEngine.Command.Input
import VersatileEngine.Command.Registry
import VersatileEngine.Service.Builtins
import VersatileEngine.Service.Targets
import VersatileEngine.Service.Tokens

/-!
# VersatileEngine.Service.Console

`TerminalSession::execute`: any line of text, with all commands of a session and what they print.

* `Host`     — what a line uses from outside: files, formats, the pipelines of registered commands.
* `Console`  — the tree, the session and its history.
* `CmdWord`     — the commands of a session; `command` runs one of them.
* `fallback` — any other line: the longest registered command, on the words that are left.
* `execute`  — a line.

There is no result where a conversion throws, where a lookup never ends, where a freed node is used, and where
more nodes are asked for than an `int` counts.
-/

namespace VersatileEngine

namespace Terminal

open Command (isInt helpName)
open Builtins (Builtin nodeSummary)

/-- What a pipeline comes to: it goes on by itself, or it has a last result. -/
inductive PipeReply where
  | detached
  | finished (r : Result)

/-- What a line uses from outside. `drive` is a pipeline with the steps of a command's node, on a filled
context; no result when it never finishes or an exception leaves it. -/
structure Host where
  stod : Str → Option Binary64
  platform : Platform
  env : Env
  exporters : Str → Option (Tree → Str)
  formatNames : List Str
  writable : Str → Bool
  keys : List Str
  drive : Forest → Id → Tree → Bool → Option (Forest × PipeReply)

structure Console where of ::
  forest : Forest
  session : Session
  history : List Str

/-- The commands of a session. -/
inductive CmdWord where
  | cd | pwd | root | up | first | last | prev | next | sibling | take | orphans | adopt | ls | get | set | mk
  | rm | mv | cp | schema | shadow | help

namespace CmdWord

def names : List (Str × CmdWord) :=
  [(ascii "cd", cd), (ascii "pwd", pwd), (ascii "root", root), (ascii "up", up), (ascii "first", first),
    (ascii "last", last), (ascii "prev", prev), (ascii "next", next), (ascii "sibling", sibling),
    (ascii "take", take), (ascii "orphans", orphans), (ascii "adopt", adopt), (ascii "ls", ls),
    (ascii "get", get), (ascii "g", get), (ascii "set", set), (ascii "s", set), (ascii "mk", mk),
    (ascii "rm", rm), (ascii "mv", mv), (ascii "cp", cp), (ascii "schema", schema), (ascii "shadow", shadow),
    (ascii "help", help)]

/-- `cmds.find(word)`. -/
def of (word : Str) : Option CmdWord := names.lookup word

/-- The commands that do not look at the current node. -/
def free : CmdWord → Bool
  | root | orphans | help => true
  | _ => false

end CmdWord

/-- `INT_MAX`: room for one node more is asked for, and reserving it throws. -/
def tooMany : Int := 2147483647

/-- The loop of `at` comes to a key with the index `tooMany`. -/
def crowds : List Str → Bool
  | [] => false
  | seg :: segs =>
    if seg = [] then crowds segs
    else
      match parseKey keySep seg with
      | none => false
      | some (_, idx) => idx = tooMany || crowds segs

/-- `Node::parent(level)`. -/
def parentAt (f : Forest) : Nat → Id → Option Id
  | 0, n => f.parent n
  | level + 1, n => (f.parent n).bind (parentAt f level)

/-- `Node::sibling(offset)`. -/
def siblingOf (f : Forest) (n : Id) (offset : Int) : Option Id :=
  (f.parent n).bind fun p =>
    let i := f.indexOf p (some n) (-1) + offset
    if 0 ≤ i then f.child p i else none

/-- `n - 1` of an `int`. -/
def minusOne (n : Int) : Int := if n = -2147483648 then 2147483647 else n - 1

/-! ## Registered commands -/

section Registered

variable (home : Id) (k : Nat) (f : Forest)

/-- `factory().node(key)`, without creating anything; the keys are separated by dots. -/
def commandNode (key : Str) : Option (Option Id) :=
  if !f.live home then none
  else
    match key with
    | [] => some (some home)
    | c :: rest =>
      if c = 46 then
        (f.root k home).bind fun r => if rest = [] then some (some r) else f.descend k false (some r) (rest.splitOn 46)
      else f.descend k false (some home) ((c :: rest).splitOn 46)

/-- `resolveCommand`, on the first `i` words. -/
def resolveCommand (words : List Str) : Nat → Option (Str × Nat)
  | 0 => some ([], 0)
  | i + 1 =>
    let candidate := [46].intercalate (words.take (i + 1))
    (commandNode home k f candidate).bind fun n =>
      if n.isSome then some (candidate, i + 1) else resolveCommand words i

/-- `command::help(key)`. -/
def commandHelp (platform : Platform) (key : Str) : Option Str :=
  (commandNode home k f key).bind fun n =>
    match n with
    | none => some (Var.toString platform .none)
    | some n => (f.atPath k n helpName true).map fun h => ((h.map f.value).getD .none).toString platform

end Registered

namespace Console

variable (host : Host) (home : Id) (k : Nat) (c : Console) (args : List Str)

/-! ## What a command leaves -/

def say (text : Str) : Option (Console × Str) := some (c, text)

def notFound (path : Str) : Option (Console × Str) := c.say (ascii "not found: " ++ path ++ ascii "\n")

def goTo (n : Id) (text : Str) : Option (Console × Str) :=
  some ({ c with session := { c.session with cur := n } }, text)

/-- To a node that may be missing. -/
def goOr (n : Option Id) (missing : Str) : Option (Console × Str) :=
  match n with
  | some n => c.goTo n (ascii "-> " ++ nodeSummary c.forest n ++ ascii "\n")
  | none => c.say missing

def leave (f : Forest) (text : Str) : Option (Console × Str) := some ({ c with forest := f }, text)

/-- An operation on nodes that are there, and what is printed afterwards. -/
def change (op : Op) (text : Forest → Option Str) : Option (Console × Str) :=
  if c.forest.validB op then (c.forest.run k op).bind fun f => (text f).bind (c.leave f) else none

/-- `n->path(root)`, between two texts. -/
def pathText (f : Forest) (n : Id) (before after : Str) : Option Str :=
  (f.path k n (some c.session.root)).map fun p => before ++ p ++ after

/-! ## Navigation -/

def cd : Option (Console × Str) :=
  match args[1]? with
  | none => c.say (ascii "usage: cd <path>\n")
  | some path =>
    if path = ascii "." then c.say []
    else if path = ascii ".." then
      match c.forest.parent c.session.cur with
      | some p => c.goTo p []
      | none => c.say (ascii "already at root\n")
    else
      (c.forest.atPath k c.session.cur path true).bind fun n =>
        match n with
        | some n => c.goTo n []
        | none => c.notFound path

def pwd : Option (Console × Str) :=
  (c.pathText k c.forest c.session.cur (ascii "/") (ascii "\n")).bind c.say

/-- How many levels `up` goes. -/
def levels : Option Int :=
  match args[1]? with
  | some a => if isInt a then stoi a else some 1
  | none => some 1

def up : Option (Console × Str) :=
  (levels args).bind fun n =>
    match parentAt c.forest (minusOne n).toNat c.session.cur with
    | some p => c.goTo p []
    | none => c.say (ascii "cannot go up " ++ intChars n ++ ascii " levels\n")

def sibling : Option (Console × Str) :=
  match args[1]? with
  | none => c.say (ascii "usage: sibling <offset>\n")
  | some a =>
    (stoi a).bind fun off =>
      c.goOr (siblingOf c.forest c.session.cur off) (ascii "no sibling at offset " ++ intChars off ++ ascii "\n")

/-! ## Orphan pool -/

/-- `s.cur->take(child)`, into the pool. -/
def pool (child : Option Id) (missing : Str) : Option (Console × Str) :=
  let r := c.forest.take c.session.cur child
  match r.2 with
  | some n =>
    some (⟨r.1, { c.session with orphans := c.session.orphans ++ [n] }, c.history⟩,
      ascii "taken: " ++ nodeSummary r.1 n ++ ascii " -> orphan pool [" ++ intChars c.session.orphans.length ++
        ascii "]\n")
  | none => c.leave r.1 missing

def take : Option (Console × Str) :=
  match args[1]? with
  | none => c.say (ascii "usage: take <index|path>\n")
  | some a =>
    if isInt a then
      (stoi a).bind fun i =>
        c.pool (c.forest.child c.session.cur i) (ascii "no child at index " ++ a ++ ascii "\n")
    else
      (c.forest.atPath k c.session.cur a false).bind fun n =>
        match n with
        | some n =>
          if c.forest.parent n = some c.session.cur then c.pool (some n) [] else c.say (ascii "not a direct child\n")
        | none => c.notFound a

/-- The line of an orphan. -/
def orphanLine (p : Id × Nat) : Str :=
  ascii "  [" ++ intChars p.2 ++ ascii "] " ++ nodeSummary c.forest p.1 ++ ascii " (" ++
    intChars (c.forest.count p.1) ++ ascii " children)\n"

def orphans : Option (Console × Str) :=
  if c.session.orphans = [] then c.say (ascii "(empty)\n")
  else if c.session.orphans.all c.forest.live then c.say (c.session.orphans.zipIdx.flatMap c.orphanLine)
  else none

def adopt : Option (Console × Str) :=
  match args[1]? with
  | none => c.say (ascii "usage: adopt <orphan_index>\n")
  | some a =>
    (stoi a).bind fun (idx : Int) =>
      match if idx < 0 then none else c.session.orphans[idx.toNat]? with
      | none => c.say (ascii "invalid orphan index\n")
      | some n =>
        { c with session := { c.session with orphans := c.session.orphans.eraseIdx idx.toNat } }.change k
          (.insert c.session.cur (some n) (-1)) fun f => c.pathText k f n (ascii "adopted: ") (ascii "\n")

/-! ## Node operations -/

/-- `ls`, `get`, `set`, `rm` and `cp`. -/
def builtin (cmd : Builtin) : Option (Console × Str) :=
  (Builtins.builtin host.stod host.platform k c.forest c.session cmd args).bind fun o => c.leave o.forest o.output

/-- `t->append(name, overlap)`, which reserves room for all nodes first. -/
def grow (t : Id) (nm : Str) (overlap : Int) (text : Forest → Id → Str) : Option (Console × Str) :=
  if overlap = tooMany then none
  else
    let r := c.forest.append t nm overlap
    match r.2 with
    | some n => c.leave r.1 (text r.1 n)
    | none => c.leave r.1 (ascii "failed\n")

def place (t : Id) (nm : Str) (idx : Int) : Option (Console × Str) :=
  let placed := ((c.forest.newNode nm).1.insert t (some c.forest.next) idx).2
  (c.forest.insertNew k t nm idx).bind fun f =>
    c.leave f (if placed then ascii "inserted '" ++ nm ++ ascii "' at [" ++ intChars idx ++ ascii "]\n"
      else ascii "insert failed\n")

def create (base : Id) (path : Str) : Option (Console × Str) :=
  if !c.forest.live base || crowds (path.splitOn pathSep) then none
  else
    (c.forest.ensurePath k base path true).bind fun r =>
      match r.2 with
      | some n => (c.pathText k r.1 n (ascii "created: /") (ascii "\n")).bind (c.leave r.1)
      | none => c.leave r.1 (ascii "failed\n")

def mk : Option (Console × Str) :=
  let flags := parseFlags args
  let nm := nameOf flags
  if nm ≠ [] ∨ anon flags = true then
    (c.session.target k c.forest args).bind fun t =>
      (overlapOf flags).bind fun overlap =>
        if anon flags then
          c.grow t [] overlap fun f n =>
            ascii "appended " ++ intChars (1 + overlap) ++ ascii " anon -> index: " ++
              intChars (f.indexOf t (some n) (-1)) ++ ascii "\n"
        else if hasAt flags then (stoi (flags.get (ascii "at") none [])).bind (c.place k t nm)
        else
          c.grow t nm overlap fun f n =>
            ascii "appended " ++ intChars (1 + overlap) ++ ascii " '" ++ nm ++ ascii "' -> last: " ++
              f.keyOf t (some n) (-1) ++ ascii "\n"
  else
    let path := flags.pos 0
    if path = [] then c.say (ascii "usage: mk <path> | mk -n <name> [-o N] [-a] [--at IDX]\n")
    else if path.head? = some pathSep then c.create k c.session.root (path.drop 1)
    else c.create k c.session.cur path

/-- `dest->insert(src, idx)`. -/
def move (dest src : Id) (idx : Int) (text : Str) : Option (Console × Str) :=
  c.change k (.insert dest (some src) idx) fun f =>
    if (c.forest.insert dest (some src) idx).2 then c.pathText k f src text (ascii "\n")
    else some (ascii "insert failed\n")

def mv : Option (Console × Str) :=
  let flags := parseFlags args
  let srcPath := flags.pos 0
  if srcPath = [] then c.say (ascii "usage: mv <src> [dest] [--at INDEX]\n")
  else
    (c.session.resolve k c.forest srcPath).bind fun src =>
      match src with
      | none => c.notFound srcPath
      | some src =>
        let destPath := flags.pos 1
        (c.session.orCur k c.forest destPath).bind fun dest =>
          match dest with
          | none => c.say (ascii "dest not found: " ++ destPath ++ ascii "\n")
          | some dest =>
            if src = dest then c.say (ascii "cannot move node into itself\n")
            else if hasAt flags then
              (stoi (flags.get (ascii "at") none [])).bind fun idx =>
                c.move k dest src idx (ascii "moved to [" ++ intChars idx ++ ascii "] ")
            else c.move k dest src (-1) (ascii "moved to ")

/-! ## Schema -/

/-- The `bool` that an importer returns. -/
def imported (content : Str) : Importer → Bool
  | .parsed parse => (parse content).isSome
  | .direct => content ≠ []

def importFormat (t : Id) (format file given : Str) : Option (Console × Str) :=
  match if file ≠ [] then host.env.files file else if given ≠ [] then some given else none with
  | none =>
    c.say (if file ≠ [] then ascii "cannot read: " ++ file ++ ascii "\n"
      else ascii "usage: schema " ++ format ++ ascii " -i <content> | -i -f <file>\n")
  | some content =>
    let failed := ascii "import failed (invalid " ++ format ++ ascii ")\n"
    match host.env.formats format with
    | none => c.say failed
    | some importer =>
      (Terminal.load k c.forest t content importer).bind fun f =>
        c.leave f (if !imported content importer then failed
          else if file = [] then ascii "imported\n" else ascii "imported from " ++ file ++ ascii "\n")

/-- The digits of the bytes in pairs, sixteen pairs a line. -/
def hexDump (i : Nat) : Str → Str
  | a :: b :: rest =>
    (if i = 0 then [] else if i % 16 = 0 then [10] else [32]) ++ [a, b] ++ hexDump (i + 1) rest
  | [a] => (if i = 0 then [] else if i % 16 = 0 then [10] else [32]) ++ [a]
  | [] => []

/-- What is printed of an export; where a file is named, the text goes there. -/
def exported (format file result : Str) : Str :=
  let size := intChars (result.length / 2)
  if result = [] then ascii "unknown format: " ++ format ++ ascii "\n"
  else if file ≠ [] ∧ host.writable file = false then ascii "cannot write: " ++ file ++ ascii "\n"
  else if format = ascii "bin" then
    if file ≠ [] then ascii "saved to " ++ file ++ ascii " (" ++ size ++ ascii " bytes)\n"
    else hexDump 0 result ++ ascii "\n(" ++ size ++ ascii " bytes)\n"
  else if file ≠ [] then ascii "saved to " ++ file ++ ascii "\n"
  else result

def exportFormat (t : Id) (format file : Str) : Option (Console × Str) :=
  (c.forest.toTree k t).bind fun tree =>
    c.say (exported host format file (((host.exporters format).map fun toText => toText tree).getD []))

def schema : Option (Console × Str) :=
  let flags := parseFlags args
  let format := flags.pos 0
  if format = [] then
    c.say (ascii "available formats: json, xml, md, bin, var" ++ host.formatNames.flatMap (ascii ", " ++ ·) ++
      ascii "\n")
  else
    let pathStr := flags.pos 1
    (c.session.orCur k c.forest pathStr).bind fun t =>
      match t with
      | none => c.notFound pathStr
      | some t =>
        let file := flags.get (ascii "file") (some 102) []
        if !c.forest.live t then none
        else if flags.has (ascii "import") (some 105) then
          c.importFormat host k t format file (flags.get (ascii "import") (some 105) [])
        else c.exportFormat host k t format file

/-! ## Shadow -/

def shadow : Option (Console × Str) :=
  let flags := parseFlags args
  (c.session.target k c.forest args).bind fun t =>
    if flags.has (ascii "clear") none then c.change k (.setShadow t none) fun _ => some (ascii "shadow cleared\n")
    else if flags.has (ascii "set") none then
      let path := flags.get (ascii "set") none []
      if path = [] then c.say (ascii "usage: shadow --set <path>\n")
      else
        (c.session.resolve k c.forest path).bind fun sh =>
          match sh with
          | none => c.notFound path
          | some sh =>
            c.change k (.setShadow t (some sh)) fun f => c.pathText k f sh (ascii "shadow set to: ") (ascii "\n")
    else
      match c.forest.shadow t with
      | none => c.say (ascii "(no shadow)\n")
      | some sh =>
        if !c.forest.live sh then none
        else
          (c.pathText k c.forest sh (ascii "shadow: " ++ nodeSummary c.forest sh ++ ascii " (/") (ascii ")\n")).bind
            c.say

/-! ## Help -/

def replaceAll (old new : UInt8) (s : Str) : Str := s.map fun c => if c = old then new else c

def helpText : Str := (["=== Node Commands ===",
  "  ls [path] [-t] [-l] [-n]   list children / tree / details (default path: current)",
  "  get [path] [-t]            get value or type (default path: current)",
  "  set [path] <value> [--null] [-t|--trigger]  set value, clear, or trigger (default: current)",
  "  mk <path> | -n NAME        create at path (relative to cur)",
  "  rm <path> [-i] [-n] [-c]   remove at path (relative to cur)",
  "  mv <src> [dest] [--at N]   reparent node",
  "  cp <src> [dest] [-r] [-u]  copy subtree",
  "  schema <fmt> [path] [-f FILE] [-i] export/import",
  "  shadow [path] [--set/--clear] shadow ops",
  "",
  "=== Navigation ===",
  "  cd <path>       navigate ('.' and '..')",
  "  pwd             print current path",
  "  root            go to root",
  "  up [N]          go up N levels",
  "  first / last    first/last child",
  "  prev / next     prev/next sibling",
  "  sibling <N>     sibling at offset",
  "",
  "=== Orphan Pool ===",
  "  take <idx|path> detach to orphan pool",
  "  orphans         list orphan pool",
  "  adopt <N>       adopt orphan into current",
  "",
  "=== Other ===",
  "  quit / exit     disconnect"] : List String).flatMap fun line => ascii line ++ [10]

/-- The line of a registered command. -/
def helpLine (key : Str) : Option Str :=
  (commandHelp home k c.forest host.platform key).map fun h =>
    let shown := replaceAll 46 32 key
    ascii "  " ++ shown ++
      (if h = [] then [] else List.replicate (if shown.length < 22 then 22 - shown.length else 2) 32 ++ h) ++ [10]

def help : Option (Console × Str) :=
  let words := (parseFlags args).positional.takeWhile fun w => w ≠ []
  if words = [] then
    (host.keys.mapM (c.helpLine host home k)).bind fun lines =>
      c.say (helpText ++ if host.keys = [] then [] else ascii "\n=== User Commands ===\n" ++ lines.flatten)
  else
    let key := replaceAll 32 46 ([46].intercalate words)
    let shown := replaceAll 46 32 key
    (commandHelp home k c.forest host.platform key).bind fun h =>
      c.say (if h = [] then ascii "unknown command: " ++ shown ++ ascii "\n"
        else shown ++ ascii ": " ++ h ++ ascii "\n")

/-- One of the commands of a session. -/
def command (w : CmdWord) : Option (Console × Str) :=
  if !w.free && !c.forest.live c.session.cur then none
  else
    let cur := c.session.cur
    match w with
    | .cd => c.cd k args
    | .pwd => c.pwd k
    | .root => c.goTo c.session.root []
    | .up => c.up args
    | .first => c.goOr (c.forest.child cur 0) (ascii "(no children)\n")
    | .last => c.goOr (c.forest.child cur (-1)) (ascii "(no children)\n")
    | .prev => c.goOr (siblingOf c.forest cur (-1)) (ascii "(no prev sibling)\n")
    | .next => c.goOr (siblingOf c.forest cur 1) (ascii "(no next sibling)\n")
    | .sibling => c.sibling args
    | .take => c.take k args
    | .orphans => c.orphans
    | .adopt => c.adopt k args
    | .ls => c.builtin host k args .ls
    | .get => c.builtin host k args .get
    | .set => c.builtin host k args .set
    | .mk => c.mk k args
    | .rm => c.builtin host k args .rm
    | .mv => c.mv k args
    | .cp => c.builtin host k args .cp
    | .schema => c.schema host k args
    | .shadow => c.shadow k args
    | .help => c.help host home k args

/-! ## Any other line -/

variable (loops : Loops)

/-- What is printed of a reply. -/
def replyText (platform : Platform) : PipeReply → Str
  | .detached => ascii "accepted\n"
  | .finished r =>
    if r.isSuccess || r.isAccepted then (if r.content.isNull then [] else r.content.toString platform)
    else Command.resultText platform r ++ [10]

/-- The context of a call, with the arguments stored in it. -/
def filled (nd : Tree) (words : List Str) : Option Tree :=
  let input := if words = [] then Var.none else .list (words.map .string)
  let ctx := Tree.node (ascii "_ctx") (.pointer (UInt64.ofNat c.session.cur)) []
  Command.parseInput host.stod host.platform (Command.declared nd) ctx input

/-- `cmd.call(inputVar, s.cur, wait, &detached)`. -/
def call (n : Id) (words : List Str) (asyncMode : Bool) : Option (Console × Str) :=
  (c.forest.toTree k n).bind fun nd =>
    if Command.build loops nd = [] then
      c.say (replyText host.platform
        (.finished (.fail (.string (ascii "command has no steps: " ++ c.forest.name n)))))
    else
      (c.filled host nd words).bind fun ctx =>
        (host.drive c.forest n ctx asyncMode).bind fun r => c.leave r.1 (replyText host.platform r.2)

/-- A leading `async` is taken off when more words follow. -/
def isAsync (words : List Str) : Bool := words.head? = some (ascii "async") && 1 < words.length

/-- The words without it. -/
def called (words : List Str) : List Str := if isAsync words then words.drop 1 else words

def fallback : Option (Console × Str) :=
  (resolveCommand home k c.forest (called args) (called args).length).bind fun p =>
    (commandNode home k c.forest p.1).bind fun n =>
      match n with
      | none => c.say (ascii "unknown: " ++ p.1 ++ ascii "  (type 'help')\n")
      | some n => c.call host k loops n ((called args).drop p.2) (isAsync args)

/-- `TerminalSession::execute(line)`. -/
def execute (line : Str) : Option (Console × Str) :=
  match split line with
  | [] => c.say []
  | word :: rest =>
    let c := { c with history := c.history ++ [line] }
    if word = ascii "quit" ∨ word = ascii "exit" then c.say [4]
    else
      match CmdWord.of word with
      | some w => c.command host home k (word :: rest) w
      | none => c.fallback host home k (word :: rest) loops

end Console

end Terminal

end VersatileEngine
