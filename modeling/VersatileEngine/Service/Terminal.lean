import VersatileEngine.Md.Import
import VersatileEngine.Node.Ops
import VersatileEngine.Service.Protocol

/-!
# VersatileEngine.Service.Terminal

`TerminalSession`: the commands that move a session or change the tree.

* `Flags`, `parseFlags` — `parse_util.h`.
* `Session`  — the root, the current node and the orphan pool of a session.
* `cd`, `effect` — what a command line comes to, read off the tree: a move, one operation on the tree, an
  import, or a text. The texts themselves are left out.
* `execute`  — the tree and the session afterwards.

There is no result where `std::stoi` throws, where a lookup never ends, and where a freed node is used.
-/

namespace VersatileEngine

namespace Terminal

open Command (isInt isDouble splitEq)

/-! ## Flags -/

structure Flags where
  named : List (Str × Str)
  positional : List Str

namespace Flags

/-- `k == longName || (shortName && k.size() == 1 && k[0] == shortName)`. -/
def isFlag (longName : Str) (shortName : Option UInt8) (k : Str) : Bool :=
  k = longName || shortName.any fun c => k = [c]

def has (flags : Flags) (longName : Str) (shortName : Option UInt8) : Bool :=
  flags.named.any fun p => isFlag longName shortName p.1

def get (flags : Flags) (longName : Str) (shortName : Option UInt8) (dflt : Str) : Str :=
  match flags.named.find? fun p => isFlag longName shortName p.1 with
  | some (_, v) => if v = [] then dflt else v
  | none => dflt

def pos (flags : Flags) (idx : Nat) : Str := flags.positional[idx]?.getD []

def add (named : List (Str × Str)) (flags : Flags) : Flags := { flags with named := named ++ flags.named }

def push (a : Str) (flags : Flags) : Flags := { flags with positional := a :: flags.positional }

end Flags

/-- What a token is. The last of several keys may take the next token as its value. -/
inductive Token where
  | endOfFlags
  | assigned (key value : Str)
  | keys (keys : List Str)
  | positional

def Token.of (a : Str) : Token :=
  if a = ascii "--" then .endOfFlags
  else if 2 < a.length ∧ a.head? = some 45 ∧ a[1]? = some 45 then
    match splitEq a with
    | some (key, value) => .assigned key value
    | none => .keys [a.drop 2]
  else if 1 < a.length ∧ a.head? = some 45 ∧ !isInt a ∧ !isDouble a then .keys ((a.drop 1).map fun c => [c])
  else .positional

/-- `!args[i + 1].empty() && args[i + 1][0] != '-'`. -/
def isValue (a : Str) : Bool := a ≠ [] && a.head? ≠ some 45

/-- The keys of one token, the last with the value. -/
def withValue (keys : List Str) (value : Str) : List (Str × Str) :=
  keys.dropLast.map (fun k => (k, [])) ++ [(keys.getLastD [], value)]

/-- The loop of `parseFlags`. -/
def parseTokens : List Str → Flags
  | [] => ⟨[], []⟩
  | [a] =>
    match Token.of a with
    | .endOfFlags => ⟨[], []⟩
    | .assigned key value => ⟨[(key, value)], []⟩
    | .keys keys => ⟨withValue keys [], []⟩
    | .positional => ⟨[], [a]⟩
  | a :: b :: rest =>
    match Token.of a with
    | .endOfFlags => ⟨[], b :: rest⟩
    | .assigned key value => (parseTokens (b :: rest)).add [(key, value)]
    | .keys keys =>
      if isValue b then (parseTokens rest).add (withValue keys b)
      else (parseTokens (b :: rest)).add (withValue keys [])
    | .positional => (parseTokens (b :: rest)).push a

/-- `parseFlags(args)`; the command itself is skipped. -/
def parseFlags (args : List Str) : Flags := parseTokens (args.drop 1)

/-! ## Sessions -/

structure Session where
  root : Id
  cur : Id
  orphans : List Id

/-- What an importer of the format registry does with a text: it parses the text, for a copy with the
default options, or writes to the node itself. -/
inductive Importer where
  | parsed (parse : Str → Option Tree)
  | direct

/-- What the commands use from outside: the files, and the registered formats. -/
structure Env where
  files : Str → Option Str
  formats : Str → Option Importer

/-- What a command comes to, beside moving the session. -/
inductive Effect where
  | print
  | op (op : Op)
  | take (child : Option Id)
  | adopt (idx : Nat) (n : Id)
  | load (t : Id) (importer : Importer) (content : Str)

inductive Cmd where
  | cd | rm | mv | take | adopt | schema | shadow

namespace Session

variable (k : Nat) (f : Forest) (s : Session)

/-- `root->find(path)` and `cur->find(path)`; a root that was freed leads nowhere. -/
def findFrom (path : Str) (useShadow : Bool) : Option (Option Id) :=
  if path.head? = some pathSep then
    if f.live s.root then f.atPath k s.root (path.drop 1) useShadow else none
  else f.atPath k s.cur path useShadow

/-- `resolve(path)`. -/
def resolve (path : Str) : Option (Option Id) :=
  if path = [] ∨ path = ascii "." then some (some s.cur)
  else if path = ascii ".." then some (some ((f.parent s.cur).getD s.cur))
  else if path = [pathSep] then some (some s.root)
  else s.findFrom k f path true

/-- `target(args)`: the first argument, if it is a path that leads somewhere. -/
def target (args : List Str) : Option Id :=
  match args[1]? with
  | some a => if isValue a then (s.resolve k f a).map fun n => n.getD s.cur else some s.cur
  | none => some s.cur

/-- A path that may be missing: then it is the current node. -/
def orCur (path : Str) : Option (Option Id) :=
  if path = [] then some (some s.cur) else s.resolve k f path

/-- The current node after `cd`. -/
def cd (args : List Str) : Option Id :=
  match args[1]? with
  | none => some s.cur
  | some path =>
    if path = ascii "." then some s.cur
    else if path = ascii ".." then some ((f.parent s.cur).getD s.cur)
    else (f.atPath k s.cur path true).map fun n => n.getD s.cur

/-- `base->erase(relPath)`. -/
def erase (path : Str) : Option Effect :=
  (s.findFrom k f path false).map fun t =>
    match t with
    | none => .print
    | some t =>
      match f.parent t with
      | none => .print
      | some p => .op (.remove p (some t))

def rm (args : List Str) : Option Effect :=
  let flags := parseFlags args
  (s.target k f args).bind fun t =>
    if flags.has (ascii "clear") (some 99) then some (.op (.clear t true))
    else if flags.has (ascii "index") (some 105) then
      let idx := flags.get (ascii "index") (some 105) []
      if isInt idx then (stoi idx).map fun i => .op (.remove t (f.child t i)) else some .print
    else if flags.has (ascii "name") (some 110) then
      let nm := flags.get (ascii "name") (some 110) []
      let overlap := flags.get (ascii "overlap") (some 111) (ascii "0")
      if nm = [] then some .print
      else (if isInt overlap then stoi overlap else some 0).map fun o =>
        .op (.remove t (f.childNamed t nm o))
    else if flags.has (ascii "all") none then
      let nm := flags.get (ascii "all") none []
      if nm = [] then some .print else some (.op (.removeNamed t nm))
    else if flags.pos 0 = [] then some .print
    else s.erase k f (flags.pos 0)

def mv (args : List Str) : Option Effect :=
  let flags := parseFlags args
  if flags.pos 0 = [] then some .print
  else (s.resolve k f (flags.pos 0)).bind fun src =>
    match src with
    | none => some .print
    | some src =>
      (s.orCur k f (flags.pos 1)).bind fun dest =>
        match dest with
        | none => some .print
        | some dest =>
          let idx := flags.get (ascii "at") none []
          if src = dest then some .print
          else if flags.has (ascii "at") none ∧ isInt idx then
            (stoi idx).map fun i => .op (.insert dest (some src) i)
          else some (.op (.insert dest (some src) (-1)))

def take (args : List Str) : Option Effect :=
  match args[1]? with
  | none => some .print
  | some a =>
    if isInt a then (stoi a).map fun i => .take (f.child s.cur i)
    else (f.atPath k s.cur a false).map fun c =>
      match c with
      | some c => if f.parent c = some s.cur then .take (some c) else .print
      | none => .print

def adopt (args : List Str) : Option Effect :=
  match args[1]? with
  | none => some .print
  | some a => (stoi a).map fun (idx : Int) =>
    if idx < 0 then .print
    else
      match s.orphans[idx.toNat]? with
      | some n => .adopt idx.toNat n
      | none => .print

def shadow (args : List Str) : Option Effect :=
  let flags := parseFlags args
  (s.target k f args).bind fun t =>
    if flags.has (ascii "clear") none then some (.op (.setShadow t none))
    else if flags.has (ascii "set") none then
      let path := flags.get (ascii "set") none []
      if path = [] then some .print
      else (s.resolve k f path).map fun sh =>
        match sh with
        | some sh => .op (.setShadow t (some sh))
        | none => .print
    else some .print

def schema (env : Env) (args : List Str) : Option Effect :=
  let flags := parseFlags args
  if flags.pos 0 = [] then some .print
  else (s.orCur k f (flags.pos 1)).map fun t =>
    match t with
    | none => .print
    | some t =>
      if !flags.has (ascii "import") (some 105) then .print
      else
        let file := flags.get (ascii "file") (some 102) []
        let given := flags.get (ascii "import") (some 105) []
        let content := if file ≠ [] then env.files file else if given ≠ [] then some given else none
        match content, env.formats (flags.pos 0) with
        | some content, some importer => .load t importer content
        | _, _ => .print

/-- What the command comes to, in this tree; `cd` moves the session and no more. -/
def effect (env : Env) (cmd : Cmd) (args : List Str) : Option Effect :=
  match cmd with
  | .cd => some .print
  | .rm => s.rm k f args
  | .mv => s.mv k f args
  | .take => s.take k f args
  | .adopt => s.adopt args
  | .schema => s.schema k f env args
  | .shadow => s.shadow k f args

end Session

/-! ## Import -/

/-- `impl::md::importDirect`, as it goes over the nodes: the stack of headings with their levels. -/
structure Walk where
  forest : Forest
  top : Id × Nat
  below : List (Id × Nat)
  contentBuf : Str
  inCodeFence : Bool
  fenceMarker : Str

def flushContent (f : Forest) (target : Id) (content : Str) : Forest :=
  let trimmed := Md.trimTrailingWhitespace content
  if trimmed = [] then f else f.set target (.string trimmed)

def popTo (level : Nat) : Id × Nat → List (Id × Nat) → (Id × Nat) × List (Id × Nat)
  | top, [] => (top, [])
  | top, parent :: below => if level ≤ top.2 then popTo level parent below else (top, parent :: below)

/-- `append(name)->set(value)`. -/
def appendWith (f : Forest) (parent : Id) (nm : Str) (v : Var) : Option Forest :=
  let r := f.append parent nm 0
  r.2.map fun n => r.1.set n v

def Walk.heading (w : Walk) (heading : Md.HeadingLine) : Option Walk :=
  let f := flushContent w.forest w.top.1 w.contentBuf
  let (parent, below) := popTo heading.level w.top w.below
  let r := f.append parent.1 heading.cleanTitle 0
  r.2.bind fun n =>
    (if heading.cleanTitle ≠ heading.rawTitle then
      appendWith r.1 n (ascii "_title") (.string heading.rawTitle) else some r.1).bind fun f =>
    (if heading.level ≠ parent.2 + 1 then
      appendWith f n (ascii "_level") (.int (Int64.ofNat heading.level)) else some f).map fun f =>
    { w with
      forest := f
      top := (n, heading.level)
      below := parent :: below
      contentBuf := [] }

def Walk.line (w : Walk) (line : Str) : Option Walk :=
  let (inCodeFence, fenceMarker) := Md.isInsideCodeFence line w.inCodeFence w.fenceMarker
  let next := { w with inCodeFence := inCodeFence, fenceMarker := fenceMarker }
  let content := { next with contentBuf := w.contentBuf ++ line ++ [10] }
  if w.inCodeFence || inCodeFence then some content
  else
    match Md.parseHeadingLine line with
    | some heading => next.heading heading
    | none => some content

def importDirect (f : Forest) (root : Id) (md : Str) : Option Forest :=
  (((getlines md).map Md.dropReturn).foldlM Walk.line ⟨f, (root, 0), [], [], false, []⟩).map fun w =>
    flushContent w.forest w.top.1 w.contentBuf

/-- `importSchemaFormat`; what was parsed is copied, and freed again. -/
def load (k : Nat) (f : Forest) (t : Id) (content : Str) : Importer → Option Forest
  | .parsed parse =>
    match parse content with
    | none => some f
    | some tree =>
      let r := f.plant tree
      (r.1.copy k t (some r.2) true false false).bind fun g => g.deleteNode k r.2
  | .direct => if content = [] then some f else importDirect f t content

/-! ## Execution -/

/-- The operation of a command is called on nodes that are there. -/
def Effect.apply (k : Nat) (f : Forest) (s : Session) : Effect → Option (Forest × Session)
  | .print => some (f, s)
  | .op o => if f.validB o then (f.run k o).map fun f => (f, s) else none
  | .take child =>
    let r := f.take s.cur child
    some (r.1, { s with orphans := s.orphans ++ r.2.toList })
  | .adopt idx n =>
    if f.live n then
      some ((f.insert s.cur (some n) (-1)).1, { s with orphans := s.orphans.eraseIdx idx })
    else none
  | .load t importer content =>
    if f.live t then (Terminal.load k f t content importer).map fun f => (f, s) else none

def execute (env : Env) (k : Nat) (f : Forest) (s : Session) (cmd : Cmd) (args : List Str) :
    Option (Forest × Session) :=
  if !f.live s.cur then none
  else
    match cmd with
    | .cd => (s.cd k f args).map fun n => (f, { s with cur := n })
    | cmd => (s.effect k f env cmd args).bind (Effect.apply k f s)

end Terminal

end VersatileEngine
