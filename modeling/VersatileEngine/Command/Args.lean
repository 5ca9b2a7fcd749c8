import VersatileEngine.Core.Text
import VersatileEngine.Lib.Dict
import VersatileEngine.Node.Ensure

/-!
# VersatileEngine.Command.Args

`command::parseArgs` on a list of tokens, as the callers have it: from the first token on.

* `parseValue`, `isInt`, `isDouble` — `parse_util.h`; `parseValue` has no result where `std::stoll` or
  `std::stod` throws.
* `DeclInfo`, `buildDeclInfo`       — what the parser knows of the declaration, the shadow of the context.
* `parseArgs`                       — no result where a conversion throws, or where `at` returns null
  and the code goes on to use it.
-/

namespace VersatileEngine.Command

def isSign (c : UInt8) : Bool := c = 45 || c = 43

/-- The text after a sign, if it starts with one. -/
def unsigned (s : Str) : Str :=
  match s with
  | c :: rest => if isSign c then rest else s
  | [] => []

def isInt (s : Str) : Bool := unsigned s ≠ [] && (unsigned s).all isDigit

/-- The loop of `isDouble`, with the flag for a dot. -/
def doubleLoop : Bool → Str → Bool
  | dot, [] => dot
  | dot, c :: s =>
    if c = 46 then if dot then false else doubleLoop true s
    else if !isDigit c then false
    else doubleLoop dot s

def isDouble (s : Str) : Bool := unsigned s ≠ [] && doubleLoop false (unsigned s)

/-- `std::stoll`, where it throws nothing. -/
def stoll (s : Str) : Option Int := (strtol s).filter fun i => -2 ^ 63 ≤ i ∧ i < 2 ^ 63

section Parser

-- `std::stod`, where it throws nothing
variable (stod : Str → Option Binary64)

def parseValue (raw : Str) : Option Var :=
  if raw = ascii "null" then some .none
  else if raw = ascii "true" then some (.bool true)
  else if raw = ascii "false" then some (.bool false)
  else if 2 ≤ raw.length ∧ raw.head? = some 34 ∧ raw.getLast? = some 34 then
    some (.string ((raw.drop 1).take (raw.length - 2)))
  else if isInt raw then (stoll raw).map fun i => .int (Int64.ofInt i)
  else if isDouble raw then (stod raw).map .double
  else some (.string raw)

structure DeclInfo where
  paramOrder : List Str
  shortMap : List (Str × Str)
  longNames : List Str

namespace DeclInfo

def empty : DeclInfo := ⟨[], [], []⟩

/-- The loop body of `buildDeclInfo`. -/
def add (platform : Platform) (info : DeclInfo) (param : Tree) : DeclInfo :=
  let nm := param.name
  if nm = [] ∨ nm.head? = some 95 then info
  else
    let info := { info with longNames := nm :: info.longNames }
    match param.kids.find? fun k => k.name = ascii "_short" with
    | some shortNode =>
      let s := shortNode.value.toString platform
      if s ≠ [] then { info with shortMap := assign info.shortMap s nm } else info
    | none => { info with paramOrder := info.paramOrder ++ [nm] }

end DeclInfo

def buildDeclInfo (platform : Platform) (decl : Option Tree) : DeclInfo :=
  match decl with
  | none => .empty
  | some decl => decl.kids.foldl (DeclInfo.add platform) .empty

/-- `token.find('=', 2)`, as the text between the dashes and the sign, and the text after it. -/
def splitEq (token : Str) : Option (Str × Str) :=
  let rest := token.drop 2
  if 61 ∈ rest then
    some (rest.takeWhile fun c => c ≠ 61, (rest.dropWhile fun c => c ≠ 61).drop 1)
  else none

variable (info : DeclInfo)

/-- The lambda `isKeyword`; the empty text is no match. -/
def isKeyword (token : Str) : Str :=
  if token.length < 2 ∨ token.head? ≠ some 45 then []
  else if isInt token ∨ isDouble token then []
  else if token[1]? = some 45 then
    let name := match splitEq token with
      | some (name, _) => name
      | none => token.drop 2
    if name ∈ info.longNames then name else []
  else if token.length = 2 then (info.shortMap.lookup (token.drop 1)).getD []
  else []

/-- The inline form `--name=value` of a declared name. -/
def inlineForm (token : Str) : Option (Str × Str) :=
  if 2 < token.length ∧ token.head? = some 45 ∧ token[1]? = some 45 then
    match splitEq token with
    | some (name, value) => if name ∈ info.longNames then some (name, value) else none
    | none => none
  else none

structure Parser where
  ctx : Tree
  currentTarget : Str
  posIndex : Nat

/-- `ctx->at(name, false)->set(parse::parseValue(raw))`. -/
def store (ctx : Tree) (name raw : Str) : Option Tree :=
  (parseValue stod raw).bind fun v => ctx.atPath name fun t => t.set v

/-- `ctx->at(ctx->count(), false)->set(parse::parseValue(raw))`. -/
def storeExtra (ctx : Tree) (raw : Str) : Option Tree :=
  (parseValue stod raw).bind fun v => (Tree.ensureIndex ctx.kids ctx.kids.length).bind fun (ks, i) =>
    ks[i]?.map fun k => .node ctx.name ctx.value (ks.set i (k.set v))

/-- The body of the loop over the tokens. -/
def Parser.step (s : Parser) (token : Str) : Option Parser :=
  match inlineForm info token with
  | some (name, raw) => (store stod s.ctx name raw).map fun ctx => { s with ctx, currentTarget := [] }
  | none =>
    let matched := isKeyword info token
    if matched ≠ [] then some { s with currentTarget := matched }
    else if s.currentTarget ≠ [] then
      (store stod s.ctx s.currentTarget token).map fun ctx => { s with ctx, currentTarget := [] }
    else
      match info.paramOrder[s.posIndex]? with
      | some nm =>
        (store stod s.ctx nm token).map fun ctx => { s with ctx, posIndex := s.posIndex + 1 }
      | none => (storeExtra stod s.ctx token).map fun ctx => { s with ctx }

def Parser.run (s : Parser) : List Str → Option Parser
  | [] => some s
  | token :: tokens => (s.step stod info token).bind fun s => run s tokens

/-- What is done after the loop. -/
def Parser.finish (s : Parser) : Option Tree :=
  if s.currentTarget ≠ [] then s.ctx.atPath s.currentTarget fun t => t.set (.bool true) else some s.ctx

def parseTokens (ctx : Tree) (args : List Str) : Option Tree :=
  (Parser.run stod info ⟨.node ctx.name ctx.value [], [], 0⟩ args).bind Parser.finish

end Parser

/-- `command::parseArgs(ctx, args)`; the declaration is the shadow of the context. -/
def parseArgs (stod : Str → Option Binary64) (platform : Platform) (decl : Option Tree) (ctx : Tree)
    (args : List Str) : Option Tree := parseTokens stod (buildDeclInfo platform decl) ctx args

end VersatileEngine.Command
