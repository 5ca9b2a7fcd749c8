import Mathlib.Data.List.DropRight
import VersatileEngine.Lib.Json
import VersatileEngine.Schema.VarS

/-!
# VersatileEngine.Json.OnDemand

The reading half of `impl/json.cpp`, over the on-demand reader of simdjson.

* `OnDemand`   — a value as the reader presents it: checked when it is read, and not before.
* `Simdjson`   — the reader, with what the code relies on in `Simdjson.Lawful`.
* `domToVar`, `domToNode`, `importObjectField` — `none` stands for the exception of a `.value()`.
* `json.parse`, `JsonS.importTree` — the entry points.
-/

namespace VersatileEngine

inductive OnDemand where
  | null
  | bool (b : Bool)
  | int (i : Int64)
  | double (d : Binary64)
  | string (s : Str)
  | array (elems : List OnDemand)
  | object (fields : List (Option Str × OnDemand))
  /-- A scalar of a known type that cannot be read: a misspelt literal, a bad escape, a number out of
  range. -/
  | invalid
  /-- What begins like no value; its type is `unknown`. -/
  | unknown
  /-- The place where the reader fails to find a value. -/
  | failure

/-- What `iterate` finds: a document whose root can be a `value`, or a scalar. -/
inductive Document where
  | value (val : OnDemand)
  | scalar

/-! ## Values -/

mutual
/-- `domToVar`. -/
def domToVar : OnDemand → Option Var
  | .null => some .none
  | .bool b => some (.bool b)
  | .int i => some (.int i)
  | .double d => some (.double d)
  | .string s => some (.string s)
  | .array l => (elemsToVar l).map .list
  | .object fs => (fieldsToVar [] fs).map .dict
  | .invalid => none
  | .unknown => some .none
  | .failure => none

def elemsToVar : List OnDemand → Option (List Var)
  | [] => some []
  | v :: l => (domToVar v).bind fun x => (elemsToVar l).map fun l => x :: l

/-- `dict[key] = domToVar(value)` for every field. -/
def fieldsToVar (dict : List (Str × Var)) : List (Option Str × OnDemand) → Option (List (Str × Var))
  | [] => some dict
  | (key, v) :: fs =>
    key.bind fun key => (domToVar v).bind fun x => fieldsToVar (assign dict key x) fs
end

/-! ## Nodes -/

/-- The first child of that name. -/
def Tree.child? (t : Tree) (key : Str) : Option Tree := t.kids.find? fun k => k.name = key

/-- `importObjectField`, for a value given by what reading it, importing its elements, and importing it
do. The source has a branch for a named array, which does what `domToNode` does with it. -/
def importObjectField (key : Str) (var : Option Var) (elements fill : Tree → Option Tree)
    (node : Tree) : Option Tree :=
  if key = valueKey then var.map node.set
  else if key = [] then elements node.clearAnonymousChildren
  else
    let node := node.ensureSchemaChild key
    match node.child? key with
    | none => some node
    | some c => (fill c).map fun c => node.updateChild key fun _ => c

mutual
/-- `domToNode`. -/
def domToNode : OnDemand → Tree → Option Tree
  | .object fs, node => importFields fs node
  | .array l, node => appendElements l node
  | .null, node => some (node.set .none)
  | .bool b, node => some (node.set (.bool b))
  | .int i, node => some (node.set (.int i))
  | .double d, node => some (node.set (.double d))
  | .string s, node => some (node.set (.string s))
  | .invalid, _ => none
  | .unknown, node => some (node.set .none)
  | .failure, _ => none

/-- Every element becomes an anonymous child. -/
def appendElements : List OnDemand → Tree → Option Tree
  | [], node => some node
  | v :: l, node => (domToNode v (.blank [])).bind fun c => appendElements l (node.push c)

def importFields : List (Option Str × OnDemand) → Tree → Option Tree
  | [], node => some node
  | (key, v) :: fs, node =>
    key.bind fun key =>
      (importObjectField key (domToVar v) (importAnonymous v) (domToNode v) node).bind fun node =>
        importFields fs node

/-- The value of the empty key. When it is no array only its type is read. -/
def importAnonymous : OnDemand → Tree → Option Tree
  | .array l, node => appendElements l node
  | .failure, _ => none
  | _, node => some node
end

/-! ## Well-formed documents -/

section Documents

variable (getDouble : Str → Option Binary64)

mutual
/-- What the reader makes of a well-formed document. -/
def Json.onDemand : Json → OnDemand
  | .null => .null
  | .bool b => .bool b
  | .int i => if -2 ^ 63 ≤ i ∧ i < 2 ^ 63 then .int (Int64.ofInt i) else .invalid
  | .real literal =>
    match getDouble literal with
    | some d => .double d
    | none => .invalid
  | .str s => .string s
  | .arr l => .array (onDemandAll l)
  | .obj fs => .object (onDemandFields fs)

def Json.onDemandAll : List Json → List OnDemand
  | [] => []
  | j :: l => onDemand j :: onDemandAll l

def Json.onDemandFields : List (Str × Json) → List (Option Str × OnDemand)
  | [] => []
  | (key, j) :: fs => (some key, onDemand j) :: onDemandFields fs
end

/-- The root of a document is a `value` when it is an array or an object. -/
def Json.document : Json → Document
  | .arr l => .value (Json.onDemand getDouble (.arr l))
  | .obj fs => .value (Json.onDemand getDouble (.obj fs))
  | _ => .scalar

end Documents

/-- The reader: what it finds in a text, and the number of a literal with a fraction or an
exponent. -/
structure Simdjson where
  iterate : Str → Option Document
  getDouble : Str → Option Binary64

/-- What the code relies on: well-formed documents are presented in their own order; what is no UTF-8
or longer than `0xFFFFFFFF` bytes is rejected at once. -/
structure Simdjson.Lawful (simdjson : Simdjson) : Prop where
  document : ∀ text j, Json.read text = some j → text.length < 2 ^ 32 →
    simdjson.iterate text = some (j.document simdjson.getDouble)
  utf8 : ∀ text, ¬ Utf8.Valid text → simdjson.iterate text = none
  capacity : ∀ text, 2 ^ 32 ≤ text.length → simdjson.iterate text = none

/-! ## Entry points -/

section Entry

variable (simdjson : Simdjson)

/-- `std::isspace` in the C locale. -/
def isSpace (c : UInt8) : Bool := c = 32 || (9 ≤ c && c ≤ 13)

/-- `std::stoll` of a text without leading white space, where it does not throw. -/
def stoll (s : Str) : Option Int64 :=
  let digits := (if s.head? = some 45 ∨ s.head? = some 43 then s.tail else s).takeWhile isDigit
  let i : Int := if s.head? = some 45 then -(digitsVal 0 digits : Int) else digitsVal 0 digits
  if digits ≠ [] ∧ -2 ^ 63 ≤ i ∧ i < 2 ^ 63 then some (Int64.ofInt i) else none

/-- The fallback of `json::parse` for a scalar document; `stod` is `std::stod` where it does not
throw. -/
def parseScalar (stod : Str → Option Binary64) (json : Str) : Var :=
  let s := (json.dropWhile isSpace).rdropWhile isSpace
  if s = [] ∨ s = ascii "null" then .none
  else if s = ascii "true" then .bool true
  else if s = ascii "false" then .bool false
  else if s.head? = some 34 ∧ s.getLast? = some 34 ∧ 2 ≤ s.length then
    .string (s.tail.take (s.length - 2))
  else if 46 ∈ s ∨ 101 ∈ s ∨ 69 ∈ s then
    match stod s with
    | some d => .double d
    | none => .none
  else
    match stoll s with
    | some i => .int i
    | none => .none

/-- `json::parse`. -/
def json.parse (stod : Str → Option Binary64) (json : Str) : Option Var :=
  if json = [] then some .none
  else
    match simdjson.iterate json with
    | none => some .none
    | some (.value val) => domToVar val
    | some .scalar => some (parseScalar stod json)

/-- `json::importTree`: the result and the node after the call. -/
def JsonS.importTree (options : ImportOptions) (node : Tree) (json : Str) : Option (Bool × Tree) :=
  if json = [] then some (false, node)
  else
    match simdjson.iterate json with
    | none => some (false, node)
    | some .scalar => some (false, node)
    | some (.value val) =>
      (domToNode val (.blank (ascii "json_import"))).map fun parsed =>
        (true, copyTree options.auto_insert options.auto_remove options.auto_update parsed node)

end Entry

/-- The reader that does what the laws say and reads nothing else. -/
def Simdjson.reference (getDouble : Str → Option Binary64) : Simdjson where
  iterate text :=
    if text.length < 2 ^ 32 then (Json.read text).map (Json.document getDouble) else none
  getDouble := getDouble

theorem Simdjson.reference_lawful (getDouble : Str → Option Binary64) :
    (Simdjson.reference getDouble).Lawful := by
  refine ⟨fun text j hj hlen => ?_, fun text hv => ?_, fun text hlen => ?_⟩
  · simp only [Simdjson.reference, if_pos hlen, hj, Option.map_some]
  · simp only [Simdjson.reference, Json.read, if_neg hv, Option.map_none, ite_self]
  · simp only [Simdjson.reference, if_neg (Nat.not_lt.mpr hlen)]

end VersatileEngine
