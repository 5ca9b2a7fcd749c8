import VersatileEngine.Core.Data
import VersatileEngine.Lib.Decimal17
import VersatileEngine.Schema.VarS

/-!
# VersatileEngine.Json.Stringify

The writing half of `impl/json.cpp`.

* `escape`, `varToJson`  — strings and values as JSON text.
* `nodeToJson`           — `nodeToJsonImpl`: a tree, one child to a line.
* `JsonS.exportTree`     — the text of a tree; `none` stands for the exception that a `std::string`
  of a negative length throws, and for a length beyond `int`.
-/

namespace VersatileEngine

/-- One byte of a string. -/
def escapeByte (c : UInt8) : Str :=
  if c = 34 then [92, 34]
  else if c = 92 then [92, 92]
  else if c = 8 then [92, 98]
  else if c = 12 then [92, 102]
  else if c = 10 then [92, 110]
  else if c = 13 then [92, 114]
  else if c = 9 then [92, 116]
  else if c < 0x20 then
    [92, 117, 48, 48, hexDigit (c.toNat / 16), hexDigit (c.toNat % 16)]
  else [c]

def escape (s : Str) : Str := s.flatMap escapeByte

/-- A string between quotes. -/
def quoted (s : Str) : Str := 34 :: (escape s ++ [34])

mutual
/-- `varToJson`. -/
def varToJson : Var → Str
  | .none => ascii "null"
  | .bool b => if b then ascii "true" else ascii "false"
  | .int i => intChars i.toInt
  | .double d => if d.isFinite then format17g d else ascii "null"
  | .string s => quoted s
  | .bin b => quoted b
  | .list l => 91 :: (listToJson true l ++ [93])
  | .dict d => 123 :: (dictToJson true d ++ [125])
  | .pointer p => quoted (Var.pointer p).opaqueText
  | .callable t => quoted (Var.callable t).opaqueText
  | .custom t s => quoted (Var.custom t s).opaqueText

/-- The elements, each but the first after a comma. -/
def listToJson (first : Bool) : List Var → Str
  | [] => []
  | v :: l => (if first then [] else [44]) ++ varToJson v ++ listToJson false l

def dictToJson (first : Bool) : List (Str × Var) → Str
  | [] => []
  | (k, v) :: d =>
    (if first then [] else [44]) ++ quoted k ++ 58 :: varToJson v ++ dictToJson false d
end

/-- `std::string(n, ' ')` for an `int`. -/
def padding (n : Int) : Option Str :=
  if 0 ≤ n ∧ n < 2 ^ 31 then some (List.replicate n.toNat 32) else none

/-- The end of a line: a comma unless it is the last of `total`. -/
def lineEnd (index total : Nat) : Str := (if index < total then [44] else []) ++ [10]

/-- The elements of an array, each on its line. -/
def elementLines (pad : Str) (total : Nat) : Nat → List Str → Str
  | _, [] => []
  | i, text :: l => pad ++ text ++ lineEnd (i + 1) total ++ elementLines pad total (i + 1) l

/-- The fields of an object. -/
def fieldLines (pad : Str) (total : Nat) : Nat → List (Str × Str) → Str
  | _, [] => []
  | i, (nm, text) :: l =>
    pad ++ quoted nm ++ ascii ": " ++ text ++ lineEnd (i + 1) total ++ fieldLines pad total (i + 1) l

/-- All texts, or none. -/
def allTexts {α : Type} : List (α × Option Str) → Option (List (α × Str))
  | [] => some []
  | (a, text) :: l => text.bind fun text => (allTexts l).map fun l => (a, text) :: l

mutual
/-- `nodeToJsonImpl`, for a node at a depth. -/
def nodeToJson (options : ExportOptions) : Tree → Nat → Option Str
  | .node _ value kids, depth =>
    let visible := visibleTexts options kids
    (padding (depth * options.indent)).bind fun pad =>
    (padding ((depth + 1) * options.indent)).bind fun pad1 =>
      match visible with
      | [] => some (if value.isNull then ascii "null" else varToJson value)
      | (first, _) :: _ =>
        if first = [] then
          (allTexts (visible.map fun c => (c.1, c.2 (depth + 1)))).map fun texts =>
            ascii "[\n" ++ elementLines pad1 visible.length 0 (texts.map Prod.snd) ++ pad ++ [93]
        else
          let names := namedFirsts [] visible
          let anon := anonymous visible
          let hasVal := if value.isNull then 0 else 1
          let total := names.length + (if anon.isEmpty then 0 else 1) + hasVal
          (allTexts (names.map fun c => (c.1, c.2 (depth + 1)))).bind fun named =>
            let fields :=
              (if value.isNull then []
                else pad1 ++ ascii "\"_value\": " ++ varToJson value ++ lineEnd 1 total) ++
                fieldLines pad1 total hasVal named
            if anon.isEmpty then some (ascii "\x7b\n" ++ fields ++ pad ++ [125])
            else
              (padding ((depth + 2) * options.indent)).bind fun pad2 =>
                (allTexts (anon.map fun c => (([] : Str), c (depth + 2)))).map fun texts =>
                  ascii "\x7b\n" ++ fields ++ pad1 ++ ascii "\"\": [\n" ++
                    elementLines pad2 anon.length 0 (texts.map Prod.snd) ++ pad1 ++ ascii "]\n" ++
                    pad ++ [125]

/-- The visible children with their names; what each is at a depth. -/
def visibleTexts (options : ExportOptions) : List Tree → List (Str × (Nat → Option Str))
  | [] => []
  | k :: ks =>
    if isIgnoredChild options k then visibleTexts options ks
    else (k.name, fun depth => nodeToJson options k depth) :: visibleTexts options ks
end

/-- `json::exportTree`. -/
def JsonS.exportTree (options : ExportOptions) (node : Tree) : Option Str :=
  (nodeToJson options node 0).map fun out => out ++ [10]

end VersatileEngine
