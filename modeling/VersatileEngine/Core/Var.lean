import VersatileEngine.Lib.Decimal
import VersatileEngine.Lib.Binary64

/-!
# VersatileEngine.Core.Var

`ve::Var`, the variant that every node, signal and command result holds, and its `operator==`.

A `LIST` is a list, a `DICT` an association list in insertion order whose keys are distinct
(`Var.WF`). Callables and custom payloads are opaque: a callable is never equal to anything, and of
a custom payload only the text that its `to_str` gives is visible to the modelled functions.

`operator==` is not reflexive (`NaN`, callables, custom payloads), so it is modelled by its own
function `Var.eqv` and never confused with equality of values.
-/

namespace VersatileEngine

inductive Var where
  | none
  | bool (b : Bool)
  | int (i : Int64)
  | double (d : Binary64)
  | string (s : Str)
  | bin (b : List UInt8)
  | list (l : List Var)
  | dict (d : List (Str × Var))
  | pointer (p : UInt64)
  | callable (tag : Nat)
  | custom (tag : Nat) (text : Str)
deriving Repr

namespace Var

instance : Inhabited Var := ⟨.none⟩

def isNull : Var → Bool
  | .none => true
  | _ => false

mutual
/-- Every dictionary inside the value has distinct keys. -/
def WF : Var → Prop
  | .list l => WFList l
  | .dict d => (d.map Prod.fst).Nodup ∧ WFDict d
  | _ => True

def WFList : List Var → Prop
  | [] => True
  | v :: vs => WF v ∧ WFList vs

def WFDict : List (Str × Var) → Prop
  | [] => True
  | (_, v) :: kvs => WF v ∧ WFDict kvs
end

mutual
/-- `Var::operator==`. -/
def eqv : Var → Var → Bool
  | .none, .none => true
  | .bool a, .bool b => a = b
  | .int a, .int b => a = b
  | .double a, .double b => a.eqv b
  | .string a, .string b => a = b
  | .bin a, .bin b => a = b
  | .list a, .list b => eqvList a b
  | .dict a, .dict b => a.length = b.length && eqvDict a b
  | .pointer a, .pointer b => a = b
  | _, _ => false

/-- `std::vector::operator==` on the elements. -/
def eqvList : List Var → List Var → Bool
  | [], [] => true
  | v :: vs, w :: ws => eqv v w && eqvList vs ws
  | _, _ => false

/-- Every entry of the first dictionary is found, with an equal value, in the second. -/
def eqvDict : List (Str × Var) → List (Str × Var) → Bool
  | [], _ => true
  | (k, v) :: kvs, d =>
    (match d.lookup k with
      | some w => eqv v w
      | Option.none => false) && eqvDict kvs d
end

end Var

end VersatileEngine
