import VersatileEngine.Core.Var
import VersatileEngine.Lib.Dict

/-!
# VersatileEngine.Sdk.Value

The values of the TypeScript clients.

* `JsValue`  — what `JSON.parse` and the MessagePack decoder return and `JSON.stringify` and the
  encoder take. A string is its UTF-8 text.
* `JsObject` — a plain object: its properties in the order in which they were added.
* `spread`   — `{ ...base, ...more }`.
-/

namespace VersatileEngine

/-- `int` is a number with an integral value, `float` any other number. -/
inductive JsValue where
  | undefined
  | null
  | bool (b : Bool)
  | int (i : Int)
  | float (d : Binary64)
  | str (s : Str)
  | bytes (b : List UInt8)
  | arr (l : List JsValue)
  | obj (o : List (Str × JsValue))

abbrev JsObject := List (Str × JsValue)

def spread (base more : JsObject) : JsObject := assignAll base more

/-- `Number.MAX_SAFE_INTEGER + 1`: `++n` is exact below, and does nothing from here on. -/
def numberLimit : Nat := 2 ^ 53

/-- `++n` on a number that counts from zero. -/
def increment (n : Nat) : Nat := if n < numberLimit then n + 1 else n

end VersatileEngine
