import VersatileEngine.Core.Var

/-!
# VersatileEngine.Core.Text

The conversions of a `Var` to a number and to a text.

* `Var.toInt`, `Var.toInt64` — `toInt(def)`, `toInt64(def)`; a string is read by `std::stoi` or
  `std::stoll`.
* `Var.toString` — `toString()`, with the empty text for no value.
* `hexText` — bytes as two lower-case digits each, as streams with `std::hex` write them.

What the C++ library decides is a parameter: `Platform`.
-/

namespace VersatileEngine

/-- The texts and the conversion that the modelled code leaves to the library: the loop over
`snprintf` and `strtod`, a pointer in a stream, and the casts of a double to integers. -/
structure Platform where
  doubleText : Binary64 → Str
  pointerText : UInt64 → Str
  doubleInt : Binary64 → Int
  doubleInt64 : Binary64 → Int64

/-- The number at the start of a text, after white space: what `strtol` reads. -/
def strtol (s : Str) : Option Int :=
  let s := s.dropWhile fun c => c = 32 || (9 ≤ c && c ≤ 13)
  let (negative, s) :=
    match s with
    | 45 :: s => (true, s)
    | 43 :: s => (false, s)
    | s => (false, s)
  let digits := s.takeWhile isDigit
  if digits = [] then none
  else some (if negative then -digitsVal 0 digits else digitsVal 0 digits)

/-- `std::stoi`, where it throws nothing. -/
def stoi (s : Str) : Option Int := (strtol s).filter fun i => -2 ^ 31 ≤ i ∧ i < 2 ^ 31

def hexText (bytes : List UInt8) : Str :=
  bytes.flatMap fun b => [hexDigit (b.toNat / 16), hexDigit (b.toNat % 16)]

namespace Var

variable (platform : Platform)

def toInt (dflt : Int) : Var → Int
  | .int i => wrap32 i.toInt
  | .bool b => if b then 1 else 0
  | .double d => platform.doubleInt d
  | .string s => (stoi s).getD dflt
  | _ => dflt

/-- `std::stoll` in place of `std::stoi`. -/
def toInt64 (dflt : Int64) : Var → Int64
  | .int i => i
  | .bool b => if b then 1 else 0
  | .double d => platform.doubleInt64 d
  | .string s =>
    (((strtol s).filter fun i => -2 ^ 63 ≤ i ∧ i < 2 ^ 63).map Int64.ofInt).getD dflt
  | _ => dflt

/-- An element inside a list or a dictionary: only strings are quoted. -/
def quotedText (text : Str) : Var → Str
  | .string _ => 34 :: text ++ [34]
  | _ => text

mutual
def toString : Var → Str
  | .string s => s
  | .int i => intChars i.toInt
  | .double d => platform.doubleText d
  | .bool b => if b then ascii "true" else ascii "false"
  | .pointer p => platform.pointerText p
  | .none => []
  | .bin bytes => hexText bytes
  | .list l => ascii "[" ++ listText l ++ ascii "]"
  | .dict d => ascii "\x7b" ++ dictText d ++ ascii "\x7d"
  | .callable _ => ascii "<callable>"
  | .custom _ text => text

/-- The elements with `, ` between them. -/
def listText : List Var → Str
  | [] => []
  | [v] => quotedText (toString v) v
  | v :: vs => quotedText (toString v) v ++ ascii ", " ++ listText vs

def dictText : List (Str × Var) → Str
  | [] => []
  | [(k, v)] => k ++ ascii ": " ++ quotedText (toString v) v
  | (k, v) :: kvs => k ++ ascii ": " ++ quotedText (toString v) v ++ ascii ", " ++ dictText kvs
end

@[simp] theorem toString_string (s : Str) : (string s).toString platform = s := by rw [toString]

@[simp] theorem toString_none : none.toString platform = [] := by rw [toString]

end Var

/-- A small number that was stored as an integer is read back. -/
theorem toInt_ofNat (platform : Platform) (dflt : Int) {n : Nat} (h : n < 2 ^ 31) :
    (Var.int (Int64.ofNat n)).toInt platform dflt = n := by
  have hi : (Int64.ofNat n).toInt = n := Int64.toInt_ofNat_of_lt (by omega)
  rw [Var.toInt, hi, wrap32_of_lt (by omega) (by omega)]

end VersatileEngine
