import Mathlib.Tactic.Ring

/-!
# VersatileEngine.Lib.Binary64

IEEE 754 binary64 numbers as their 64 bits: classification, equality, and the integer a number
denotes when it denotes one. No arithmetic is defined here.

The magnitude of a finite number is `significand * 2^(exponent - 1075)`, with the exponent of a
subnormal number read as 1.
-/

namespace VersatileEngine

structure Binary64 where
  bits : UInt64
deriving DecidableEq, Repr

namespace Binary64

def negative (d : Binary64) : Bool := 2 ^ 63 ≤ d.bits.toNat

/-- The bits below the sign. -/
def magnitude (d : Binary64) : Nat := d.bits.toNat % 2 ^ 63

def expBits (d : Binary64) : Nat := d.magnitude / 2 ^ 52

def fraction (d : Binary64) : Nat := d.bits.toNat % 2 ^ 52

def isNaN (d : Binary64) : Bool := d.expBits = 2047 && d.fraction ≠ 0

def isFinite (d : Binary64) : Bool := d.expBits ≠ 2047

def isZero (d : Binary64) : Bool := d.magnitude = 0

def significand (d : Binary64) : Nat :=
  if d.expBits = 0 then d.fraction else 2 ^ 52 + d.fraction

def exponent (d : Binary64) : Nat := max d.expBits 1

/-- The absolute value, when it is a natural number. -/
def absNat? (d : Binary64) : Option Nat :=
  if d.isFinite then
    if 1075 ≤ d.exponent then some (d.significand * 2 ^ (d.exponent - 1075))
    else if d.significand % 2 ^ (1075 - d.exponent) = 0 then
      some (d.significand / 2 ^ (1075 - d.exponent))
    else none
  else none

/-- The integer that the number denotes: `none` for fractions, infinities and NaN. -/
def toInt? (d : Binary64) : Option Int :=
  d.absNat?.map fun n => if d.negative then -(n : Int) else n

/-- The number that 32 bits of the binary32 format denote. A subnormal one is normalised. -/
def ofBinary32 (bits : UInt32) : Binary64 :=
  let n := bits.toNat
  let sign := n / 2 ^ 31 * 2 ^ 63
  let e := n / 2 ^ 23 % 2 ^ 8
  let f := n % 2 ^ 23
  let magnitude :=
    if e = 255 then 2047 * 2 ^ 52 + f * 2 ^ 29
    else if e = 0 then
      if f = 0 then 0
      else (Nat.log2 f + 874) * 2 ^ 52 + (f - 2 ^ Nat.log2 f) * 2 ^ (52 - Nat.log2 f)
    else (e + 896) * 2 ^ 52 + f * 2 ^ 29
  ⟨UInt64.ofNat (sign + magnitude)⟩

/-- Equality of numbers: a NaN equals nothing, the two zeros are equal. -/
def eqv (a b : Binary64) : Bool :=
  !a.isNaN && !b.isNaN && (a.bits = b.bits || (a.isZero && b.isZero))

theorem eqv_self {a : Binary64} : a.eqv a = !a.isNaN := by
  simp [eqv]

end Binary64

end VersatileEngine
