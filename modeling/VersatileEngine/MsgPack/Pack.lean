import VersatileEngine.Lib.Binary64
import Mathlib.Data.List.Basic

/-!
# VersatileEngine.MsgPack.Pack

The writing half of the vendored msgpack: numbers in big-endian order and the `pack_*` members of
`msgpack::packer`, each as the bytes that it appends.

* `store` / `load` — big-endian bytes and back. `load_store` is the round trip.
* `packInt64`, `packUInt64`, `packDouble`, `packStr`, `packBin`, `packArray`, `packMap` — the shortest
  form that holds the number, as `pack.hpp` chooses it.

Lengths are `uint32_t` parameters there. Here they are numbers, and callers cast.
-/

namespace VersatileEngine.MsgPack

/-- `_msgpack_store<8k>`: the low `k` bytes, the highest first. -/
def store : Nat → Nat → List UInt8
  | 0, _ => []
  | k + 1, n => store k (n / 256) ++ [UInt8.ofNat n]

/-- The number that big-endian bytes denote. -/
def load (bs : List UInt8) : Nat := bs.foldl (fun n b => n * 256 + b.toNat) 0

@[simp] theorem length_store (k : Nat) : ∀ n, (store k n).length = k := by
  induction k with
  | zero => intro n; rfl
  | succ k ih => intro n; simp [store, ih]

theorem load_store (k : Nat) : ∀ n, load (store k n) = n % 256 ^ k := by
  induction k with
  | zero => intro n; simp [store, load, Nat.mod_one]
  | succ k ih =>
    intro n
    have hstep : load (store (k + 1) n) = load (store k (n / 256)) * 256 + n % 256 := by
      simp [load, store, List.foldl_append]
    rw [hstep, ih, Nat.pow_succ', Nat.mod_mul, Nat.add_comm, Nat.mul_comm]

theorem load_store_of_lt {k n : Nat} (h : n < 256 ^ k) : load (store k n) = n := by
  rw [load_store, Nat.mod_eq_of_lt h]

/-- Only the low bytes count. -/
theorem store_mod (k : Nat) : ∀ n, store k (n % 256 ^ k) = store k n := by
  induction k with
  | zero => intro n; rfl
  | succ k ih =>
    intro n
    have hhigh : n % 256 ^ (k + 1) / 256 = n / 256 % 256 ^ k := by
      rw [Nat.pow_succ', Nat.mod_mul_right_div_self]
    have hlow : UInt8.ofNat (n % 256 ^ (k + 1)) = UInt8.ofNat n := by
      apply UInt8.toNat_inj.mp
      rw [UInt8.toNat_ofNat', UInt8.toNat_ofNat', Nat.pow_succ', Nat.mod_mul_right_mod]
    rw [store, store, hhigh, hlow, ih]

theorem load_lt (bs : List UInt8) : load bs < 256 ^ bs.length := by
  have hall : ∀ (bs : List UInt8) (a m : Nat), a < 256 ^ m →
      bs.foldl (fun n b => n * 256 + b.toNat) a < 256 ^ (m + bs.length) := by
    intro bs
    induction bs with
    | nil => intro a m h; exact h
    | cons b bs ih =>
      intro a m h
      have hb := b.toNat_lt
      have hstep : a * 256 + b.toNat < 256 ^ (m + 1) := by
        rw [Nat.pow_succ]
        omega
      have hrest := ih _ _ hstep
      rw [List.length_cons, Nat.add_comm bs.length, ← Nat.add_assoc]
      exact hrest
  have h0 := hall bs 0 0 (by decide)
  rwa [Nat.zero_add] at h0

def packNil : List UInt8 := [0xc0]

def packBool (b : Bool) : List UInt8 := if b then [0xc3] else [0xc2]

/-- `pack_imp_uint64`. -/
def packUInt64 (d : UInt64) : List UInt8 :=
  let n := d.toNat
  if n < 2 ^ 8 then
    if n < 2 ^ 7 then store 1 n else 0xcc :: store 1 n
  else if n < 2 ^ 16 then 0xcd :: store 2 n
  else if n < 2 ^ 32 then 0xce :: store 4 n
  else 0xcf :: store 8 n

/-- `pack_imp_int64`. The stores take the low bytes of the two's complement. -/
def packInt64 (d : Int64) : List UInt8 :=
  let i := d.toInt
  let n := d.toUInt64.toNat
  if i < -2 ^ 5 then
    if i < -2 ^ 15 then
      if i < -2 ^ 31 then 0xd3 :: store 8 n else 0xd2 :: store 4 n
    else if i < -2 ^ 7 then 0xd1 :: store 2 n
    else 0xd0 :: store 1 n
  else if i < 2 ^ 7 then store 1 n
  else if i < 2 ^ 16 then
    if i < 2 ^ 8 then 0xcc :: store 1 n else 0xcd :: store 2 n
  else if i < 2 ^ 32 then 0xce :: store 4 n
  else 0xcf :: store 8 n

/-- The 64-bit integer in the place of which a double is packed: `none` for those packed as doubles.
The guard of the source lets `2^64` pass too; its conversion to `uint64_t` is undefined, and taken not
to give `2^64` back. -/
def integral? (d : Binary64) : Option (UInt64 ⊕ Int64) :=
  match d.toInt? with
  | some i =>
    if 0 ≤ i ∧ i < 2 ^ 64 then some (.inl (UInt64.ofNat i.toNat))
    else if i < 0 ∧ -2 ^ 63 ≤ i then some (.inr (Int64.ofInt i))
    else none
  | none => none

/-- `pack_double`. -/
def packDouble (d : Binary64) : List UInt8 :=
  match integral? d with
  | some (.inl n) => packUInt64 n
  | some (.inr i) => packInt64 i
  | none => 0xcb :: store 8 d.bits.toNat

/-- `pack_str`. -/
def packStr (l : Nat) : List UInt8 :=
  if l < 32 then store 1 (0xa0 + l)
  else if l < 256 then 0xd9 :: store 1 l
  else if l < 65536 then 0xda :: store 2 l
  else 0xdb :: store 4 l

/-- `pack_bin`. -/
def packBin (l : Nat) : List UInt8 :=
  if l < 256 then 0xc4 :: store 1 l
  else if l < 65536 then 0xc5 :: store 2 l
  else 0xc6 :: store 4 l

/-- `pack_array`. -/
def packArray (n : Nat) : List UInt8 :=
  if n < 16 then store 1 (0x90 + n)
  else if n < 65536 then 0xdc :: store 2 n
  else 0xdd :: store 4 n

/-- `pack_map`. -/
def packMap (n : Nat) : List UInt8 :=
  if n < 16 then store 1 (0x80 + n)
  else if n < 65536 then 0xde :: store 2 n
  else 0xdf :: store 4 n

end VersatileEngine.MsgPack
