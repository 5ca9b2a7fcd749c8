import VersatileEngine.Bin.Codec
import VersatileEngine.Lib.Utf8
import VersatileEngine.Sdk.Value

/-!
# VersatileEngine.Sdk.MsgPack

The encoder and the decoder inside `bin.ts`, and how they agree with those of the server.

* `msgpackEncode` — integers have at most 32 bits.
* `msgpackDecode` — all formats but the extensions; an integer of 64 bits becomes a number.
* `JsValue.toVar` — the value of the server that a value of the client corresponds to.
* `encode_eq_packVar`, `decode_packVar` — in the common range both encoders write the same bytes, and
  the decoder reads what the server packs.
* `msgpack_interop` — the two together.
-/

namespace VersatileEngine.Sdk

open MsgPack

/-! ### Encoder -/

/-- The low `k` bytes of a number in two's complement, as `DataView` stores it. -/
def setInt (k : Nat) (i : Int) : List UInt8 := store k (i % 256 ^ k).toNat

def encodeInt (i : Int) : List UInt8 :=
  if 0 ≤ i then
    if i < 128 then setInt 1 i
    else if i < 256 then 0xcc :: setInt 1 i
    else if i < 65536 then 0xcd :: setInt 2 i
    else 0xce :: setInt 4 i
  else if -32 ≤ i then setInt 1 i
  else if -128 ≤ i then 0xd0 :: setInt 1 i
  else if -32768 ≤ i then 0xd1 :: setInt 2 i
  else 0xd2 :: setInt 4 i

/-- A length in two or four bytes. -/
def longHeader (tag16 tag32 : UInt8) (len : Nat) : List UInt8 :=
  if len < 65536 then tag16 :: store 2 len else tag32 :: store 4 len

def strHeader (len : Nat) : List UInt8 :=
  if len < 32 then [UInt8.ofNat (0xa0 ||| len)]
  else if len < 256 then 0xd9 :: store 1 len
  else longHeader 0xda 0xdb len

def binHeader (len : Nat) : List UInt8 :=
  if len < 256 then 0xc4 :: store 1 len else longHeader 0xc5 0xc6 len

def arrayHeader (len : Nat) : List UInt8 :=
  if len < 16 then [UInt8.ofNat (0x90 ||| len)] else longHeader 0xdc 0xdd len

def mapHeader (len : Nat) : List UInt8 :=
  if len < 16 then [UInt8.ofNat (0x80 ||| len)] else longHeader 0xde 0xdf len

mutual
def encodeValue : JsValue → List UInt8
  | .undefined | .null => [0xc0]
  | .bool b => [if b then 0xc3 else 0xc2]
  | .int i => encodeInt i
  | .float d => 0xcb :: store 8 d.bits.toNat
  | .str s => strHeader s.length ++ s
  | .bytes b => binHeader b.length ++ b
  | .arr l => arrayHeader l.length ++ encodeItems l
  | .obj o => mapHeader o.length ++ encodeEntries o

def encodeItems : List JsValue → List UInt8
  | [] => []
  | v :: l => encodeValue v ++ encodeItems l

def encodeEntries : List (Str × JsValue) → List UInt8
  | [] => []
  | (k, v) :: o => strHeader k.length ++ k ++ encodeValue v ++ encodeEntries o
end

def msgpackEncode (v : JsValue) : List UInt8 := encodeValue v

/-! ### Decoder -/

/-- `new TextDecoder().decode(bytes)`: without a byte order mark, and with U+FFFD for what is no
character. -/
def textDecode (bytes : List UInt8) : Str :=
  Utf8.repair [] [] (if bytes.take 3 = [0xEF, 0xBB, 0xBF] then bytes.drop 3 else bytes)

/-- `Number(n)`: the nearest number with 53 significant bits, of two the even one. -/
def nearest53 (n : Nat) : Nat :=
  if n < 2 ^ 53 then n
  else
    let unit := 2 ^ (n.log2 - 52)
    let rest := n % unit
    if unit < 2 * rest ∨ (2 * rest = unit ∧ n / unit % 2 = 1) then (n / unit + 1) * unit
    else n / unit * unit

def ofBigInt (i : Int) : JsValue :=
  .int (if i < 0 then -(nearest53 i.natAbs : Int) else nearest53 i.natAbs)

def ofNumber (d : Binary64) : JsValue :=
  match d.toInt? with
  | some i => .int i
  | none => .float d

/-- `map[key] = value`. The key `__proto__` sets the prototype. -/
def setProperty (o : JsObject) (key : Str) (v : JsValue) : JsObject :=
  if key = ascii "__proto__" then o else assign o key v

/-- Between the bytes at the beginning of a value and those behind it; `none` for an exception. Behind
the end of the buffer there are no bytes. -/
abbrev Decode (α : Type) := List UInt8 → Option (α × List UInt8)

/-- A number of `k` bytes, read by a `DataView`. -/
def getUint (k : Nat) : Decode Nat := fun bs => if bs.length < k then none else some (load (bs.take k), bs.drop k)

/-- `buf[offset + 1]` as a length; `undefined` counts as zero, and there is nothing behind it. -/
def getByte : Decode Nat
  | [] => some (0, [])
  | b :: bs => some (b.toNat, bs)

def decodeStr (len : Nat) : Decode JsValue := fun bs => some (.str (textDecode (bs.take len)), bs.drop len)

def decodeBin (len : Nat) : Decode JsValue := fun bs => some (.bytes (bs.take len), bs.drop len)

section Decoder

-- `String(value)` of a key that is no string
variable (text : JsValue → Str)

def keyOf : JsValue → Str
  | .str s => s
  | v => text v

/-- The elements, appended to `arr`. -/
def decodeArray (value : Decode JsValue) : Nat → List JsValue → Decode JsValue
  | 0, arr => fun bs => some (.arr arr, bs)
  | count + 1, arr => fun bs =>
    (value bs).bind fun r => decodeArray value count (arr ++ [r.1]) r.2

/-- The properties, assigned to `map`. -/
def decodeMap (value : Decode JsValue) : Nat → JsObject → Decode JsValue
  | 0, map => fun bs => some (.obj map, bs)
  | count + 1, map => fun bs =>
    (value bs).bind fun kr =>
      (value kr.2).bind fun vr => decodeMap value count (setProperty map (keyOf text kr.1) vr.1) vr.2

/-- A number after its header. -/
def numberItem (k : Nat) (f : Nat → JsValue) : Decode JsValue := fun bs =>
  (getUint k bs).map fun r => (f r.1, r.2)

/-- A length of `k` bytes after a header, and what it belongs to. -/
def lengthItem (k : Nat) (item : Nat → Decode JsValue) : Decode JsValue := fun bs =>
  (getUint k bs).bind fun r => item r.1 r.2

/-- The same with a length that is the next byte. -/
def byteItem (item : Nat → Decode JsValue) : Decode JsValue := fun bs =>
  (getByte bs).bind fun r => item r.1 r.2

/-- `buf[offset + 1]` as a value. -/
def byteValue : Decode JsValue
  | [] => some (.undefined, [])
  | b :: bs => some (.int b.toNat, bs)

/-- The cases of the `switch`. -/
def decodeTagged (value : Decode JsValue) (tag : Nat) : Decode JsValue := fun bs =>
  match tag with
  | 0xc0 => some (.null, bs)
  | 0xc2 => some (.bool false, bs)
  | 0xc3 => some (.bool true, bs)
  | 0xc4 => byteItem decodeBin bs
  | 0xc5 => lengthItem 2 decodeBin bs
  | 0xc6 => lengthItem 4 decodeBin bs
  | 0xca => numberItem 4 (fun n => ofNumber (.ofBinary32 (UInt32.ofNat n))) bs
  | 0xcb => numberItem 8 (fun n => ofNumber ⟨UInt64.ofNat n⟩) bs
  | 0xcc => byteValue bs
  | 0xcd => numberItem 2 (fun n => .int n) bs
  | 0xce => numberItem 4 (fun n => .int n) bs
  | 0xd0 => numberItem 1 (fun n => .int (signed 1 n)) bs
  | 0xd1 => numberItem 2 (fun n => .int (signed 2 n)) bs
  | 0xd2 => numberItem 4 (fun n => .int (signed 4 n)) bs
  | 0xd9 => byteItem decodeStr bs
  | 0xda => lengthItem 2 decodeStr bs
  | 0xdb => lengthItem 4 decodeStr bs
  | 0xdc => lengthItem 2 (fun n => decodeArray value n []) bs
  | 0xdd => lengthItem 4 (fun n => decodeArray value n []) bs
  | 0xde => lengthItem 2 (fun n => decodeMap text value n []) bs
  | 0xdf => lengthItem 4 (fun n => decodeMap text value n []) bs
  | 0xcf => numberItem 8 (fun n => ofBigInt n) bs
  | 0xd3 => numberItem 8 (fun n => ofBigInt (signed 8 n)) bs
  | _ => none

/-- `decodeValue`. A value takes a byte, so the values inside are given less. -/
def decodeValue : Nat → Decode JsValue
  | 0, _ => none
  | _ + 1, [] => none
  | fuel + 1, b :: bs =>
    let byte := b.toNat
    if byte < 0x80 then some (.int byte, bs)
    else if byte < 0x90 then decodeMap text (decodeValue fuel) (byte - 0x80) [] bs
    else if byte < 0xa0 then decodeArray (decodeValue fuel) (byte - 0x90) [] bs
    else if byte < 0xc0 then decodeStr (byte - 0xa0) bs
    else if 0xe0 ≤ byte then some (.int (byte - 256), bs)
    else decodeTagged text (decodeValue fuel) byte bs

def msgpackDecode (buf : List UInt8) : Option JsValue := (decodeValue text buf.length buf).map Prod.fst

end Decoder

/-! ### Corresponding values -/

mutual
def toVar : JsValue → Var
  | .undefined | .null => .none
  | .bool b => .bool b
  | .int i => .int (Int64.ofInt i)
  | .float d => .double d
  | .str s => .string s
  | .bytes b => .bin b
  | .arr l => .list (toVars l)
  | .obj o => .dict (toDict o)

def toVars : List JsValue → List Var
  | [] => []
  | v :: l => toVar v :: toVars l

def toDict : List (Str × JsValue) → List (Str × Var)
  | [] => []
  | (k, v) :: o => (k, toVar v) :: toDict o
end

/-- Well-formed text that the decoder gives back as it is. -/
structure PlainText (s : Str) : Prop where
  valid : Utf8.Valid s
  unmarked : s.take 3 ≠ [0xEF, 0xBB, 0xBF]
  short : s.length < 2 ^ 32

/-- Values of `null`, booleans, integers in `ok`, texts, bytes, arrays and plain objects, nested at most
so deep, with lengths that fit in 32 bits. -/
inductive Plain (ok : Int → Prop) : Nat → JsValue → Prop
  | null {n : Nat} : Plain ok n .null
  | bool {n : Nat} (b : Bool) : Plain ok n (.bool b)
  | int {n : Nat} {i : Int} (h : ok i) : Plain ok n (.int i)
  | str {n : Nat} {s : Str} (h : PlainText s) : Plain ok n (.str s)
  | bytes {n : Nat} {b : List UInt8} (h : b.length < 2 ^ 32) : Plain ok n (.bytes b)
  | arr {n : Nat} {l : List JsValue} (hs : l.length < 2 ^ 32) (h : ∀ v ∈ l, Plain ok n v) :
      Plain ok (n + 1) (.arr l)
  | obj {n : Nat} {o : JsObject} (hs : o.length < 2 ^ 32) (hn : (o.map Prod.fst).Nodup)
      (hk : ∀ p ∈ o, PlainText p.1 ∧ p.1 ≠ ascii "__proto__") (h : ∀ p ∈ o, Plain ok n p.2) :
      Plain ok (n + 1) (.obj o)

/-- The integers that `encodeInt` has a format for. -/
def Int32Bit (i : Int) : Prop := -2 ^ 31 ≤ i ∧ i < 2 ^ 32

/-- The integers that a number represents exactly, as all smaller ones. -/
def SafeInt (i : Int) : Prop := -2 ^ 53 ≤ i ∧ i ≤ 2 ^ 53

/-! ### The encoders agree -/

theorem toVars_eq (l : List JsValue) : toVars l = l.map toVar := by
  induction l with
  | nil => rfl
  | cons v l ih => rw [toVars, ih]; rfl

theorem toDict_eq (o : JsObject) : toDict o = o.map fun p => (p.1, toVar p.2) := by
  induction o with
  | nil => rfl
  | cons p o ih =>
    obtain ⟨k, v⟩ := p
    rw [toDict, ih]
    rfl

theorem encodeItems_eq (l : List JsValue) : encodeItems l = l.flatMap encodeValue := by
  induction l with
  | nil => rfl
  | cons v l ih => rw [encodeItems, ih]; rfl

theorem encodeEntries_eq (o : JsObject) :
    encodeEntries o = o.flatMap fun p => strHeader p.1.length ++ p.1 ++ encodeValue p.2 := by
  induction o with
  | nil => rfl
  | cons p o ih =>
    obtain ⟨k, v⟩ := p
    rw [encodeEntries, ih]
    rfl

theorem strHeader_eq (len : Nat) : strHeader len = packStr len := by
  have hor : ∀ l < 32, 0xa0 ||| l = 0xa0 + l := by decide
  rw [strHeader, packStr]
  split_ifs with h
  · rw [hor len h]
    rfl
  · rfl
  · rw [longHeader]
    split_ifs
    rfl
  · rw [longHeader]
    split_ifs
    rfl

theorem binHeader_eq (len : Nat) : binHeader len = packBin len := by
  rw [binHeader, packBin, longHeader]

theorem arrayHeader_eq (len : Nat) : arrayHeader len = packArray len := by
  have hor : ∀ l < 16, 0x90 ||| l = 0x90 + l := by decide
  rw [arrayHeader, packArray, longHeader]
  split_ifs with h
  · rw [hor len h]
    rfl
  · rfl
  · rfl

theorem mapHeader_eq (len : Nat) : mapHeader len = packMap len := by
  have hor : ∀ l < 16, 0x80 ||| l = 0x80 + l := by decide
  rw [mapHeader, packMap, longHeader]
  split_ifs with h
  · rw [hor len h]
    rfl
  · rfl
  · rfl

theorem toInt_ofInt {i : Int} (h : -2 ^ 63 ≤ i ∧ i < 2 ^ 63) : (Int64.ofInt i).toInt = i :=
  Int64.toInt_ofInt_of_le h.1 h.2

/-- The low bytes of a 64-bit integer are those of the integer. -/
theorem store_int64 {i : Int} {k : Nat} (h : -2 ^ 63 ≤ i ∧ i < 2 ^ 63) (hk : k = 1 ∨ k = 2 ∨ k = 4 ∨ k = 8) :
    store k (Int64.ofInt i).toUInt64.toNat = setInt k i := by
  have hi := toInt_eq (Int64.ofInt i)
  rw [toInt_ofInt h] at hi
  have hlt := (Int64.ofInt i).toUInt64.toNat_lt
  rw [setInt, ← store_mod]
  congr 1
  split_ifs at hi
  · rcases hk with rfl | rfl | rfl | rfl <;> omega
  · rcases hk with rfl | rfl | rfl | rfl <;> omega

theorem encodeInt_eq {i : Int} (h : Int32Bit i) : encodeInt i = packInt64 (Int64.ofInt i) := by
  obtain ⟨hlo, hhi⟩ := h
  have hrange : -2 ^ 63 ≤ i ∧ i < 2 ^ 63 := by omega
  have h1 := store_int64 hrange (.inl rfl)
  have h2 := store_int64 hrange (.inr (.inl rfl))
  have h4 := store_int64 hrange (.inr (.inr (.inl rfl)))
  rw [encodeInt, packInt64]
  simp only [toInt_ofInt hrange, h1, h2, h4]
  split_ifs <;> first | rfl | omega

/-- **Both encoders write the same bytes** in the range that the client supports. -/
theorem encode_eq_packVar {n : Nat} {v : JsValue} (h : Plain Int32Bit n v) :
    encodeValue v = packVar (toVar v) := by
  induction h with
  | null => rfl
  | bool b => cases b <;> rfl
  | int h => exact encodeInt_eq h
  | str h => rw [encodeValue, toVar, packVar, u32_of_lt h.short, strHeader_eq]
  | bytes h => rw [encodeValue, toVar, packVar, u32_of_lt h, binHeader_eq]
  | @arr n l hs _ ih =>
    rw [encodeValue, toVar, packVar, toVars_eq, List.length_map, u32_of_lt hs, arrayHeader_eq,
      encodeItems_eq, packItems_eq, List.flatMap_map]
    exact congrArg (packArray l.length ++ ·) (List.flatMap_congr ih)
  | @obj n o hs _ hk _ ih =>
    rw [encodeValue, toVar, packVar, toDict_eq, List.length_map, u32_of_lt hs, mapHeader_eq,
      encodeEntries_eq, packEntries_eq, List.flatMap_map]
    refine congrArg (packMap o.length ++ ·) (List.flatMap_congr fun p hp => ?_)
    rw [ih p hp, u32_of_lt (hk p hp).1.short, strHeader_eq]

/-! ### The number of turns does not matter -/

/-- The two readers agree on buffers of at most `n` bytes. -/
def Agree (n : Nat) (f g : Decode JsValue) : Prop := ∀ bs, bs.length ≤ n → f bs = g bs

/-- What is behind a value is no longer than the buffer. -/
def Shrinks (f : Decode JsValue) : Prop := ∀ bs v rest, f bs = some (v, rest) → rest.length ≤ bs.length

section Turns

variable {text : JsValue → Str} {f g : Decode JsValue} {n k : Nat}

theorem getUint_length {bs rest : List UInt8} {m : Nat} (h : getUint k bs = some (m, rest)) :
    rest.length ≤ bs.length := by
  rw [getUint] at h
  split_ifs at h
  rw [← (Prod.mk.inj (Option.some.inj h)).2, List.length_drop]
  exact Nat.sub_le _ _

theorem getByte_length {bs rest : List UInt8} {m : Nat} (h : getByte bs = some (m, rest)) :
    rest.length ≤ bs.length := by
  cases bs with
  | nil =>
    cases h
    exact Nat.le_refl _
  | cons b bs =>
    cases h
    exact Nat.le_succ _

theorem shrinks_decodeStr (m : Nat) : Shrinks (decodeStr m) := by
  intro bs v rest h
  rw [← (Prod.mk.inj (Option.some.inj h)).2, List.length_drop]
  exact Nat.sub_le _ _

theorem shrinks_decodeBin (m : Nat) : Shrinks (decodeBin m) := by
  intro bs v rest h
  rw [← (Prod.mk.inj (Option.some.inj h)).2, List.length_drop]
  exact Nat.sub_le _ _

theorem shrinks_byteValue : Shrinks byteValue := by
  intro bs v rest h
  cases bs with
  | nil =>
    cases h
    exact Nat.le_refl _
  | cons b bs =>
    cases h
    exact Nat.le_succ _

theorem shrinks_byteItem {item : Nat → Decode JsValue} (hi : ∀ m, Shrinks (item m)) :
    Shrinks (byteItem item) := by
  intro bs v rest h
  obtain ⟨r, hr, h⟩ := Option.bind_eq_some_iff.mp h
  exact (hi _ _ _ _ h).trans (getByte_length hr)

theorem shrinks_numberItem {item : Nat → JsValue} : Shrinks (numberItem k item) := by
  intro bs v rest h
  obtain ⟨r, hr, he⟩ := Option.map_eq_some_iff.mp h
  rw [← (Prod.mk.inj he).2]
  exact getUint_length hr

theorem shrinks_lengthItem {item : Nat → Decode JsValue} (hi : ∀ m, Shrinks (item m)) :
    Shrinks (lengthItem k item) := by
  intro bs v rest h
  obtain ⟨r, hr, h⟩ := Option.bind_eq_some_iff.mp h
  exact (hi _ _ _ _ h).trans (getUint_length hr)

theorem shrinks_decodeArray (hf : Shrinks f) (count : Nat) : ∀ arr, Shrinks (decodeArray f count arr) := by
  induction count with
  | zero =>
    intro arr bs v rest h
    cases h
    exact Nat.le_refl _
  | succ count ih =>
    intro arr bs v rest h
    obtain ⟨r, hr, h⟩ := Option.bind_eq_some_iff.mp h
    exact (ih _ _ _ _ h).trans (hf _ _ _ hr)

theorem shrinks_decodeMap (hf : Shrinks f) (count : Nat) : ∀ map, Shrinks (decodeMap text f count map) := by
  induction count with
  | zero =>
    intro map bs v rest h
    cases h
    exact Nat.le_refl _
  | succ count ih =>
    intro map bs v rest h
    obtain ⟨kr, hk, h⟩ := Option.bind_eq_some_iff.mp h
    obtain ⟨vr, hv, h⟩ := Option.bind_eq_some_iff.mp h
    exact (ih _ _ _ _ h).trans ((hf _ _ _ hv).trans (hf _ _ _ hk))

theorem shrinks_decodeTagged (hf : Shrinks f) (tag : Nat) : Shrinks (decodeTagged text f tag) := by
  intro bs v rest h
  unfold decodeTagged at h
  split at h
  all_goals first
    | exact shrinks_byteItem shrinks_decodeBin _ _ _ h
    | exact shrinks_byteItem shrinks_decodeStr _ _ _ h
    | exact shrinks_lengthItem shrinks_decodeBin _ _ _ h
    | exact shrinks_lengthItem shrinks_decodeStr _ _ _ h
    | exact shrinks_lengthItem (fun m => shrinks_decodeArray hf m []) _ _ _ h
    | exact shrinks_lengthItem (fun m => shrinks_decodeMap hf m []) _ _ _ h
    | exact shrinks_numberItem _ _ _ h
    | exact shrinks_byteValue _ _ _ h
    | exact Nat.le_of_eq (congrArg List.length (Prod.mk.inj (Option.some.inj h)).2.symm)
    | cases h

theorem shrinks_decodeValue (fuel : Nat) : Shrinks (decodeValue text fuel) := by
  induction fuel with
  | zero => exact fun bs v rest h => (by cases h)
  | succ fuel ih =>
    intro bs v rest h
    cases bs with
    | nil => cases h
    | cons b bs =>
      simp only [decodeValue] at h
      rw [List.length_cons]
      split_ifs at h
      · cases h
        exact Nat.le_succ _
      · exact (shrinks_decodeMap ih _ _ _ _ _ h).trans (Nat.le_succ _)
      · exact (shrinks_decodeArray ih _ _ _ _ _ h).trans (Nat.le_succ _)
      · exact (shrinks_decodeStr _ _ _ _ h).trans (Nat.le_succ _)
      · cases h
        exact Nat.le_succ _
      · exact (shrinks_decodeTagged ih _ _ _ _ h).trans (Nat.le_succ _)

theorem agree_decodeArray (h : Agree n f g) (hf : Shrinks f) (count : Nat) :
    ∀ arr, Agree n (decodeArray f count arr) (decodeArray g count arr) := by
  induction count with
  | zero => exact fun arr bs _ => rfl
  | succ count ih =>
    intro arr bs hl
    simp only [decodeArray, ← h bs hl]
    cases hr : f bs with
    | none => rfl
    | some r => exact ih _ _ ((hf bs r.1 r.2 hr).trans hl)

theorem agree_decodeMap (h : Agree n f g) (hf : Shrinks f) (count : Nat) :
    ∀ map, Agree n (decodeMap text f count map) (decodeMap text g count map) := by
  induction count with
  | zero => exact fun map bs _ => rfl
  | succ count ih =>
    intro map bs hl
    simp only [decodeMap, ← h bs hl]
    cases hk : f bs with
    | none => rfl
    | some kr =>
      have hkl := (hf bs kr.1 kr.2 hk).trans hl
      simp only [Option.bind_some]
      rw [← h kr.2 hkl]
      cases hv : f kr.2 with
      | none => rfl
      | some vr => exact ih _ _ ((hf kr.2 vr.1 vr.2 hv).trans hkl)

theorem agree_lengthItem {item item' : Nat → Decode JsValue} (h : ∀ m, Agree n (item m) (item' m)) :
    Agree n (lengthItem k item) (lengthItem k item') := by
  intro bs hl
  simp only [lengthItem]
  cases hr : getUint k bs with
  | none => rfl
  | some r => exact h r.1 r.2 ((getUint_length hr).trans hl)

theorem agree_decodeTagged (h : Agree n f g) (hf : Shrinks f) (tag : Nat) :
    Agree n (decodeTagged text f tag) (decodeTagged text g tag) := by
  intro bs hl
  unfold decodeTagged
  split
  all_goals first
    | rfl
    | exact agree_lengthItem (fun m => agree_decodeArray h hf m []) bs hl
    | exact agree_lengthItem (fun m => agree_decodeMap h hf m []) bs hl

/-- As many turns as there are bytes are enough. -/
theorem decodeValue_fuel (n : Nat) : ∀ m, n ≤ m → Agree n (decodeValue text n) (decodeValue text m) := by
  induction n with
  | zero =>
    intro m _ bs hl
    cases List.eq_nil_of_length_eq_zero (Nat.le_zero.mp hl)
    cases m <;> rfl
  | succ n ih =>
    intro m hm bs hl
    cases m with
    | zero => cases hm
    | succ m =>
      cases bs with
      | nil => rfl
      | cons b bs =>
        have h := ih m (Nat.le_of_succ_le_succ hm)
        have hl : bs.length ≤ n := Nat.le_of_succ_le_succ hl
        have hf : Shrinks (decodeValue text n) := shrinks_decodeValue n
        simp only [decodeValue]
        split_ifs
        · rfl
        · exact agree_decodeMap h hf _ _ bs hl
        · exact agree_decodeArray h hf _ _ bs hl
        · rfl
        · rfl
        · exact agree_decodeTagged h hf _ bs hl

theorem msgpackDecode_eq {buf : List UInt8} {m : Nat} (h : buf.length ≤ m) :
    msgpackDecode text buf = (decodeValue text m buf).map Prod.fst := by
  rw [msgpackDecode, decodeValue_fuel _ m h buf (Nat.le_refl _)]

end Turns

/-! ### Reading what the server packs -/

section Reading

variable {text : JsValue → Str} {k n : Nat}

/-- With `k` turns the bytes are read as `v`. -/
def DecodesAs (text : JsValue → Str) (k : Nat) (bytes : List UInt8) (v : JsValue) : Prop :=
  ∀ rest, decodeValue text k (bytes ++ rest) = some (v, rest)

theorem getUint_store {m : Nat} (hm : m < 256 ^ k) (rest : List UInt8) :
    getUint k (store k m ++ rest) = some (m, rest) := by
  rw [getUint, if_neg (by simp), List.take_left' (length_store k m), List.drop_left' (length_store k m),
    load_store_of_lt hm]

theorem lengthItem_store {m : Nat} (item : Nat → Decode JsValue) (hm : m < 256 ^ k) (rest : List UInt8) :
    lengthItem k item (store k m ++ rest) = item m rest := by
  rw [lengthItem, getUint_store hm]
  rfl

theorem numberItem_store {m : Nat} {item : Nat → JsValue} (hm : m < 256 ^ k) (rest : List UInt8) :
    numberItem k item (store k m ++ rest) = some (item m, rest) := by
  rw [numberItem, getUint_store hm]
  rfl

theorem toNat_ofNat {m : Nat} (h : m < 256) : (UInt8.ofNat m).toNat = m := by
  rw [UInt8.toNat_ofNat']
  exact Nat.mod_eq_of_lt h

theorem byteItem_store {m : Nat} {item : Nat → Decode JsValue} (hm : m < 256) (rest : List UInt8) :
    byteItem item (store 1 m ++ rest) = item m rest := by
  have hbyte : getByte (store 1 m ++ rest) = some (m, rest) :=
    congrArg (fun b => some (b, rest)) (toNat_ofNat hm)
  rw [byteItem, hbyte]
  rfl

/-- A first byte. -/
theorem decode_byte {m : Nat} (h : m < 256) (bs : List UInt8) :
    decodeValue text (k + 1) (store 1 m ++ bs) =
      if m < 0x80 then some (.int m, bs)
      else if m < 0x90 then decodeMap text (decodeValue text k) (m - 0x80) [] bs
      else if m < 0xa0 then decodeArray (decodeValue text k) (m - 0x90) [] bs
      else if m < 0xc0 then decodeStr (m - 0xa0) bs
      else if 0xe0 ≤ m then some (.int (m - 256), bs)
      else decodeTagged text (decodeValue text k) m bs := by
  have hstore : store 1 m ++ bs = UInt8.ofNat m :: bs := rfl
  rw [hstore]
  simp only [decodeValue, toNat_ofNat h]

theorem decode_tag {c : UInt8} (h : 0xc0 ≤ c.toNat ∧ c.toNat < 0xe0) (bs : List UInt8) :
    decodeValue text (k + 1) (c :: bs) = decodeTagged text (decodeValue text k) c.toNat bs := by
  simp only [decodeValue]
  rw [if_neg (by omega), if_neg (by omega), if_neg (by omega), if_neg (by omega), if_neg (by omega)]

theorem textDecode_plain {s : Str} (h : PlainText s) : textDecode s = s := by
  rw [textDecode, if_neg h.unmarked, Utf8.repair_valid h.valid]

theorem decodeStr_append {s : Str} (h : PlainText s) (rest : List UInt8) :
    decodeStr s.length (s ++ rest) = some (.str s, rest) := by
  rw [decodeStr, List.take_left, List.drop_left, textDecode_plain h]

theorem decodeBin_append (b rest : List UInt8) : decodeBin b.length (b ++ rest) = some (.bytes b, rest) := by
  rw [decodeBin, List.take_left, List.drop_left]

theorem decodes_str {s : Str} (h : PlainText s) :
    DecodesAs text (k + 1) (packStr s.length ++ s) (.str s) := by
  have hs := h.short
  intro rest
  rw [List.append_assoc, packStr, ← decodeStr_append h rest]
  split_ifs with h5 h8 h16
  · rw [decode_byte (by omega), if_neg (by omega), if_neg (by omega), if_neg (by omega),
      if_pos (by omega), Nat.add_sub_cancel_left]
  · exact (decode_tag (by decide) _).trans (byteItem_store h8 _)
  · exact (decode_tag (by decide) _).trans (lengthItem_store (k := 2) _ (by omega) _)
  · exact (decode_tag (by decide) _).trans (lengthItem_store (k := 4) _ (by omega) _)

theorem decodes_bin {b : List UInt8} (h : b.length < 2 ^ 32) :
    DecodesAs text (k + 1) (packBin b.length ++ b) (.bytes b) := by
  intro rest
  rw [List.append_assoc, packBin, ← decodeBin_append b rest]
  split_ifs with h8 h16
  · exact (decode_tag (by decide) _).trans (byteItem_store h8 _)
  · exact (decode_tag (by decide) _).trans (lengthItem_store (k := 2) _ (by omega) _)
  · exact (decode_tag (by decide) _).trans (lengthItem_store (k := 4) _ (by omega) _)

theorem nearest53_small {m : Nat} (h : m ≤ 2 ^ 53) : nearest53 m = m := by
  rw [nearest53]
  split_ifs with h1
  · rfl
  · cases Nat.le_antisymm h (Nat.not_lt.mp h1)
    decide +kernel

theorem ofBigInt_safe {i : Int} (h : SafeInt i) : ofBigInt i = .int i := by
  have habs : i.natAbs ≤ 2 ^ 53 := by
    have h1 := h.1
    have h2 := h.2
    omega
  rw [ofBigInt, nearest53_small habs]
  split_ifs with hneg
  · congr 1
    omega
  · congr 1
    omega

/-- The number in the low bytes of a negative number. -/
theorem signed_setInt {i : Int} (hk : k = 1 ∨ k = 2 ∨ k = 4 ∨ k = 8)
    (h : -2 ^ (8 * k - 1) ≤ i ∧ i < 0) : signed k (i % 256 ^ k).toNat = i := by
  rw [signed]
  rcases hk with rfl | rfl | rfl | rfl
  · rw [if_neg (by omega)]
    omega
  · rw [if_neg (by omega)]
    omega
  · rw [if_neg (by omega)]
    omega
  · rw [if_neg (by omega)]
    omega

theorem decodes_int {i : Int} (h : SafeInt i) :
    DecodesAs text (k + 1) (packInt64 (Int64.ofInt i)) (.int i) := by
  obtain ⟨hlo, hhi⟩ := h
  have hrange : -2 ^ 63 ≤ i ∧ i < 2 ^ 63 := by omega
  have h1 := store_int64 hrange (.inl rfl)
  have h2 := store_int64 hrange (.inr (.inl rfl))
  have h4 := store_int64 hrange (.inr (.inr (.inl rfl)))
  have h8 := store_int64 hrange (.inr (.inr (.inr rfl)))
  intro rest
  rw [packInt64]
  simp only [toInt_ofInt hrange, h1, h2, h4, h8]
  -- a number behind a header
  have hnum : ∀ {c : UInt8} {j : Nat} (f : Nat → JsValue), 0xc0 ≤ c.toNat ∧ c.toNat < 0xe0 →
      (∀ bs, decodeTagged text (decodeValue text k) c.toNat bs = numberItem j f bs) →
      f (i % 256 ^ j).toNat = .int i → (i % 256 ^ j).toNat < 256 ^ j →
      decodeValue text (k + 1) (c :: setInt j i ++ rest) = some (.int i, rest) := by
    intro c j f hc ht hf hj
    rw [List.cons_append, decode_tag hc, ht, setInt, numberItem_store hj, hf]
  split_ifs with n5 n15 n31 n7 p7 p16 p8 p32
  · refine hnum (fun n => ofBigInt (signed 8 n)) (by decide) (fun _ => rfl) ?_ (by omega)
    rw [signed_setInt (by simp) (by omega), ofBigInt_safe ⟨hlo, hhi⟩]
  · refine hnum (fun n => .int (signed 4 n)) (by decide) (fun _ => rfl) ?_ (by omega)
    rw [signed_setInt (by simp) (by omega)]
  · refine hnum (fun n => .int (signed 2 n)) (by decide) (fun _ => rfl) ?_ (by omega)
    rw [signed_setInt (by simp) (by omega)]
  · refine hnum (fun n => .int (signed 1 n)) (by decide) (fun _ => rfl) ?_ (by omega)
    rw [signed_setInt (by simp) (by omega)]
  · rw [setInt, decode_byte (by omega)]
    by_cases h0 : 0 ≤ i
    · rw [if_pos (by omega)]
      congr
      omega
    · rw [if_neg (by omega), if_neg (by omega), if_neg (by omega), if_neg (by omega), if_pos (by omega)]
      congr
      omega
  · have hbyte : byteValue (setInt 1 i ++ rest) = some (.int i, rest) := by
      rw [setInt]
      refine congrArg some (Prod.ext (congrArg JsValue.int ?_) rfl)
      rw [toNat_ofNat (by omega)]
      omega
    rw [List.cons_append, decode_tag (by decide)]
    exact hbyte
  · refine hnum (fun n => .int n) (by decide) (fun _ => rfl) ?_ (by omega)
    exact congrArg JsValue.int (by omega)
  · refine hnum (fun n => .int n) (by decide) (fun _ => rfl) ?_ (by omega)
    exact congrArg JsValue.int (by omega)
  · refine hnum (fun n => ofBigInt n) (by decide) (fun _ => rfl) ?_ (by omega)
    have hsame : (((i % 256 ^ 8).toNat : Nat) : Int) = i := by omega
    rw [hsame, ofBigInt_safe ⟨hlo, hhi⟩]

theorem decodes_array {l : List JsValue} {f : JsValue → List UInt8} (hs : l.length < 2 ^ 32)
    (h : ∀ v ∈ l, DecodesAs text k (f v) v) :
    DecodesAs text (k + 1) (packArray l.length ++ l.flatMap f) (.arr l) := by
  have hitems : ∀ (l : List JsValue), (∀ v ∈ l, DecodesAs text k (f v) v) → ∀ arr rest,
      decodeArray (decodeValue text k) l.length arr (l.flatMap f ++ rest) = some (.arr (arr ++ l), rest) := by
    intro l
    induction l with
    | nil =>
      intro _ arr rest
      rw [List.append_nil]
      rfl
    | cons v l ih =>
      intro h arr rest
      rw [List.forall_mem_cons] at h
      rw [List.flatMap_cons, List.append_assoc, List.length_cons]
      simp only [decodeArray]
      rw [h.1, Option.bind_some, ih h.2, List.append_assoc]
      rfl
  intro rest
  have hrest := hitems l h [] rest
  rw [List.nil_append] at hrest
  rw [List.append_assoc, packArray, ← hrest]
  split_ifs with h4 h16
  · rw [decode_byte (by omega), if_neg (by omega), if_neg (by omega), if_pos (by omega),
      Nat.add_sub_cancel_left]
  · exact (decode_tag (by decide) _).trans
      (lengthItem_store (k := 2) (fun n => decodeArray (decodeValue text k) n []) (by omega) _)
  · exact (decode_tag (by decide) _).trans
      (lengthItem_store (k := 4) (fun n => decodeArray (decodeValue text k) n []) (by omega) _)

theorem decodes_map (fk : Str → List UInt8) (fv : JsValue → List UInt8) {o : JsObject}
    (hs : o.length < 2 ^ 32) (hn : (o.map Prod.fst).Nodup) (hp : ∀ p ∈ o, p.1 ≠ ascii "__proto__")
    (hk : ∀ p ∈ o, DecodesAs text k (fk p.1) (.str p.1)) (hv : ∀ p ∈ o, DecodesAs text k (fv p.2) p.2) :
    DecodesAs text (k + 1) (packMap o.length ++ o.flatMap fun p => fk p.1 ++ fv p.2) (.obj o) := by
  have hentries : ∀ (o map : JsObject), ((map ++ o).map Prod.fst).Nodup →
      (∀ p ∈ o, p.1 ≠ ascii "__proto__") → (∀ p ∈ o, DecodesAs text k (fk p.1) (.str p.1)) →
      (∀ p ∈ o, DecodesAs text k (fv p.2) p.2) → ∀ rest,
      decodeMap text (decodeValue text k) o.length map ((o.flatMap fun p => fk p.1 ++ fv p.2) ++ rest) =
        some (.obj (map ++ o), rest) := by
    intro o
    induction o with
    | nil =>
      intro map _ _ _ _ rest
      rw [List.append_nil]
      rfl
    | cons p o ih =>
      intro map hn hp hk hv rest
      rw [List.forall_mem_cons] at hp hk hv
      have hnew : p.1 ∉ map.map Prod.fst := by
        intro hmem
        rw [List.map_append, List.nodup_append] at hn
        exact hn.2.2 _ hmem _ (by simp) rfl
      have hset : setProperty map p.1 p.2 = map ++ [p] := by
        rw [setProperty, if_neg hp.1, assign_new p.2 hnew]
      have hnext : ((map ++ [p] ++ o).map Prod.fst).Nodup := by rwa [List.append_assoc]
      rw [List.flatMap_cons, List.append_assoc, List.append_assoc, List.length_cons]
      simp only [decodeMap]
      rw [hk.1, Option.bind_some, hv.1, Option.bind_some, keyOf, hset, ih (map ++ [p]) hnext hp.2 hk.2 hv.2,
        List.append_assoc]
      rfl
  intro rest
  have hrest := hentries o [] hn hp hk hv rest
  rw [List.nil_append] at hrest
  rw [List.append_assoc, packMap, ← hrest]
  split_ifs with h4 h16
  · rw [decode_byte (by omega), if_neg (by omega), if_pos (by omega), Nat.add_sub_cancel_left]
  · exact (decode_tag (by decide) _).trans
      (lengthItem_store (k := 2) (fun n => decodeMap text (decodeValue text k) n []) (by omega) _)
  · exact (decode_tag (by decide) _).trans
      (lengthItem_store (k := 4) (fun n => decodeMap text (decodeValue text k) n []) (by omega) _)

/-- **The decoder reads what the server packs.** -/
theorem decode_packVar {v : JsValue} (h : Plain SafeInt n v) :
    ∀ k, n < k → DecodesAs text k (packVar (toVar v)) v := by
  induction h with
  | null =>
    intro k hk rest
    obtain ⟨k, rfl⟩ := Nat.exists_eq_succ_of_ne_zero (Nat.ne_of_gt (Nat.zero_lt_of_lt hk))
    rfl
  | bool b =>
    intro k hk rest
    obtain ⟨k, rfl⟩ := Nat.exists_eq_succ_of_ne_zero (Nat.ne_of_gt (Nat.zero_lt_of_lt hk))
    cases b <;> rfl
  | int h =>
    intro k hk
    obtain ⟨k, rfl⟩ := Nat.exists_eq_succ_of_ne_zero (Nat.ne_of_gt (Nat.zero_lt_of_lt hk))
    exact decodes_int h
  | str h =>
    intro k hk
    obtain ⟨k, rfl⟩ := Nat.exists_eq_succ_of_ne_zero (Nat.ne_of_gt (Nat.zero_lt_of_lt hk))
    rw [toVar, packVar, u32_of_lt h.short]
    exact decodes_str h
  | bytes h =>
    intro k hk
    obtain ⟨k, rfl⟩ := Nat.exists_eq_succ_of_ne_zero (Nat.ne_of_gt (Nat.zero_lt_of_lt hk))
    rw [toVar, packVar, u32_of_lt h]
    exact decodes_bin h
  | @arr n l hs _ ih =>
    intro k hk
    obtain ⟨k, rfl⟩ := Nat.exists_eq_succ_of_ne_zero (Nat.ne_of_gt (Nat.zero_lt_of_lt hk))
    rw [toVar, packVar, toVars_eq, List.length_map, u32_of_lt hs, packItems_eq, List.flatMap_map]
    exact decodes_array hs fun v hv => ih v hv k (Nat.lt_of_succ_lt_succ hk)
  | @obj n o hs hn hkeys _ ih =>
    intro k hk
    obtain ⟨k, rfl⟩ := Nat.exists_eq_succ_of_ne_zero (Nat.ne_of_gt (Nat.zero_lt_of_lt hk))
    have hlt := Nat.lt_of_succ_lt_succ hk
    obtain ⟨k, rfl⟩ := Nat.exists_eq_succ_of_ne_zero (Nat.ne_of_gt (Nat.zero_lt_of_lt hlt))
    rw [toVar, packVar, toDict_eq, List.length_map, u32_of_lt hs, packEntries_eq, List.flatMap_map]
    refine decodes_map (fun s => packStr (u32 s.length) ++ s) (fun v => packVar (toVar v)) hs hn
      (fun p hp => (hkeys p hp).2) (fun p hp => ?_) fun p hp => ih p hp _ hlt
    rw [u32_of_lt (hkeys p hp).1.short]
    exact decodes_str (hkeys p hp).1

end Reading

/-! ### Interoperability -/

theorem Plain.mono {ok ok' : Int → Prop} (hok : ∀ i, ok i → ok' i) {n : Nat} {v : JsValue}
    (h : Plain ok n v) : Plain ok' n v := by
  induction h with
  | null => exact .null
  | bool b => exact .bool b
  | int h => exact .int (hok _ h)
  | str h => exact .str h
  | bytes h => exact .bytes h
  | arr hs _ ih => exact .arr hs ih
  | obj hs hn hk _ ih => exact .obj hs hn hk ih

theorem Int32Bit.safe {i : Int} (h : Int32Bit i) : SafeInt i := by
  obtain ⟨hlo, hhi⟩ := h
  exact ⟨by omega, by omega⟩

theorem Plain.fits {ok : Int → Prop} {n : Nat} {v : JsValue} (h : Plain ok n v) :
    (toVar v).Fits (fun _ => True) n := by
  induction h with
  | null => exact .none
  | bool b => exact .bool b
  | int h => exact .int _
  | str h => exact .string h.short
  | bytes h => exact .bin h
  | @arr n l hs _ ih =>
    rw [toVar, toVars_eq]
    refine .list (by rwa [List.length_map]) fun w hw => ?_
    obtain ⟨v, hv, rfl⟩ := List.mem_map.mp hw
    exact ih v hv
  | @obj n o hs _ hk _ ih =>
    rw [toVar, toDict_eq]
    refine .dict (by rwa [List.length_map]) (fun q hq => ?_) fun q hq => ?_
    · obtain ⟨p, hp, rfl⟩ := List.mem_map.mp hq
      exact (hk p hp).1.short
    · obtain ⟨p, hp, rfl⟩ := List.mem_map.mp hq
      exact ih p hp

/-- What the server unpacks is the value itself. -/
theorem unpackVar_toVar {ok : Int → Prop} {n : Nat} {v : JsValue} (h : Plain ok n v) :
    unpackVar (objectOf (toVar v)) = toVar v := by
  induction h with
  | null => rfl
  | bool b => rfl
  | int h => exact unpackVar_int _
  | str h => rfl
  | bytes h => rfl
  | @arr n l hs _ ih =>
    rw [toVar, unpackVar_list, toVars_eq, List.map_map]
    exact congrArg Var.list (List.map_congr_left ih)
  | @obj n o hs hn _ _ ih =>
    rw [toVar, unpackVar_dict, toDict_eq, List.map_map]
    · exact congrArg Var.dict (List.map_congr_left fun p hp => congrArg (Prod.mk p.1) (ih p hp))
    · rwa [toDict_eq, List.map_map]

/-- **The client and the server understand each other**: the server reads what the client encodes as
the corresponding value, and the client reads it as the same one; and the client reads what the server
packs, of integers up to `2^53`. -/
theorem msgpack_interop (text : JsValue → Str) :
    (∀ v, Plain Int32Bit depthLimit v → ∀ more,
      readVar (some (msgpackEncode v ++ more)) = (toVar v, some more) ∧
        msgpackDecode text (msgpackEncode v) = some v) ∧
    ∀ v, Plain SafeInt depthLimit v → msgpackDecode text (packVar (toVar v)) = some v := by
  have hdecode : ∀ v, Plain SafeInt depthLimit v → msgpackDecode text (packVar (toVar v)) = some v := by
    intro v h
    have hread := @decode_packVar text _ _ h (max (packVar (toVar v)).length (depthLimit + 1)) (by omega) []
    rw [List.append_nil] at hread
    rw [msgpackDecode_eq (Nat.le_max_left _ (depthLimit + 1)), hread]
    rfl
  refine ⟨fun v h more => ?_, hdecode⟩
  rw [msgpackEncode, encode_eq_packVar h, readVar_packVar h.fits, unpackVar_toVar h]
  exact ⟨rfl, hdecode v (h.mono fun i => Int32Bit.safe)⟩

/-- A larger integer is cut to 32 bits. -/
theorem msgpack_wide_integer : ¬ ∀ (text : JsValue → Str) (v : JsValue), Plain SafeInt depthLimit v →
    msgpackDecode text (msgpackEncode v) = some v := by
  intro h
  have h := h (fun _ => []) (.int (2 ^ 32)) (.int ⟨by omega, by omega⟩)
  have hzero : msgpackDecode (fun _ => []) (msgpackEncode (.int (2 ^ 32))) = some (.int 0) := rfl
  rw [hzero] at h
  cases h

/-- An object with a text, bytes and the boundaries of the integers. -/
theorem msgpack_interop_sample :
    let v : JsValue := .obj [(ascii "a", .arr [.int (-2 ^ 31), .int (2 ^ 32 - 1), .null]),
      (ascii "b", .bytes [0, 255])]
    msgpackDecode (fun _ => []) (msgpackEncode v) = some v := by
  have hints : ∀ n, ∀ w ∈ [JsValue.int (-2 ^ 31), .int (2 ^ 32 - 1), .null], Plain Int32Bit n w := by
    intro n
    simp only [List.forall_mem_cons, List.not_mem_nil]
    exact ⟨.int ⟨by omega, by omega⟩, .int ⟨by omega, by omega⟩, .null, fun _ h => h.elim⟩
  have hv : Plain Int32Bit depthLimit (.obj [(ascii "a", .arr [.int (-2 ^ 31), .int (2 ^ 32 - 1), .null]),
      (ascii "b", .bytes [0, 255])]) := by
    have ha : PlainText (ascii "a") := ⟨by decide, by decide, by decide⟩
    have hb : PlainText (ascii "b") := ⟨by decide, by decide, by decide⟩
    refine .obj (by decide) (by decide) ?_ ?_
    · simp only [List.forall_mem_cons, List.not_mem_nil]
      exact ⟨⟨ha, by decide⟩, ⟨hb, by decide⟩, fun _ h => h.elim⟩
    · simp only [List.forall_mem_cons, List.not_mem_nil]
      exact ⟨.arr (by decide) (hints _), .bytes (by decide), fun _ h => h.elim⟩
  exact ((msgpack_interop fun _ => []).1 _ hv []).2

end VersatileEngine.Sdk
