import VersatileEngine.MsgPack.Pack
import Mathlib.Data.List.Forall2

/-!
# VersatileEngine.MsgPack.Unpack

The reading half of the vendored msgpack: `context::execute` with `create_object_visitor`.

* `Object`   — `msgpack::object`.
* `readItem` — one turn of the loop of `execute`: a header with what belongs to it.
* `Frame`    — an open container. The stack of the context, which counts what is left, and that of
  the visitor, which knows where the next object goes, grow and shrink together and are one here.
* `execute`, `unpack` — the loop.
* `Encodes`  — these bytes are read as that object, wherever they stand. `encodes_nil` to
  `encodes_map` say so of what the packer writes.
* `unpack_within` — what is read is within the limits: lengths below `2^32`, nesting below the limit.

All errors are exceptions in the source.
-/

namespace VersatileEngine.MsgPack

inductive Object where
  | nil
  | boolean (b : Bool)
  | positiveInteger (n : UInt64)
  | negativeInteger (i : Int64)
  | float32 (bits : UInt32)
  | float64 (d : Binary64)
  | str (s : List UInt8)
  | bin (b : List UInt8)
  | ext (b : List UInt8)
  | array (l : List Object)
  | map (l : List (Object × Object))

inductive Failure where
  | insufficientBytes | parseError | extSizeOverflow | depthSizeOverflow
deriving DecidableEq

/-- What a header announces: an object, or a container of so many elements or pairs. -/
inductive Item where
  | value (o : Object)
  | array (n : Nat)
  | map (n : Nat)

/-- The next `k` bytes. -/
def trail (k : Nat) (bs : List UInt8) : Except Failure (List UInt8 × List UInt8) :=
  if bs.length < k then .error .insufficientBytes else .ok (bs.take k, bs.drop k)

/-- A number of `k` bytes. -/
def number (k : Nat) (bs : List UInt8) : Except Failure (Nat × List UInt8) :=
  match trail k bs with
  | .ok (w, rest) => .ok (load w, rest)
  | .error e => .error e

/-- `visit_negative_integer`. -/
def signedObject (i : Int) : Object :=
  if 0 ≤ i then .positiveInteger (UInt64.ofNat i.toNat) else .negativeInteger (Int64.ofInt i)

/-- Two's complement in `k` bytes. -/
def signed (k n : Nat) : Int := if n < 2 ^ (8 * k - 1) then n else n - 2 ^ (8 * k)

section Items

variable (bs : List UInt8)

def valueItem (k : Nat) (f : Nat → Object) : Except Failure (Item × List UInt8) :=
  match number k bs with
  | .ok (n, rest) => .ok (.value (f n), rest)
  | .error e => .error e

def bodyItem (f : List UInt8 → Object) (n : Nat) : Except Failure (Item × List UInt8) :=
  match trail n bs with
  | .ok (w, rest) => .ok (.value (f w), rest)
  | .error e => .error e

/-- A length in `k` bytes, and a body. -/
def sizedItem (k : Nat) (f : List UInt8 → Object) : Except Failure (Item × List UInt8) :=
  match number k bs with
  | .ok (n, rest) => bodyItem rest f n
  | .error e => .error e

/-- The same for an extension, whose body begins with its type. -/
def extItem (k : Nat) : Except Failure (Item × List UInt8) :=
  match number k bs with
  | .ok (n, rest) => if n = 0xffffffff then .error .extSizeOverflow else bodyItem rest .ext (n + 1)
  | .error e => .error e

def countItem (k : Nat) (f : Nat → Item) : Except Failure (Item × List UInt8) :=
  match number k bs with
  | .ok (n, rest) => .ok (f n, rest)
  | .error e => .error e

end Items

/-- What follows a header byte. -/
def readHeader (selector : Nat) (bs : List UInt8) : Except Failure (Item × List UInt8) :=
  if selector ≤ 0x7f then .ok (.value (.positiveInteger (UInt64.ofNat selector)), bs)
  else if selector ≤ 0x8f then .ok (.map (selector - 0x80), bs)
  else if selector ≤ 0x9f then .ok (.array (selector - 0x90), bs)
  else if selector ≤ 0xbf then bodyItem bs .str (selector - 0xa0)
  else if 0xe0 ≤ selector then .ok (.value (signedObject (signed 1 selector)), bs)
  else
    match selector with
    | 0xc0 => .ok (.value .nil, bs)
    | 0xc2 => .ok (.value (.boolean false), bs)
    | 0xc3 => .ok (.value (.boolean true), bs)
    | 0xc4 => sizedItem bs 1 .bin
    | 0xc5 => sizedItem bs 2 .bin
    | 0xc6 => sizedItem bs 4 .bin
    | 0xc7 => extItem bs 1
    | 0xc8 => extItem bs 2
    | 0xc9 => extItem bs 4
    | 0xca => valueItem bs 4 fun n => .float32 (UInt32.ofNat n)
    | 0xcb => valueItem bs 8 fun n => .float64 ⟨UInt64.ofNat n⟩
    | 0xcc => valueItem bs 1 fun n => .positiveInteger (UInt64.ofNat n)
    | 0xcd => valueItem bs 2 fun n => .positiveInteger (UInt64.ofNat n)
    | 0xce => valueItem bs 4 fun n => .positiveInteger (UInt64.ofNat n)
    | 0xcf => valueItem bs 8 fun n => .positiveInteger (UInt64.ofNat n)
    | 0xd0 => valueItem bs 1 fun n => signedObject (signed 1 n)
    | 0xd1 => valueItem bs 2 fun n => signedObject (signed 2 n)
    | 0xd2 => valueItem bs 4 fun n => signedObject (signed 4 n)
    | 0xd3 => valueItem bs 8 fun n => signedObject (signed 8 n)
    | 0xd4 => bodyItem bs .ext 2
    | 0xd5 => bodyItem bs .ext 3
    | 0xd6 => bodyItem bs .ext 5
    | 0xd7 => bodyItem bs .ext 9
    | 0xd8 => bodyItem bs .ext 17
    | 0xd9 => sizedItem bs 1 .str
    | 0xda => sizedItem bs 2 .str
    | 0xdb => sizedItem bs 4 .str
    | 0xdc => countItem bs 2 .array
    | 0xdd => countItem bs 4 .array
    | 0xde => countItem bs 2 .map
    | 0xdf => countItem bs 4 .map
    | _ => .error .parseError

/-- A header, and what belongs to it. -/
def readItem : List UInt8 → Except Failure (Item × List UInt8)
  | [] => .error .insufficientBytes
  | c :: bs => readHeader c.toNat bs

/-- An open container: how many elements are left, and what has been read. -/
inductive Frame where
  | array (rest : Nat) (done : List Object)
  | mapKey (rest : Nat) (done : List (Object × Object))
  | mapValue (rest : Nat) (done : List (Object × Object)) (key : Object)

/-- `unpack_stack::consume`: an object is complete. Either it was the last one, or the containers that
are still open are given. -/
def consume : Object → List Frame → Object ⊕ List Frame
  | o, [] => .inl o
  | o, .array rest done :: fs =>
    if rest - 1 = 0 then consume (.array (done ++ [o])) fs
    else .inr (.array (rest - 1) (done ++ [o]) :: fs)
  | o, .mapKey rest done :: fs => .inr (.mapValue rest done o :: fs)
  | o, .mapValue rest done key :: fs =>
    if rest - 1 = 0 then consume (.map (done ++ [(key, o)])) fs
    else .inr (.mapKey (rest - 1) (done ++ [(key, o)]) :: fs)

/-- `unpack_limit::depth`. -/
def depthLimit : Nat := 0xffffffff

/-- An object is complete: the end, or on with the containers that are still open. -/
def deliver (next : List Frame → List UInt8 → Except Failure (Object × List UInt8)) (o : Object)
    (fs : List Frame) (rest : List UInt8) : Except Failure (Object × List UInt8) :=
  match consume o fs with
  | .inl o => .ok (o, rest)
  | .inr fs => next fs rest

/-- `start_aggregate`, for a container that is `empty` or begins with the frame `first`. -/
def startAggregate (next : List Frame → List UInt8 → Except Failure (Object × List UInt8)) (n : Nat)
    (empty : Object) (first : Frame) (fs : List Frame) (rest : List UInt8) :
    Except Failure (Object × List UInt8) :=
  if depthLimit < fs.length + 1 then .error .depthSizeOverflow
  else if n = 0 then deliver next empty fs rest
  else next (first :: fs) rest

/-- The rest of a turn of the loop, after a header. -/
def turn (next : List Frame → List UInt8 → Except Failure (Object × List UInt8)) (fs : List Frame)
    (rest : List UInt8) : Item → Except Failure (Object × List UInt8)
  | .value o => deliver next o fs rest
  | .array n => startAggregate next n (.array []) (.array n []) fs rest
  | .map n => startAggregate next n (.map []) (.mapKey n []) fs rest

/-- The loop of `context::execute`, with at most `fuel` turns. -/
def execute : Nat → List Frame → List UInt8 → Except Failure (Object × List UInt8)
  | 0, _, _ => .error .insufficientBytes
  | fuel + 1, fs, bs =>
    match readItem bs with
    | .error e => .error e
    | .ok (item, rest) => turn (execute fuel) fs rest item

/-- `unpack`: the first object, and the bytes behind it. Every turn takes a byte. -/
def unpack (bs : List UInt8) : Except Failure (Object × List UInt8) := execute bs.length [] bs

/-! ## Limits -/

/-- How long a string, or how many elements or pairs. -/
def Object.size : Object → Nat
  | .str s => s.length
  | .bin b => b.length
  | .ext b => b.length
  | .array l => l.length
  | .map l => l.length
  | _ => 0

def Object.isContainer : Object → Bool
  | .array _ => true
  | .map _ => true
  | _ => false

/-- Lengths are below `2^32`, and containers are nested at most so deep. -/
inductive Object.Within : Nat → Object → Prop
  | leaf {d : Nat} {o : Object} (hc : o.isContainer = false) (hs : o.size < 2 ^ 32) : Within d o
  | array {d : Nat} {l : List Object} (hs : l.length < 2 ^ 32) (hl : ∀ o ∈ l, Within d o) :
      Within (d + 1) (.array l)
  | map {d : Nat} {l : List (Object × Object)} (hs : l.length < 2 ^ 32)
      (hk : ∀ p ∈ l, Within d p.1) (hv : ∀ p ∈ l, Within d p.2) : Within (d + 1) (.map l)

def Item.Small : Item → Prop
  | .value o => o.isContainer = false ∧ o.size < 2 ^ 32
  | .array n => n < 2 ^ 32
  | .map n => n < 2 ^ 32

/-- What a reader of items gives is small, and it does not go back. -/
def Reads (bs : List UInt8) (r : Except Failure (Item × List UInt8)) : Prop :=
  ∀ item rest, r = .ok (item, rest) → item.Small ∧ rest.length ≤ bs.length

section Reads

variable {bs : List UInt8} {k : Nat}

theorem trail_eq {w rest : List UInt8} (h : trail k bs = .ok (w, rest)) :
    bs = w ++ rest ∧ w.length = k := by
  unfold trail at h
  split at h
  · cases h
  · cases h
    exact ⟨(List.take_append_drop k bs).symm, by simp only [List.length_take]; omega⟩

theorem trail_append {w : List UInt8} (rest : List UInt8) (h : w.length = k) :
    trail k (w ++ rest) = .ok (w, rest) := by
  subst h
  simp [trail]

theorem number_eq {n : Nat} {rest : List UInt8} (h : number k bs = .ok (n, rest)) :
    n < 256 ^ k ∧ rest.length ≤ bs.length := by
  unfold number at h
  split at h
  · rename_i w rest' hw
    obtain ⟨hbs, hlen⟩ := trail_eq hw
    cases h
    exact ⟨hlen ▸ load_lt w, by rw [hbs, List.length_append]; omega⟩
  · cases h

theorem number_append {n : Nat} (rest : List UInt8) (h : n < 256 ^ k) :
    number k (store k n ++ rest) = .ok (n, rest) := by
  rw [number, trail_append rest (length_store k n)]
  simp only [load_store_of_lt h]

theorem Reads.error (e : Failure) : Reads bs (.error e) := fun _ _ h => (by cases h)

theorem Reads.ok {item : Item} (h : item.Small) : Reads bs (.ok (item, bs)) := by
  rintro item' rest he
  cases he
  exact ⟨h, Nat.le_refl _⟩

theorem Reads.valueItem {f : Nat → Object} (hc : ∀ n, (f n).isContainer = false)
    (hs : ∀ n, (f n).size = 0) : Reads bs (valueItem bs k f) := by
  intro item rest h
  unfold MsgPack.valueItem at h
  split at h
  · rename_i n rest' hn
    cases h
    exact ⟨⟨hc n, by rw [hs]; decide⟩, (number_eq hn).2⟩
  · cases h

theorem Reads.bodyItem {f : List UInt8 → Object} (hc : ∀ w, (f w).isContainer = false)
    (hs : ∀ w, (f w).size = w.length) {n : Nat} (hn : n < 2 ^ 32) : Reads bs (bodyItem bs f n) := by
  intro item rest h
  unfold MsgPack.bodyItem at h
  split at h
  · rename_i w rest' hw
    obtain ⟨hbs, hlen⟩ := trail_eq hw
    cases h
    exact ⟨⟨hc w, by rw [hs, hlen]; exact hn⟩, by rw [hbs, List.length_append]; omega⟩
  · cases h

theorem Reads.mono {bs' : List UInt8} {r : Except Failure (Item × List UInt8)} (h : Reads bs' r)
    (hle : bs'.length ≤ bs.length) : Reads bs r := fun item rest hr =>
  ⟨(h item rest hr).1, Nat.le_trans (h item rest hr).2 hle⟩

theorem Reads.sizedItem {f : List UInt8 → Object} (hc : ∀ w, (f w).isContainer = false)
    (hs : ∀ w, (f w).size = w.length) (hk : 256 ^ k ≤ 2 ^ 32) : Reads bs (sizedItem bs k f) := by
  unfold MsgPack.sizedItem
  split
  · rename_i n rest' hn
    obtain ⟨hlt, hle⟩ := number_eq hn
    exact (Reads.bodyItem hc hs (by omega)).mono hle
  · exact .error _

theorem Reads.extItem (hk : 256 ^ k ≤ 2 ^ 32) : Reads bs (extItem bs k) := by
  unfold MsgPack.extItem
  split
  · rename_i n rest' hn
    obtain ⟨hlt, hle⟩ := number_eq hn
    split
    · exact .error _
    · exact (Reads.bodyItem (fun _ => rfl) (fun _ => rfl) (by omega)).mono hle
  · exact .error _

theorem Reads.countItem {f : Nat → Item} (hf : ∀ n, n < 2 ^ 32 → (f n).Small)
    (hk : 256 ^ k ≤ 2 ^ 32) : Reads bs (countItem bs k f) := by
  intro item rest h
  unfold MsgPack.countItem at h
  split at h
  · rename_i n rest' hn
    obtain ⟨hlt, hle⟩ := number_eq hn
    cases h
    exact ⟨hf n (by omega), hle⟩
  · cases h

theorem signedObject_leaf (i : Int) :
    (signedObject i).isContainer = false ∧ (signedObject i).size = 0 := by
  unfold signedObject
  split <;> exact ⟨rfl, rfl⟩

theorem reads_readHeader {selector : Nat} (hsel : selector < 256) (bs : List UInt8) :
    Reads bs (readHeader selector bs) := by
  unfold readHeader
  have hint : ∀ k, Reads bs (valueItem bs k fun n => .positiveInteger (UInt64.ofNat n)) :=
    fun k => .valueItem (fun _ => rfl) (fun _ => rfl)
  have hneg : ∀ k, Reads bs (valueItem bs k fun n => signedObject (signed k n)) :=
    fun k => .valueItem (fun _ => (signedObject_leaf _).1) (fun _ => (signedObject_leaf _).2)
  have hext : ∀ n, n < 2 ^ 32 → Reads bs (bodyItem bs .ext n) :=
    fun n => Reads.bodyItem (fun _ => rfl) (fun _ => rfl)
  have hstr : ∀ k, 256 ^ k ≤ 2 ^ 32 → Reads bs (sizedItem bs k .str) :=
    fun k => Reads.sizedItem (fun _ => rfl) (fun _ => rfl)
  have hbin : ∀ k, 256 ^ k ≤ 2 ^ 32 → Reads bs (sizedItem bs k .bin) :=
    fun k => Reads.sizedItem (fun _ => rfl) (fun _ => rfl)
  have harray : ∀ k, 256 ^ k ≤ 2 ^ 32 → Reads bs (countItem bs k .array) :=
    fun k => Reads.countItem (fun _ h => h)
  have hmap : ∀ k, 256 ^ k ≤ 2 ^ 32 → Reads bs (countItem bs k .map) :=
    fun k => Reads.countItem (fun _ h => h)
  split_ifs
  · exact .ok ⟨rfl, Nat.two_pow_pos 32⟩
  · exact .ok (show selector - 0x80 < 2 ^ 32 by omega)
  · exact .ok (show selector - 0x90 < 2 ^ 32 by omega)
  · exact .bodyItem (fun _ => rfl) (fun _ => rfl) (by omega)
  · exact .ok ⟨(signedObject_leaf _).1, by rw [(signedObject_leaf _).2]; decide⟩
  · split
    · exact .ok ⟨rfl, by decide⟩
    · exact .ok ⟨rfl, by decide⟩
    · exact .ok ⟨rfl, by decide⟩
    · exact hbin 1 (by decide)
    · exact hbin 2 (by decide)
    · exact hbin 4 (by decide)
    · exact .extItem (by decide)
    · exact .extItem (by decide)
    · exact .extItem (by decide)
    · exact .valueItem (fun _ => rfl) (fun _ => rfl)
    · exact .valueItem (fun _ => rfl) (fun _ => rfl)
    · exact hint 1
    · exact hint 2
    · exact hint 4
    · exact hint 8
    · exact hneg 1
    · exact hneg 2
    · exact hneg 4
    · exact hneg 8
    · exact hext 2 (by decide)
    · exact hext 3 (by decide)
    · exact hext 5 (by decide)
    · exact hext 9 (by decide)
    · exact hext 17 (by decide)
    · exact hstr 1 (by decide)
    · exact hstr 2 (by decide)
    · exact hstr 4 (by decide)
    · exact harray 2 (by decide)
    · exact harray 4 (by decide)
    · exact hmap 2 (by decide)
    · exact hmap 4 (by decide)
    · exact .error _

theorem readItem_small {item : Item} {rest : List UInt8} (h : readItem bs = .ok (item, rest)) :
    item.Small ∧ rest.length < bs.length := by
  cases bs with
  | nil => cases h
  | cons c bs =>
    obtain ⟨hs, hle⟩ := reads_readHeader c.toNat_lt bs item rest h
    exact ⟨hs, Nat.lt_succ_of_le hle⟩

end Reads

/-! ## The loop without its bound -/

theorem deliver_congr {next next' : List Frame → List UInt8 → Except Failure (Object × List UInt8)}
    {o : Object} {fs : List Frame} {rest : List UInt8} (h : ∀ fs, next fs rest = next' fs rest) :
    deliver next o fs rest = deliver next' o fs rest := by
  unfold deliver
  split
  · rfl
  · exact h _

theorem turn_congr {next next' : List Frame → List UInt8 → Except Failure (Object × List UInt8)}
    {item : Item} {fs : List Frame} {rest : List UInt8} (h : ∀ fs, next fs rest = next' fs rest) :
    turn next fs rest item = turn next' fs rest item := by
  cases item with
  | value o => exact deliver_congr h
  | array n | map n =>
    simp only [turn, startAggregate]
    rw [deliver_congr h, h]

/-- Turns beyond the number of bytes change nothing. -/
theorem execute_fuel (n : Nat) : ∀ (m : Nat) (fs : List Frame) (bs : List UInt8), bs.length ≤ n →
    bs.length ≤ m → execute n fs bs = execute m fs bs := by
  induction n with
  | zero =>
    intro m fs bs hn hm
    rw [List.eq_nil_of_length_eq_zero (Nat.le_zero.mp hn)]
    cases m <;> rfl
  | succ n ih =>
    intro m fs bs hn hm
    cases m with
    | zero =>
      rw [List.eq_nil_of_length_eq_zero (Nat.le_zero.mp hm)]
      rfl
    | succ m =>
      simp only [execute]
      split
      · rfl
      · rename_i item rest hr
        have hlt := (readItem_small hr).2
        exact turn_congr fun fs => ih m fs rest (by omega) (by omega)

/-- The loop, with as many turns as it may take. -/
def run (fs : List Frame) (bs : List UInt8) : Except Failure (Object × List UInt8) :=
  execute bs.length fs bs

theorem run_item {fs : List Frame} {bs rest : List UInt8} {item : Item}
    (h : readItem bs = .ok (item, rest)) : run fs bs = turn run fs rest item := by
  have hlt := (readItem_small h).2
  obtain ⟨n, hn⟩ : ∃ n, bs.length = n + 1 := ⟨bs.length - 1, by omega⟩
  rw [run, hn, execute, h]
  exact turn_congr fun fs => execute_fuel n rest.length fs rest (by omega) (Nat.le_refl _)

/-! ## What the packer writes is read back -/

/-- Wherever they stand, these bytes are read as this object, unless it is nested too deep. -/
def Encodes (d : Nat) (bytes : List UInt8) (o : Object) : Prop :=
  ∀ fs rest, fs.length + d ≤ depthLimit → run fs (bytes ++ rest) = deliver run o fs rest

theorem Encodes.mono {d d' : Nat} {bytes : List UInt8} {o : Object} (h : Encodes d bytes o)
    (hd : d ≤ d') : Encodes d' bytes o := fun fs rest hfs => h fs rest (by omega)

theorem Encodes.unpack {d : Nat} {bytes : List UInt8} {o : Object} (h : Encodes d bytes o)
    (hd : d ≤ depthLimit) (rest : List UInt8) : unpack (bytes ++ rest) = .ok (o, rest) :=
  h [] rest (by simpa using hd)

section Values

variable {d : Nat}

theorem encodes_of_readItem {bytes : List UInt8} {o : Object}
    (h : ∀ rest, readItem (bytes ++ rest) = .ok (.value o, rest)) : Encodes d bytes o :=
  fun _ rest _ => run_item (h rest)

theorem readItem_byte {n : Nat} (hn : n < 256) (rest : List UInt8) :
    readItem (store 1 n ++ rest) = readHeader n rest := by
  have hb : (UInt8.ofNat n).toNat = n := by
    rw [UInt8.toNat_ofNat']
    omega
  simp only [store, List.nil_append, List.singleton_append, readItem, hb]

theorem encodes_nil : Encodes d packNil .nil := encodes_of_readItem fun _ => rfl

theorem encodes_bool (b : Bool) : Encodes d (packBool b) (.boolean b) := by
  cases b <;> exact encodes_of_readItem fun _ => rfl

theorem readHeader_fixint {n : Nat} (h : n ≤ 0x7f) (bs : List UInt8) :
    readHeader n bs = .ok (.value (.positiveInteger (UInt64.ofNat n)), bs) := if_pos h

theorem readHeader_fixmap {n : Nat} (h : n < 16) (bs : List UInt8) :
    readHeader (0x80 + n) bs = .ok (.map n, bs) := by
  unfold readHeader
  rw [if_neg (by omega), if_pos (by omega), Nat.add_sub_cancel_left]

theorem readHeader_fixarray {n : Nat} (h : n < 16) (bs : List UInt8) :
    readHeader (0x90 + n) bs = .ok (.array n, bs) := by
  unfold readHeader
  rw [if_neg (by omega), if_neg (by omega), if_pos (by omega), Nat.add_sub_cancel_left]

theorem readHeader_fixstr {n : Nat} (h : n < 32) (bs : List UInt8) :
    readHeader (0xa0 + n) bs = bodyItem bs .str n := by
  unfold readHeader
  rw [if_neg (by omega), if_neg (by omega), if_neg (by omega), if_pos (by omega),
    Nat.add_sub_cancel_left]

theorem readHeader_negative {n : Nat} (h : 0xe0 ≤ n) (bs : List UInt8) :
    readHeader n bs = .ok (.value (signedObject (signed 1 n)), bs) := by
  unfold readHeader
  rw [if_neg (by omega), if_neg (by omega), if_neg (by omega), if_neg (by omega), if_pos h]

theorem readHeader_number {c : UInt8} {k n : Nat} {f : Nat → Object} (rest : List UInt8)
    (h : ∀ bs, readHeader c.toNat bs = valueItem bs k f) (hn : n < 256 ^ k) :
    readItem (c :: store k n ++ rest) = .ok (.value (f n), rest) := by
  rw [List.cons_append, readItem, h, valueItem, number_append rest hn]

theorem encodes_uint64 (n : UInt64) : Encodes d (packUInt64 n) (.positiveInteger n) := by
  have hn := n.toNat_lt
  have hself : UInt64.ofNat n.toNat = n := UInt64.ofNat_toNat
  refine encodes_of_readItem fun rest => ?_
  unfold packUInt64
  extract_lets m
  split_ifs with h8 h7 h16 h32
  · rw [readItem_byte (by omega), readHeader_fixint (by omega), hself]
  · rw [readHeader_number rest (fun _ => rfl) (by omega), hself]
  · rw [readHeader_number rest (fun _ => rfl) (by omega), hself]
  · rw [readHeader_number rest (fun _ => rfl) (by omega), hself]
  · rw [readHeader_number rest (fun _ => rfl) (by omega), hself]

/-- The object that a signed integer is read as. -/
def intObject (i : Int64) : Object := signedObject i.toInt

theorem toInt_eq (i : Int64) : i.toInt =
    if i.toUInt64.toNat < 2 ^ 63 then (i.toUInt64.toNat : Int) else i.toUInt64.toNat - 2 ^ 64 := by
  have h := BitVec.toInt_eq_toNat_cond i.toBitVec
  have hn : i.toUInt64.toNat = i.toBitVec.toNat := rfl
  have hi : i.toInt = i.toBitVec.toInt := rfl
  rw [hi, h, hn]
  split_ifs <;> omega

theorem intObject_nonneg {i : Int64} (h : 0 ≤ i.toInt) :
    intObject i = .positiveInteger (UInt64.ofNat i.toUInt64.toNat) := by
  have hi := toInt_eq i
  have hlt := i.toUInt64.toNat_lt
  have hn : i.toInt.toNat = i.toUInt64.toNat := by
    split_ifs at hi with hs
    · rw [hi, Int.toNat_natCast]
    · omega
  rw [intObject, signedObject, if_pos h, hn]

theorem encodes_int64 (i : Int64) : Encodes d (packInt64 i) (intObject i) := by
  have hlt := i.toUInt64.toNat_lt
  have hi := toInt_eq i
  -- the bytes of a non-negative number are those of the same unsigned number
  have hpos : ∀ {c : UInt8} {k : Nat} (rest : List UInt8), 0 ≤ i.toInt →
      (∀ bs, readHeader c.toNat bs = valueItem bs k fun n => .positiveInteger (UInt64.ofNat n)) →
      i.toUInt64.toNat < 256 ^ k →
      readItem (c :: store k i.toUInt64.toNat ++ rest) = .ok (.value (intObject i), rest) := by
    intro c k rest h0 hh hk
    rw [readHeader_number rest hh hk, intObject_nonneg h0]
  -- a negative number is read back from its low bytes
  have hneg : ∀ {c : UInt8} {k : Nat} (rest : List UInt8),
      (∀ bs, readHeader c.toNat bs = valueItem bs k fun n => signedObject (signed k n)) →
      signed k (i.toUInt64.toNat % 256 ^ k) = i.toInt →
      readItem (c :: store k i.toUInt64.toNat ++ rest) = .ok (.value (intObject i), rest) := by
    intro c k rest hh hs
    rw [← store_mod, readHeader_number rest hh (Nat.mod_lt _ (Nat.pow_pos (by decide))), hs]
    rfl
  refine encodes_of_readItem fun rest => ?_
  unfold packInt64
  extract_lets j n
  split_ifs at hi with hsign
  · rw [if_neg (by omega)]
    split_ifs with h7 h16 h8 h32
    · rw [readItem_byte (by omega), readHeader_fixint (by omega), intObject_nonneg (by omega)]
    · exact hpos rest (by omega) (fun _ => rfl) (by omega)
    · exact hpos rest (by omega) (fun _ => rfl) (by omega)
    · exact hpos rest (by omega) (fun _ => rfl) (by omega)
    · exact hpos rest (by omega) (fun _ => rfl) (by omega)
  · split_ifs with h5 h15 h31 h7 h7' h16 h8 h32
    · exact hneg rest (fun _ => rfl) (by unfold signed; rw [if_neg (by omega)]; omega)
    · exact hneg rest (fun _ => rfl) (by unfold signed; rw [if_neg (by omega)]; omega)
    · exact hneg rest (fun _ => rfl) (by unfold signed; rw [if_neg (by omega)]; omega)
    · exact hneg rest (fun _ => rfl) (by unfold signed; rw [if_neg (by omega)]; omega)
    · have hs : signed 1 (n % 256 ^ 1) = i.toInt := by
        unfold signed
        rw [if_neg (by omega)]
        omega
      have hbyte : n % 256 ^ 1 < 256 ∧ 0xe0 ≤ n % 256 ^ 1 := by omega
      rw [← store_mod, readItem_byte hbyte.1, readHeader_negative hbyte.2, hs]
      rfl
    all_goals omega

theorem encodes_double (x : Binary64) (h : integral? x = none) :
    Encodes d (packDouble x) (.float64 x) := by
  refine encodes_of_readItem fun rest => ?_
  have hx := x.bits.toNat_lt
  rw [packDouble, h]
  simp only
  rw [readHeader_number rest (fun _ => rfl) (by omega)]
  simp

theorem encodes_double_integral {x : Binary64} {i : UInt64 ⊕ Int64} (h : integral? x = some i) :
    Encodes d (packDouble x) (i.elim .positiveInteger intObject) := by
  rw [packDouble, h]
  cases i with
  | inl n => exact encodes_uint64 n
  | inr i => exact encodes_int64 i

theorem readHeader_sized {c : UInt8} {k : Nat} {f : List UInt8 → Object} (body rest : List UInt8)
    (h : ∀ bs, readHeader c.toNat bs = sizedItem bs k f) (hn : body.length < 256 ^ k) :
    readItem (c :: store k body.length ++ body ++ rest) = .ok (.value (f body), rest) := by
  rw [List.append_assoc, List.cons_append, readItem, h, sizedItem, number_append _ hn]
  simp only [bodyItem]
  rw [trail_append rest rfl]

theorem encodes_str (s : List UInt8) (h : s.length < 2 ^ 32) :
    Encodes d (packStr s.length ++ s) (.str s) := by
  refine encodes_of_readItem fun rest => ?_
  unfold packStr
  split_ifs with h5 h8 h16
  · rw [List.append_assoc, readItem_byte (by omega), readHeader_fixstr h5, bodyItem,
      trail_append rest rfl]
  · exact readHeader_sized s rest (fun _ => rfl) (by omega)
  · exact readHeader_sized s rest (fun _ => rfl) (by omega)
  · exact readHeader_sized s rest (fun _ => rfl) (by omega)

theorem encodes_bin (b : List UInt8) (h : b.length < 2 ^ 32) :
    Encodes d (packBin b.length ++ b) (.bin b) := by
  refine encodes_of_readItem fun rest => ?_
  unfold packBin
  split_ifs with h8 h16
  · exact readHeader_sized b rest (fun _ => rfl) (by omega)
  · exact readHeader_sized b rest (fun _ => rfl) (by omega)
  · exact readHeader_sized b rest (fun _ => rfl) (by omega)

end Values

section Containers

variable {α : Type} {d : Nat}

theorem readHeader_count {c : UInt8} {k n : Nat} {f : Nat → Item} (rest : List UInt8)
    (h : ∀ bs, readHeader c.toNat bs = countItem bs k f) (hn : n < 256 ^ k) :
    readItem (c :: store k n ++ rest) = .ok (f n, rest) := by
  rw [List.cons_append, readItem, h, countItem, number_append rest hn]

theorem readItem_packArray {n : Nat} (h : n < 2 ^ 32) (rest : List UInt8) :
    readItem (packArray n ++ rest) = .ok (.array n, rest) := by
  unfold packArray
  split_ifs with h4 h16
  · rw [readItem_byte (by omega), readHeader_fixarray h4]
  · exact readHeader_count rest (fun _ => rfl) (by omega)
  · exact readHeader_count rest (fun _ => rfl) (by omega)

theorem readItem_packMap {n : Nat} (h : n < 2 ^ 32) (rest : List UInt8) :
    readItem (packMap n ++ rest) = .ok (.map n, rest) := by
  unfold packMap
  split_ifs with h4 h16
  · rw [readItem_byte (by omega), readHeader_fixmap h4]
  · exact readHeader_count rest (fun _ => rfl) (by omega)
  · exact readHeader_count rest (fun _ => rfl) (by omega)

/-- The elements that are left of an array. -/
theorem run_array {f : α → List UInt8} {g : α → Object} (l : List α) :
    ∀ (a : α) (done : List Object) (fs : List Frame) (rest : List UInt8),
      (∀ x ∈ a :: l, Encodes d (f x) (g x)) → fs.length + (d + 1) ≤ depthLimit →
      run (.array (l.length + 1) done :: fs) ((a :: l).flatMap f ++ rest) =
        deliver run (.array (done ++ (a :: l).map g)) fs rest := by
  induction l with
  | nil =>
    intro a done fs rest h hfs
    rw [List.flatMap_cons, List.append_assoc, h a (by simp) _ _ (by simp only [List.length_cons]; omega)]
    simp [deliver, consume]
  | cons b l ih =>
    intro a done fs rest h hfs
    rw [List.flatMap_cons, List.append_assoc, h a (by simp) _ _ (by simp only [List.length_cons]; omega)]
    have hnext := ih b (done ++ [g a]) fs rest (fun x hx => h x (List.mem_cons_of_mem _ hx)) hfs
    rw [List.append_assoc, List.singleton_append] at hnext
    rw [deliver, consume, if_neg (by simp)]
    exact hnext

theorem encodes_array {f : α → List UInt8} {g : α → Object} (l : List α) (hl : l.length < 2 ^ 32)
    (h : ∀ a ∈ l, Encodes d (f a) (g a)) :
    Encodes (d + 1) (packArray l.length ++ l.flatMap f) (.array (l.map g)) := by
  intro fs rest hfs
  rw [List.append_assoc, run_item (readItem_packArray hl _), turn, startAggregate, if_neg (by omega)]
  cases l with
  | nil => rfl
  | cons a l =>
    rw [if_neg (by simp)]
    exact run_array l a [] fs rest h hfs

/-- The pairs that are left of a map. -/
theorem run_map {fk fv : α → List UInt8} {k v : α → Object} (l : List α) :
    ∀ (a : α) (done : List (Object × Object)) (fs : List Frame) (rest : List UInt8),
      (∀ x ∈ a :: l, Encodes d (fk x) (k x)) → (∀ x ∈ a :: l, Encodes d (fv x) (v x)) →
      fs.length + (d + 1) ≤ depthLimit →
      run (.mapKey (l.length + 1) done :: fs) ((a :: l).flatMap (fun x => fk x ++ fv x) ++ rest) =
        deliver run (.map (done ++ (a :: l).map fun x => (k x, v x))) fs rest := by
  induction l with
  | nil =>
    intro a done fs rest hk hv hfs
    rw [List.flatMap_cons, List.append_assoc, List.append_assoc,
      hk a (by simp) _ _ (by simp only [List.length_cons]; omega), deliver, consume]
    simp only
    rw [hv a (by simp) _ _ (by simp only [List.length_cons]; omega)]
    simp [deliver, consume]
  | cons b l ih =>
    intro a done fs rest hk hv hfs
    rw [List.flatMap_cons, List.append_assoc, List.append_assoc,
      hk a (by simp) _ _ (by simp only [List.length_cons]; omega), deliver, consume]
    simp only
    rw [hv a (by simp) _ _ (by simp only [List.length_cons]; omega), deliver, consume,
      if_neg (by simp)]
    have hnext := ih b (done ++ [(k a, v a)]) fs rest (fun x hx => hk x (List.mem_cons_of_mem _ hx))
      (fun x hx => hv x (List.mem_cons_of_mem _ hx)) hfs
    rw [List.append_assoc, List.singleton_append] at hnext
    exact hnext

theorem encodes_map {fk fv : α → List UInt8} {k v : α → Object} (l : List α) (hl : l.length < 2 ^ 32)
    (hk : ∀ a ∈ l, Encodes d (fk a) (k a)) (hv : ∀ a ∈ l, Encodes d (fv a) (v a)) :
    Encodes (d + 1) (packMap l.length ++ l.flatMap fun a => fk a ++ fv a)
      (.map (l.map fun a => (k a, v a))) := by
  intro fs rest hfs
  rw [List.append_assoc, run_item (readItem_packMap hl _), turn, startAggregate, if_neg (by omega)]
  cases l with
  | nil => rfl
  | cons a l =>
    rw [if_neg (by simp)]
    exact run_map l a [] fs rest hk hv hfs

end Containers

/-! ## What is read is within the limits -/

/-- An open container with its elements so far, each within the depth `d`. -/
def Frame.Within (d : Nat) : Frame → Prop
  | .array rest done => 0 < rest ∧ done.length + rest < 2 ^ 32 ∧ ∀ o ∈ done, Object.Within d o
  | .mapKey rest done => 0 < rest ∧ done.length + rest < 2 ^ 32 ∧
      (∀ p ∈ done, Object.Within d p.1) ∧ ∀ p ∈ done, Object.Within d p.2
  | .mapValue rest done key => 0 < rest ∧ done.length + rest < 2 ^ 32 ∧
      (∀ p ∈ done, Object.Within d p.1) ∧ (∀ p ∈ done, Object.Within d p.2) ∧ Object.Within d key

def FramesWithin : List Frame → Prop
  | [] => True
  | f :: fs => FramesWithin fs ∧ fs.length + 1 ≤ depthLimit ∧ f.Within (depthLimit - (fs.length + 1))

theorem forall_mem_snoc {α : Type} {P : α → Prop} {l : List α} {a : α} (h : ∀ x ∈ l, P x) (ha : P a) :
    ∀ x ∈ l ++ [a], P x := by
  intro x hx
  rcases List.mem_append.mp hx with hx | hx
  · exact h x hx
  · exact List.mem_singleton.mp hx ▸ ha

theorem consume_within (fs : List Frame) : ∀ o, o.Within (depthLimit - fs.length) → FramesWithin fs →
    (∀ o', consume o fs = .inl o' → o'.Within depthLimit) ∧
      ∀ fs', consume o fs = .inr fs' → FramesWithin fs' := by
  induction fs with
  | nil =>
    intro o ho _
    refine ⟨fun o' h => ?_, fun fs' h => (by cases h)⟩
    cases h
    exact ho
  | cons f fs ih =>
    rintro o ho ⟨hfs, hdepth, hf⟩
    rw [List.length_cons] at ho
    have hroom : depthLimit - fs.length = depthLimit - (fs.length + 1) + 1 := by omega
    cases f with
    | array rest done =>
      obtain ⟨hrest, hlen, hdone⟩ := hf
      have hall := forall_mem_snoc hdone ho
      rw [consume]
      split_ifs with hlast
      · exact ih _ (hroom ▸ .array (by simp only [List.length_append, List.length_singleton]; omega) hall)
          hfs
      · refine ⟨fun o' h => (by cases h), fun fs' h => ?_⟩
        cases h
        exact ⟨hfs, hdepth, by omega,
          by simp only [List.length_append, List.length_singleton]; omega, hall⟩
    | mapKey rest done =>
      obtain ⟨hrest, hlen, hk, hv⟩ := hf
      refine ⟨fun o' h => (by cases h), fun fs' h => ?_⟩
      cases h
      exact ⟨hfs, hdepth, hrest, hlen, hk, hv, ho⟩
    | mapValue rest done key =>
      obtain ⟨hrest, hlen, hk, hv, hkey⟩ := hf
      have hk' := forall_mem_snoc (P := fun p => Object.Within _ p.1) (a := (key, o)) hk hkey
      have hv' := forall_mem_snoc (P := fun p => Object.Within _ p.2) (a := (key, o)) hv ho
      rw [consume]
      split_ifs with hlast
      · exact ih _ (hroom ▸ .map (by simp only [List.length_append, List.length_singleton]; omega) hk' hv')
          hfs
      · refine ⟨fun o' h => (by cases h), fun fs' h => ?_⟩
        cases h
        exact ⟨hfs, hdepth, by omega,
          by simp only [List.length_append, List.length_singleton]; omega, hk', hv'⟩

theorem deliver_within {n : Nat} {o o' : Object} {fs : List Frame} {rest rest' : List UInt8}
    (ih : ∀ fs, FramesWithin fs → execute n fs rest = .ok (o', rest') → o'.Within depthLimit)
    (ho : o.Within (depthLimit - fs.length)) (hfs : FramesWithin fs)
    (h : deliver (execute n) o fs rest = .ok (o', rest')) : o'.Within depthLimit := by
  obtain ⟨hend, hon⟩ := consume_within fs o ho hfs
  unfold deliver at h
  split at h
  · rename_i o₁ hc
    cases h
    exact hend _ hc
  · rename_i fs' hc
    exact ih fs' (hon _ hc) h

theorem startAggregate_within {n k : Nat} {empty o' : Object} {first : Frame} {fs : List Frame}
    {rest rest' : List UInt8}
    (ih : ∀ fs, FramesWithin fs → execute n fs rest = .ok (o', rest') → o'.Within depthLimit)
    (hempty : ∀ d, empty.Within (d + 1)) (hfirst : 0 < k → ∀ d, first.Within d)
    (hfs : FramesWithin fs)
    (h : startAggregate (execute n) k empty first fs rest = .ok (o', rest')) :
    o'.Within depthLimit := by
  unfold startAggregate at h
  split_ifs at h with hdepth hk
  · have hroom : depthLimit - fs.length = depthLimit - (fs.length + 1) + 1 := by omega
    exact deliver_within ih (hroom ▸ hempty _) hfs h
  · have hopen : FramesWithin (first :: fs) := ⟨hfs, by omega, hfirst (by omega) _⟩
    exact ih _ hopen h

theorem execute_within (n : Nat) : ∀ {fs : List Frame} {bs rest : List UInt8} {o : Object},
    FramesWithin fs → execute n fs bs = .ok (o, rest) → o.Within depthLimit := by
  induction n with
  | zero => rintro fs bs rest o _ h; cases h
  | succ n ih =>
    intro fs bs rest o hfs h
    rw [execute] at h
    split at h
    · cases h
    · rename_i item rest' hr
      have hsmall := (readItem_small hr).1
      cases item with
      | value o₁ => exact deliver_within (fun _ => ih) (.leaf hsmall.1 hsmall.2) hfs h
      | array k =>
        have hfirst : 0 < k → ∀ d, (Frame.array k []).Within d := fun hk d =>
          ⟨hk, by simpa [Item.Small] using hsmall, by simp⟩
        exact startAggregate_within (fun _ => ih) (fun d => .array (by simp) (by simp)) hfirst hfs h
      | map k =>
        have hfirst : 0 < k → ∀ d, (Frame.mapKey k []).Within d := fun hk d =>
          ⟨hk, by simpa [Item.Small] using hsmall, by simp, by simp⟩
        exact startAggregate_within (fun _ => ih) (fun d => .map (by simp) (by simp) (by simp)) hfirst
          hfs h

theorem unpack_within {bs rest : List UInt8} {o : Object} (h : unpack bs = .ok (o, rest)) :
    o.Within depthLimit := by
  have hnone : FramesWithin [] := trivial
  exact execute_within _ hnone h

end VersatileEngine.MsgPack
