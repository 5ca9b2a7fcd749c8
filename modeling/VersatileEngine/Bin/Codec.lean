import VersatileEngine.Core.Data
import VersatileEngine.MsgPack.Unpack

/-!
# VersatileEngine.Bin.Codec

`packVar`, `unpackVar`, `writeVar` and `readVar` of `impl/bin.cpp`: values as MessagePack.

* `Var.Fits`     — lengths below `2^32` and nesting within the limit of the reader, with a condition
  on the doubles.
* `Var.Portable` — the values that survive: they fit, and no double in them is a NaN or packed in the
  place of an integer.
* `encodes_packVar`  — what `packVar` writes of a value that fits is read as `objectOf` it.
* `readVar_writeVar` — exactly the portable values, and exactly the sequences of them, are read back.

`pack_double` writes an integral double as an integer, and the type `DOUBLE` is lost: `double_as_int`.
-/

namespace VersatileEngine

open MsgPack

/-- `static_cast<uint32_t>`. -/
def u32 (n : Nat) : Nat := n % 2 ^ 32

mutual
/-- `packVar`. -/
def packVar : Var → List UInt8
  | .none => packNil
  | .bool b => packBool b
  | .int i => packInt64 i
  | .double d => packDouble d
  | .string s => packStr (u32 s.length) ++ s
  | .bin b => packBin (u32 b.length) ++ b
  | .list l => packArray (u32 l.length) ++ packItems l
  | .dict d => packMap (u32 d.length) ++ packEntries d
  | .pointer p => packStr (u32 (Var.pointer p).opaqueText.length) ++ (Var.pointer p).opaqueText
  | .callable t => packStr (u32 (Var.callable t).opaqueText.length) ++ (Var.callable t).opaqueText
  | .custom t s => packStr (u32 (Var.custom t s).opaqueText.length) ++ (Var.custom t s).opaqueText

def packItems : List Var → List UInt8
  | [] => []
  | v :: vs => packVar v ++ packItems vs

def packEntries : List (Str × Var) → List UInt8
  | [] => []
  | (k, v) :: kvs => packStr (u32 k.length) ++ k ++ packVar v ++ packEntries kvs
end

mutual
/-- `unpackVar`. -/
def unpackVar : MsgPack.Object → Var
  | .nil => .none
  | .boolean b => .bool b
  | .positiveInteger n => .int n.toInt64
  | .negativeInteger i => .int i
  | .float32 bits => .double (.ofBinary32 bits)
  | .float64 d => .double d
  | .str s => .string s
  | .bin b => .bin b
  | .array l => .list (unpackItems l)
  | .map l => .dict (unpackEntries [] l)
  | .ext _ => .none

def unpackItems : List MsgPack.Object → List Var
  | [] => []
  | o :: os => unpackVar o :: unpackItems os

/-- The entries whose key is a string, assigned one after another. -/
def unpackEntries : List (Str × Var) → List (MsgPack.Object × MsgPack.Object) → List (Str × Var)
  | d, [] => d
  | d, (.str k, o) :: kvs => unpackEntries (assign d k (unpackVar o)) kvs
  | d, (_, _) :: kvs => unpackEntries d kvs
end

/-- `writeVar` appends to a buffer. -/
def writeVar (v : Var) (buf : List UInt8) : List UInt8 := buf ++ packVar v

/-- `readVar`: the pointer is what is left of the bytes, or null after a failure. -/
def readVar : Option (List UInt8) → Var × Option (List UInt8)
  | none => (.none, none)
  | some [] => (.none, some [])
  | some (b :: bs) =>
    match unpack (b :: bs) with
    | .ok (o, rest) => (unpackVar o, some rest)
    | .error _ => (.none, none)

/-- One `readVar` after another. -/
def readVars : Nat → Option (List UInt8) → List Var × Option (List UInt8)
  | 0, p => ([], p)
  | n + 1, p =>
    let (v, p) := readVar p
    let (vs, p) := readVars n p
    (v :: vs, p)

/-- One `writeVar` after another. -/
def writeVars (vs : List Var) (buf : List UInt8) : List UInt8 := vs.foldl (fun buf v => writeVar v buf) buf

theorem packItems_eq (l : List Var) : packItems l = l.flatMap packVar := by
  induction l with
  | nil => rfl
  | cons v l ih => rw [packItems, ih]; rfl

theorem packEntries_eq (d : List (Str × Var)) :
    packEntries d = d.flatMap fun p => (packStr (u32 p.1.length) ++ p.1) ++ packVar p.2 := by
  induction d with
  | nil => rfl
  | cons p d ih =>
    obtain ⟨k, v⟩ := p
    rw [packEntries, ih]
    rfl

theorem unpackItems_eq (l : List MsgPack.Object) : unpackItems l = l.map unpackVar := by
  induction l with
  | nil => rfl
  | cons o l ih => rw [unpackItems, ih]; rfl

/-! ## Values that fit -/

namespace Var

/-- Data within the limits of the format, nested at most so deep, whose doubles satisfy `ok`. -/
inductive Fits (ok : Binary64 → Prop) : Nat → Var → Prop
  | none {n : Nat} : Fits ok n .none
  | bool {n : Nat} (b : Bool) : Fits ok n (.bool b)
  | int {n : Nat} (i : Int64) : Fits ok n (.int i)
  | double {n : Nat} {x : Binary64} (h : ok x) : Fits ok n (.double x)
  | string {n : Nat} {s : Str} (h : s.length < 2 ^ 32) : Fits ok n (.string s)
  | bin {n : Nat} {b : List UInt8} (h : b.length < 2 ^ 32) : Fits ok n (.bin b)
  | list {n : Nat} {l : List Var} (hs : l.length < 2 ^ 32) (h : ∀ v ∈ l, Fits ok n v) :
      Fits ok (n + 1) (.list l)
  | dict {n : Nat} {d : List (Str × Var)} (hs : d.length < 2 ^ 32)
      (hk : ∀ p ∈ d, p.1.length < 2 ^ 32) (h : ∀ p ∈ d, Fits ok n p.2) : Fits ok (n + 1) (.dict d)

/-- A double that is written as one, and equal to itself. -/
def Exact (x : Binary64) : Prop := x.isNaN = false ∧ integral? x = Option.none

/-- The values that survive. -/
def Portable (v : Var) : Prop := v.Fits Exact depthLimit

end Var

mutual
/-- What `packVar` writes is read as. -/
def objectOf : Var → MsgPack.Object
  | .none => .nil
  | .bool b => .boolean b
  | .int i => intObject i
  | .double x =>
    match integral? x with
    | some i => i.elim .positiveInteger intObject
    | none => .float64 x
  | .string s => .str s
  | .bin b => .bin b
  | .list l => .array (objectsOf l)
  | .dict d => .map (pairsOf d)
  | v => .str v.opaqueText

def objectsOf : List Var → List MsgPack.Object
  | [] => []
  | v :: vs => objectOf v :: objectsOf vs

def pairsOf : List (Str × Var) → List (MsgPack.Object × MsgPack.Object)
  | [] => []
  | (k, v) :: kvs => (.str k, objectOf v) :: pairsOf kvs
end

theorem objectsOf_eq (l : List Var) : objectsOf l = l.map objectOf := by
  induction l with
  | nil => rfl
  | cons v l ih => rw [objectsOf, ih]; rfl

theorem pairsOf_eq (d : List (Str × Var)) :
    pairsOf d = d.map fun p => (MsgPack.Object.str p.1, objectOf p.2) := by
  induction d with
  | nil => rfl
  | cons p d ih => rw [pairsOf, ih]; rfl

theorem u32_of_lt {n : Nat} (h : n < 2 ^ 32) : u32 n = n := Nat.mod_eq_of_lt h

/-- **What `packVar` writes of a value that fits is read as `objectOf` it.** -/
theorem encodes_packVar {ok : Binary64 → Prop} {n : Nat} {v : Var} (h : v.Fits ok n) :
    Encodes n (packVar v) (objectOf v) := by
  induction h with
  | none => exact encodes_nil
  | bool b => exact encodes_bool b
  | int i => exact encodes_int64 i
  | @double n x _ =>
    rw [packVar, objectOf]
    cases hx : integral? x with
    | none => exact encodes_double x hx
    | some i => exact encodes_double_integral hx
  | string h =>
    rw [packVar, u32_of_lt h]
    exact encodes_str _ h
  | bin h =>
    rw [packVar, u32_of_lt h]
    exact encodes_bin _ h
  | @list n l hs _ ih =>
    rw [packVar, objectOf, u32_of_lt hs, packItems_eq, objectsOf_eq]
    exact encodes_array l hs ih
  | @dict n d hs hk _ ih =>
    rw [packVar, objectOf, u32_of_lt hs, packEntries_eq, pairsOf_eq]
    refine encodes_map d hs (fun p hp => ?_) ih
    rw [u32_of_lt (hk p hp)]
    exact encodes_str _ (hk p hp)

/-! ## What is read fits -/

theorem fits_unpackEntries {ok : Binary64 → Prop} {n : Nat} (l : List (MsgPack.Object × MsgPack.Object)) :
    ∀ d : List (Str × Var), (∀ p ∈ l, p.1.Within n) → (∀ p ∈ l, (unpackVar p.2).Fits ok n) →
      (∀ p ∈ d, p.1.length < 2 ^ 32 ∧ p.2.Fits ok n) →
      (unpackEntries d l).length ≤ d.length + l.length ∧
        ∀ p ∈ unpackEntries d l, p.1.length < 2 ^ 32 ∧ p.2.Fits ok n := by
  induction l with
  | nil => intro d _ _ hd; exact ⟨Nat.le_refl _, hd⟩
  | cons q l ih =>
    obtain ⟨k, o⟩ := q
    intro d hk hv hd
    rw [List.forall_mem_cons] at hk hv
    by_cases hstr : ∃ s, k = .str s
    · obtain ⟨s, rfl⟩ := hstr
      have hlen : s.length < 2 ^ 32 := by
        cases hk.1 with
        | leaf _ hs => exact hs
      obtain ⟨hle, hall⟩ := ih (assign d s (unpackVar o)) hk.2 hv.2 fun p hp =>
        (mem_assign hp).elim (fun he => he ▸ ⟨hlen, hv.1⟩) (hd p)
      rw [unpackEntries, List.length_cons]
      have hassign := length_assign_le d s (unpackVar o)
      exact ⟨by omega, hall⟩
    · obtain ⟨hle, hall⟩ := ih d hk.2 hv.2 hd
      rw [unpackEntries, List.length_cons]
      · exact ⟨by omega, hall⟩
      · exact fun s hs => hstr ⟨s, hs⟩

theorem fits_unpackVar {n : Nat} {o : MsgPack.Object} (h : o.Within n) :
    (unpackVar o).Fits (fun _ => True) n := by
  induction h with
  | @leaf n o hc hs =>
    cases o with
    | array l | map l => cases hc
    | str s => exact .string hs
    | bin b => exact .bin hs
    | _ => constructor <;> trivial
  | @array n l hs _ ih =>
    rw [unpackVar, unpackItems_eq]
    refine .list (by rwa [List.length_map]) fun v hv => ?_
    obtain ⟨o, ho, rfl⟩ := List.mem_map.mp hv
    exact ih o ho
  | @map n l hs hk _ _ ih =>
    rw [unpackVar]
    obtain ⟨hle, hall⟩ := fits_unpackEntries l [] hk ih (by simp)
    rw [List.length_nil, Nat.zero_add] at hle
    exact .dict (by omega) (fun p hp => (hall p hp).1) fun p hp => (hall p hp).2

/-- Data equal to something that fits does so, too. -/
theorem Var.Data.fits {v : Var} (hd : v.Data) : ∀ {n : Nat} {r : Var}, v.eqv r = true →
    r.Fits (fun _ => True) n → v.Fits (fun _ => True) n := by
  induction hd with
  | none => intro n r _ _; exact .none
  | bool b => intro n r _ _; exact .bool b
  | int i => intro n r _ _; exact .int i
  | double x => intro n r _ _; exact .double trivial
  | string s =>
    intro n r he hr
    cases hr with
    | string h =>
      simp only [eqv, decide_eq_true_eq] at he
      exact .string (he ▸ h)
    | _ => cases he
  | bin b =>
    intro n r he hr
    cases hr with
    | bin h =>
      simp only [eqv, decide_eq_true_eq] at he
      exact .bin (he ▸ h)
    | _ => cases he
  | @list l _ ih =>
    intro n r he hr
    cases hr with
    | @list n l' hs h =>
      rw [eqv] at he
      refine .list (eqvList_length he ▸ hs) fun v hv => ?_
      obtain ⟨w, hw, hvw⟩ := eqvList_mem he hv
      exact ih v hv hvw (h w hw)
    | _ => cases he
  | @dict d _ _ ih =>
    intro n r he hr
    cases hr with
    | @dict n d' hs hk h =>
      simp only [eqv, Bool.and_eq_true, decide_eq_true_eq] at he
      rw [eqvDict_iff] at he
      refine .dict (he.1 ▸ hs) (fun p hp => ?_) fun p hp => ?_
      · obtain ⟨w, hw, -⟩ := he.2 p hp
        exact hk (p.1, w) (mem_of_lookup hw)
      · obtain ⟨w, hw, hpw⟩ := he.2 p hp
        exact ih p hp hpw (h (p.1, w) (mem_of_lookup hw))
    | _ => cases he

/-! ## Exactly the portable values are read back -/

theorem unpackEntries_pairs (kvs : List (Str × Var)) : ∀ d : List (Str × Var),
    unpackEntries d (pairsOf kvs) =
      assignAll d (kvs.map fun p => (p.1, unpackVar (objectOf p.2))) := by
  induction kvs with
  | nil => intro d; rfl
  | cons p kvs ih =>
    obtain ⟨k, v⟩ := p
    intro d
    rw [pairsOf, unpackEntries, ih]
    rfl

theorem unpackVar_dict {d : List (Str × Var)} (hk : (d.map Prod.fst).Nodup) :
    unpackVar (objectOf (.dict d)) = .dict (d.map fun p => (p.1, unpackVar (objectOf p.2))) := by
  rw [objectOf, unpackVar, unpackEntries_pairs, assignAll_new, List.nil_append]
  · rw [List.map_map]
    exact hk
  · intro p _ hp
    cases hp

theorem unpackVar_list (l : List Var) :
    unpackVar (objectOf (.list l)) = .list (l.map fun v => unpackVar (objectOf v)) := by
  rw [objectOf, unpackVar, unpackItems_eq, objectsOf_eq, List.map_map]
  rfl

theorem unpackVar_int (i : Int64) : unpackVar (intObject i) = .int i := by
  by_cases h : 0 ≤ i.toInt
  · rw [intObject_nonneg h, unpackVar]
    simp
  · rw [intObject, signedObject, if_neg h, unpackVar]
    simp

/-- Of a value that fits the doubles decide. -/
theorem eqv_unpackVar {n : Nat} {v : Var} (hd : v.Data) (h : v.Fits (fun _ => True) n) :
    v.eqv (unpackVar (objectOf v)) = true ↔ v.Fits Var.Exact n := by
  induction hd generalizing n with
  | none => exact ⟨fun _ => .none, fun _ => rfl⟩
  | bool b => exact ⟨fun _ => .bool b, fun _ => by simp [objectOf, unpackVar, Var.eqv]⟩
  | int i =>
    rw [objectOf, unpackVar_int]
    exact ⟨fun _ => .int i, fun _ => by simp [Var.eqv]⟩
  | double x =>
    have hfits : (Var.double x).Fits Var.Exact n ↔ Var.Exact x :=
      ⟨fun h => by cases h; assumption, .double⟩
    rw [hfits, Var.Exact, objectOf]
    cases hx : integral? x with
    | none => simp [unpackVar, Var.eqv, Binary64.eqv_self]
    | some i =>
      cases i with
      | inl i => simp [unpackVar, Var.eqv]
      | inr i =>
        simp only [Sum.elim_inr]
        rw [unpackVar_int]
        simp [Var.eqv]
  | string s =>
    cases h with
    | string h => exact ⟨fun _ => .string h, fun _ => by simp [objectOf, unpackVar, Var.eqv]⟩
  | bin b =>
    cases h with
    | bin h => exact ⟨fun _ => .bin h, fun _ => by simp [objectOf, unpackVar, Var.eqv]⟩
  | @list l _ ih =>
    cases h with
    | @list n l hs h =>
      rw [unpackVar_list, Var.eqv, Var.eqvList_iff]
      refine ⟨fun he => .list hs fun v hv => (ih v hv (h v hv)).mp (he v hv), fun hf v hv => ?_⟩
      cases hf with
      | list _ hf => exact (ih v hv (h v hv)).mpr (hf v hv)
  | @dict d hk _ ih =>
    cases h with
    | @dict n d hs hkeys h =>
      have hlook : ∀ p ∈ d, (d.map fun p => (p.1, unpackVar (objectOf p.2))).lookup p.1 =
          some (unpackVar (objectOf p.2)) := fun p hp => by
        rw [lookup_map (fun _ v => unpackVar (objectOf v)), lookup_of_mem hk hp]
        rfl
      have hall : (Var.dict d).eqv (unpackVar (objectOf (.dict d))) = true ↔
          ∀ p ∈ d, p.2.eqv (unpackVar (objectOf p.2)) = true := by
        rw [unpackVar_dict hk, Var.eqv, Bool.and_eq_true, Var.eqvDict_iff]
        simp only [List.length_map, decide_true, true_and]
        exact forall₂_congr fun p hp => by simp [hlook p hp]
      rw [hall]
      refine ⟨fun he => .dict hs hkeys fun p hp => (ih p hp (h p hp)).mp (he p hp), fun hf p hp => ?_⟩
      cases hf with
      | dict _ _ hf => exact (ih p hp (h p hp)).mpr (hf p hp)

theorem Var.Fits.weaken {ok : Binary64 → Prop} {n : Nat} {v : Var} (h : v.Fits ok n) :
    v.Fits (fun _ => True) n := by
  induction h with
  | none => exact .none
  | bool b => exact .bool b
  | int i => exact .int i
  | double _ => exact .double trivial
  | string h => exact .string h
  | bin h => exact .bin h
  | list hs _ ih => exact .list hs ih
  | dict hs hk _ ih => exact .dict hs hk ih

theorem packVar_ne_nil {n : Nat} {v : Var} (h : v.Fits (fun _ => True) n) (hn : n ≤ depthLimit) :
    packVar v ≠ [] := by
  intro hnil
  have hread := (encodes_packVar h).unpack hn []
  rw [hnil] at hread
  cases hread

theorem readVar_packVar {v : Var} (h : v.Fits (fun _ => True) depthLimit) (more : List UInt8) :
    readVar (some (packVar v ++ more)) = (unpackVar (objectOf v), some more) := by
  have hread := (encodes_packVar h).unpack (Nat.le_refl _) more
  cases hb : packVar v ++ more with
  | nil => exact absurd (List.append_eq_nil_iff.mp hb).1 (packVar_ne_nil h (Nat.le_refl _))
  | cons b bs =>
    rw [hb] at hread
    simp only [readVar, hread]

theorem fits_readVar (p : Option (List UInt8)) : (readVar p).1.Fits (fun _ => True) depthLimit := by
  unfold readVar
  split
  · exact .none
  · exact .none
  · split
    · rename_i o rest hread
      exact fits_unpackVar (unpack_within hread)
    · exact .none

theorem writeVars_eq (vs : List Var) : ∀ buf, writeVars vs buf = buf ++ vs.flatMap packVar := by
  induction vs with
  | nil => intro buf; simp [writeVars]
  | cons v vs ih =>
    intro buf
    have hstep : writeVars (v :: vs) buf = writeVars vs (buf ++ packVar v) := rfl
    rw [hstep, ih, List.append_assoc]
    rfl

theorem fits_readVars (n : Nat) : ∀ p, ∀ r ∈ (readVars n p).1, r.Fits (fun _ => True) depthLimit := by
  induction n with
  | zero => intro p r hr; cases hr
  | succ n ih =>
    intro p r hr
    rcases List.mem_cons.mp hr with rfl | hr
    · exact fits_readVar p
    · exact ih _ r hr

theorem readVars_packVar {vs : List Var} (h : ∀ v ∈ vs, v.Fits (fun _ => True) depthLimit)
    (more : List UInt8) : readVars vs.length (some (vs.flatMap packVar ++ more)) =
      (vs.map fun v => unpackVar (objectOf v), some more) := by
  induction vs with
  | nil => rfl
  | cons v vs ih =>
    rw [List.forall_mem_cons] at h
    rw [List.flatMap_cons, List.append_assoc, List.length_cons, readVars, readVar_packVar h.1]
    simp only [ih h.2, List.map_cons]

/-- A sequence of values is read back exactly when all of them are portable. -/
theorem readVars_writeVars {vs : List Var} (hd : ∀ v ∈ vs, v.Data) (more : List UInt8) :
    (∃ rs, readVars vs.length (some (writeVars vs [] ++ more)) = (rs, some more) ∧
      Var.eqvList vs rs = true) ↔ ∀ v ∈ vs, v.Portable := by
  rw [writeVars_eq, List.nil_append]
  constructor
  · rintro ⟨rs, hread, he⟩
    -- what was read fits, so what was written does, and the doubles are left
    have hfits : ∀ v ∈ vs, v.Fits (fun _ => True) depthLimit := fun v hv => by
      obtain ⟨r, hr, hvr⟩ := Var.eqvList_mem he hv
      exact (hd v hv).fits hvr (fits_readVars _ _ r (by rw [hread]; exact hr))
    rw [readVars_packVar hfits] at hread
    cases hread
    rw [Var.eqvList_iff] at he
    exact fun v hv => (eqv_unpackVar (hd v hv) (hfits v hv)).mp (he v hv)
  · intro h
    have hfits : ∀ v ∈ vs, v.Fits (fun _ => True) depthLimit := fun v hv => (h v hv).weaken
    refine ⟨_, readVars_packVar hfits more, Var.eqvList_iff.mpr fun v hv => ?_⟩
    exact (eqv_unpackVar (hd v hv) (hfits v hv)).mpr (h v hv)

/-- **Exactly the portable values are read back, and exactly the sequences of them.** -/
theorem readVar_writeVar (more : List UInt8) :
    (∀ v : Var, v.Data → ((∃ r, readVar (some (writeVar v [] ++ more)) = (r, some more) ∧
        v.eqv r = true) ↔ v.Portable)) ∧
      ∀ vs : List Var, (∀ v ∈ vs, v.Data) →
        ((∃ rs, readVars vs.length (some (writeVars vs [] ++ more)) = (rs, some more) ∧
          Var.eqvList vs rs = true) ↔ ∀ v ∈ vs, v.Portable) := by
  refine ⟨fun v hd => ?_, fun vs hd => readVars_writeVars hd more⟩
  have hone := @readVars_writeVars [v] (by simpa using hd) more
  rw [List.forall_mem_singleton] at hone
  rw [← hone]
  have hwrite : writeVars [v] [] = writeVar v [] := rfl
  rw [hwrite]
  simp only [List.length_singleton, readVars]
  constructor
  · rintro ⟨r, hread, he⟩
    exact ⟨[r], by rw [hread], by simp [Var.eqvList, he]⟩
  · rintro ⟨rs, hread, he⟩
    simp only [Prod.mk.injEq] at hread
    refine ⟨_, Prod.ext rfl hread.2, ?_⟩
    rw [← hread.1] at he
    simpa [Var.eqvList] using he

/-- A dictionary with a negative number and the double `0.5`. -/
theorem readVar_writeVar_sample :
    ∃ r, readVar (some (writeVar (.dict [(ascii "a", .list [.int (-5), .double ⟨0x3FE0000000000000⟩])])
        [] ++ [0])) = (r, some [0]) ∧
      (Var.dict [(ascii "a", .list [.int (-5), .double ⟨0x3FE0000000000000⟩])]).eqv r = true := by
  refine ((readVar_writeVar [0]).1 _ (.dict (by decide) ?_)).mpr (.dict (n := 0xfffffffe) (by decide) ?_ ?_)
  · simp only [List.forall_mem_singleton]
    exact .list (by simp only [List.forall_mem_cons]; exact ⟨.int _, .double _, by simp⟩)
  · simp only [List.forall_mem_singleton]
    decide
  · simp only [List.forall_mem_singleton]
    refine .list (n := 0xfffffffd) (by decide) ?_
    simp only [List.forall_mem_cons]
    exact ⟨.int _, .double ⟨by decide, by decide⟩, by simp⟩

/-- The double `2.0` is read back as the integer 2. -/
theorem double_as_int : ¬ ∃ r, readVar (some (writeVar (.double ⟨0x4000000000000000⟩) [])) =
    (r, some []) ∧ (Var.double ⟨0x4000000000000000⟩).eqv r = true := by
  rintro ⟨r, hread, he⟩
  have hint : readVar (some (writeVar (.double ⟨0x4000000000000000⟩) [])) = (.int 2, some []) := rfl
  rw [hint] at hread
  cases hread
  cases he

end VersatileEngine
