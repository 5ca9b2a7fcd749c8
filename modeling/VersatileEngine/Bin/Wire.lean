import VersatileEngine.Bin.Codec

/-!
# VersatileEngine.Bin.Wire

What arrives of a value whose bytes are fewer than `2^32`, as those of every frame are.

* `wire`         — the value as it is read: `unpackVar` of what `packVar` wrote. Pointers, callables and custom
  payloads arrive as their texts.
* `readVar_wire` — such a value is read back as its `wire`, without a condition on lengths and depths inside it:
  they are bounded by the bytes.
-/

namespace VersatileEngine

open MsgPack

def wire (v : Var) : Var := unpackVar (objectOf v)

theorem packStr_pos (n : Nat) : 0 < (packStr n).length := by
  unfold packStr
  split_ifs <;> simp [store]

theorem packBin_pos (n : Nat) : 0 < (packBin n).length := by
  unfold packBin
  split_ifs <;> simp

theorem packArray_pos (n : Nat) : 0 < (packArray n).length := by
  unfold packArray
  split_ifs <;> simp [store]

theorem packMap_pos (n : Nat) : 0 < (packMap n).length := by
  unfold packMap
  split_ifs <;> simp [store]

theorem packVar_pos (v : Var) : 0 < (packVar v).length := by
  cases v with
  | none => exact Nat.one_pos
  | bool b => cases b <;> exact Nat.one_pos
  | int i => exact List.length_pos_of_ne_nil (packVar_ne_nil (n := 0) (.int i) (Nat.zero_le _))
  | double d => exact List.length_pos_of_ne_nil (packVar_ne_nil (n := 0) (.double trivial) (Nat.zero_le _))
  | list l =>
    rw [packVar, List.length_append]
    exact Nat.add_pos_left (packArray_pos _) _
  | dict d =>
    rw [packVar, List.length_append]
    exact Nat.add_pos_left (packMap_pos _) _
  | bin b =>
    rw [packVar, List.length_append]
    exact Nat.add_pos_left (packBin_pos _) _
  | string s | pointer p | callable t | custom t s =>
    rw [packVar, List.length_append]
    exact Nat.add_pos_left (packStr_pos _) _

/-- The elements are no more than the bytes, and each has fewer. -/
theorem packItems_bounds (l : List Var) :
    l.length ≤ (packItems l).length ∧ ∀ v ∈ l, (packVar v).length ≤ (packItems l).length := by
  induction l with
  | nil => exact ⟨Nat.le_refl _, by simp⟩
  | cons v l ih =>
    have hpos := packVar_pos v
    rw [packItems, List.length_append, List.length_cons]
    refine ⟨by omega, List.forall_mem_cons.mpr ⟨by omega, fun w hw => ?_⟩⟩
    have := ih.2 w hw
    omega

theorem packEntries_bounds (d : List (Str × Var)) : d.length ≤ (packEntries d).length ∧
    ∀ p ∈ d, p.1.length + (packVar p.2).length ≤ (packEntries d).length := by
  induction d with
  | nil => exact ⟨Nat.le_refl _, by simp⟩
  | cons p d ih =>
    obtain ⟨k, v⟩ := p
    have hpos := packVar_pos v
    rw [packEntries]
    simp only [List.length_append, List.length_cons]
    refine ⟨by omega, List.forall_mem_cons.mpr ⟨by simp only; omega, fun q hq => ?_⟩⟩
    have := ih.2 q hq
    omega

/-- **The bytes bound what is inside.** -/
theorem encodes_sized {v : Var} : ∀ {n : Nat}, (packVar v).length ≤ n → n < 2 ^ 32 →
    Encodes n (packVar v) (objectOf v) := by
  induction v using Var.ind with
  | h v ih =>
    intro n hle hn
    have htext : ∀ s : Str, (packStr (u32 s.length) ++ s).length ≤ n →
        Encodes n (packStr (u32 s.length) ++ s) (.str s) := fun s hs => by
      rw [List.length_append] at hs
      rw [u32_of_lt (by omega)]
      exact encodes_str s (by omega)
    cases v with
    | none => exact encodes_nil
    | bool b => exact encodes_bool b
    | int i => exact encodes_int64 i
    | double x =>
      rw [packVar, objectOf]
      cases hx : integral? x with
      | none => exact encodes_double x hx
      | some i => exact encodes_double_integral hx
    | string s => exact htext s hle
    | pointer p => exact htext _ hle
    | callable t => exact htext _ hle
    | custom t s => exact htext _ hle
    | bin b =>
      rw [packVar, List.length_append] at hle
      rw [packVar, u32_of_lt (by omega)]
      exact encodes_bin b (by omega)
    | list l =>
      obtain ⟨hlen, hitems⟩ := packItems_bounds l
      have hpos := packArray_pos (u32 l.length)
      rw [packVar, List.length_append] at hle
      obtain ⟨m, rfl⟩ : ∃ m, n = m + 1 := ⟨n - 1, by omega⟩
      rw [packVar, objectOf, u32_of_lt (by omega), packItems_eq, objectsOf_eq]
      refine encodes_array l (by omega) fun w hw => ih w hw ?_ (by omega)
      have := hitems w hw
      omega
    | dict d =>
      obtain ⟨hlen, hentries⟩ := packEntries_bounds d
      have hpos := packMap_pos (u32 d.length)
      rw [packVar, List.length_append] at hle
      obtain ⟨m, rfl⟩ : ∃ m, n = m + 1 := ⟨n - 1, by omega⟩
      rw [packVar, objectOf, u32_of_lt (by omega), packEntries_eq, pairsOf_eq]
      refine encodes_map d (by omega) (fun p hp => ?_) fun p hp => ih p.2 (Var.mem_items_dict hp) ?_ (by omega)
      · have := hentries p hp
        rw [u32_of_lt (by omega)]
        exact encodes_str _ (by omega)
      · have := hentries p hp
        omega

/-- **A value whose bytes are fewer than `2^32` arrives as its `wire`.** -/
theorem readVar_wire {v : Var} (h : (writeVar v []).length < 2 ^ 32) (more : List UInt8) :
    readVar (some (writeVar v [] ++ more)) = (wire v, some more) := by
  have hbytes : writeVar v [] = packVar v := rfl
  rw [hbytes] at h ⊢
  have hread := (encodes_sized (Nat.le_refl _) h).unpack (by rw [depthLimit]; omega) more
  cases hb : packVar v ++ more with
  | nil => exact absurd (List.append_eq_nil_iff.mp hb).1 (List.ne_nil_of_length_pos (packVar_pos v))
  | cons b bs =>
    rw [hb] at hread
    simp only [readVar, hread, wire]

theorem wire_int (i : Int64) : wire (.int i) = .int i := unpackVar_int i

/-- A dictionary arrives entry by entry. -/
theorem wire_dict (d : List (Str × Var)) :
    wire (.dict d) = .dict (assignAll [] (d.map fun p => (p.1, wire p.2))) := by
  rw [wire, objectOf, unpackVar, unpackEntries_pairs]
  rfl

end VersatileEngine
