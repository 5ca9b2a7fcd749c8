import VersatileEngine.Core.Var
import VersatileEngine.Lib.Dict

/-!
# VersatileEngine.Core.Data

Values as the serializers see them: induction over a value, and which values are plain data.

* `Var.ind`   — induction over a value through its elements.
* `Var.Data`  — built from `NONE`, `BOOL`, `INT`, `DOUBLE`, `STRING`, `BIN`, and lists and dictionaries
  of these; the keys of a dictionary are distinct.
* `Var.eqvList_iff`, `Var.eqvDict_iff` — `operator==` of containers, element by element.
-/

namespace VersatileEngine

/-- Lower-case hexadecimal digits, as a stream writes a number after `std::hex`. -/
def hexChars (n : Nat) : Str := (Nat.toDigits 16 n).map fun c => UInt8.ofNat c.toNat

/-- `toString` of the types that a serializer has no form of its own for. -/
def Var.opaqueText : Var → Str
  | .pointer p => if p = 0 then ascii "0" else ascii "0x" ++ hexChars p.toNat
  | .callable _ => ascii "<callable>"
  | .custom _ text => text
  | _ => []

namespace Var

/-- The elements of a list, or the values of a dictionary. -/
def items : Var → List Var
  | .list l => l
  | .dict d => d.map Prod.snd
  | _ => []

/-- Induction over a value through its elements. -/
theorem ind {P : Var → Prop} (h : ∀ v, (∀ x ∈ v.items, P x) → P v) (v : Var) : P v := by
  refine @Var.rec P (fun l => ∀ x ∈ l, P x) (fun d => ∀ p ∈ d, P p.2) (fun p => P p.2)
    (h _ ?_) (fun _ => h _ ?_) (fun _ => h _ ?_) (fun _ => h _ ?_) (fun _ => h _ ?_)
    (fun _ => h _ ?_) (fun l ih => h _ ih) (fun d ih => h _ ?_) (fun _ => h _ ?_) (fun _ => h _ ?_)
    (fun _ _ => h _ ?_) ?_ (fun x l hx hl => ?_) ?_ (fun p d hp hd => ?_) (fun _ _ h => h) v
  case refine_7 =>
    intro x hx
    obtain ⟨p, hp, rfl⟩ := List.mem_map.mp hx
    exact ih p hp
  case refine_12 => exact List.forall_mem_cons.mpr ⟨hx, hl⟩
  case refine_14 => exact List.forall_mem_cons.mpr ⟨hp, hd⟩
  all_goals intro x hx; cases hx

theorem mem_items_dict {d : List (Str × Var)} {p : Str × Var} (h : p ∈ d) : p.2 ∈ (dict d).items :=
  List.mem_map_of_mem h

/-- Plain data. -/
inductive Data : Var → Prop
  | none : Data .none
  | bool (b : Bool) : Data (.bool b)
  | int (i : Int64) : Data (.int i)
  | double (x : Binary64) : Data (.double x)
  | string (s : Str) : Data (.string s)
  | bin (b : List UInt8) : Data (.bin b)
  | list {l : List Var} (h : ∀ v ∈ l, Data v) : Data (.list l)
  | dict {d : List (Str × Var)} (hk : (d.map Prod.fst).Nodup) (h : ∀ p ∈ d, Data p.2) :
      Data (.dict d)

theorem WF_list {l : List Var} : (list l).WF ↔ ∀ v ∈ l, v.WF := by
  rw [WF]
  induction l with
  | nil => simp [WFList]
  | cons v l ih => rw [WFList, ih, List.forall_mem_cons]

theorem WF_dict {d : List (Str × Var)} :
    (dict d).WF ↔ (d.map Prod.fst).Nodup ∧ ∀ p ∈ d, p.2.WF := by
  have hd : WFDict d ↔ ∀ p ∈ d, p.2.WF := by
    induction d with
    | nil => simp [WFDict]
    | cons p d ih => rw [WFDict, ih, List.forall_mem_cons]
  rw [WF, hd]

theorem eqvList_map {α : Type} {f g : α → Var} {l : List α} :
    eqvList (l.map f) (l.map g) = true ↔ ∀ a ∈ l, (f a).eqv (g a) = true := by
  induction l with
  | nil => simp [eqvList]
  | cons a l ih => simp [eqvList, ih]

theorem eqvList_iff {f : Var → Var} {l : List Var} :
    eqvList l (l.map f) = true ↔ ∀ v ∈ l, v.eqv (f v) = true := by
  have h := @eqvList_map Var id f l
  rwa [List.map_id] at h

theorem eqvList_length {l l' : List Var} (h : eqvList l l' = true) : l.length = l'.length := by
  induction l generalizing l' with
  | nil =>
    cases l' with
    | nil => rfl
    | cons v' l' => cases h
  | cons v l ih =>
    cases l' with
    | nil => cases h
    | cons v' l' =>
      simp only [eqvList, Bool.and_eq_true] at h
      rw [List.length_cons, List.length_cons, ih h.2]

theorem eqvList_mem {l l' : List Var} (h : eqvList l l' = true) {v : Var} (hv : v ∈ l) :
    ∃ w ∈ l', v.eqv w = true := by
  induction l generalizing l' with
  | nil => cases hv
  | cons a l ih =>
    cases l' with
    | nil => cases h
    | cons a' l' =>
      simp only [eqvList, Bool.and_eq_true] at h
      rcases List.mem_cons.mp hv with rfl | hv
      · exact ⟨a', by simp, h.1⟩
      · obtain ⟨w, hw, he⟩ := ih h.2 hv
        exact ⟨w, List.mem_cons_of_mem _ hw, he⟩

theorem eqvDict_iff {kvs d : List (Str × Var)} : eqvDict kvs d = true ↔
    ∀ p ∈ kvs, ∃ w, d.lookup p.1 = some w ∧ p.2.eqv w = true := by
  induction kvs with
  | nil => simp [eqvDict]
  | cons p kvs ih =>
    obtain ⟨k, v⟩ := p
    rw [eqvDict, Bool.and_eq_true, ih, List.forall_mem_cons]
    cases d.lookup k <;> simp

/-- Equal lists, place by place. -/
theorem eqvList_getElem {l l' : List Var} : eqvList l l' = true ↔ l.length = l'.length ∧
    ∀ (i : Nat) (v w : Var), l[i]? = some v → l'[i]? = some w → v.eqv w = true := by
  induction l generalizing l' with
  | nil => cases l' <;> simp [eqvList]
  | cons a l ih =>
    cases l' with
    | nil => simp [eqvList]
    | cons a' l' =>
      rw [eqvList, Bool.and_eq_true, ih, List.length_cons, List.length_cons, Nat.add_right_cancel_iff]
      constructor
      · rintro ⟨ha, hlen, h⟩
        refine ⟨hlen, fun i v w hv hw => ?_⟩
        cases i with
        | zero => exact Option.some.inj hv ▸ Option.some.inj hw ▸ ha
        | succ i => exact h i v w hv hw
      · rintro ⟨hlen, h⟩
        exact ⟨h 0 a a' rfl rfl, hlen, fun i v w hv hw => h (i + 1) v w hv hw⟩

/-- Dictionaries with distinct keys, the second without other keys, are compared entry by entry. -/
theorem eqv_dict_iff {d d' : List (Str × Var)} (hd : (d.map Prod.fst).Nodup)
    (hd' : (d'.map Prod.fst).Nodup) (hkeys : ∀ p ∈ d', p.1 ∈ d.map Prod.fst) :
    (dict d).eqv (dict d') = true ↔ ∀ p ∈ d, ∃ w, (p.1, w) ∈ d' ∧ p.2.eqv w = true := by
  rw [eqv, Bool.and_eq_true, eqvDict_iff]
  constructor
  · rintro ⟨-, h⟩ p hp
    obtain ⟨w, hw, heq⟩ := h p hp
    exact ⟨w, mem_of_lookup hw, heq⟩
  · intro h
    have hsame : ∀ k, k ∈ d.map Prod.fst ↔ k ∈ d'.map Prod.fst := by
      refine fun k => ⟨fun hk => ?_, fun hk => ?_⟩
      · obtain ⟨p, hp, rfl⟩ := List.mem_map.mp hk
        obtain ⟨w, hw, -⟩ := h p hp
        exact List.mem_map.mpr ⟨_, hw, rfl⟩
      · obtain ⟨p, hp, rfl⟩ := List.mem_map.mp hk
        exact hkeys p hp
    have hlen := ((List.perm_ext_iff_of_nodup hd hd').mpr hsame).length_eq
    rw [List.length_map, List.length_map] at hlen
    refine ⟨decide_eq_true hlen, fun p hp => ?_⟩
    obtain ⟨w, hw, heq⟩ := h p hp
    exact ⟨w, lookup_of_mem hd' hw, heq⟩

end Var

end VersatileEngine
