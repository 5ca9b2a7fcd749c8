import VersatileEngine.Lib.Merging
import VersatileEngine.Node.Mirror

/-!
# VersatileEngine.Node.Overlay

What a copy that keeps the children of its destination writes, node by node.

A node is known by its way: the names on the way to it, each with a number among the siblings of that name.

* `Tree.look`      — the value at a way, if there is a node.
* `Shuffled`       — the same tree up to the order of siblings.
* `shuffled_of_look` — trees with the same values at the same ways are.
* `Tidy`           — where siblings have one name, only siblings of that name follow.
* `look_copyTree`  — **copying a tidy tree writes its values at its ways**, and leaves the others as they are.
-/

namespace VersatileEngine

namespace Tree

/-- The value of the node at a way. -/
def look : List (Str × Nat) → Tree → Option Var
  | [], t => some t.value
  | (nm, k) :: way, t => (t.named nm)[k]?.bind (look way)

theorem look_cons (nm : Str) (k : Nat) (way : List (Str × Nat)) (t : Tree) :
    t.look ((nm, k) :: way) = (t.named nm)[k]?.bind (look way) := rfl

theorem look_single (t : Tree) (nm : Str) (k : Nat) : (t.look [(nm, k)]).isSome = (t.named nm)[k]?.isSome := by
  rw [look_cons]
  cases (t.named nm)[k]? <;> rfl

theorem look_blank (nm : Str) (way : List (Str × Nat)) :
    (blank nm).look way = if way = [] then some .none else none := by
  cases way <;> rfl

end Tree

open Tree

/-- The same tree up to the order of siblings, at every level. -/
inductive Shuffled : Tree → Tree → Prop
  | intro {t u : Tree} (kids : List Tree) (name : t.name = u.name) (value : t.value = u.value)
      (perm : kids.Perm u.kids) (length : t.kids.length = kids.length)
      (elements : ∀ (i : Nat) (x y : Tree), t.kids[i]? = some x → kids[i]? = some y → Shuffled x y) :
      Shuffled t u

/-- Among siblings of one name there is no other one, on any level. -/
inductive Tidy : Tree → Prop
  | intro {t : Tree} (names : ∀ nm, Orderly Tree.name t.kids nm) (kids : ∀ k ∈ t.kids, Tidy k) : Tidy t

section Overlay

variable {t u s d : Tree}

theorem partner_keys (u : Tree) : ((keyed Tree.name u.kids).map Prod.fst).map (fun key => partner u key.1 key.2) =
    u.kids := by
  rw [List.map_map]
  refine Eq.trans (List.map_congr_left fun p hp => ?_) (keyed_snd Tree.name u.kids)
  have hget := u.mem_keyed_kids.mp hp
  rw [Function.comp_apply, partner, hget]
  rfl

/-- **Trees with the same values at the same ways** are the same up to the order of siblings. -/
theorem shuffled_of_look (hname : t.name = u.name) (hlook : ∀ way, t.look way = u.look way) : Shuffled t u := by
  induction t using Tree.ind generalizing u with
  | h t ih =>
    have hsome : ∀ (nm : Str) (k : Nat), (t.named nm)[k]?.isSome = (u.named nm)[k]?.isSome := by
      intro nm k
      rw [← look_single, ← look_single, hlook]
    have hkeys : ((keyed Tree.name t.kids).map Prod.fst).Perm ((keyed Tree.name u.kids).map Prod.fst) := by
      refine (List.perm_ext_iff_of_nodup (keyed_nodup _ _) (keyed_nodup _ _)).mpr fun key => ?_
      rw [← lookup_isSome, ← lookup_isSome, Tree.lookup_keyed_kids, Tree.lookup_keyed_kids, hsome]
    have hperm := hkeys.map fun key => partner u key.1 key.2
    rw [partner_keys] at hperm
    refine .intro _ hname (Option.some.inj (hlook [])) hperm ?_ fun i x y hx hy => ?_
    · rw [List.length_map, List.length_map, ← List.length_map (f := Prod.snd), keyed_snd]
    · rw [List.map_map, List.getElem?_map, Option.map_eq_some_iff] at hy
      obtain ⟨⟨⟨nm, k⟩, x'⟩, hp, rfl⟩ := hy
      have hx' : x' = x := by
        have hsnd := congrArg (·[i]?) (keyed_snd Tree.name t.kids)
        simp only [List.getElem?_map, hp, hx, Option.map_some] at hsnd
        exact Option.some.inj hsnd
      subst hx'
      have hget := t.mem_keyed_kids.mp (List.mem_of_getElem? hp)
      obtain ⟨hmem, hnm⟩ := t.named_mem hget
      have hy : (u.named nm)[k]?.isSome = true := by rw [← hsome, hget]; rfl
      obtain ⟨y, hy⟩ := Option.isSome_iff_exists.mp hy
      rw [Function.comp_apply, partner, hy, Option.getD_some]
      refine ih x' hmem (hnm.trans (u.named_mem hy).2.symm) fun way => ?_
      have hway := hlook ((nm, k) :: way)
      rw [look_cons, look_cons, hget, hy] at hway
      exact hway

/-! ## Copying -/

theorem copySlot_name (x : Slot Tree Tree) :
    (copySlot true false false x).name = x.name Tree.name Tree.name := by
  cases x with
  | old d => rfl
  | joined d s => exact copyTree_name true false false s d
  | fresh s => exact copyTree_name true false false s (blank s.name)

/-- The children of one name of a copy that keeps those of the destination. -/
theorem copyTree_kept_named (nm : Str) (h : Orderly Tree.name s.kids nm) (k : Nat) :
    ((copyTree true false false s d).named nm)[k]? =
      (Slot.both ((d.named nm)[k]?) ((s.named nm)[k]?)).map (copySlot true false false) := by
  have hnamed : (copyTree true false false s d).named nm =
      ((arrange Tree.name Tree.name true false d.kids s.kids).filter
        fun x => x.name Tree.name Tree.name == nm).map (copySlot true false false) := by
    rw [Tree.named, copyTree_kids, List.filter_map]
    refine congrArg (List.map _) (List.filter_congr fun x _ => ?_)
    rw [Function.comp_apply, copySlot_name, beq_eq_decide]
  rw [hnamed, List.getElem?_map, arrange_named Tree.name Tree.name d.kids s.kids h, Tree.lookup_keyed_kids,
    Tree.lookup_keyed_kids]

/-- **Copying a tidy tree** writes the values of its nodes, and leaves all other nodes as they are. -/
theorem look_copyTree (h : Tidy s) : ∀ (d : Tree) (way : List (Str × Nat)),
    (copyTree true false false s d).look way = (s.look way).or (d.look way) := by
  induction h with
  | @intro s names _ ih =>
    intro d way
    cases way with
    | nil =>
      rw [look, copyTree_value]
      rfl
    | cons key way =>
      obtain ⟨nm, k⟩ := key
      rw [look_cons, copyTree_kept_named nm (names nm), look_cons nm k way s, look_cons nm k way d]
      cases hs : (s.named nm)[k]? with
      | none => cases (d.named nm)[k]? <;> rfl
      | some x =>
        obtain ⟨hx, hname⟩ := s.named_mem hs
        cases (d.named nm)[k]? with
        | some y => exact ih x hx y way
        | none =>
          refine (ih x hx (blank x.name) way).trans ?_
          rw [look_blank, Option.bind_some, Option.bind_none]
          cases way <;> rfl

end Overlay

end VersatileEngine
