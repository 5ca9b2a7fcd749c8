import Mathlib.Data.List.Induction
import VersatileEngine.Core.Data
import VersatileEngine.Lib.Dict

/-!
# VersatileEngine.Core.Manager

The objects that a `Manager` of `object.cpp` keeps by their names.

* `Manager`          — the table and the objects that were deleted, in order. An object is a number, its
  name never changes, and several objects may have one name.
* `add`, `removeObj`, `removeName`, `get` — the operations; `step` and `run` take them one after the other.
* `Kept`             — a key is the name of its object: what every operation keeps.
* `Lawful`           — what an operation is to do to the objects it is about.
* `manager_identity` — **a run is lawful exactly when each removal of an object finds nothing else under
  its name**: `removeObj` erases by the name first.
-/

namespace VersatileEngine

structure Manager where
  entries : List (Str × Nat)
  deleted : List Nat
deriving DecidableEq

namespace Manager

inductive Op where
  | add (obj : Option Nat) (deleteIfFailed : Bool)
  | removeObj (obj : Option Nat) (autoDelete : Bool)
  | removeName (key : Str) (autoDelete : Bool)
  | get (key : Str)

def empty : Manager := ⟨[], []⟩

def get (m : Manager) (key : Str) : Option Nat := m.entries.lookup key

def has (m : Manager) (key : Str) : Bool := (m.get key).isSome

/-- `if (auto_delete) delete obj;`. -/
def drop (deleted : List Nat) (obj : Nat) (autoDelete : Bool) : List Nat :=
  if autoDelete then deleted ++ [obj] else deleted

section Ops

variable (name : Nat → Str)

def add (m : Manager) (obj : Option Nat) (deleteIfFailed : Bool) : Manager × Option Nat :=
  match obj with
  | none => (m, none)
  | some o =>
    if m.has (name o) then ({ m with deleted := drop m.deleted o deleteIfFailed }, none)
    else ({ m with entries := assign m.entries (name o) o }, some o)

/-- `remove(Object*)`: by the name, and if that is not there by a search for the object. -/
def removeObj (m : Manager) (obj : Option Nat) (autoDelete : Bool) : Manager × Bool :=
  match obj with
  | none => (m, false)
  | some o =>
    if m.has (name o) then (⟨unassign m.entries (name o), drop m.deleted o autoDelete⟩, true)
    else
      match m.entries.find? fun p => p.2 = o with
      | some p => (⟨unassign m.entries p.1, drop m.deleted o autoDelete⟩, true)
      | none => (m, false)

def removeName (m : Manager) (key : Str) (autoDelete : Bool) : Manager × Bool :=
  match m.get key with
  | none => (m, false)
  | some o => (⟨unassign m.entries key, drop m.deleted o autoDelete⟩, true)

def step (m : Manager) : Op → Manager
  | .add obj deleteIfFailed => (m.add name obj deleteIfFailed).1
  | .removeObj obj autoDelete => (m.removeObj name obj autoDelete).1
  | .removeName key autoDelete => (m.removeName key autoDelete).1
  | .get _ => m

def run (ops : List Op) : Manager := ops.foldl (step name) empty

end Ops

/-! ### What the operations are to do -/

def Managed (m : Manager) (obj : Nat) : Prop := ∃ p ∈ m.entries, p.2 = obj

/-- The removal of `obj`: true and deleted only when it was managed, and its own entry goes, no other. -/
structure Identity (m : Manager) (obj : Nat) (autoDelete : Bool) (r : Manager × Bool) : Prop where
  result : r.2 = true ↔ m.Managed obj
  entries : r.1.entries = m.entries.filter fun p => p.2 ≠ obj
  deleted : m.Managed obj → r.1.deleted = drop m.deleted obj autoDelete
  spared : ¬ m.Managed obj → r.1.deleted = m.deleted

/-- An addition displaces nothing, and it deletes only when asked to. -/
structure Added (m : Manager) (deleteIfFailed : Bool) (r : Manager × Option Nat) : Prop where
  entries : m.entries <+: r.1.entries
  deleted : deleteIfFailed = false → r.1.deleted = m.deleted

/-- A removal by name is the removal of the object under that name. -/
structure Named (m : Manager) (key : Str) (autoDelete : Bool) (r : Manager × Bool) : Prop where
  found : ∀ o, m.get key = some o → m.Identity o autoDelete r
  missing : m.get key = none → r = (m, false)

def Lawful (name : Nat → Str) (m : Manager) : Op → Prop
  | .add obj deleteIfFailed => m.Added deleteIfFailed (m.add name obj deleteIfFailed)
  | .removeObj (some o) autoDelete => m.Identity o autoDelete (m.removeObj name (some o) autoDelete)
  | .removeObj none autoDelete => m.removeObj name none autoDelete = (m, false)
  | .removeName key autoDelete => m.Named key autoDelete (m.removeName key autoDelete)
  | .get key => ∀ o, m.get key = some o → m.Managed o ∧ name o = key

/-- No other object is managed under the name of an object to remove. -/
def Own (name : Nat → Str) (m : Manager) : Op → Prop
  | .removeObj (some o) _ => ∀ o', m.get (name o) = some o' → o' = o
  | _ => True

/-! ### The table -/

/-- Every key is the name of its object, once. -/
structure Kept (name : Nat → Str) (m : Manager) : Prop where
  keyed : ∀ p ∈ m.entries, p.1 = name p.2
  nodup : (m.entries.map Prod.fst).Nodup

section Kept

variable {name : Nat → Str} {m : Manager}

theorem Kept.unassign (h : Kept name m) (key : Str) (deleted : List Nat) :
    Kept name ⟨VersatileEngine.unassign m.entries key, deleted⟩ :=
  ⟨fun p hp => h.keyed p (List.mem_of_mem_filter hp), unassign_nodup key h.nodup⟩

theorem kept_add (h : Kept name m) (obj : Option Nat) (deleteIfFailed : Bool) :
    Kept name (m.add name obj deleteIfFailed).1 := by
  unfold add
  split
  · exact h
  · split_ifs
    · exact ⟨h.keyed, h.nodup⟩
    · refine ⟨fun p hp => ?_, assign_nodup h.nodup⟩
      rcases mem_assign hp with rfl | hp
      · rfl
      · exact h.keyed p hp

theorem kept_removeObj (h : Kept name m) (obj : Option Nat) (autoDelete : Bool) :
    Kept name (m.removeObj name obj autoDelete).1 := by
  unfold removeObj
  split
  · exact h
  · split_ifs
    · exact h.unassign _ _
    · split
      · exact h.unassign _ _
      · exact h

theorem kept_removeName (h : Kept name m) (key : Str) (autoDelete : Bool) :
    Kept name (m.removeName key autoDelete).1 := by
  unfold removeName
  split
  · exact h
  · exact h.unassign _ _

theorem kept_step (h : Kept name m) (op : Op) : Kept name (m.step name op) := by
  cases op with
  | add obj deleteIfFailed => exact kept_add h obj deleteIfFailed
  | removeObj obj autoDelete => exact kept_removeObj h obj autoDelete
  | removeName key autoDelete => exact kept_removeName h key autoDelete
  | get key => exact h

/-- What every operation keeps holds after any of them. -/
theorem kept_run (name : Nat → Str) (ops : List Op) : Kept name (run name ops) := by
  induction ops using List.reverseRecOn with
  | nil => exact ⟨by simp [run, empty], List.nodup_nil⟩
  | append_singleton ops op ih =>
    rw [run, List.foldl_append]
    exact kept_step ih op

theorem Kept.get_iff (h : Kept name m) {key : Str} {o : Nat} :
    m.get key = some o ↔ m.Managed o ∧ name o = key := by
  constructor
  · intro hget
    have hmem := mem_of_lookup hget
    exact ⟨⟨_, hmem, rfl⟩, (h.keyed _ hmem).symm⟩
  · rintro ⟨⟨⟨k, o⟩, hp, rfl⟩, rfl⟩
    obtain rfl : k = name o := h.keyed _ hp
    exact lookup_of_mem h.nodup hp

/-- To erase the key of a managed object is to erase the object. -/
theorem Kept.unassign_eq (h : Kept name m) {o : Nat} (hget : m.get (name o) = some o) :
    VersatileEngine.unassign m.entries (name o) = m.entries.filter fun p => p.2 ≠ o := by
  refine List.filter_congr fun p hp => ?_
  rw [decide_eq_decide, not_iff_not]
  constructor
  · intro hk
    obtain ⟨k, o'⟩ := p
    have hlook : m.get k = some o' := lookup_of_mem h.nodup hp
    rw [show k = name o from hk, hget] at hlook
    exact (Option.some.inj hlook).symm
  · rintro rfl
    exact h.keyed p hp

end Kept

/-! ### The law -/

section Law

variable {name : Nat → Str} {m : Manager}

theorem lawful_removal (h : Kept name m) {o : Nat} (hget : m.get (name o) = some o) (autoDelete : Bool) :
    m.Identity o autoDelete (⟨unassign m.entries (name o), drop m.deleted o autoDelete⟩, true) := by
  have hman : m.Managed o := (h.get_iff.mp hget).1
  exact ⟨iff_of_true rfl hman, h.unassign_eq hget, fun _ => rfl, fun hno => absurd hman hno⟩

theorem unmanaged_search {o : Nat} (hno : ¬ m.Managed o) : (m.entries.find? fun p => p.2 = o) = none :=
  List.find?_eq_none.mpr fun p hp he => hno ⟨p, hp, of_decide_eq_true he⟩

/-- `remove(Object*)` does what it is to do exactly when nothing else is under the name. -/
theorem removeObj_iff (h : Kept name m) (o : Nat) (autoDelete : Bool) :
    m.Identity o autoDelete (m.removeObj name (some o) autoDelete) ↔
      ∀ o', m.get (name o) = some o' → o' = o := by
  cases hget : m.get (name o) with
  | none =>
    have hno : ¬ m.Managed o := fun hman => by
      rw [h.get_iff.mpr ⟨hman, rfl⟩] at hget
      cases hget
    have hrun : m.removeObj name (some o) autoDelete = (m, false) := by
      simp only [removeObj, has, hget, Option.isSome_none, Bool.false_eq_true, if_false,
        unmanaged_search hno]
    rw [hrun]
    refine iff_of_true ⟨iff_of_false (by simp) hno, ?_, fun hman => absurd hman hno, fun _ => rfl⟩ (by simp)
    refine (List.filter_eq_self.mpr fun p hp => ?_).symm
    simpa using fun he => hno ⟨p, hp, he⟩
  | some o' =>
    have hrun : m.removeObj name (some o) autoDelete =
        (⟨unassign m.entries (name o), drop m.deleted o autoDelete⟩, true) := by
      simp only [removeObj, has, hget, Option.isSome_some, if_true]
    rw [hrun]
    constructor
    · -- what is returned says that the object is managed, and then it is what stands under its name
      intro hid o'' ho
      have hown := h.get_iff.mpr ⟨hid.result.mp rfl, rfl⟩
      rw [hown] at hget
      exact (Option.some.inj ho).symm.trans (Option.some.inj hget).symm
    · intro hown
      obtain rfl := hown o' rfl
      exact lawful_removal h hget autoDelete

theorem lawful_iff (h : Kept name m) (op : Op) : Lawful name m op ↔ Own name m op := by
  cases op with
  | add obj deleteIfFailed =>
    refine iff_of_true ?_ trivial
    show m.Added deleteIfFailed (m.add name obj deleteIfFailed)
    unfold add
    split
    · exact ⟨List.prefix_refl _, fun _ => rfl⟩
    · rename_i o
      split_ifs with hhas
      · exact ⟨List.prefix_refl _, fun hd => by simp [drop, hd]⟩
      · refine ⟨?_, fun _ => rfl⟩
        have hnew : name o ∉ m.entries.map Prod.fst := fun hmem => hhas (lookup_isSome.mpr hmem)
        exact ⟨_, (assign_new o hnew).symm⟩
  | removeObj obj autoDelete =>
    cases obj with
    | none => exact iff_of_true rfl trivial
    | some o => exact removeObj_iff h o autoDelete
  | removeName key autoDelete =>
    refine iff_of_true ⟨fun o hget => ?_, fun hget => ?_⟩ trivial
    · obtain ⟨-, rfl⟩ := h.get_iff.mp hget
      simp only [removeName, hget]
      exact lawful_removal h hget autoDelete
    · simp only [removeName, hget]
  | get key => exact iff_of_true (fun o hget => h.get_iff.mp hget) trivial

/-- **The objects of a manager.** Whatever objects share a name, every operation of a run does what it is
to do to the object it is about, exactly when no removal of an object finds another one under its name. -/
theorem manager_identity (name : Nat → Str) (ops : List Op) :
    (∀ before op after, ops = before ++ op :: after → Lawful name (run name before) op) ↔
      ∀ before op after, ops = before ++ op :: after → Own name (run name before) op := by
  refine forall_congr' fun before => forall_congr' fun op => forall_congr' fun _ => imp_congr_right fun _ => ?_
  exact lawful_iff (kept_run name before) op

end Law

/-- Two objects of one name, the first is managed: to remove the second erases the first, and the second is
deleted. -/
theorem removes_another :
    let name := fun _ => ascii "a"
    let m := run name [.add (some 0) false]
    m.Managed 0 ∧ ¬ m.Managed 1 ∧ m.removeObj name (some 1) true = (⟨[], [1]⟩, true) ∧
      ¬ Lawful name m (.removeObj (some 1) true) := by
  intro name m
  have hm : m.entries = [(ascii "a", 0)] := by decide
  have hno : ¬ m.Managed 1 := by
    rintro ⟨p, hp, he⟩
    rw [hm] at hp
    rw [List.mem_singleton.mp hp] at he
    cases he
  refine ⟨⟨_, hm ▸ List.mem_cons_self, rfl⟩, hno, by decide, fun h => hno (h.result.mp ?_)⟩
  decide

end Manager

end VersatileEngine
