import Mathlib.Data.List.Induction
import Mathlib.Data.List.Nodup
import Mathlib.Logic.Function.Basic

/-!
# VersatileEngine.Lib.ListNodes

Doubly linked lists of nodes in a store that is read by address. A dead address holds nothing, and an
operation that would follow a dangling pointer has no result.

* `Segment s prev l next` — the nodes `l` are linked in this order, from `prev` to `next`.
* `segment_append`        — two segments that meet.
* `Segment.push`, `Segment.unlink` — what `push` and `unlink` make of a list.
* `Segment.walk`, `Segment.walkBack`, `Segment.release` — what follows the links.
-/

namespace VersatileEngine

structure ListNode (α : Type) where
  next : Option Nat
  prev : Option Nat
  data : α

/-- What is alive, by address. -/
abbrev NodeStore (α : Type) := Nat → Option (ListNode α)

namespace NodeStore

variable {α : Type}

/-- `if (p) p->next = next`. -/
def setNext (s : NodeStore α) (p next : Option Nat) : Option (NodeStore α) :=
  match p with
  | none => some s
  | some p => (s p).map fun e => Function.update s p (some { e with next := next })

/-- `if (p) p->prev = prev`. -/
def setPrev (s : NodeStore α) (p prev : Option Nat) : Option (NodeStore α) :=
  match p with
  | none => some s
  | some p => (s p).map fun e => Function.update s p (some { e with prev := prev })

/-- The data from a node on; at most so many nodes. -/
def walk (s : NodeStore α) : Nat → Option Nat → Option (List α)
  | _, none => some []
  | 0, some _ => none
  | n + 1, some p =>
    match s p with
    | none => none
    | some e => (s.walk n e.next).map fun l => e.data :: l

/-- The data from a node back. -/
def walkBack (s : NodeStore α) : Nat → Option Nat → Option (List α)
  | _, none => some []
  | 0, some _ => none
  | n + 1, some p =>
    match s p with
    | none => none
    | some e => (s.walkBack n e.prev).map fun l => e.data :: l

/-- Deletes from a node back. -/
def release : Nat → Option Nat → NodeStore α → Option (NodeStore α)
  | _, none, s => some s
  | 0, some _, _ => none
  | n + 1, some p, s =>
    match s p with
    | none => none
    | some e => release n e.prev (Function.update s p none)

end NodeStore

section Segments

variable {α : Type}

/-- The address of the first node, `next` if there is none. -/
def firstOf (l : List (Nat × α)) (next : Option Nat) : Option Nat :=
  match l with
  | [] => next
  | x :: _ => some x.1

/-- The address of the last node, `prev` if there is none. -/
def lastOf (prev : Option Nat) : List (Nat × α) → Option Nat
  | [] => prev
  | x :: l => lastOf (some x.1) l

def Segment (s : NodeStore α) (prev : Option Nat) (l : List (Nat × α)) (next : Option Nat) : Prop :=
  match l with
  | [] => True
  | x :: l => s x.1 = some ⟨firstOf l next, prev, x.2⟩ ∧ Segment s (some x.1) l next

variable {s s' : NodeStore α} {prev next : Option Nat} {l l' : List (Nat × α)} {p : Nat} {a : α}

theorem firstOf_append : firstOf (l ++ l') next = firstOf l (firstOf l' next) := by
  cases l <;> rfl

theorem lastOf_append : lastOf prev (l ++ l') = lastOf (lastOf prev l) l' := by
  induction l generalizing prev with
  | nil => rfl
  | cons x l ih => exact ih

theorem lastOf_concat : lastOf prev (l ++ [(p, a)]) = some p := by
  rw [lastOf_append]
  rfl

/-- The first node when a node is taken out. -/
theorem firstOf_unlink (h : p ∉ l.map Prod.fst) :
    (if firstOf (l ++ (p, a) :: l') none = some p then firstOf l' none else firstOf (l ++ (p, a) :: l') none) =
      firstOf (l ++ l') none := by
  cases l with
  | nil => exact if_pos rfl
  | cons x l =>
    refine if_neg fun he => h ?_
    rw [← Option.some.inj he]
    exact List.mem_cons_self

/-- The last node when a node is taken out. -/
theorem lastOf_unlink (h : p ∉ l'.map Prod.fst) :
    (if lastOf none (l ++ (p, a) :: l') = some p then lastOf none l else lastOf none (l ++ (p, a) :: l')) =
      lastOf none (l ++ l') := by
  obtain rfl | ⟨l₀, x, rfl⟩ := List.eq_nil_or_concat l'
  · rw [lastOf_concat, if_pos rfl, List.append_nil]
  · rw [List.concat_eq_append] at *
    rw [← List.cons_append, ← List.append_assoc, ← List.append_assoc, lastOf_concat, lastOf_concat, if_neg]
    intro he
    exact h (by simp [← Option.some.inj he])

theorem segment_append : Segment s prev (l ++ l') next ↔
    Segment s prev l (firstOf l' next) ∧ Segment s (lastOf prev l) l' next := by
  induction l generalizing prev with
  | nil => exact (iff_of_eq (true_and _)).symm
  | cons x l ih =>
    rw [List.cons_append, Segment, Segment, ih, firstOf_append, and_assoc]
    rfl

theorem Segment.congr (h : Segment s prev l next) (he : ∀ p ∈ l.map Prod.fst, s' p = s p) :
    Segment s' prev l next := by
  induction l generalizing prev with
  | nil => trivial
  | cons x l ih =>
    refine ⟨(he _ (by simp)).trans h.1, ih h.2 fun p hp => he p ?_⟩
    rw [List.map_cons]
    exact List.mem_cons_of_mem _ hp

theorem Segment.alive (h : Segment s prev l next) (hp : (p, a) ∈ l) :
    ∃ e, s p = some e ∧ e.data = a := by
  induction l generalizing prev with
  | nil => cases hp
  | cons x l ih =>
    rcases List.mem_cons.mp hp with rfl | hp
    · exact ⟨_, h.1, rfl⟩
    · exact ih h.2 hp

/-- A change of data that leaves the links. -/
theorem Segment.setData (h : Segment s prev (l ++ (p, a) :: l') next) (b : α)
    (hnd : ((l ++ (p, a) :: l').map Prod.fst).Nodup) :
    Segment (Function.update s p ((s p).map fun e => { e with data := b })) prev (l ++ (p, b) :: l') next := by
  rw [List.map_append, List.map_cons, List.nodup_append, List.nodup_cons] at hnd
  obtain ⟨-, ⟨hl', -⟩, hdis⟩ := hnd
  rw [segment_append] at h ⊢
  refine ⟨h.1.congr fun q hq => Function.update_of_ne ?_ _ _, ?_, h.2.2.congr fun q hq =>
    Function.update_of_ne ?_ _ _⟩
  · exact hdis q hq p (by simp)
  · rw [Function.update_self, h.2.1]
    rfl
  · rintro rfl
    exact hl' hq

/-- What the last node of a segment points to can be changed. -/
theorem Segment.setNext (h : Segment s prev l next) (hnd : (l.map Prod.fst).Nodup) (next' : Option Nat) :
    ∃ s', s.setNext (lastOf none l) next' = some s' ∧ Segment s' prev l next' ∧
      ∀ q ∉ l.map Prod.fst, s' q = s q := by
  obtain rfl | ⟨l₀, x, rfl⟩ := List.eq_nil_or_concat l
  · exact ⟨s, rfl, trivial, fun _ _ => rfl⟩
  · rw [List.concat_eq_append] at *
    obtain ⟨p, a⟩ := x
    rw [lastOf_concat]
    obtain ⟨h₀, hp, -⟩ := segment_append.mp h
    rw [List.map_append, List.nodup_append] at hnd
    refine ⟨Function.update s p (some ⟨next', lastOf prev l₀, a⟩), by rw [NodeStore.setNext, hp]; rfl, ?_,
      fun q hq => Function.update_of_ne ?_ _ _⟩
    · rw [segment_append]
      refine ⟨h₀.congr fun q hq => Function.update_of_ne ?_ _ _, ?_, trivial⟩
      · exact hnd.2.2 q hq p (by simp)
      · exact Function.update_self _ _ _
    · rintro rfl
      exact hq (by simp)

theorem Segment.setPrev (h : Segment s prev l next) (hnd : (l.map Prod.fst).Nodup) (prev' : Option Nat) :
    ∃ s', s.setPrev (firstOf l none) prev' = some s' ∧ Segment s' prev' l next ∧
      ∀ q ∉ l.map Prod.fst, s' q = s q := by
  cases l with
  | nil => exact ⟨s, rfl, trivial, fun _ _ => rfl⟩
  | cons x l =>
    obtain ⟨hx, h⟩ := h
    rw [List.map_cons, List.nodup_cons] at hnd
    refine ⟨Function.update s x.1 (some ⟨firstOf l next, prev', x.2⟩), by rw [firstOf, NodeStore.setPrev, hx]; rfl,
      ⟨?_, ?_⟩, fun q hq => Function.update_of_ne ?_ _ _⟩
    · exact Function.update_self _ _ _
    · refine h.congr fun q hq => Function.update_of_ne ?_ _ _
      rintro rfl
      exact hnd.1 hq
    · rintro rfl
      exact hq (by simp)

/-- A node at a fresh address goes to the end. -/
theorem Segment.push (h : Segment s none l none) (hnd : (l.map Prod.fst).Nodup) (hp : p ∉ l.map Prod.fst) (a : α) :
    ∃ s', s.setNext (lastOf none l) (some p) = some s' ∧
      Segment (Function.update s' p (some ⟨none, lastOf none l, a⟩)) none (l ++ [(p, a)]) none ∧
      ∀ q ∉ l.map Prod.fst, s' q = s q := by
  obtain ⟨s', hs', hseg, hframe⟩ := h.setNext hnd (some p)
  refine ⟨s', hs', segment_append.mpr ⟨hseg.congr fun q hq => Function.update_of_ne ?_ _ _, ?_, trivial⟩, hframe⟩
  · rintro rfl
    exact hp hq
  · exact Function.update_self _ _ _

/-- The neighbours of a node are linked past it. -/
theorem Segment.unlink (h : Segment s none (l ++ (p, a) :: l') none)
    (hnd : ((l ++ (p, a) :: l').map Prod.fst).Nodup) :
    ∃ s₁ s₂, s.setNext (lastOf none l) (firstOf l' none) = some s₁ ∧
      s₁.setPrev (firstOf l' none) (lastOf none l) = some s₂ ∧ Segment s₂ none (l ++ l') none ∧
      ∀ q ∉ (l ++ l').map Prod.fst, s₂ q = s q := by
  obtain ⟨hl, -, hl'⟩ := segment_append.mp h
  rw [List.map_append, List.map_cons, List.nodup_append, List.nodup_cons] at hnd
  obtain ⟨hndl, ⟨-, hndl'⟩, hdis⟩ := hnd
  have hapart : ∀ q ∈ l.map Prod.fst, q ∉ l'.map Prod.fst := fun q hq hq' =>
    hdis q hq q (List.mem_cons_of_mem _ hq') rfl
  obtain ⟨s₁, hs₁, hseg, hframe⟩ := hl.setNext hndl (firstOf l' none)
  have hl₁ : Segment s₁ (some p) l' none := hl'.congr fun q hq => hframe q fun hq' => hapart q hq' hq
  obtain ⟨s₂, hs₂, hseg', hframe'⟩ := hl₁.setPrev hndl' (lastOf none l)
  refine ⟨s₁, s₂, hs₁, hs₂, segment_append.mpr ⟨hseg.congr fun q hq => hframe' q (hapart q hq), hseg'⟩, ?_⟩
  intro q hq
  rw [List.map_append, List.mem_append, not_or] at hq
  rw [hframe' q hq.2, hframe q hq.1]

theorem Segment.walk {n : Nat} (h : Segment s prev l none) (hn : l.length ≤ n) :
    s.walk n (firstOf l none) = some (l.map Prod.snd) := by
  induction l generalizing prev n with
  | nil => cases n <;> rfl
  | cons x l ih =>
    cases n with
    | zero => cases hn
    | succ n =>
      rw [firstOf, NodeStore.walk, h.1]
      simp only [ih h.2 (Nat.le_of_succ_le_succ hn), Option.map_some, List.map_cons]

theorem Segment.walkBack {n : Nat} (h : Segment s none l next) (hn : l.length ≤ n) :
    s.walkBack n (lastOf none l) = some (l.map Prod.snd).reverse := by
  induction l using List.reverseRecOn generalizing next n with
  | nil => cases n <;> rfl
  | append_singleton l x ih =>
    obtain ⟨p, a⟩ := x
    rw [List.length_append] at hn
    cases n with
    | zero => cases hn
    | succ n =>
      obtain ⟨h₀, hp, -⟩ := segment_append.mp h
      rw [lastOf_concat, NodeStore.walkBack, hp]
      simp only [ih h₀ (Nat.le_of_succ_le_succ hn), Option.map_some, List.map_append, List.map_cons,
        List.map_nil, List.reverse_append, List.reverse_cons, List.reverse_nil, List.nil_append,
        List.singleton_append]

/-- Releasing a list from its end deletes exactly its nodes. -/
theorem Segment.release {n : Nat} (h : Segment s none l next) (hnd : (l.map Prod.fst).Nodup)
    (hn : l.length ≤ n) : ∃ s', NodeStore.release n (lastOf none l) s = some s' ∧
      ∀ q, s' q = if q ∈ l.map Prod.fst then none else s q := by
  induction l using List.reverseRecOn generalizing s next n with
  | nil => cases n <;> exact ⟨s, rfl, fun q => (if_neg List.not_mem_nil).symm⟩
  | append_singleton l x ih =>
    obtain ⟨p, a⟩ := x
    rw [List.length_append] at hn
    rw [List.map_append, List.nodup_append] at hnd
    cases n with
    | zero => cases hn
    | succ n =>
      obtain ⟨h₀, hp, -⟩ := segment_append.mp h
      have hfree : ∀ q ∈ l.map Prod.fst, q ≠ p := fun q hq => hnd.2.2 q hq p (by simp)
      have h₁ : Segment (Function.update s p none) none l (firstOf [(p, a)] next) :=
        h₀.congr fun q hq => Function.update_of_ne (hfree q hq) _ _
      obtain ⟨s', hs', hq⟩ := ih h₁ hnd.1 (Nat.le_of_succ_le_succ hn)
      refine ⟨s', by rw [lastOf_concat, NodeStore.release, hp]; exact hs', fun q => ?_⟩
      rw [hq, List.map_append, List.map_cons, List.map_nil]
      by_cases hqp : q = p
      · subst hqp
        simp
      · rw [Function.update_of_ne hqp]
        simp only [List.mem_append, List.mem_singleton, hqp, or_false]

end Segments

end VersatileEngine
