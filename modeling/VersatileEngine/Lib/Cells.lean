import Mathlib.Data.List.Basic
import Mathlib.Logic.Function.Basic
import Mathlib.Tactic

/-!
# VersatileEngine.Lib.Cells

Raw memory with object lifetimes: blocks of cells, each of which is dead, holds a live object or one
that was moved from. An operation that constructs over an object, assigns to or destroys what is not
one, reads a value that is not there or leaves the block has no result.

* `construct`, `destroy`, `assign`, `fetch` — one cell.
* `relocate` — `memcpy` or `memmove` of objects that go with their bytes.
* `shiftDown_spec`, `shiftUp_spec`, `moveEach_spec`, `copyEach_spec`, `fillEach_spec`,
  `destroyEach_spec` — the loops of a vector over a block.
-/

namespace VersatileEngine

inductive Cell (α : Type) where
  | dead
  | moved
  | live (v : α)
  deriving DecidableEq, Repr

/-- What each block holds; `none` for a block that is not allocated. -/
abbrev Memory (β α : Type) := β → Option (List (Cell α))

namespace Cell

variable {α : Type}

def isDead : Cell α → Bool
  | .dead => true
  | _ => false

/-- The cells of a sequence of objects. -/
def lives (xs : List α) : List (Cell α) := xs.map .live

/-- `n` cells without objects. -/
def deads (n : Nat) : List (Cell α) := List.replicate n .dead

@[simp] theorem lives_length (xs : List α) : (lives xs).length = xs.length := List.length_map _

@[simp] theorem deads_length (n : Nat) : (deads n : List (Cell α)).length = n := List.length_replicate

@[simp] theorem lives_nil : lives ([] : List α) = [] := rfl

@[simp] theorem lives_cons (x : α) (xs : List α) : lives (x :: xs) = .live x :: lives xs := rfl

theorem lives_append (xs ys : List α) : lives (xs ++ ys) = lives xs ++ lives ys := List.map_append

@[simp] theorem deads_zero : (deads 0 : List (Cell α)) = [] := rfl

theorem deads_succ (n : Nat) : (deads (n + 1) : List (Cell α)) = .dead :: deads n := rfl

theorem deads_add (m n : Nat) : (deads (m + n) : List (Cell α)) = deads m ++ deads n :=
  (List.replicate_append_replicate).symm

theorem deads_concat (n : Nat) : (deads n ++ [.dead] : List (Cell α)) = deads (n + 1) :=
  (deads_add n 1).symm

/-- `new (p + i) T(v)`. -/
def construct (s : List (Cell α)) (i : Nat) (v : α) : Option (List (Cell α)) :=
  match s[i]? with
  | some .dead => some (s.set i (.live v))
  | _ => none

/-- `p[i].~T()`. -/
def destroy (s : List (Cell α)) (i : Nat) : Option (List (Cell α)) :=
  match s[i]? with
  | some (.live _) => some (s.set i .dead)
  | some .moved => some (s.set i .dead)
  | _ => none

/-- `p[i] = v`. -/
def assign (s : List (Cell α)) (i : Nat) (v : α) : Option (List (Cell α)) :=
  match s[i]? with
  | some (.live _) => some (s.set i (.live v))
  | some .moved => some (s.set i (.live v))
  | _ => none

/-- The value of `p[i]`. -/
def read (s : List (Cell α)) (i : Nat) : Option α :=
  match s[i]? with
  | some (.live v) => some v
  | _ => none

/-- `std::move(p[i])` as it is used up: the value, and the cell left moved from. -/
def fetch (s : List (Cell α)) (i : Nat) : Option (α × List (Cell α)) :=
  (read s i).map fun v => (v, s.set i .moved)

section One

variable {p q : List (Cell α)} {i : Nat}

theorem get_middle (x : Cell α) (h : p.length = i) : (p ++ x :: q)[i]? = some x := by
  rw [← h, List.getElem?_append_right (Nat.le_refl _), Nat.sub_self]
  rfl

theorem set_middle (x y : Cell α) (h : p.length = i) :
    (p ++ x :: q).set i y = p ++ y :: q := by
  rw [← h, List.set_append_right _ _ (Nat.le_refl _), Nat.sub_self]
  rfl

theorem construct_middle (v : α) (h : p.length = i) :
    construct (p ++ .dead :: q) i v = some (p ++ .live v :: q) := by
  rw [construct, get_middle _ h, set_middle _ _ h]

theorem destroy_live (v : α) (h : p.length = i) :
    destroy (p ++ .live v :: q) i = some (p ++ .dead :: q) := by
  rw [destroy, get_middle _ h, set_middle _ _ h]

theorem destroy_moved (h : p.length = i) :
    destroy (p ++ .moved :: q) i = some (p ++ .dead :: q) := by
  rw [destroy, get_middle _ h, set_middle _ _ h]

theorem assign_moved (v : α) (h : p.length = i) :
    assign (p ++ .moved :: q) i v = some (p ++ .live v :: q) := by
  rw [assign, get_middle _ h, set_middle _ _ h]

theorem read_middle (v : α) (h : p.length = i) : read (p ++ .live v :: q) i = some v := by
  rw [read, get_middle _ h]

theorem fetch_middle (v : α) (h : p.length = i) :
    fetch (p ++ .live v :: q) i = some (v, p ++ .moved :: q) := by
  rw [fetch, read_middle v h, set_middle _ _ h]
  rfl

end One

/-- `p[i] = std::move(p[j])`. -/
def assignFrom (s : List (Cell α)) (i j : Nat) : Option (List (Cell α)) :=
  (fetch s j).bind fun r => assign r.2 i r.1

/-- `new (p + i) T(std::move(p[j]))`. -/
def constructFrom (s : List (Cell α)) (i j : Nat) : Option (List (Cell α)) :=
  (fetch s j).bind fun r => construct r.2 i r.1

/-- `for (k = i; k < i + n; ++k) p[k].~T()`. -/
def destroyEach (s : List (Cell α)) (i : Nat) : Nat → Option (List (Cell α))
  | 0 => some s
  | n + 1 => (destroy s i).bind fun s => destroyEach s (i + 1) n

/-- `for (k = i; k < i + n; ++k) new (p + k) T(v)`. -/
def fillEach (v : α) (s : List (Cell α)) (i : Nat) : Nat → Option (List (Cell α))
  | 0 => some s
  | n + 1 => (construct s i v).bind fun s => fillEach v s (i + 1) n

/-- `for (k = i; k < i + n; ++k) p[k] = std::move(p[k + 1])`. -/
def shiftDown (s : List (Cell α)) (i : Nat) : Nat → Option (List (Cell α))
  | 0 => some s
  | n + 1 => (assignFrom s i (i + 1)).bind fun s => shiftDown s (i + 1) n

/-- `for (k = i + n; k > i; --k) p[k] = std::move(p[k - 1])`. -/
def shiftUp (s : List (Cell α)) (i : Nat) : Nat → Option (List (Cell α))
  | 0 => some s
  | n + 1 => (assignFrom s (i + n + 1) (i + n)).bind fun s => shiftUp s i n

theorem destroyEach_spec {xs : List α} : ∀ {p : List (Cell α)} {q : List (Cell α)} {i n : Nat},
    p.length = i → xs.length = n →
    destroyEach (p ++ lives xs ++ q) i n = some (p ++ deads n ++ q) := by
  induction xs with
  | nil =>
    rintro p q i n - rfl
    rfl
  | cons x xs ih =>
    rintro p q i n hi rfl
    have hpre : (p ++ [(.dead : Cell α)]).length = i + 1 := by simp [hi]
    have hrest := ih (q := q) hpre rfl
    simp only [List.append_assoc, List.cons_append, List.nil_append] at hrest
    rw [lives_cons, List.append_assoc, List.cons_append, List.length_cons, destroyEach,
      destroy_live _ hi, Option.bind_some, hrest, deads_succ, List.append_assoc, List.cons_append]

theorem fillEach_spec {v : α} : ∀ {n : Nat} {p q : List (Cell α)} {i : Nat}, p.length = i →
    fillEach v (p ++ deads n ++ q) i n = some (p ++ lives (List.replicate n v) ++ q) := by
  intro n
  induction n with
  | zero =>
    rintro p q i -
    rfl
  | succ n ih =>
    intro p q i hi
    have hpre : (p ++ [(.live v : Cell α)]).length = i + 1 := by simp [hi]
    have hrest := ih (q := q) hpre
    simp only [List.append_assoc, List.cons_append, List.nil_append] at hrest
    rw [deads_succ, List.append_assoc, List.cons_append, fillEach, construct_middle _ hi,
      Option.bind_some, hrest, List.replicate_succ, lives_cons, List.append_assoc, List.cons_append]

/-- The gap below the objects travels to the end. -/
theorem shiftDown_spec {xs : List α} : ∀ {p q : List (Cell α)} {i n : Nat}, p.length = i →
    xs.length = n →
    shiftDown (p ++ .moved :: lives xs ++ q) i n = some (p ++ lives xs ++ .moved :: q) := by
  induction xs with
  | nil =>
    rintro p q i n - rfl
    simp [shiftDown]
  | cons x xs ih =>
    rintro p q i n hi rfl
    have hpre : (p ++ [(.live x : Cell α)]).length = i + 1 := by simp [hi]
    have hmv : (p ++ [(.moved : Cell α)]).length = i + 1 := by simp [hi]
    have hrest := ih (q := q) hpre rfl
    have hfetch := fetch_middle (q := lives xs ++ q) x hmv
    simp only [List.append_assoc, List.cons_append, List.nil_append] at hrest hfetch
    simp only [lives_cons, List.append_assoc, List.cons_append, List.length_cons, shiftDown, assignFrom]
    rw [hfetch, Option.bind_some, assign_moved _ hi, Option.bind_some, hrest]

/-- The gap above the objects travels to the front. -/
theorem shiftUp_spec : ∀ {n : Nat} {xs : List α} {p q : List (Cell α)} {i : Nat}, p.length = i →
    xs.length = n →
    shiftUp (p ++ lives xs ++ .moved :: q) i n = some (p ++ .moved :: lives xs ++ q) := by
  intro n
  induction n with
  | zero =>
    intro xs p q i _ hx
    obtain rfl := List.length_eq_zero_iff.mp hx
    simp [shiftUp]
  | succ n ih =>
    intro xs p q i hi hx
    obtain ⟨xs, x, rfl⟩ := List.eq_nil_or_concat xs |>.resolve_left fun h => by simp [h] at hx
    have hxs : xs.length = n := by simpa using hx
    have hpre : (p ++ lives xs).length = i + n := by simp [hi, hxs]
    have hmv : (p ++ lives xs ++ [(.moved : Cell α)]).length = i + n + 1 := by simp [hi, hxs]; omega
    have hfetch := fetch_middle (q := .moved :: q) x hpre
    have hassign := assign_moved (q := q) x hmv
    have hrest := ih (q := .live x :: q) hi hxs
    simp only [List.append_assoc, List.cons_append, List.nil_append] at hfetch hassign hrest
    simp only [List.concat_eq_append, lives_append, lives_cons, lives_nil, List.append_assoc,
      List.cons_append, List.nil_append, shiftUp, assignFrom]
    rw [hfetch, Option.bind_some, hassign, Option.bind_some, hrest]

/-! ### Ranges of objects -/

/-- The values of the objects from `i` on. -/
def readEach (s : List (Cell α)) (i : Nat) : Nat → Option (List α)
  | 0 => some []
  | n + 1 => (read s i).bind fun v => (readEach s (i + 1) n).map (v :: ·)

/-- The storage from `i` on is given up. -/
def killEach (s : List (Cell α)) (i : Nat) : Nat → List (Cell α)
  | 0 => s
  | n + 1 => killEach (s.set i .dead) (i + 1) n

/-- New objects from `i` on. -/
def placeEach (s : List (Cell α)) (i : Nat) : List α → Option (List (Cell α))
  | [] => some s
  | v :: vs => (construct s i v).bind fun s => placeEach s (i + 1) vs

/-- `memmove(p + j, p + i, n * sizeof(T))` for objects that go with their bytes. -/
def relocate (s : List (Cell α)) (i j n : Nat) : Option (List (Cell α)) :=
  (readEach s i n).bind fun vs => placeEach (killEach s i n) j vs

/-- `memcpy(d, s, n * sizeof(T))` for objects that go with their bytes. -/
def relocateTo (s d : List (Cell α)) (n : Nat) : Option (List (Cell α) × List (Cell α)) :=
  (readEach s 0 n).bind fun vs => (placeEach d 0 vs).map fun d => (killEach s 0 n, d)

/-- `memcpy(d, s, n * sizeof(T))` for objects that are copied with their bytes. -/
def copyBytes (s d : List (Cell α)) (n : Nat) : Option (List (Cell α)) :=
  (readEach s 0 n).bind fun vs => placeEach d 0 vs

/-- `for (k = i; k < i + n; ++k) { new (d + k) T(std::move(s[k])); s[k].~T(); }`. -/
def moveEach (s d : List (Cell α)) (i : Nat) : Nat → Option (List (Cell α) × List (Cell α))
  | 0 => some (s, d)
  | n + 1 => (fetch s i).bind fun r => (construct d i r.1).bind fun d => (destroy r.2 i).bind fun s =>
      moveEach s d (i + 1) n

/-- `for (k = i; k < i + n; ++k) new (d + k) T(s[k])`. -/
def copyEach (s d : List (Cell α)) (i : Nat) : Nat → Option (List (Cell α))
  | 0 => some d
  | n + 1 => (read s i).bind fun v => (construct d i v).bind fun d => copyEach s d (i + 1) n

theorem readEach_spec {xs : List α} : ∀ {p q : List (Cell α)} {i n : Nat}, p.length = i →
    xs.length = n → readEach (p ++ lives xs ++ q) i n = some xs := by
  induction xs with
  | nil =>
    rintro p q i n - rfl
    rfl
  | cons x xs ih =>
    rintro p q i n hi rfl
    have hpre : (p ++ [(.live x : Cell α)]).length = i + 1 := by simp [hi]
    have hrest := ih (q := q) hpre rfl
    simp only [List.append_assoc, List.cons_append, List.nil_append] at hrest
    rw [lives_cons, List.append_assoc, List.cons_append, List.length_cons, readEach, read_middle _ hi,
      Option.bind_some, hrest]
    rfl

theorem killEach_spec {xs : List α} : ∀ {p q : List (Cell α)} {i n : Nat}, p.length = i →
    xs.length = n → killEach (p ++ lives xs ++ q) i n = p ++ deads n ++ q := by
  induction xs with
  | nil =>
    rintro p q i n - rfl
    rfl
  | cons x xs ih =>
    rintro p q i n hi rfl
    have hpre : (p ++ [(.dead : Cell α)]).length = i + 1 := by simp [hi]
    have hrest := ih (q := q) hpre rfl
    simp only [List.append_assoc, List.cons_append, List.nil_append] at hrest
    rw [lives_cons, List.append_assoc, List.cons_append, List.length_cons, killEach, set_middle _ _ hi,
      hrest, deads_succ, List.append_assoc, List.cons_append]

theorem placeEach_spec {xs : List α} : ∀ {p q : List (Cell α)} {i : Nat}, p.length = i →
    placeEach (p ++ deads xs.length ++ q) i xs = some (p ++ lives xs ++ q) := by
  induction xs with
  | nil =>
    rintro p q i -
    rfl
  | cons x xs ih =>
    intro p q i hi
    have hpre : (p ++ [(.live x : Cell α)]).length = i + 1 := by simp [hi]
    have hrest := ih (q := q) hpre
    simp only [List.append_assoc, List.cons_append, List.nil_append] at hrest
    rw [List.length_cons, deads_succ, List.append_assoc, List.cons_append, placeEach,
      construct_middle _ hi, Option.bind_some, hrest, lives_cons, List.append_assoc, List.cons_append]

/-- The gap in front of the objects is filled, and is behind them. -/
theorem relocate_down {xs : List α} {p q : List (Cell α)} {i n : Nat} (hi : p.length = i)
    (hn : xs.length = n) :
    relocate (p ++ .dead :: lives xs ++ q) (i + 1) i n = some (p ++ lives xs ++ .dead :: q) := by
  have hpre : (p ++ [(.dead : Cell α)]).length = i + 1 := by simp [hi]
  have hread := readEach_spec (q := q) hpre hn
  have hkill := killEach_spec (q := q) hpre hn
  have hplace : placeEach (p ++ deads xs.length ++ .dead :: q) i xs = some (p ++ lives xs ++ .dead :: q) :=
    placeEach_spec hi
  have hgap : (.dead :: deads n ++ q : List (Cell α)) = deads xs.length ++ .dead :: q := by
    rw [hn, ← deads_succ, ← deads_concat, List.append_assoc]
    rfl
  simp only [List.append_assoc, List.cons_append, List.nil_append] at hread hkill hplace
  rw [List.append_assoc, List.cons_append, relocate, hread, Option.bind_some, hkill, ← List.cons_append,
    hgap, hplace, List.append_assoc]

/-- The gap behind the objects is filled, and is in front of them. -/
theorem relocate_up {xs : List α} {p q : List (Cell α)} {i n : Nat} (hi : p.length = i)
    (hn : xs.length = n) :
    relocate (p ++ lives xs ++ .dead :: q) i (i + 1) n = some (p ++ .dead :: lives xs ++ q) := by
  have hpre : (p ++ [(.dead : Cell α)]).length = i + 1 := by simp [hi]
  have hread := readEach_spec (q := .dead :: q) hi hn
  have hkill := killEach_spec (q := .dead :: q) hi hn
  have hplace : placeEach (p ++ [.dead] ++ deads xs.length ++ q) (i + 1) xs =
      some (p ++ [.dead] ++ lives xs ++ q) := placeEach_spec hpre
  have hgap : (deads n ++ .dead :: q : List (Cell α)) = .dead :: (deads xs.length ++ q) := by
    rw [hn, ← List.cons_append, ← deads_succ, ← deads_concat, List.append_assoc]
    rfl
  simp only [List.append_assoc, List.cons_append, List.nil_append] at hread hkill hplace
  rw [List.append_assoc, relocate, hread, Option.bind_some, hkill, hgap, hplace, List.append_assoc,
    List.cons_append]

theorem relocateTo_spec {xs : List α} {q q' : List (Cell α)} {n : Nat} (hn : xs.length = n) :
    relocateTo (lives xs ++ q) (deads n ++ q') n = some (deads n ++ q, lives xs ++ q') := by
  have hread := readEach_spec (p := []) (q := q) rfl hn
  have hkill := killEach_spec (p := []) (q := q) rfl hn
  have hplace : placeEach ([] ++ deads xs.length ++ q') 0 xs = some ([] ++ lives xs ++ q') := placeEach_spec rfl
  rw [hn] at hplace
  simp only [List.nil_append, List.length_nil] at hread hkill hplace
  rw [relocateTo, hread, Option.bind_some, hplace, hkill]
  rfl

theorem copyBytes_spec {xs : List α} {q q' : List (Cell α)} {n : Nat} (hn : xs.length = n) :
    copyBytes (lives xs ++ q) (deads n ++ q') n = some (lives xs ++ q') := by
  have hread := readEach_spec (p := []) (q := q) rfl hn
  have hplace : placeEach ([] ++ deads xs.length ++ q') 0 xs = some ([] ++ lives xs ++ q') := placeEach_spec rfl
  rw [hn] at hplace
  simp only [List.nil_append, List.length_nil] at hread hplace
  rw [copyBytes, hread, Option.bind_some, hplace]

theorem moveEach_spec {xs : List α} : ∀ {p q p' q' : List (Cell α)} {i n : Nat},
    p.length = i → p'.length = i → xs.length = n →
    moveEach (p ++ lives xs ++ q) (p' ++ deads n ++ q') i n =
      some (p ++ deads n ++ q, p' ++ lives xs ++ q') := by
  induction xs with
  | nil =>
    rintro p q p' q' i n - - rfl
    rfl
  | cons x xs ih =>
    rintro p q p' q' i n hi hi' rfl
    have hpre : (p ++ [(.dead : Cell α)]).length = i + 1 := by simp [hi]
    have hpre' : (p' ++ [(.live x : Cell α)]).length = i + 1 := by simp [hi']
    have hrest := @ih _ q _ q' _ _ hpre hpre' rfl
    simp only [List.append_assoc, List.cons_append, List.nil_append] at hrest
    simp only [lives_cons, List.length_cons, deads_succ, List.append_assoc, List.cons_append, moveEach]
    rw [fetch_middle _ hi, Option.bind_some, construct_middle _ hi', Option.bind_some,
      destroy_moved hi, Option.bind_some, hrest]

theorem copyEach_spec {xs : List α} : ∀ {p q p' q' : List (Cell α)} {i n : Nat},
    p.length = i → p'.length = i → xs.length = n →
    copyEach (p ++ lives xs ++ q) (p' ++ deads n ++ q') i n =
      some (p' ++ lives xs ++ q') := by
  induction xs with
  | nil =>
    rintro p q p' q' i n - - rfl
    rfl
  | cons x xs ih =>
    rintro p q p' q' i n hi hi' rfl
    have hpre : (p ++ [(.live x : Cell α)]).length = i + 1 := by simp [hi]
    have hpre' : (p' ++ [(.live x : Cell α)]).length = i + 1 := by simp [hi']
    have hrest := @ih _ q _ q' _ _ hpre hpre' rfl
    simp only [List.append_assoc, List.cons_append, List.nil_append] at hrest
    simp only [lives_cons, List.length_cons, deads_succ, List.append_assoc, List.cons_append, copyEach]
    rw [read_middle _ hi, Option.bind_some, construct_middle _ hi', Option.bind_some, hrest]

end Cell

end VersatileEngine
