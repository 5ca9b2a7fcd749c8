/-!
# VersatileEngine.Lib.Framing

Frames that are taken off the front of a buffer.

* `Framing pop`   — what `pop` must meet: a frame takes something, and what comes later does not change it.
* `frames pop buf` — all frames of a buffer, and what is left.
* `frames_append` — the frames of a longer buffer are those of its beginning, then those of what was
  left with the rest behind it. So the chunks in which a stream arrives do not matter.
-/

namespace VersatileEngine

variable {α φ : Type}

structure Framing (pop : List α → Option (φ × List α)) : Prop where
  shorter : ∀ {buf f rest}, pop buf = some (f, rest) → rest.length < buf.length
  extend : ∀ {buf f rest}, pop buf = some (f, rest) → ∀ more, pop (buf ++ more) = some (f, rest ++ more)

/-- At most so many frames. -/
def popAll (pop : List α → Option (φ × List α)) : Nat → List α → List φ × List α
  | 0, buf => ([], buf)
  | n + 1, buf =>
    match pop buf with
    | none => ([], buf)
    | some (f, rest) => (f :: (popAll pop n rest).1, (popAll pop n rest).2)

def frames (pop : List α → Option (φ × List α)) (buf : List α) : List φ × List α :=
  popAll pop buf.length buf

section Frames

variable {pop : List α → Option (φ × List α)} {buf rest : List α} {f : φ}

theorem popAll_none (h : pop buf = none) (n : Nat) : popAll pop n buf = ([], buf) := by
  cases n with
  | zero => rfl
  | succ n => rw [popAll, h]

theorem popAll_some (h : pop buf = some (f, rest)) (n : Nat) :
    popAll pop (n + 1) buf = (f :: (popAll pop n rest).1, (popAll pop n rest).2) := by
  rw [popAll, h]

/-- There are no more frames than elements. -/
theorem popAll_eq (hp : Framing pop) (n : Nat) : ∀ (m : Nat) (buf : List α), buf.length ≤ n →
    buf.length ≤ m → popAll pop n buf = popAll pop m buf := by
  induction n with
  | zero =>
    intro m buf hn _
    have hnone : pop buf = none := by
      cases hb : pop buf with
      | none => rfl
      | some p => exact absurd (hp.shorter hb) (by omega)
    rw [popAll_none hnone, popAll_none hnone]
  | succ n ih =>
    intro m buf hn hm
    cases hb : pop buf with
    | none => rw [popAll_none hb, popAll_none hb]
    | some p =>
      obtain ⟨f, rest⟩ := p
      have hlt := hp.shorter hb
      cases m with
      | zero => omega
      | succ m => rw [popAll_some hb, popAll_some hb, ih m rest (by omega) (by omega)]

theorem popAll_frames (hp : Framing pop) {n : Nat} (h : buf.length ≤ n) :
    popAll pop n buf = frames pop buf := popAll_eq hp n _ buf h (Nat.le_refl _)

theorem frames_none (h : pop buf = none) : frames pop buf = ([], buf) := popAll_none h _

theorem frames_some (hp : Framing pop) (h : pop buf = some (f, rest)) :
    frames pop buf = (f :: (frames pop rest).1, (frames pop rest).2) := by
  have hlt := hp.shorter h
  cases hl : buf.length with
  | zero => omega
  | succ m => rw [frames, hl, popAll_some h, popAll_frames hp (by omega)]

/-- **The frames of a stream come one chunk after the other.** -/
theorem frames_append (hp : Framing pop) (more : List α) : ∀ (n : Nat) (buf : List α), buf.length ≤ n →
    frames pop (buf ++ more) =
      ((frames pop buf).1 ++ (frames pop ((frames pop buf).2 ++ more)).1,
        (frames pop ((frames pop buf).2 ++ more)).2) := by
  intro n
  induction n with
  | zero =>
    intro buf h
    cases hb : pop buf with
    | none => rw [frames_none hb, List.nil_append]
    | some p => exact absurd (hp.shorter hb) (by omega)
  | succ n ih =>
    intro buf h
    cases hb : pop buf with
    | none => rw [frames_none hb, List.nil_append]
    | some p =>
      obtain ⟨f, rest⟩ := p
      have hlt := hp.shorter hb
      rw [frames_some hp (hp.extend hb more), frames_some hp hb, ih rest (by omega), List.cons_append]

end Frames

end VersatileEngine
